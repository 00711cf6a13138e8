import Monero.HardFork.Replay

/-!
# Schedules without voting

When every threshold is zero, the fork in force after a chain is the last one
scheduled at or below its height, as `get_ideal_version` computes it, except
that `get_ideal_version` reports the original version where the first fork is
in force.
-/

namespace Monero.HardFork

def Unvoted (hf : HardFork) : Prop := ∀ n < hf.heights.length, (hf.forkAt n).threshold = 0

variable {hf : HardFork} {n height : ℕ} {db : Db} {b : BlockVersions} {s : HardFork × Db}
  {blocks : List BlockVersions}

lemma neededVotes_eq_zero (h : (hf.forkAt n).threshold = 0) : hf.neededVotes n = 0 := by
  simp [neededVotes, h]

lemma votedForkIndexFrom_unvoted (h : hf.Unvoted) (height : ℕ)
    (hn : n < hf.heights.length) (votes : UInt32) :
    hf.votedForkIndexFrom height (n + 1) votes =
      if (hf.forkAt 0).height ≤ height ∨ hf.scheduledForkIndex height n ≠ 0 then
        hf.scheduledForkIndex height n
      else hf.currentForkIndex := by
  induction n generalizing votes with
  | zero =>
    simp [votedForkIndexFrom, scheduledForkIndex, neededVotes_eq_zero (h 0 hn)]
  | succ n ih =>
    rw [votedForkIndexFrom, scheduledForkIndex, neededVotes_eq_zero (h _ hn)]
    by_cases hheight : (hf.forkAt (n + 1)).height ≤ height
    · simp [hheight]
    · simp only [hheight, false_and, if_false]
      exact ih (by omega) _

lemma scheduledForkIndex_mono (hf : HardFork) {height' : ℕ} (h : height ≤ height')
    (n : ℕ) : hf.scheduledForkIndex height n ≤ hf.scheduledForkIndex height' n := by
  induction n with
  | zero => exact le_rfl
  | succ n ih =>
    rw [scheduledForkIndex, scheduledForkIndex]
    split_ifs with hlow hhigh hhigh
    · exact le_rfl
    · omega
    · exact (hf.scheduledForkIndex_le height n).trans (Nat.le_succ n)
    · exact ih

section

variable (hord : hf.heights.Pairwise Fork.Before)

include hord

lemma scheduledForkIndex_zero (hn : n < hf.heights.length) : hf.scheduledForkIndex 0 n = 0 := by
  induction n with
  | zero => rfl
  | succ n ih =>
    have hbefore : (hf.forkAt 0).height < (hf.forkAt (n + 1)).height :=
      (forkAt_before hord (Nat.succ_pos n) hn).2.1
    rw [scheduledForkIndex, if_neg (by omega)]
    exact ih (by omega)

lemma le_forkAt_version (hn : n < hf.heights.length) : n ≤ (hf.forkAt n).version.toNat := by
  induction n with
  | zero => exact Nat.zero_le _
  | succ n ih =>
    have hbefore := forkAt_before hord (Nat.lt_succ_self n) hn
    have hlt : (hf.forkAt n).version.toNat < (hf.forkAt (n + 1)).version.toNat := hbefore.1
    have hle := ih (by omega)
    omega

lemma heights_length_le : hf.heights.length ≤ 256 := by
  by_contra hlong
  have hle := le_forkAt_version hord (n := 256) (by omega)
  have hlt := (hf.forkAt 256).version.toNat_lt
  omega

end

section

variable (h : hf.Unvoted) (hord : hf.heights.Pairwise Fork.Before) (hne : hf.heights ≠ [])

include h hord hne

lemma raiseForkIndex_unvoted
    (hindex : hf.currentForkIndex ≤ hf.scheduledForkIndex height (hf.heights.length - 1)) :
    (hf.raiseForkIndex height).currentForkIndex =
      hf.scheduledForkIndex height (hf.heights.length - 1) := by
  obtain ⟨m, hm⟩ : ∃ m, hf.heights.length = m + 1 :=
    ⟨hf.heights.length - 1, by have := List.length_pos_iff.mpr hne; omega⟩
  have hvoted := votedForkIndexFrom_unvoted h height (by omega : m < hf.heights.length) 0
  have hsmall : hf.scheduledForkIndex height m < 256 := by
    have hle := hf.scheduledForkIndex_le height m
    have hlen := heights_length_le hord
    omega
  rw [hm, Nat.add_sub_cancel] at hindex ⊢
  rw [raiseForkIndex, getVotedForkIndex, hm, hvoted]
  split_ifs with hsched hlt hlt
  · exact Nat.mod_eq_of_lt hsmall
  · rw [Nat.mod_eq_of_lt hsmall] at hlt
    exact le_antisymm hindex (not_lt.mp hlt)
  · -- no fork is scheduled yet, and the vote returns the index in force
    have hmod := Nat.mod_le hf.currentForkIndex 256
    omega
  · rw [not_or, not_not] at hsched
    rw [hsched.2] at hindex ⊢
    exact Nat.le_zero.mp hindex

lemma nextIndex_unvoted (blocks : List BlockVersions) {index : ℕ}
    (hindex : index ≤ hf.scheduledForkIndex blocks.length (hf.heights.length - 1)) :
    hf.nextIndex blocks index = hf.scheduledForkIndex blocks.length (hf.heights.length - 1) := by
  have hsame := scheduledForkIndex_congr (hf.standing blocks index) hf rfl blocks.length
    (hf.heights.length - 1)
  rw [← hsame] at hindex ⊢
  exact @raiseForkIndex_unvoted (hf.standing blocks index) _ h hord hne hindex

lemma indexAfter_unvoted (blocks : List BlockVersions) {k : ℕ} (hk : k ≤ blocks.length) :
    hf.indexAfter blocks k = hf.scheduledForkIndex k (hf.heights.length - 1) := by
  induction k with
  | zero =>
    rw [scheduledForkIndex_zero hord (Nat.sub_lt (List.length_pos_iff.mpr hne) one_pos)]
    rfl
  | succ k ih =>
    have hlen : (blocks.take (k + 1)).length = k + 1 := by simp [hk]
    have hle : hf.indexAfter blocks k ≤
        hf.scheduledForkIndex (blocks.take (k + 1)).length (hf.heights.length - 1) := by
      rw [hlen, ih (by omega)]
      exact hf.scheduledForkIndex_mono (Nat.le_succ k) _
    have hstep := nextIndex_unvoted h hord hne (blocks.take (k + 1)) hle
    rw [hlen] at hstep
    exact hstep

end

/-! ## An object on the schedule -/

/-- No fork needs votes, the first version is the original one, and the fork
in force is the one scheduled for the height. -/
structure OnSchedule (hf : HardFork) (height : ℕ) : Prop where
  unvoted : hf.Unvoted
  ordered : hf.heights.Pairwise Fork.Before
  ne_nil : hf.heights ≠ []
  first : (hf.forkAt 0).version = hf.originalVersion
  index_eq : hf.currentForkIndex = hf.scheduledForkIndex height (hf.heights.length - 1)

lemma OnSchedule.currentVersion_eq (h : hf.OnSchedule height) :
    hf.getCurrentVersion = hf.getIdealVersion height := by
  rw [getCurrentVersion, h.index_eq, getIdealVersion]
  split_ifs with hzero
  · rw [hzero, h.first]
  · rfl

lemma OnSchedule.of_heights_eq {hf' : HardFork} {height' : ℕ} (h : hf.OnSchedule height)
    (hheights : hf'.heights = hf.heights) (horiginal : hf'.originalVersion = hf.originalVersion)
    (hindex : hf'.currentForkIndex = hf.scheduledForkIndex height' (hf.heights.length - 1)) :
    hf'.OnSchedule height' ∧ hf'.getIdealVersion = hf.getIdealVersion := by
  rw [← scheduledForkIndex_congr hf' hf hheights, ← hheights] at hindex
  have hfork : ∀ n, hf'.forkAt n = hf.forkAt n := fun n ↦ by rw [forkAt, forkAt, hheights]
  refine ⟨⟨?_, ?_, ?_, ?_, hindex⟩, ?_⟩
  · intro n hn
    rw [hfork]
    exact h.unvoted n (hheights ▸ hn)
  · rw [hheights]
    exact h.ordered
  · rw [hheights]
    exact h.ne_nil
  · rw [hfork, horiginal, h.first]
  · funext height''
    simp [getIdealVersion, scheduledForkIndex_congr hf' hf hheights, hheights, horiginal, hfork]

lemma popVotes_fields (hf : HardFork) (db : Db) (height n : ℕ) :
    (hf.popVotes db height n).heights = hf.heights ∧
      (hf.popVotes db height n).originalVersion = hf.originalVersion := by
  induction n generalizing hf with
  | zero => exact ⟨rfl, rfl⟩
  | succ n ih => exact ih (hf.popVote db (height + n))

section

variable (h : hf.OnSchedule height)

include h

lemma OnSchedule.onBlockPopped {hf' : HardFork} {nblocks : ℕ}
    (hpop : hf.onBlockPopped db nblocks = some hf') :
    hf'.OnSchedule db.height ∧ hf'.getIdealVersion = hf.getIdealVersion := by
  rw [HardFork.onBlockPopped] at hpop
  split_ifs at hpop
  cases hpop
  obtain ⟨hheights, horiginal⟩ := popVotes_fields hf db db.height nblocks
  refine h.of_heights_eq hheights horiginal ?_
  rw [← scheduledForkIndex_congr _ hf hheights, ← hheights]

lemma OnSchedule.raiseForkIndex :
    (hf.raiseForkIndex (height + 1)).OnSchedule (height + 1) ∧
      (hf.raiseForkIndex (height + 1)).getIdealVersion = hf.getIdealVersion := by
  have hle : hf.currentForkIndex ≤ hf.scheduledForkIndex (height + 1) (hf.heights.length - 1) := by
    rw [h.index_eq]
    exact hf.scheduledForkIndex_mono (Nat.le_succ _) _
  have hindex := raiseForkIndex_unvoted h.unvoted h.ordered h.ne_nil hle
  rw [raiseForkIndex_eq, hindex]
  exact h.of_heights_eq rfl rfl rfl

lemma OnSchedule.add (hadd : hf.add db b height = some s) :
    s.1.OnSchedule (height + 1) ∧ s.1.getIdealVersion = hf.getIdealVersion := by
  simp only [HardFork.add, addVersions] at hadd
  split_ifs at hadd
  cases hadd
  obtain ⟨hpushed, hideal⟩ := @OnSchedule.of_heights_eq hf height ({ hf with
      versions := (evict hf.windowSize hf.versions hf.lastVersions).1
      lastVersions := (evict hf.windowSize hf.versions hf.lastVersions).2 }.pushVote
        (hf.getEffectiveVersion (getBlockVote b)))
    height h rfl rfl h.index_eq
  rw [← hideal]
  exact hpushed.raiseForkIndex

end

lemma OnSchedule.addBlock (h : hf.OnSchedule db.height)
    (hadd : HardFork.addBlock (hf, db) b = some s) :
    s.1.OnSchedule (db.height + 1) ∧ s.1.getIdealVersion = hf.getIdealVersion :=
  h.add hadd

lemma addBlock_of_check (h : hf.check b = true) (db : Db) :
    ∃ s, HardFork.addBlock (hf, db) b = some s ∧ s.2.height = db.height + 1 := by
  rw [check] at h
  simp only [HardFork.addBlock, add, addVersions, if_pos h]
  exact ⟨_, rfl, by simp [Db.setHardForkVersion, Db.addBlock, Db.height]⟩

lemma Accepted.onSchedule (hacc : Accepted hf blocks s) (h : hf.Unvoted)
    (hord : hf.heights.Pairwise Fork.Before) (hne : hf.heights ≠ [])
    (hfirst : (hf.forkAt 0).version = hf.originalVersion) : s.1.OnSchedule blocks.length := by
  have hindex := indexAfter_unvoted h hord hne blocks le_rfl
  rw [hacc.object_eq]
  refine ⟨h, hord, hne, hfirst, ?_⟩
  rw [standing_currentForkIndex, hindex, standing_heights]
  exact scheduledForkIndex_congr hf (hf.standing blocks _) rfl _ _

/-! ## From the schedule as it was built -/

section Built

variable {w : ℕ} {version : UInt8} {hf₀ : HardFork} (hbuilt : Built w version hf₀)
include hbuilt

lemma Built.withPlaceholder_pairwise : hf₀.withPlaceholder.heights.Pairwise Fork.Before := by
  rw [withPlaceholder]
  split_ifs
  · exact List.pairwise_singleton _ _
  · exact hbuilt.pairwise

omit hbuilt in
lemma withPlaceholder_ne_nil (hf : HardFork) : hf.withPlaceholder.heights ≠ [] := by
  rw [withPlaceholder]
  split_ifs with hnil
  · exact List.cons_ne_nil _ _
  · exact hnil

omit hbuilt in
lemma withPlaceholder_unvoted (hthreshold : ∀ f ∈ hf₀.heights, f.threshold = 0) :
    hf₀.withPlaceholder.Unvoted := by
  have hall : ∀ f ∈ hf₀.withPlaceholder.heights, f.threshold = 0 := by
    rw [withPlaceholder]
    split_ifs
    · simp
    · exact hthreshold
  intro n hn
  rw [forkAt, List.getD_eq_getElem _ _ hn]
  exact hall _ (List.getElem_mem hn)

omit hbuilt in
lemma withPlaceholder_first (hfirst : ∀ f ∈ hf₀.heights.head?, f.version = hf₀.originalVersion) :
    (hf₀.withPlaceholder.forkAt 0).version = hf₀.withPlaceholder.originalVersion := by
  cases hheights : hf₀.heights with
  | nil => simp [withPlaceholder, hheights, forkAt]
  | cons f forks =>
    have hf := hfirst f (by simp [hheights])
    simpa [withPlaceholder, hheights, forkAt] using hf

lemma Built.idealVersion_eq (hw : 1 ≤ w)
    (hrun : addBlocks (hf₀.init Db.empty, Db.empty) blocks = some s) (height : ℕ) :
    s.1.getIdealVersion height = hf₀.withPlaceholder.getIdealVersion height := by
  have hobject := (hbuilt.accepted hw hrun).object_eq
  have hindex := scheduledForkIndex_congr s.1 hf₀.withPlaceholder
    (hbuilt.accepted hw hrun).heights_eq height (hf₀.withPlaceholder.heights.length - 1)
  rw [getIdealVersion, getIdealVersion, ← hindex, hobject]
  rfl

lemma Built.currentVersion_eq (hw : 1 ≤ w) (hthreshold : ∀ f ∈ hf₀.heights, f.threshold = 0)
    (hfirst : ∀ f ∈ hf₀.heights.head?, f.version = version)
    (hrun : addBlocks (hf₀.init Db.empty, Db.empty) blocks = some s) :
    s.1.getCurrentVersion = hf₀.withPlaceholder.getIdealVersion blocks.length := by
  rw [← hbuilt.originalVersion_eq] at hfirst
  have hschedule := (hbuilt.accepted hw hrun).onSchedule (withPlaceholder_unvoted hthreshold)
    hbuilt.withPlaceholder_pairwise (withPlaceholder_ne_nil hf₀) (withPlaceholder_first hfirst)
  rw [hschedule.currentVersion_eq, hbuilt.idealVersion_eq hw hrun]

/-- Whatever is voted for, a block has the version stored for its height, its
vote is not lower, and no earlier block has a higher version. -/
theorem versions_never_fall (hw : 1 ≤ w) {i j : ℕ} (hij : i ≤ j) (hj : j < blocks.length)
    (hrun : addBlocks (hf₀.init Db.empty, Db.empty) blocks = some s) :
    getBlockVersion blocks[j] = s.2.hardForkVersions j ∧
      s.2.hardForkVersions j ≤ getBlockVote blocks[j] ∧
      s.2.hardForkVersions i ≤ s.2.hardForkVersions j := by
  have hacc := hbuilt.accepted hw hrun
  rw [hacc.stored_eq j hj, hacc.stored_eq i (hij.trans_lt hj)]
  obtain ⟨hversion, hvote⟩ := of_decide_eq_true (hacc.checked j hj)
  refine ⟨hversion, hvote, ?_⟩
  rcases (indexAfter_mono hf₀.withPlaceholder blocks hij).eq_or_lt with heq | hlt
  · exact heq ▸ UInt8.le_refl _
  · exact UInt8.le_of_lt (forkAt_before hbuilt.withPlaceholder_pairwise hlt
      (indexAfter_lt (withPlaceholder_ne_nil hf₀) blocks j)).1

end Built

theorem versions_never_fall_unanimous :
    ∃ s, addBlocks (unanimousSchedule.init Db.empty, Db.empty) unanimousBlocks = some s ∧
      s.2.hardForkVersions 5 ≤ s.2.hardForkVersions 8 :=
  ⟨_, rfl, (versions_never_fall unanimousSchedule_built (by decide) (by decide : 5 ≤ 8)
    (by decide : 8 < unanimousBlocks.length) rfl).2.2⟩

end Monero.HardFork
