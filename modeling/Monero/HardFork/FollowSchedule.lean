import Monero.HardFork.ByHeight

/-!
# Following a schedule through additions, pops and reorganisations

Without voting, the three ways in which the hard fork object moves its index
all land on the fork scheduled for the height of the chain.  The invariant
carries the table of versions and the stored blocks as well, since a
reorganisation reads the version it goes back to from the table and adds the
blocks above it again.
-/

namespace Monero.HardFork

open List Option
open HardFork (readdBlocks)

inductive Operation where
  | add (b : BlockVersions)
  | pop (nblocks : ℕ)
  | reorganize (height : ℕ)
  deriving DecidableEq, Repr

/-- `none` when the block is refused, when the pop throws, or when the height
is not below the height of the chain. -/
def step (s : HardFork × Db) : Operation → Option (HardFork × Db)
  | .add b => addBlock s b
  | .pop nblocks =>
    let db := s.2.popBlocks nblocks
    (s.1.onBlockPopped db nblocks).map fun hf ↦ (hf, db)
  | .reorganize height => s.1.reorganizeFromBlockHeight s.2 height

def run (s : HardFork × Db) (ops : List Operation) : Option (HardFork × Db) := ops.foldlM step s

lemma popBlocks_height (db : Db) (nblocks : ℕ) :
    (db.popBlocks nblocks).height = db.height - nblocks := by
  simp [Db.popBlocks, Db.height]

/-! ## Blocks on the schedule -/

/-- The major version is the one scheduled for the height, and the vote is at
least that. -/
def Scheduled (hf : HardFork) (height : ℕ) (b : BlockVersions) : Prop :=
  b.majorVersion = hf.getIdealVersion height ∧ hf.getIdealVersion height ≤ getBlockVote b

variable {hf : HardFork} {height : ℕ} {b : BlockVersions} {s s' : HardFork × Db}

lemma OnSchedule.check_iff (h : hf.OnSchedule height)
    (b : BlockVersions) : hf.check b = true ↔ hf.Scheduled height b := by
  have hversion : (hf.forkAt hf.currentForkIndex).version = hf.getIdealVersion height :=
    h.currentVersion_eq
  rw [check, doCheck, hversion, decide_eq_true_iff]
  rfl

lemma add_isSome_iff (hf : HardFork) (db : Db) (b : BlockVersions) (height : ℕ) :
    (hf.add db b height).isSome ↔ hf.check b = true := by
  simp only [add, addVersions, check]
  split_ifs with h
  · simp [h]
  · simp [h]

lemma add_db_eq {db : Db} (hadd : hf.add db b height = some s) :
    s.2 = db.setHardForkVersion height hf.getCurrentVersion := by
  simp only [add, addVersions] at hadd
  split_ifs at hadd
  cases hadd
  rfl

lemma OnSchedule.idealVersion_eq (h : hf.OnSchedule height) (height' : ℕ) :
    hf.getIdealVersion height' =
      (hf.forkAt (hf.scheduledForkIndex height' (hf.heights.length - 1))).version := by
  rw [getIdealVersion]
  split_ifs with hzero
  · rw [hzero, h.first]
  · rfl

/-! ## The invariant -/

/-- The object is on the schedule, the table holds the scheduled version of
every block, and every block is one the schedule accepts. -/
structure Followed (s : HardFork × Db) : Prop where
  onSchedule : s.1.OnSchedule s.2.height
  stored : ∀ height < s.2.height, s.2.hardForkVersions height = s.1.getIdealVersion height
  scheduled : ∀ height b, s.2.blocks[height]? = some b → s.1.Scheduled height b

lemma Scheduled.of_ideal_eq {hf' : HardFork} (h : hf.Scheduled height b)
    (hideal : hf'.getIdealVersion = hf.getIdealVersion) : hf'.Scheduled height b := by
  rw [Scheduled, hideal]
  exact h

/-- Adding scheduled blocks again keeps the object on the schedule, and the
table as it was. -/
theorem OnSchedule.readdBlocks (h : s.1.OnSchedule height) {blocks : List BlockVersions}
    (hstored : ∀ n < blocks.length,
      s.2.hardForkVersions (height + n) = s.1.getIdealVersion (height + n))
    (hscheduled : ∀ n b, blocks[n]? = some b → s.1.Scheduled (height + n) b) :
    (readdBlocks s height blocks).1.OnSchedule (height + blocks.length) ∧
      (readdBlocks s height blocks).1.getIdealVersion = s.1.getIdealVersion ∧
        (readdBlocks s height blocks).2 = s.2 := by
  induction blocks generalizing s height with
  | nil => exact ⟨h, rfl, rfl⟩
  | cons b blocks ih =>
    -- the block is accepted, so the dropped return value of `add` is `true`
    obtain ⟨s', hadd⟩ : ∃ s', s.1.add s.2 b height = some s' := by
      apply Option.isSome_iff_exists.mp
      apply (add_isSome_iff s.1 s.2 b height).mpr
      exact (h.check_iff b).mpr (hscheduled 0 b rfl)
    obtain ⟨hnext, hideal⟩ := h.add hadd
    have hdb : s'.2 = s.2 := by
      have hsame := hstored 0 (Nat.succ_pos _)
      rw [Nat.add_zero, ← h.currentVersion_eq] at hsame
      rw [add_db_eq hadd, Db.setHardForkVersion, ← hsame]
      congr 1
      funext height'
      split_ifs with htop
      · rw [htop]
      · rfl
    have hrest := @ih (height + 1) s' hnext ?_ ?_
    · rw [readdBlocks, hadd, getD_some, length_cons]
      rw [hideal, hdb, Nat.add_right_comm, Nat.add_assoc] at hrest
      exact hrest
    · intro n hn
      have hrow := hstored (n + 1) (Nat.succ_lt_succ hn)
      rw [hdb, hideal, Nat.add_right_comm]
      exact hrow
    · intro n b' hb'
      rw [Nat.add_right_comm]
      exact (hscheduled (n + 1) b' hb').of_ideal_eq hideal

lemma readVotes_fields (hf : HardFork) (blocks : List BlockVersions) :
    (hf.readVotes blocks).heights = hf.heights ∧
      (hf.readVotes blocks).originalVersion = hf.originalVersion ∧
        (hf.readVotes blocks).currentForkIndex = hf.currentForkIndex := by
  rw [readVotes_eq]
  exact ⟨rfl, rfl, rfl⟩

/-- The invariant, for the same schedule. -/
def FollowedFrom (s s' : HardFork × Db) : Prop :=
  Followed s' ∧ s'.1.getIdealVersion = s.1.getIdealVersion

section Followed

variable (h : Followed s)
include h

lemma Followed.addBlock (hadd : HardFork.addBlock s b = some s') : FollowedFrom s s' := by
  obtain ⟨hschedule, hideal⟩ := h.onSchedule.addBlock hadd
  have hscheduled : s.1.Scheduled s.2.height b := by
    apply (h.onSchedule.check_iff b).mp
    apply (add_isSome_iff s.1 (s.2.addBlock b) b s.2.height).mp
    exact isSome_of_eq_some hadd
  have hdb := add_db_eq hadd
  have hblocks : s'.2.blocks = s.2.blocks ++ [b] := by rw [hdb]; rfl
  have hheight : s'.2.height = s.2.height + 1 := by simp [Db.height, hblocks]
  refine ⟨⟨?_, ?_, ?_⟩, hideal⟩
  · rw [hheight]
    exact hschedule
  · intro height hlt
    rw [hdb, hideal, Db.setHardForkVersion]
    simp only
    split_ifs with htop
    · rw [htop]
      exact h.onSchedule.currentVersion_eq
    · exact h.stored height (by omega)
  · intro height b' hb'
    rw [hblocks, getElem?_append] at hb'
    split_ifs at hb' with hlow
    · exact (h.scheduled height b' hb').of_ideal_eq hideal
    · obtain ⟨hindex, hb'⟩ := List.getElem?_eq_some_iff.mp hb'
      have htop : height = s.2.height := by
        simp only [length_singleton] at hindex
        rw [Db.height]
        omega
      rw [getElem_singleton] at hb'
      rw [← hb', htop]
      exact hscheduled.of_ideal_eq hideal

lemma Followed.pop {nblocks : ℕ} (hpop : step s (.pop nblocks) = some s') : FollowedFrom s s' := by
  obtain ⟨hf, hobject, rfl⟩ := Option.map_eq_some_iff.mp hpop
  obtain ⟨hschedule, hideal⟩ := h.onSchedule.onBlockPopped hobject
  refine ⟨⟨hschedule, ?_, ?_⟩, hideal⟩
  · intro height hlt
    rw [popBlocks_height] at hlt
    rw [hideal]
    exact h.stored height (by omega)
  · intro height b hb
    rw [Db.popBlocks, getElem?_take] at hb
    split_ifs at hb
    exact (h.scheduled height b hb).of_ideal_eq hideal

/-! ## Reorganising -/

lemma Followed.readdBlocks (hheight : height ≤ s.2.height) (hschedule : hf.OnSchedule height)
    (hideal : hf.getIdealVersion = s.1.getIdealVersion)
    (hreadd : readdBlocks (hf, s.2) height (s.2.blocksBetween height s.2.height) = s') :
    FollowedFrom s s' := by
  have hblocks : s.2.blocksBetween height s.2.height = s.2.blocks.drop height := by
    rw [Db.blocksBetween, Db.height, take_length]
  have hlength : height + (s.2.blocks.drop height).length = s.2.height := by
    rw [length_drop]
    exact Nat.add_sub_cancel' hheight
  have hstored : ∀ n < (s.2.blocks.drop height).length,
      s.2.hardForkVersions (height + n) = hf.getIdealVersion (height + n) := by
    intro n hn
    rw [hideal]
    exact h.stored _ (by omega)
  have hscheduled : ∀ n b, (s.2.blocks.drop height)[n]? = some b →
      hf.Scheduled (height + n) b := by
    intro n b hb
    rw [getElem?_drop] at hb
    exact (h.scheduled _ b hb).of_ideal_eq hideal
  obtain ⟨hfinal, hsame, hdb⟩ :=
    @OnSchedule.readdBlocks height (hf, s.2) hschedule _ hstored hscheduled
  rw [← hblocks, hreadd] at hfinal hsame hdb
  rw [hblocks, hlength] at hfinal
  rw [hideal] at hsame
  refine ⟨⟨?_, ?_, ?_⟩, hsame⟩
  · rw [hdb]
    exact hfinal
  · rw [hdb, hsame]
    exact h.stored
  · rw [hdb]
    exact fun height' b hb ↦ (h.scheduled height' b hb).of_ideal_eq hsame

lemma Followed.lowerForkIndex_eq (hheight : height < s.2.height) :
    s.1.lowerForkIndex (if height = 0 then s.1.originalVersion else s.2.getHardForkVersion height)
        s.1.currentForkIndex =
      s.1.scheduledForkIndex height (s.1.heights.length - 1) := by
  have hlast : s.1.heights.length - 1 < s.1.heights.length :=
    Nat.sub_lt (length_pos_iff.mpr h.onSchedule.ne_nil) one_pos
  have hstart : (if height = 0 then s.1.originalVersion else s.2.getHardForkVersion height) =
      (s.1.forkAt (s.1.scheduledForkIndex height (s.1.heights.length - 1))).version := by
    split_ifs with hzero
    · rw [hzero, scheduledForkIndex_zero h.onSchedule.ordered hlast, h.onSchedule.first]
    · rw [← h.onSchedule.idealVersion_eq]
      exact h.stored height hheight
  rw [hstart, h.onSchedule.index_eq]
  apply HardFork.lowerForkIndex_eq s.1 h.onSchedule.ordered
  · exact s.1.scheduledForkIndex_mono hheight.le _
  · exact (s.1.scheduledForkIndex_le _ _).trans_lt hlast

lemma Followed.reorganize (hreorg : s.1.reorganizeFromBlockHeight s.2 height = some s') :
    FollowedFrom s s' := by
  rw [reorganizeFromBlockHeight] at hreorg
  split at hreorg
  · cases hreorg
  rename_i hheight
  have hlower := h.lowerForkIndex_eq (not_le.mp hheight)
  simp only [some_inj] at hreorg
  obtain ⟨hheights, horiginal, hindex⟩ := readVotes_fields { s.1.clearVotes with
      currentForkIndex := s.1.lowerForkIndex
        (if height = 0 then s.1.originalVersion else s.2.getHardForkVersion height)
        s.1.currentForkIndex }
    (s.2.blocksBetween
      (if s.1.windowSize - 1 ≤ height then height - (s.1.windowSize - 1) else 0) (height + 1))
  obtain ⟨hbase, hbaseIdeal⟩ := h.onSchedule.of_heights_eq hheights horiginal (hindex.trans hlower)
  obtain ⟨hraised, hraisedIdeal⟩ := hbase.raiseForkIndex
  exact h.readdBlocks (not_le.mp hheight) hraised (hraisedIdeal.trans hbaseIdeal) hreorg

/-! ## Runs -/

lemma Followed.step {op : Operation} (hstep : HardFork.step s op = some s') :
    FollowedFrom s s' := by
  cases op with
  | add b => exact h.addBlock hstep
  | pop nblocks => exact h.pop hstep
  | reorganize height => exact h.reorganize hstep

lemma Followed.run {ops : List Operation} (hrun : HardFork.run s ops = some s') :
    FollowedFrom s s' := by
  induction ops generalizing s with
  | nil =>
    cases hrun
    exact ⟨h, rfl⟩
  | cons op ops ih =>
    rw [HardFork.run, foldlM_cons, bind_eq_bind, bind_eq_some_iff] at hrun
    obtain ⟨next, hstep, hrest⟩ := hrun
    obtain ⟨hnext, hideal⟩ := h.step hstep
    obtain ⟨hfinal, hsame⟩ := ih hnext hrest
    exact ⟨hfinal, hsame.trans hideal⟩

end Followed

lemma Built.followed {w : ℕ} {version : UInt8} {hf₀ : HardFork} (hbuilt : Built w version hf₀)
    (hthreshold : ∀ f ∈ hf₀.heights, f.threshold = 0)
    (hfirst : ∀ f ∈ hf₀.heights.head?, f.version = version) :
    Followed (hf₀.init Db.empty, Db.empty) := by
  rw [← hbuilt.originalVersion_eq] at hfirst
  rw [init_empty]
  have hacc := accepted_nil hf₀.withPlaceholder
  refine ⟨?_, ?_, ?_⟩
  · exact hacc.onSchedule (withPlaceholder_unvoted hthreshold) hbuilt.withPlaceholder_pairwise
      (withPlaceholder_ne_nil hf₀) (withPlaceholder_first hfirst)
  · intro height hlt
    cases hlt
  · intro height b hb
    cases hb

/-- Whatever blocks are added, popped and replayed, the version in force is the
one scheduled for the next block, and that block is accepted exactly when the
schedule says so. -/
theorem schedule_followed_by_height {w : ℕ} {version : UInt8} {hf₀ : HardFork}
    (hbuilt : Built w version hf₀) (hthreshold : ∀ f ∈ hf₀.heights, f.threshold = 0)
    (hfirst : ∀ f ∈ hf₀.heights.head?, f.version = version) {ops : List Operation}
    (hrun : run (hf₀.init Db.empty, Db.empty) ops = some s) :
    s.1.getCurrentVersion = s.1.getIdealVersion s.2.height ∧
      s.1.getIdealVersion = (hf₀.init Db.empty).getIdealVersion ∧
      ∀ b, (step s (.add b)).isSome ↔ b.majorVersion = s.1.getIdealVersion s.2.height ∧
          s.1.getIdealVersion s.2.height ≤ getBlockVote b := by
  obtain ⟨hfollowed, hideal⟩ := (hbuilt.followed hthreshold hfirst).run hrun
  refine ⟨hfollowed.onSchedule.currentVersion_eq, hideal, fun b ↦ ?_⟩
  apply (add_isSome_iff s.1 (s.2.addBlock b) b s.2.height).trans
  exact hfollowed.onSchedule.check_iff b

def steppedSchedule : HardFork where
  windowSize := 2
  originalVersion := 1
  heights := [⟨1, 0, 0, 0⟩, ⟨2, 2, 0, 1⟩, ⟨3, 3, 0, 2⟩]
  versions := []
  lastVersions := fun _ ↦ 0
  currentForkIndex := 0

lemma steppedSchedule_built : Built 2 1 steppedSchedule := by
  have h₁ : Built 2 1 { steppedSchedule with heights := [⟨1, 0, 0, 0⟩] } :=
    .addFork ⟨1, 0, 0, 0⟩ (.new fun _ ↦ 0) rfl
  have h₂ : Built 2 1 { steppedSchedule with heights := [⟨1, 0, 0, 0⟩, ⟨2, 2, 0, 1⟩] } :=
    .addFork ⟨2, 2, 0, 1⟩ h₁ rfl
  exact .addFork ⟨3, 3, 0, 2⟩ h₂ rfl

/-- A pop across both forks, two blocks added again, and a reorganisation from
below the first fork. -/
def steppedOperations : List Operation :=
  [.add ⟨1, 1⟩, .add ⟨1, 3⟩, .add ⟨2, 2⟩, .add ⟨3, 3⟩, .pop 3, .add ⟨1, 1⟩, .add ⟨2, 9⟩,
    .reorganize 1]

theorem schedule_followed_stepped :
    ∃ s, run (steppedSchedule.init Db.empty, Db.empty) steppedOperations = some s ∧
      s.2.height = 3 ∧ s.1.getCurrentVersion = 3 ∧ (step s (.add ⟨3, 3⟩)).isSome := by
  have hheight : (run (steppedSchedule.init Db.empty, Db.empty) steppedOperations).map
      (fun s ↦ s.2.height) = some 3 := by decide +kernel
  obtain ⟨s, hrun, hthree⟩ := Option.map_eq_some_iff.mp hheight
  obtain ⟨hcurrent, hideal, haccepted⟩ := schedule_followed_by_height steppedSchedule_built
    (by decide) (by decide) hrun
  have hversion : s.1.getIdealVersion s.2.height = 3 := by
    rw [hideal, hthree]
    rfl
  rw [hversion] at hcurrent haccepted
  exact ⟨s, hrun, hthree, hcurrent, (haccepted _).mpr (by decide)⟩

end Monero.HardFork
