import Monero.HardFork.Schedule

/-!
# Incremental, rescanned and replayed fork state

The voting window and its counts are a function of the blocks of the chain;
only the index of the fork in force depends on the history.  `standing` is
the state with the window of a chain and a given index.  Every way the object
is brought up to date, one block at a time, by a rescan of the last window, or
by a replay from an intermediate height, yields a standing state, and the
stored version at each height fixes the index.
-/

namespace Monero.HardFork

open Lib List
open HardFork (addBlocks pushVote)

/-- The state in which the window holds the last votes of `blocks`. -/
def standing (hf : HardFork) (blocks : List BlockVersions) (index : ℕ) : HardFork := { hf with
    versions := (blocks.map hf.vote).rtake hf.windowSize
    lastVersions := tally ((blocks.map hf.vote).rtake hf.windowSize)
    currentForkIndex := index }

section

variable (hf : HardFork) (blocks : List BlockVersions) (index : ℕ)

include hf blocks index

@[simp] lemma standing_heights : (hf.standing blocks index).heights = hf.heights := rfl

@[simp] lemma standing_windowSize : (hf.standing blocks index).windowSize = hf.windowSize := rfl

@[simp] lemma standing_currentForkIndex :
    (hf.standing blocks index).currentForkIndex = index := rfl

/-- The fork index after a chain, from the index before its top block. -/
def nextIndex (hf : HardFork) (blocks : List BlockVersions) (index : ℕ) : ℕ :=
  ((hf.standing blocks index).raiseForkIndex blocks.length).currentForkIndex

lemma raise_standing : (hf.standing blocks index).raiseForkIndex blocks.length =
      hf.standing blocks (hf.nextIndex blocks index) := by
  rw [raiseForkIndex_eq]
  rfl

end

def indexAfter (hf : HardFork) (blocks : List BlockVersions) : ℕ → ℕ
  | 0 => 0
  | k + 1 => hf.nextIndex (blocks.take (k + 1)) (hf.indexAfter blocks k)

variable {blocks added : List BlockVersions} {hf : HardFork} {s t : HardFork × Db} {db : Db}
  {b : BlockVersions} {index : ℕ}

lemma indexAfter_congr (hf : HardFork) {blocks' : List BlockVersions} (k : ℕ)
    (h : blocks.take k = blocks'.take k) : hf.indexAfter blocks k = hf.indexAfter blocks' k := by
  induction k with
  | zero => rfl
  | succ k ih =>
    have hk : blocks.take k = blocks'.take k := by
      have hcut := congrArg (take k) h
      simpa [take_take] using hcut
    rw [indexAfter, indexAfter, h, ih hk]

lemma indexAfter_mono (hf : HardFork) (blocks : List BlockVersions) :
    Monotone (hf.indexAfter blocks) := by
  apply monotone_nat_of_le_succ
  intro k
  exact le_raiseForkIndex (hf.standing (blocks.take (k + 1)) (hf.indexAfter blocks k)) _

lemma indexAfter_lt (hne : hf.heights ≠ []) (blocks : List BlockVersions)
    (k : ℕ) : hf.indexAfter blocks k < hf.heights.length := by
  induction k with
  | zero => exact length_pos_iff.mpr hne
  | succ k ih =>
    exact raiseForkIndex_lt (hf.standing (blocks.take (k + 1)) (hf.indexAfter blocks k)) _ ih

lemma readVotes_rtake (hf : HardFork) (blocks : List BlockVersions) :
    hf.clearVotes.readVotes (blocks.rtake hf.windowSize) =
      hf.standing blocks hf.currentForkIndex := by
  have hvote : hf.clearVotes.vote = hf.vote := rfl
  have hcount := foldl_bump_tally ([] : List UInt8) ((blocks.rtake hf.windowSize).map hf.vote)
  rw [tally_nil, nil_append] at hcount
  rw [readVotes_eq, hvote]
  simp only [clearVotes, nil_append, standing, rtake_map]
  rw [hcount]

/-! ## One block -/

lemma add_standing (hw : 1 ≤ hf.windowSize) (blocks : List BlockVersions) (index : ℕ) (db : Db)
    (b : BlockVersions) :
    (hf.standing blocks index).add db b blocks.length =
      if (hf.standing blocks index).check b then
        some (hf.standing (blocks ++ [b]) (hf.nextIndex (blocks ++ [b]) index),
          db.setHardForkVersion blocks.length (hf.forkAt index).version)
      else none := by
  unfold add addVersions check
  split_ifs with hcheck
  · -- making room and pushing the vote is one slide of the window
    have hlen : blocks.length + 1 = (blocks ++ [b]).length := by simp
    have hevict := evict_tally hw ((blocks.map hf.vote).rtake hf.windowSize)
    have hslide := rtake_concat hw (blocks.map hf.vote) (hf.vote b)
    have hpushed : pushVote { hf with
          versions := ((blocks.map hf.vote).rtake hf.windowSize).rtake (hf.windowSize - 1)
          lastVersions :=
            tally (((blocks.map hf.vote).rtake hf.windowSize).rtake (hf.windowSize - 1))
          currentForkIndex := index } (hf.vote b) = hf.standing (blocks ++ [b]) index := by
      simp [pushVote, standing, hslide, tally_concat]
    simp only [standing_windowSize]
    rw [show (hf.standing blocks index).versions = (blocks.map hf.vote).rtake hf.windowSize
        from rfl, show (hf.standing blocks index).lastVersions =
        tally ((blocks.map hf.vote).rtake hf.windowSize) from rfl, hevict]
    change some ((pushVote _ (hf.vote b)).raiseForkIndex (blocks.length + 1), _) = _
    rw [← raise_standing, ← hpushed, ← hlen]
    rfl
  · rfl

lemma addBlock_standing (hw : 1 ≤ hf.windowSize) (hdb : db.blocks = blocks) (b : BlockVersions)
    (s : HardFork × Db) :
    addBlock (hf.standing blocks index, db) b = some s ↔
    (hf.standing blocks index).check b = true ∧
        s.1 = hf.standing (blocks ++ [b]) (hf.nextIndex (blocks ++ [b]) index) ∧
          s.2 = (db.addBlock b).setHardForkVersion blocks.length (hf.forkAt index).version := by
  have hheight : db.height = blocks.length := by rw [Db.height, hdb]
  unfold addBlock
  simp only [hheight]
  rw [add_standing hw]
  split_ifs with hcheck
  · simp [hcheck, Prod.ext_iff, eq_comm]
  · simp [hcheck]

/-! ## Whole runs -/

lemma addBlocks_append (s : HardFork × Db) (xs ys : List BlockVersions) :
    addBlocks s (xs ++ ys) = (addBlocks s xs).bind fun t ↦ addBlocks t ys := by
  simp only [addBlocks, foldlM_append]
  rfl

/-- What the database and the hard fork object hold after `blocks` have been
accepted one by one. -/
structure Accepted (hf : HardFork) (blocks : List BlockVersions) (s : HardFork × Db) : Prop where
  object_eq : s.1 = hf.standing blocks (hf.indexAfter blocks blocks.length)
  blocks_eq : s.2.blocks = blocks
  stored_eq : ∀ k < blocks.length,
    s.2.hardForkVersions k = (hf.forkAt (hf.indexAfter blocks k)).version
  checked : ∀ k (hk : k < blocks.length),
    (hf.standing (blocks.take k) (hf.indexAfter blocks k)).check (blocks.get ⟨k, hk⟩) = true

lemma accepted_nil (hf : HardFork) : Accepted hf [] (hf.standing [] 0, Db.empty) where
  object_eq := rfl
  blocks_eq := rfl
  stored_eq := by simp
  checked := by simp

lemma Accepted.addBlock (hw : 1 ≤ hf.windowSize) (h : Accepted hf blocks s)
    (hadd : HardFork.addBlock s b = some t) : Accepted hf (blocks ++ [b]) t := by
  obtain ⟨s₁, s₂⟩ := s
  obtain ⟨hobject₀, hblocks, hstored, hchecked⟩ := h
  simp only at hobject₀ hblocks hstored
  subst hblocks hobject₀
  obtain ⟨hcheck, hobject, hdb⟩ := (addBlock_standing hw rfl b t).mp hadd
  have hold : ∀ k ≤ s₂.blocks.length,
      hf.indexAfter (s₂.blocks ++ [b]) k = hf.indexAfter s₂.blocks k := by
    intro k hk
    apply indexAfter_congr
    rw [take_append_of_le_length hk]
  refine ⟨?_, ?_, ?_, ?_⟩
  · rw [hobject, length_append, length_singleton, indexAfter, hold _ le_rfl,
      take_of_length_le (by simp)]
  · rw [hdb]
    rfl
  · intro k hk
    rw [length_append, length_singleton] at hk
    rw [hold k (by omega), hdb]
    rcases Nat.lt_succ_iff_lt_or_eq.mp hk with hlt | rfl
    · rw [← hstored k hlt]
      simp [Db.setHardForkVersion, Db.addBlock, hlt.ne]
    · simp [Db.setHardForkVersion]
  · intro k hk
    rw [length_append, length_singleton] at hk
    rw [hold k (by omega)]
    rcases Nat.lt_succ_iff_lt_or_eq.mp hk with hlt | rfl
    · have hget : (s₂.blocks ++ [b]).get ⟨k, by simpa using hk⟩ = s₂.blocks.get ⟨k, hlt⟩ := by
        simp [getElem_append_left, hlt]
      rw [hget, take_append_of_le_length hlt.le]
      exact hchecked k hlt
    · simpa [take_append_of_le_length] using hcheck

lemma Accepted.addBlocks (hw : 1 ≤ hf.windowSize) (h : Accepted hf blocks s)
    (hadd : addBlocks s added = some t) : Accepted hf (blocks ++ added) t := by
  induction added generalizing blocks s with
  | nil =>
    obtain rfl : s = t := by simpa [addBlocks] using hadd
    simpa using h
  | cons b added ih =>
    have hsplit : addBlocks s ([b] ++ added) = some t := hadd
    rw [addBlocks_append, Option.bind_eq_some_iff] at hsplit
    obtain ⟨u, hu, hrest⟩ := hsplit
    have hone : HardFork.addBlock s b = some u := by simpa [addBlocks] using hu
    have hstep := ih (h.addBlock hw hone) hrest
    simpa [append_assoc] using hstep

section

variable (h : Accepted hf blocks s)

include h

lemma Accepted.height_eq : s.2.height = blocks.length := by
  rw [Db.height, h.blocks_eq]

lemma Accepted.heights_eq : s.1.heights = hf.heights := by
  rw [h.object_eq, standing_heights]

lemma Accepted.windowSize_eq : s.1.windowSize = hf.windowSize := by
  rw [h.object_eq, standing_windowSize]

lemma Accepted.versions_eq : s.1.versions = (blocks.map hf.vote).rtake hf.windowSize := by
  rw [h.object_eq]
  rfl

lemma Accepted.lastVersions_eq : s.1.lastVersions = tally s.1.versions := by
  rw [h.object_eq]
  rfl

end

/-! ## The three reconstructions agree -/

/-- The schedule that `init` works with: an empty one gets the original version
as its only fork. -/
def withPlaceholder (hf : HardFork) : HardFork :=
  { hf with heights := if hf.heights = [] then [⟨hf.originalVersion, 0, 0, 0⟩] else hf.heights }

lemma init_empty (hf : HardFork) : hf.init Db.empty = hf.withPlaceholder.standing [] 0 := by
  simp [init, Db.empty, Db.height, rescanFromChainHeight, rescanFromBlockHeight, clearVotes,
    standing, withPlaceholder]

lemma Built.accepted {w : ℕ} {version : UInt8} {hf₀ : HardFork} (hbuilt : Built w version hf₀)
    (hw : 1 ≤ w) (hrun : addBlocks (hf₀.init Db.empty, Db.empty) blocks = some s) :
    Accepted hf₀.withPlaceholder blocks s := by
  rw [init_empty] at hrun
  have hwin : 1 ≤ hf₀.withPlaceholder.windowSize := by
    rw [← hbuilt.windowSize_eq] at hw
    exact hw
  simpa using (accepted_nil hf₀.withPlaceholder).addBlocks hwin hrun

lemma rescanStart_eq {w : ℕ} (hw : 1 ≤ w) (n : ℕ) :
    (if w < n then n - (w - 1) else 1) ≠ 0 ∧ (if w < n then n - (w - 1) else 1) - 1 = n - w := by
  split_ifs <;> omega

lemma blocksBetween_top (db : Db) (n : ℕ) :
    db.blocksBetween (db.height - n) db.height = db.blocks.rtake n := by
  rw [Db.blocksBetween, Db.height, take_length, rtake]

lemma withPlaceholder_eq_self (hne : hf.heights ≠ []) : hf.withPlaceholder = hf := by
  rw [withPlaceholder, if_neg hne]

section

variable (h : Accepted hf blocks s) (hord : hf.heights.Pairwise Fork.Before)
  (hne : hf.heights ≠ []) (hw : 1 ≤ hf.windowSize)

include h hord hne hw

/-- The index found from the stored version of the top block is the one that
was in force when the block was added. -/
theorem Accepted.rescan_eq (hpos : blocks ≠ []) (hf' : HardFork) (hread : hf'.clearVotes.readVotes
    (blocks.rtake hf.windowSize) = hf.standing blocks hf'.currentForkIndex) :
    hf'.rescanFromBlockHeight s.2 (blocks.length - hf.windowSize) = s.1 := by
  have hlen : 0 < blocks.length := length_pos_iff.mpr hpos
  have htop : blocks.length - 1 + 1 = blocks.length := by omega
  have hwindow : s.2.blocksBetween (blocks.length - hf.windowSize) s.2.height =
      blocks.rtake hf.windowSize := by
    rw [← h.height_eq, blocksBetween_top, h.blocks_eq]
  have hstored : s.2.getHardForkVersion (s.2.height - 1) =
      (hf.forkAt (hf.indexAfter blocks (blocks.length - 1))).version := by
    rw [h.height_eq, Db.getHardForkVersion, h.stored_eq _ (by omega)]
  -- versions increase along the schedule, so the search stops at the right fork
  have hfind : ∀ i, (hf.standing blocks i).findForkIndex
      (hf.forkAt (hf.indexAfter blocks (blocks.length - 1))).version hf.heights.length 0 =
        hf.indexAfter blocks (blocks.length - 1) := by
    intro i
    have hlt := indexAfter_lt hne blocks (blocks.length - 1)
    exact findForkIndex_eq (hf.standing blocks i) hord hlt _ 0 (Nat.zero_le _)
      (by simpa using hlt.le)
  have hnext : hf.nextIndex blocks (hf.indexAfter blocks (blocks.length - 1)) =
      hf.indexAfter blocks blocks.length := by
    conv_rhs => rw [← htop, indexAfter, htop, take_length]
  unfold rescanFromBlockHeight
  rw [if_neg (by rw [h.height_eq]; omega), hwindow, hread, hstored]
  simp only [standing_heights, hfind]
  rw [h.height_eq, h.object_eq, ← hnext, ← raise_standing]
  rfl

lemma Accepted.init_eq : s.1.init s.2 = s.1 := by
  have hread : ∀ i,
      ({ hf.standing blocks i with currentForkIndex := 0 }).clearVotes.clearVotes.readVotes
      (blocks.rtake hf.windowSize) = hf.standing blocks 0 := by
    intro i
    exact readVotes_rtake (hf.standing blocks 0) blocks
  rcases eq_or_ne blocks [] with rfl | hpos
  · rw [h.object_eq]
    simp [init, hne, h.height_eq, rescanFromChainHeight, rescanFromBlockHeight, clearVotes,
      standing, indexAfter]
  · have hlen : 0 < blocks.length := length_pos_iff.mpr hpos
    have hrescan := h.rescan_eq hord hne hw hpos _ (hread (hf.indexAfter blocks blocks.length))
    obtain ⟨hstart0, hstart⟩ := rescanStart_eq hw blocks.length
    have hheights : s.1.heights ≠ [] := by rwa [h.heights_eq]
    rw [← h.object_eq, ← h.windowSize_eq] at hrescan
    rw [← h.windowSize_eq] at hstart hstart0
    unfold init rescanFromChainHeight
    simp only [if_neg hheights, h.height_eq, if_neg hstart0, hstart]
    exact hrescan

end

/-- Adding the blocks above a height again, from the state at that height,
leads back to the state at the top and rewrites the stored versions with
themselves. -/
theorem Accepted.readdBlocks_eq (h : Accepted hf blocks s) (hw : 1 ≤ hf.windowSize) (n : ℕ)
    {k : ℕ} (hk : k + n = blocks.length) :
    readdBlocks (hf.standing (blocks.take k) (hf.indexAfter blocks k), s.2) k (blocks.drop k) =
      s := by
  induction n generalizing k with
  | zero =>
    obtain rfl : k = blocks.length := by omega
    rw [drop_length, take_length, readdBlocks, ← h.object_eq]
  | succ n ih =>
    have hlt : k < blocks.length := by omega
    have hlen : (blocks.take k).length = k := by simp [hlt.le]
    have hnext : blocks.take k ++ [blocks.get ⟨k, hlt⟩] = blocks.take (k + 1) := by simp
    -- the version that is written is the one in the table
    have hset : s.2.setHardForkVersion k (hf.forkAt (hf.indexAfter blocks k)).version = s.2 := by
      have hsame : (fun j ↦ if j = k then (hf.forkAt (hf.indexAfter blocks k)).version
          else s.2.hardForkVersions j) = s.2.hardForkVersions := by
        funext j
        by_cases hj : j = k
        · rw [if_pos hj, hj, h.stored_eq k hlt]
        · rw [if_neg hj]
      rw [Db.setHardForkVersion, hsame]
    have hadd := add_standing hw (blocks.take k) (hf.indexAfter blocks k) s.2 (blocks.get ⟨k, hlt⟩)
    rw [hlen, if_pos (h.checked k hlt), hset, hnext] at hadd
    rw [drop_eq_getElem_cons hlt, readdBlocks]
    simp only [get_eq_getElem] at hadd
    rw [hadd, Option.getD_some]
    exact ih (by omega)

/-- Reorganising at any height of the chain finds the state at that height
and replays the rest. -/
theorem Accepted.reorganize_eq (h : Accepted hf blocks s) (hord : hf.heights.Pairwise Fork.Before)
    (hne : hf.heights ≠ []) (hw : 1 ≤ hf.windowSize)
    (hfirst : (hf.forkAt 0).version = hf.originalVersion) {height : ℕ}
    (hheight : height < blocks.length) : s.1.reorganizeFromBlockHeight s.2 height = some s := by
  have hcut : (blocks.take (height + 1)).length = height + 1 := by
    rw [length_take]
    omega
  have hwindow : s.2.blocksBetween (height - (hf.windowSize - 1)) (height + 1) =
      (blocks.take (height + 1)).rtake hf.windowSize := by
    rw [Db.blocksBetween, h.blocks_eq, rtake, hcut]
    congr 1
    omega
  have hstart : (if hf.windowSize - 1 ≤ height then height - (hf.windowSize - 1) else 0) =
      height - (hf.windowSize - 1) := by
    split_ifs <;> omega
  have hversion : (if height = 0 then hf.originalVersion else s.2.getHardForkVersion height) =
      (hf.forkAt (hf.indexAfter blocks height)).version := by
    split_ifs with h0
    · rw [h0, ← hfirst]
      rfl
    · exact h.stored_eq height hheight
  -- the index only grows along the chain, so walking it down passes the one at `height`
  have hlower : s.1.lowerForkIndex (hf.forkAt (hf.indexAfter blocks height)).version
      s.1.currentForkIndex = hf.indexAfter blocks height := by
    rw [h.object_eq, standing_currentForkIndex]
    exact lowerForkIndex_eq (hf.standing blocks (hf.indexAfter blocks blocks.length)) hord
      (indexAfter_mono hf blocks hheight.le) (indexAfter_lt hne blocks _)
  have hread : ({ s.1.clearVotes with currentForkIndex := hf.indexAfter blocks height }).readVotes
      ((blocks.take (height + 1)).rtake hf.windowSize) =
        hf.standing (blocks.take (height + 1)) (hf.indexAfter blocks height) := by
    rw [h.object_eq]
    exact readVotes_rtake (hf.standing blocks (hf.indexAfter blocks height)) _
  have hraise := raise_standing hf (blocks.take (height + 1)) (hf.indexAfter blocks height)
  have hrest : s.2.blocksBetween (height + 1) s.2.height = blocks.drop (height + 1) := by
    rw [Db.blocksBetween, h.height_eq, h.blocks_eq, take_length]
  have horig : s.1.originalVersion = hf.originalVersion := by rw [h.object_eq]; rfl
  rw [hcut] at hraise
  unfold reorganizeFromBlockHeight
  rw [if_neg (by rw [h.height_eq]; omega)]
  simp only [h.windowSize_eq, horig, hstart, hversion, hlower, hwindow, hread, hraise, hrest]
  rw [← indexAfter, h.readdBlocks_eq hw (blocks.length - (height + 1)) (by omega)]

/-- The state reached one block at a time is the state a fresh start finds in
the database, and reorganising at any height below the top leaves it as it
is. -/
theorem incremental_eq_rescanned {w : ℕ} {version : UInt8} {hf₀ : HardFork}
    (hbuilt : Built w version hf₀) (hw : 1 ≤ w)
    (hfirst : hf₀.heights.head?.map Fork.version = some version) {db : Db}
    (hrun : addBlocks (hf₀.init Db.empty, Db.empty) blocks = some (hf, db)) :
    hf.init db = hf ∧
      ∀ height < db.height, hf.reorganizeFromBlockHeight db height = some (hf, db) := by
  have hne : hf₀.heights ≠ [] := by
    intro hnil
    simp [hnil] at hfirst
  have hzero : (hf₀.forkAt 0).version = hf₀.originalVersion := by
    rw [hbuilt.originalVersion_eq, forkAt]
    cases hheights : hf₀.heights with
    | nil => exact absurd hheights hne
    | cons f rest => simpa [hheights] using hfirst
  have hwin : 1 ≤ hf₀.windowSize := hbuilt.windowSize_eq.symm ▸ hw
  have hacc := hbuilt.accepted hw hrun
  rw [withPlaceholder_eq_self hne] at hacc
  refine ⟨hacc.init_eq hbuilt.pairwise hne hwin, fun height hheight ↦ ?_⟩
  exact hacc.reorganize_eq hbuilt.pairwise hne hwin hzero (hacc.height_eq ▸ hheight)

/-- The schedule of the unit test `reorganize, Changed`: a window of four
blocks, all of which have to vote for a fork. -/
def unanimousSchedule : HardFork where
  windowSize := 4
  originalVersion := 1
  heights := [⟨1, 0, 100, 0⟩, ⟨4, 2, 100, 1⟩, ⟨7, 4, 100, 2⟩, ⟨9, 6, 100, 3⟩]
  versions := []
  lastVersions := fun _ ↦ 0
  currentForkIndex := 0

lemma unanimousSchedule_built : Built 4 1 unanimousSchedule := by
  have h₁ : Built 4 1 { unanimousSchedule with heights := [⟨1, 0, 100, 0⟩] } :=
    .addFork ⟨1, 0, 100, 0⟩ (.new fun _ ↦ 0) rfl
  have h₂ : Built 4 1 { unanimousSchedule with heights := [⟨1, 0, 100, 0⟩, ⟨4, 2, 100, 1⟩] } :=
    .addFork ⟨4, 2, 100, 1⟩ h₁ rfl
  have h₃ : Built 4 1
      { unanimousSchedule with heights := [⟨1, 0, 100, 0⟩, ⟨4, 2, 100, 1⟩, ⟨7, 4, 100, 2⟩] } :=
    .addFork ⟨7, 4, 100, 2⟩ h₂ rfl
  exact .addFork ⟨9, 6, 100, 3⟩ h₃ rfl

/-- The blocks that unit test adds, votes first for the coming version. -/
def unanimousBlocks : List BlockVersions :=
  [⟨1, 1⟩, ⟨1, 1⟩, ⟨1, 4⟩, ⟨1, 4⟩, ⟨1, 7⟩, ⟨1, 7⟩, ⟨4, 9⟩, ⟨4, 9⟩, ⟨7, 9⟩, ⟨7, 9⟩, ⟨9, 9⟩, ⟨9, 9⟩]

theorem incremental_eq_rescanned_unanimous :
    ∃ hf db, addBlocks (unanimousSchedule.init Db.empty, Db.empty) unanimousBlocks =
      some (hf, db) ∧ hf.init db = hf ∧
        ∀ height < db.height, hf.reorganizeFromBlockHeight db height = some (hf, db) := by
  have hsome : (addBlocks (unanimousSchedule.init Db.empty, Db.empty) unanimousBlocks).isSome =
      true := by decide +kernel
  obtain ⟨⟨hf, db⟩, hrun⟩ := Option.isSome_iff_exists.mp hsome
  exact ⟨hf, db, hrun, incremental_eq_rescanned unanimousSchedule_built (by decide) rfl hrun⟩

/-! ## Blocks that are undone in the database alone -/

/-- The index of the fork in force, the window and its counts are those that a
fresh start finds in the database. -/
structure Rescanned (hf : HardFork) (db : Db) : Prop where
  currentForkIndex : hf.currentForkIndex = (hf.init db).currentForkIndex
  versions : hf.versions = (hf.init db).versions
  lastVersions : hf.lastVersions = (hf.init db).lastVersions

lemma bump_unbump (f : UInt8 → UInt32) (v : UInt8) : bump (unbump f v) v = f := by
  funext j
  by_cases h : j = v <;> simp [bump, unbump, h]

lemma evict_replicate {w : ℕ} (hw : 1 ≤ w) (v : UInt8) (lastVersions : UInt8 → UInt32) :
    evict w (replicate w v) lastVersions = (replicate (w - 1) v, unbump lastVersions v) := by
  obtain ⟨n, rfl⟩ := Nat.exists_eq_add_of_le' hw
  rw [replicate_succ, evict, if_pos (by simp)]
  cases n with
  | zero => rfl
  | succ n =>
    rw [replicate_succ, evict, if_neg (by simp)]
    rfl

/-- A vote like all others of a full window changes nothing, unless a fork is due. -/
lemma addBlock_unanimous (hw : 1 ≤ hf.windowSize)
    (hvotes : hf.versions = replicate hf.windowSize (hf.vote b))
    (hfork : hf.getVotedForkIndex (db.height + 1) ≤ hf.currentForkIndex)
    (h : addBlock (hf, db) b = some s) : s.1 = hf ∧ s.2.height = db.height + 1 := by
  simp only [addBlock, add, addVersions, hvotes, evict_replicate hw] at h
  split_ifs at h
  cases h
  have hpushed : pushVote { hf with
      versions := replicate (hf.windowSize - 1) (hf.vote b)
      lastVersions := unbump hf.lastVersions (hf.vote b) } (hf.vote b) = hf := by
    have hfull : replicate (hf.windowSize - 1) (hf.vote b) ++ [hf.vote b] = hf.versions := by
      rw [← replicate_succ', Nat.sub_add_cancel hw, hvotes]
    rw [pushVote, bump_unbump]
    dsimp only
    rw [hfull]
  refine ⟨?_, by simp [Db.height, Db.addBlock, Db.setHardForkVersion]⟩
  change (pushVote { hf with
      versions := replicate (hf.windowSize - 1) (hf.vote b)
      lastVersions := unbump hf.lastVersions (hf.vote b) } (hf.vote b)).raiseForkIndex _ = hf
  rw [hpushed, raiseForkIndex]
  exact if_neg (not_lt.mpr ((Nat.mod_le _ _).trans hfork))

end Monero.HardFork
