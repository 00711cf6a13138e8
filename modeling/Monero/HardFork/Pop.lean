import Monero.HardFork.Replay

/-!
# Popping blocks

`on_block_popped` shifts the window down by one entry for each popped block.
What it puts in front is the version stored at the height of the popped block,
not the vote of the block that had left the window, and it does so whether or
not the window was full.  The index of the fork in force is reset from the
schedule alone.  This module says exactly when that undoes the additions.
-/

namespace Monero.HardFork

open Lib List

/-! ## The rounds of the loop -/

variable {hf : HardFork} {blocks added : List BlockVersions} {s : HardFork × Db}

def withVotes (hf : HardFork) (versions : List UInt8) : HardFork := { hf with
    versions := versions
    lastVersions := tally versions }

/-- The versions stored at `n` heights. -/
def Db.versionRows (db : Db) (height n : ℕ) : List UInt8 :=
  (range n).map fun i ↦ db.getHardForkVersion (height + i)

lemma popVote_eq (db : Db) (height : ℕ) (hne : hf.versions ≠ [])
    (htally : hf.lastVersions = tally hf.versions) : hf.popVote db height =
      hf.withVotes (db.getHardForkVersion height :: hf.versions.dropLast) := by
  have hlast : hf.versions.getLastD 0 = hf.versions.getLast hne := by
    rw [getLastD_eq_getLast?, getLast?_eq_some_getLast hne, Option.getD_some]
  have hout : unbump hf.lastVersions (hf.versions.getLastD 0) = tally hf.versions.dropLast := by
    have hsplit := unbump_tally_concat hf.versions.dropLast (hf.versions.getLast hne)
    rw [dropLast_append_getLast hne] at hsplit
    rw [htally, hlast, hsplit]
  simp only [popVote, withVotes, hout, tally_cons]

/-- All rounds together: the stored versions come in from the left and push
the window out on the right. -/
theorem popVotes_eq (db : Db) (height n : ℕ) (hne : hf.versions ≠ [])
    (htally : hf.lastVersions = tally hf.versions) : hf.popVotes db height n =
      hf.withVotes ((db.versionRows height n ++ hf.versions).take hf.versions.length) := by
  induction n generalizing hf with
  | zero => simp [popVotes, withVotes, Db.versionRows, ← htally]
  | succ n ih =>
    have hsplit := dropLast_append_getLast hne
    have hlen : 0 < hf.versions.length := length_pos_iff.mpr hne
    have hrows : db.versionRows height (n + 1) ++ hf.versions = (db.versionRows height n ++
        db.getHardForkVersion (height + n) :: hf.versions.dropLast) ++
          [hf.versions.getLast hne] := by
      rw [Db.versionRows, range_succ, map_append, append_assoc, append_assoc, cons_append, hsplit]
      rfl
    have hlong : hf.versions.length ≤ (db.versionRows height n ++
        db.getHardForkVersion (height + n) :: hf.versions.dropLast).length := by
      simp only [length_append, length_cons, length_dropLast]
      omega
    rw [popVotes, popVote_eq db (height + n) hne htally, ih (cons_ne_nil _ _) rfl, hrows,
      take_append_of_le_length hlong]
    simp only [withVotes, length_cons, length_dropLast, Nat.sub_add_cancel hlen]

/-! ## The window that comes back -/

/-- A window of size `w` over `old`, slid over `new` and shifted back with
`front`, is the old window exactly when it was full and `front` holds the
entries that had fallen out. -/
theorem shifted_window_eq_iff {α : Type*} (w : ℕ) (old : List α) {new front : List α}
    (hnew : new ≠ []) (hfront : front.length = new.length) :
    (front ++ (old ++ new).rtake w).take ((old ++ new).rtake w).length = old.rtake w ↔
      w ≤ old.length ∧ front.take w = (old.rtake w).take new.length := by
  have hpos : 0 < new.length := length_pos_iff.mpr hnew
  rw [length_rtake, length_append]
  constructor
  · intro h
    have hlen := congrArg length h
    simp only [length_take, length_append, length_rtake, hfront] at hlen
    have hfull : w ≤ old.length := by omega
    refine ⟨hfull, ?_⟩
    rw [← h, take_take, take_append_of_le_length (by omega), hfront.symm]
    rcases Nat.le_total w front.length with hw | hw
    · congr 1
      omega
    · rw [take_of_length_le hw, take_of_length_le (by omega)]
  · rintro ⟨hfull, hshift⟩
    rw [min_eq_left (by omega : w ≤ old.length + new.length)]
    rcases Nat.le_total new.length w with hle | hle
    · -- part of the old window is still inside and moves back to its place
      have hback : (old ++ new).rtake w = old.rtake (w - new.length) ++ new :=
        rtake_append_of_ge hle
      have hrest : (old.rtake w).drop new.length = old.rtake (w - new.length) := by
        unfold rtake
        rw [drop_drop]
        congr 1
        omega
      rw [take_of_length_le (by omega)] at hshift
      rw [hback, take_append, take_of_length_le (by omega), hfront,
        take_append_of_le_length (by simp; omega),
        take_of_length_le (by simp only [length_rtake]; omega), ← hrest, hshift,
        take_append_drop]
    · -- all of the old window had fallen out
      rw [take_append_of_le_length (by omega), hshift, take_of_length_le]
      simp only [length_rtake]
      omega

/-! ## Popping what was added -/

lemma Accepted.majorVersion_eq (h : Accepted hf blocks s) {k : ℕ} (hk : k < blocks.length) :
    s.2.hardForkVersions k = (blocks.get ⟨k, hk⟩).majorVersion := by
  have hcheck := h.checked k hk
  simp only [check, doCheck, decide_eq_true_eq] at hcheck
  rw [h.stored_eq k hk]
  exact hcheck.1.symm

lemma Accepted.popped_rows (h : Accepted hf (blocks ++ added) s) :
    (s.2.popBlocks added.length).versionRows blocks.length added.length =
      added.map BlockVersions.majorVersion := by
  apply ext_getElem (by simp [Db.versionRows])
  intro i hi _
  have hi' : i < added.length := by simpa [Db.versionRows] using hi
  have hrow := h.majorVersion_eq (k := blocks.length + i) (by simpa using hi')
  simpa [Db.versionRows, Db.popBlocks, Db.getHardForkVersion] using hrow

lemma Accepted.popBlocks_height (h : Accepted hf (blocks ++ added) s) :
    (s.2.popBlocks added.length).height = blocks.length := by
  simp [Db.popBlocks, Db.height, h.blocks_eq]

lemma Accepted.onBlockPopped_eq (hw : 1 ≤ hf.windowSize)
    (h : Accepted hf (blocks ++ added) s) (hblocks : blocks ≠ []) (hadded : added ≠ []) :
    s.1.onBlockPopped (s.2.popBlocks added.length) added.length =
      some { hf.withVotes
          ((added.map BlockVersions.majorVersion ++ s.1.versions).take s.1.versions.length) with
        currentForkIndex := hf.scheduledForkIndex blocks.length (hf.heights.length - 1) } := by
  have hpos : 0 < blocks.length := length_pos_iff.mpr hblocks
  have hapos : 0 < added.length := length_pos_iff.mpr hadded
  have hne : s.1.versions ≠ [] := by
    apply ne_nil_of_length_pos
    simp only [h.versions_eq, length_rtake, length_map, length_append]
    omega
  rw [onBlockPopped, if_neg (by rw [h.popBlocks_height]; omega), h.popBlocks_height,
    popVotes_eq _ _ _ hne h.lastVersions_eq, h.popped_rows]
  have hindex := scheduledForkIndex_congr (s.1.withVotes
    ((added.map BlockVersions.majorVersion ++ s.1.versions).take s.1.versions.length))
    hf h.heights_eq blocks.length (hf.heights.length - 1)
  simp only [withVotes, h.heights_eq] at hindex ⊢
  rw [hindex, h.object_eq]
  rfl

/-- Nothing is left of the chain: the height counter of the loop wraps around. -/
theorem Accepted.onBlockPopped_all (h : Accepted hf added s) :
    s.1.onBlockPopped (s.2.popBlocks added.length) added.length = none := by
  have hheight : (s.2.popBlocks added.length).height = 0 :=
    @Accepted.popBlocks_height hf [] added s h
  rw [onBlockPopped, if_pos (.inr hheight)]

/-- Adding blocks and popping them again restores the voting window, the vote
counts and the version in force exactly when the window was full, the major
versions of the popped blocks are the votes that had fallen out of it, and the
version in force was the scheduled one. -/
theorem onBlockPopped_restores_iff {w : ℕ} {version : UInt8} {hf₀ : HardFork}
    (hbuilt : Built w version hf₀) (hw : 1 ≤ w) {blocks added : List BlockVersions}
    {hf hf' : HardFork} {db db' : Db}
    (hrun : addBlocks (hf₀.init Db.empty, Db.empty) blocks = some (hf, db))
    (hadd : addBlocks (hf, db) added = some (hf', db')) (hadded : added ≠ []) :
    (∃ hf'', hf'.onBlockPopped (db'.popBlocks added.length) added.length = some hf'' ∧
        hf''.versions = hf.versions ∧ hf''.lastVersions = hf.lastVersions ∧
          hf''.getCurrentVersion = hf.getCurrentVersion) ↔
      w ≤ db.height ∧
        (added.take w).map BlockVersions.majorVersion = hf.versions.take added.length ∧
          (hf.forkAt (hf.scheduledForkIndex db.height (hf.heights.length - 1))).version =
            hf.getCurrentVersion := by
  have hacc := hbuilt.accepted hw hrun
  have hwin : hf₀.withPlaceholder.windowSize = w := hbuilt.windowSize_eq
  have hwin' : 1 ≤ hf₀.withPlaceholder.windowSize := hwin.symm ▸ hw
  have hacc' := hacc.addBlocks hwin' hadd
  have hheight : db.height = blocks.length := hacc.height_eq
  rcases eq_or_ne blocks [] with rfl | hblocks
  · have hthrow : hf'.onBlockPopped (db'.popBlocks added.length) added.length = none :=
      hacc'.onBlockPopped_all
    rw [length_nil] at hheight
    constructor
    · rintro ⟨hf'', hpop, -⟩
      rw [hthrow] at hpop
      cases hpop
    · rintro ⟨hfull, -⟩
      omega
  · have hpopped := hacc'.onBlockPopped_eq hwin' hblocks hadded
    have hfront : (added.map BlockVersions.majorVersion).length =
        (added.map hf₀.withPlaceholder.vote).length := by rw [length_map, length_map]
    have hwindow := shifted_window_eq_iff hf₀.withPlaceholder.windowSize
      (blocks.map hf₀.withPlaceholder.vote) (by simpa using hadded) hfront
    rw [← map_append, ← hacc'.versions_eq, ← hacc.versions_eq, length_map, length_map,
      ← map_take] at hwindow
    have hforks : hf.heights = hf₀.withPlaceholder.heights := hacc.heights_eq
    have htally : hf.lastVersions = tally hf.versions := hacc.lastVersions_eq
    simp only [withVotes, hwin] at hpopped hwindow
    rw [hpopped, hheight, scheduledForkIndex_congr hf _ hforks, hforks]
    simp only [Option.some.injEq, exists_eq_left', htally, hwindow, getCurrentVersion, forkAt,
      hforks]
    constructor
    · rintro ⟨hrestored, -, hcurrent⟩
      exact ⟨hrestored.1, hrestored.2, hcurrent⟩
    · rintro ⟨hfull, hfell, hcurrent⟩
      refine ⟨⟨hfull, hfell⟩, ?_, hcurrent⟩
      rw [hwindow.mpr ⟨hfull, hfell⟩]

/-- Two forks by height alone, with a window of one block. -/
def plainSchedule : HardFork where
  windowSize := 1
  originalVersion := 1
  heights := [⟨1, 0, 0, 0⟩, ⟨2, 5, 0, 1⟩]
  versions := []
  lastVersions := fun _ ↦ 0
  currentForkIndex := 0

lemma plainSchedule_built : Built 1 1 plainSchedule := by
  have h₁ : Built 1 1 { plainSchedule with heights := [⟨1, 0, 0, 0⟩] } :=
    .addFork ⟨1, 0, 0, 0⟩ (.new fun _ ↦ 0) rfl
  exact .addFork ⟨2, 5, 0, 1⟩ h₁ rfl

theorem onBlockPopped_restores_plain :
    ∃ hf db hf' db', addBlocks (plainSchedule.init Db.empty, Db.empty) [⟨1, 1⟩] = some (hf, db) ∧
      addBlocks (hf, db) [⟨1, 1⟩] = some (hf', db') ∧
        ∃ hf'', hf'.onBlockPopped (db'.popBlocks 1) 1 = some hf'' ∧
          hf''.versions = hf.versions ∧ hf''.lastVersions = hf.lastVersions ∧
            hf''.getCurrentVersion = hf.getCurrentVersion := by
  refine ⟨_, _, _, _, rfl, rfl, ?_⟩
  have hiff := @onBlockPopped_restores_iff 1 1 plainSchedule plainSchedule_built (by decide)
    [⟨1, 1⟩] [⟨1, 1⟩] _ _ _ _ rfl rfl (by simp)
  exact hiff.mpr (by decide)

/-- Under the same schedule, a block that votes for the coming version leaves
the window when the next one is added, and popping that one puts its own
version in the place of the vote. -/
theorem onBlockPopped_loses_vote : ∃ hf db hf' db' hf'',
      addBlocks (plainSchedule.init Db.empty, Db.empty) [⟨1, 2⟩] = some (hf, db) ∧
        addBlocks (hf, db) [⟨1, 2⟩] = some (hf', db') ∧
          hf'.onBlockPopped (db'.popBlocks 1) 1 = some hf'' ∧
            ¬(hf''.versions = hf.versions ∧ hf''.lastVersions = hf.lastVersions ∧
              hf''.getCurrentVersion = hf.getCurrentVersion) := by
  refine ⟨_, _, _, _, _, rfl, rfl, rfl, ?_⟩
  rintro ⟨hversions, -⟩
  exact absurd hversions (by decide)

end Monero.HardFork
