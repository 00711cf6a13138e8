import Monero.Blockchain.Difficulty
import Monero.Epee.Median

/-!
# Alternative chains and their timestamps

Alternative blocks are stored under their hash with the hash of their parent.
`build_alt_chain` walks from a block down to the main chain and gathers the
timestamps on the way, and `complete_timestamps_vector` adds timestamps of the
main chain below the split.
-/

namespace Monero.Blockchain

open HardFork Monero.Epee List

/-- An alternative block with its `alt_block_data_t`. -/
structure StoredAltBlock (β H : Type*) where
  block : β
  versions : BlockVersions
  timestamp : ℕ
  prevId : H
  height : ℕ
  cumulativeWeight : ℕ
  cumulativeDifficultyLow : ℕ
  cumulativeDifficultyHigh : ℕ
  alreadyGeneratedCoins : ℕ

variable {β H : Type*}

def StoredAltBlock.extendedInfo (b : StoredAltBlock β H) : BlockExtendedInfo β where
  block := b.block
  versions := b.versions
  timestamp := b.timestamp
  height := b.height
  cumulativeWeight := b.cumulativeWeight
  cumulativeDifficulty := b.cumulativeDifficultyHigh * 2 ^ 64 + b.cumulativeDifficultyLow
  alreadyGeneratedCoins := b.alreadyGeneratedCoins

/-- The loop of `build_alt_chain`.  It returns the alternative chain, the
timestamps from its tip down, and the hash at which the walk ended; `fuel`
bounds the number of blocks. -/
def walkAltChain (getAltBlock : H → Option (StoredAltBlock β H)) :
    ℕ → H → List (BlockExtendedInfo β) → List ℕ → List (BlockExtendedInfo β) × List ℕ × H
  | 0, id, alt, timestamps => (alt, timestamps, id)
  | fuel + 1, id, alt, timestamps =>
    match getAltBlock id with
    | none => (alt, timestamps, id)
    | some b => walkAltChain getAltBlock fuel b.prevId (b.extendedInfo :: alt)
        (timestamps ++ [b.timestamp])

/-- A failed check leaves the vector as it is, and the caller ignores the
return value. -/
def completeTimestampsVector (main : List (Row β)) (startTopHeight : ℕ) (timestamps : List ℕ) :
    List ℕ :=
  if timestampCheckWindow ≤ timestamps.length then timestamps
  else if startTopHeight < main.length then
    let needElements := timestampCheckWindow - timestamps.length
    let stopOffset := if needElements < startTopHeight then startTopHeight - needElements else 0
    -- the loop ends at `stopOffset` without reading it, genesis included
    timestamps ++ (readRange Row.timestamp main (stopOffset + 1) (startTopHeight + 1)).reverse
  else timestamps

def getBlockHeight [DecidableEq H] (hash : List (Row β) → H) (main : List (Row β)) (id : H) :
    Option ℕ :=
  (range main.length).find? fun height ↦ hash (main.take (height + 1)) = id

/-- `none` is the return value `false`. -/
def buildAltChain [DecidableEq H] (hash : List (Row β) → H)
    (getAltBlock : H → Option (StoredAltBlock β H)) (fuel : ℕ) (main : List (Row β))
    (prevId : H) : Option (List (BlockExtendedInfo β) × List ℕ) :=
  let (alt, timestamps, id) := walkAltChain getAltBlock fuel prevId [] []
  match alt, getBlockHeight hash main id with
  | front :: _, some height =>
    if main.length ≤ front.height then none
    else if hash (main.take (front.height - 1 + 1)) ≠ id then none
    else some (alt, completeTimestampsVector main height timestamps)
  | [], some height => some (alt, completeTimestampsVector main height timestamps)
  | _, none => none

/-! ## Stored chains -/

/-- `alt` is stored from the block `root` on, with the tip `tip`; the walk down
ends at `root`. -/
inductive StoredOn (getAltBlock : H → Option (StoredAltBlock β H)) (root : H) :
    List (StoredAltBlock β H) → H → Prop
  | nil (hroot : getAltBlock root = none) : StoredOn getAltBlock root [] root
  | snoc {alt : List (StoredAltBlock β H)} {tip id : H} {b : StoredAltBlock β H}
      (h : StoredOn getAltBlock root alt tip) (hget : getAltBlock id = some b)
      (hprev : b.prevId = tip) : StoredOn getAltBlock root (alt ++ [b]) id

variable {getAltBlock : H → Option (StoredAltBlock β H)} {root tip : H}
  {alt : List (StoredAltBlock β H)}

lemma StoredOn.getAltBlock_tip {b : StoredAltBlock β H}
    (h : StoredOn getAltBlock root (alt ++ [b]) tip) : getAltBlock tip = some b := by
  generalize hl : alt ++ [b] = l at h
  cases h with
  | nil => simp at hl
  | snoc h hget hprev =>
    obtain ⟨-, hb⟩ := append_inj' hl rfl
    rw [hget, singleton_inj.mp hb]

lemma StoredOn.getAltBlock_root
    (h : StoredOn getAltBlock root [] tip) : tip = root ∧ getAltBlock root = none := by
  generalize hl : ([] : List (StoredAltBlock β H)) = l at h
  cases h with
  | nil hroot => exact ⟨rfl, hroot⟩
  | snoc => simp at hl

lemma walkAltChain_eq (h : StoredOn getAltBlock root alt tip) {fuel : ℕ}
    (hfuel : alt.length < fuel) (rest : List (BlockExtendedInfo β)) (timestamps : List ℕ) :
    walkAltChain getAltBlock fuel tip rest timestamps =
      (alt.map StoredAltBlock.extendedInfo ++ rest,
        timestamps ++ (alt.map StoredAltBlock.timestamp).reverse, root) := by
  induction h generalizing fuel rest timestamps with
  | nil hroot =>
    obtain ⟨fuel, rfl⟩ := Nat.exists_eq_add_one_of_ne_zero (by omega : fuel ≠ 0)
    simp [walkAltChain, hroot]
  | @snoc alt tip id b _ hget hprev ih =>
    obtain ⟨fuel, rfl⟩ := Nat.exists_eq_add_one_of_ne_zero (by omega : fuel ≠ 0)
    rw [length_append, length_singleton] at hfuel
    rw [walkAltChain, hget]
    simp only
    rw [hprev, ih (by omega)]
    simp

def HashesDistinct (hash : List (Row β) → H) (main : List (Row β)) : Prop :=
  Set.InjOn (fun length ↦ hash (main.take length)) (Set.Iic main.length)

variable [DecidableEq H] {main : List (Row β)} {hash : List (Row β) → H} {split : ℕ}

section

variable (hinj : HashesDistinct hash main) (hsplit : 1 ≤ split) (hmain : split ≤ main.length)

include hinj hsplit hmain

lemma getBlockHeight_eq :
    getBlockHeight hash main (hash (main.take split)) = some (split - 1) := by
  rw [getBlockHeight, find?_eq_some_iff_append]
  refine ⟨by simp [Nat.sub_add_cancel hsplit], range (split - 1),
    range' split (main.length - split), ?_, ?_⟩
  · have hrange : range main.length =
        range (split - 1) ++ range' (split - 1) (main.length - (split - 1)) := by
      have happend := @range'_append_1 0 (split - 1) (main.length - (split - 1))
      rw [Nat.zero_add, Nat.add_sub_cancel' (by omega)] at happend
      rw [range_eq_range', range_eq_range', happend]
    rw [hrange, show main.length - (split - 1) = main.length - split + 1 by omega,
      range'_succ, Nat.sub_add_cancel hsplit]
  · intro height hheight
    have hlt := mem_range.mp hheight
    have hne : hash (main.take (height + 1)) ≠ hash (main.take split) := by
      intro heq
      have hlen : height + 1 = split :=
        hinj (Set.mem_Iic.mpr (by omega)) (Set.mem_Iic.mpr hmain) heq
      omega
    simpa using hne

/-- The walk ends at the split, and the only check that can fail is the one
that the alternative chain starts below the height of the main chain. -/
theorem buildAltChain_eq (hstored : StoredOn getAltBlock (hash (main.take split)) alt tip)
    (hheights : HeightsFrom split (alt.map StoredAltBlock.extendedInfo)) {fuel : ℕ}
    (hfuel : alt.length < fuel) :
    buildAltChain hash getAltBlock fuel main tip =
      if alt ≠ [] ∧ split = main.length then none
      else some (alt.map StoredAltBlock.extendedInfo,
        completeTimestampsVector main (split - 1) (alt.map StoredAltBlock.timestamp).reverse) := by
  rw [buildAltChain, walkAltChain_eq hstored hfuel]
  simp only [append_nil, nil_append, getBlockHeight_eq hinj hsplit hmain]
  cases alt with
  | nil => simp
  | cons b alt =>
    have hfront : b.extendedInfo.height = split := by
      rw [HeightsFrom, map_cons, map_cons, length_cons, range'_succ]
        at hheights
      exact (cons.inj hheights).1
    simp only [map_cons, hfront, Nat.sub_add_cancel hsplit, ne_eq, not_true_eq_false,
      if_false, cons_ne_nil, not_false_eq_true, true_and]
    by_cases htop : split = main.length
    · rw [if_pos (by omega), if_pos htop]
    · rw [if_neg (by omega), if_neg htop]

end

/-! ## The timestamp rule -/

variable {β H : Type*}

/-- The median is computed only over at least a full window. -/
def checkBlockTimestamp (now : ℕ) (timestamps : List ℕ) (timestamp : ℕ) : Bool :=
  if now + blockFutureTimeLimit < timestamp then false
  else if timestamps.length < timestampCheckWindow then true
  else if timestamp < median timestamps then false
  else true

def checkBlockTimestampMainChain (now : ℕ) (chain : List (Row β)) (timestamp : ℕ) : Bool :=
  let offset := if timestampCheckWindow ≤ chain.length then chain.length - timestampCheckWindow
    else 0
  checkBlockTimestamp now (readRange Row.timestamp chain offset chain.length) timestamp

/-- The timestamp check of `handle_alternative_block`, with the rejection of a
block whose alternative chain cannot be built. -/
def checkAlternativeBlockTimestamp [DecidableEq H] (hash : List (Row β) → H)
    (getAltBlock : H → Option (StoredAltBlock β H)) (fuel now : ℕ) (main : List (Row β))
    (prevId : H) (timestamp : ℕ) : Bool :=
  match buildAltChain hash getAltBlock fuel main prevId with
  | none => false
  | some (_, timestamps) => checkBlockTimestamp now timestamps timestamp

/-! ## The two windows -/

lemma checkBlockTimestamp_eq_true_iff {now timestamp : ℕ} {timestamps : List ℕ} :
    checkBlockTimestamp now timestamps timestamp = true ↔ timestamp ≤ now + blockFutureTimeLimit ∧
        (timestampCheckWindow ≤ timestamps.length → median timestamps ≤ timestamp) := by
  rw [checkBlockTimestamp]
  split_ifs <;> simp <;> omega

lemma checkBlockTimestamp_perm {now timestamp : ℕ} {v w : List ℕ} (h : v.Perm w) :
    checkBlockTimestamp now v timestamp = checkBlockTimestamp now w timestamp := by
  rw [checkBlockTimestamp, checkBlockTimestamp, h.length_eq, median_perm h]

def timestampsTo (main : List (Row β)) (split : ℕ) (alt : List (StoredAltBlock β H)) : List ℕ :=
  (main.take split).map Row.timestamp ++ alt.map StoredAltBlock.timestamp

lemma checkBlockTimestampMainChain_eq (now : ℕ) (chain : List (Row β)) (timestamp : ℕ) :
    checkBlockTimestampMainChain now chain timestamp =
      checkBlockTimestamp now ((chain.map Row.timestamp).rtake timestampCheckWindow)
        timestamp := by
  have hoffset : (if timestampCheckWindow ≤ chain.length
      then chain.length - timestampCheckWindow else 0) = chain.length - timestampCheckWindow := by
    split_ifs <;> omega
  simp only [checkBlockTimestampMainChain, hoffset]
  rw [readRange_eq _ le_rfl, take_of_length_le (by simp), rtake, length_map]

lemma completeTimestampsVector_eq (hsplit : 1 ≤ split) (hmain : split ≤ main.length) {alt : List ℕ}
    (halt : alt.length < timestampCheckWindow) :
    completeTimestampsVector main (split - 1) alt.reverse =
      (((main.take split).map Row.timestamp ++ alt).drop
        (max 1 (split + alt.length - timestampCheckWindow))).reverse := by
  have hlength : ((main.take split).map Row.timestamp).length = split := by simpa using hmain
  have hstop : (if timestampCheckWindow - alt.length < split - 1
      then split - 1 - (timestampCheckWindow - alt.length) else 0) + 1 =
      max 1 (split + alt.length - timestampCheckWindow) := by
    split_ifs <;> omega
  rw [completeTimestampsVector, if_neg (by rw [length_reverse]; omega), if_pos (by omega)]
  simp only [length_reverse]
  rw [hstop, Nat.sub_add_cancel hsplit, readRange_eq _ hmain, ← reverse_append,
    drop_append_of_le_length (by omega), map_take]

section

variable {hash : List (Row β) → H} {main : List (Row β)}
  {getAltBlock : H → Option (StoredAltBlock β H)} {split : ℕ} {alt : List (StoredAltBlock β H)}

lemma timestampsTo_length (hmain : split ≤ main.length) :
    (timestampsTo main split alt).length = split + alt.length := by
  simp [timestampsTo, hmain]

/-- Above sixty-one blocks in all, of which at most sixty are alternative, the
two windows hold the same timestamps; below, the alternative one is too short
for a median. -/
theorem checkBlockTimestamp_complete (now timestamp : ℕ) (hsplit : 1 ≤ split)
    (hmain : split ≤ main.length) (halt : alt.length ≤ timestampCheckWindow) :
    checkBlockTimestamp now (completeTimestampsVector main (split - 1)
        (alt.map StoredAltBlock.timestamp).reverse) timestamp =
      if split + alt.length ≤ timestampCheckWindow then
        decide (timestamp ≤ now + blockFutureTimeLimit)
      else checkBlockTimestamp now
        ((timestampsTo main split alt).rtake timestampCheckWindow) timestamp := by
  have hlength : (timestampsTo main split alt).length = split + alt.length :=
    timestampsTo_length hmain
  rcases halt.lt_or_eq with hlt | heq
  · rw [completeTimestampsVector_eq hsplit hmain (by simpa using hlt), length_map,
      checkBlockTimestamp_perm (reverse_perm _)]
    split_ifs with hshort
    · have hone : max 1 (split + alt.length - timestampCheckWindow) = 1 := by omega
      rw [hone, Bool.eq_iff_iff, checkBlockTimestamp_eq_true_iff, decide_eq_true_iff]
      refine and_iff_left fun hfull ↦ ?_
      rw [length_drop] at hfull
      rw [timestampsTo] at hlength
      omega
    · rw [max_eq_right (by omega), rtake, hlength, timestampsTo]
  · have hfull : timestampCheckWindow ≤ (alt.map StoredAltBlock.timestamp).reverse.length := by
      simp [heq]
    rw [completeTimestampsVector, if_pos hfull, if_neg (by omega),
      checkBlockTimestamp_perm (reverse_perm _), timestampsTo,
      Lib.rtake_append_of_le _ (by simp [heq]), Lib.rtake_eq_self (by simp [heq])]

/-- The timestamp check on an alternative chain agrees with the check on the
main chain that the alternative chain would become, exactly when the block is
too far in the future for both, or none of the three differences shows: an
alternative chain on the very tip of the main chain is refused, a chain of
sixty blocks has no median, and more than sixty alternative blocks all enter
the median. -/
theorem checkAlternativeBlockTimestamp_eq_main_iff [DecidableEq H] {fuel : ℕ} {tip : H}
    (hinj : HashesDistinct hash main) (hsplit : 1 ≤ split) (hmain : split ≤ main.length)
    (hstored : StoredOn getAltBlock (hash (main.take split)) alt tip)
    (hheights : HeightsFrom split (alt.map StoredAltBlock.extendedInfo))
    (hfuel : alt.length < fuel) {rows : List (Row β)}
    (hrows : rows.map Row.timestamp = alt.map StoredAltBlock.timestamp) (now timestamp : ℕ) :
    checkAlternativeBlockTimestamp hash getAltBlock fuel now main tip timestamp =
        checkBlockTimestampMainChain now (main.take split ++ rows) timestamp ↔
      now + blockFutureTimeLimit < timestamp ∨
        if alt ≠ [] ∧ split = main.length then
          timestampCheckWindow ≤ split + alt.length ∧
            timestamp < median ((timestampsTo main split alt).rtake timestampCheckWindow)
        else
          (split + alt.length = timestampCheckWindow →
            median ((timestampsTo main split alt).rtake timestampCheckWindow) ≤ timestamp) ∧
          (timestampCheckWindow < alt.length →
            (median (alt.map StoredAltBlock.timestamp) ≤ timestamp ↔
              median ((timestampsTo main split alt).rtake timestampCheckWindow) ≤ timestamp)) := by
  have hcolumn : (main.take split ++ rows).map Row.timestamp = timestampsTo main split alt := by
    rw [map_append, hrows, timestampsTo]
  have hlength : ((timestampsTo main split alt).rtake timestampCheckWindow).length =
      min timestampCheckWindow (split + alt.length) := by
    rw [Lib.length_rtake, timestampsTo_length hmain]
  rw [checkAlternativeBlockTimestamp, buildAltChain_eq hinj hsplit hmain hstored hheights hfuel,
    checkBlockTimestampMainChain_eq, hcolumn]
  split_ifs with htop
  · -- `build_alt_chain` fails
    rw [eq_comm, ← Bool.not_eq_true, checkBlockTimestamp_eq_true_iff, hlength, le_min_iff]
    grind
  rcases Nat.lt_or_ge timestampCheckWindow alt.length with hlong | hlong
  · -- two medians, of the alternative chain and of its last sixty blocks
    dsimp only
    rw [completeTimestampsVector, if_pos (by simpa using hlong.le),
      checkBlockTimestamp_perm (reverse_perm _), Bool.eq_iff_iff, checkBlockTimestamp_eq_true_iff,
      checkBlockTimestamp_eq_true_iff, hlength, length_map, le_min_iff]
    grind
  · dsimp only
    rw [checkBlockTimestamp_complete now timestamp hsplit hmain hlong]
    split_ifs with hshort
    · -- only at exactly sixty blocks does the main chain have a median and the other path none
      rw [Bool.eq_iff_iff, checkBlockTimestamp_eq_true_iff, decide_eq_true_iff, hlength,
        le_min_iff]
      grind
    · simp only [true_iff]
      grind

end

lemma hashesDistinct_length (main : List (Row β)) : HashesDistinct length main := by
  intro i hi j hj hij
  simpa [Set.mem_Iic.mp hi, Set.mem_Iic.mp hj] using hij

def headerAltBlock (version : UInt8) (timestamp prevId height : ℕ) : StoredAltBlock Unit ℕ :=
  ⟨(), ⟨version, version⟩, timestamp, prevId, height, 0, 0, 0, 0⟩

theorem checkAlternativeBlockTimestamp_eq_main_short : checkAlternativeBlockTimestamp length
        (fun id ↦ if id = 100 then some (headerAltBlock 1 12 2 2) else none) 2 0
        (replicate 3 (headerRow 1 10 1)) 100 15 =
      checkBlockTimestampMainChain 0
        ((replicate 3 (headerRow 1 10 1)).take 2 ++ [headerRow 1 12 1]) 15 := by
  refine (@checkAlternativeBlockTimestamp_eq_main_iff Unit ℕ length
    (replicate 3 (headerRow 1 10 1)) _ 2 [headerAltBlock 1 12 2 2] _ 2 100
    (hashesDistinct_length _) (by decide) (by decide) ?_ rfl (by decide) [headerRow 1 12 1] rfl
    0 15).mpr (.inr ?_)
  · exact StoredOn.snoc (StoredOn.nil rfl) rfl rfl
  · rw [if_neg (by decide)]
    exact ⟨fun h ↦ absurd h (by decide), fun h ↦ absurd h (by decide)⟩

/-- Sixty blocks with timestamp 100, the block at height 60 replaced: the main
chain compares with the median 100, the alternative path has fifty-nine
timestamps. -/
theorem checkAlternativeBlockTimestamp_ne_main :
    StoredOn (fun _ ↦ none) (((replicate 61 (headerRow 1 100 1)).take 60).length)
        ([] : List (StoredAltBlock Unit ℕ)) 60 ∧
      checkAlternativeBlockTimestamp length (fun _ ↦ none) 1 0
        (replicate 61 (headerRow 1 100 1)) 60 0 = true ∧
      checkBlockTimestampMainChain 0 ((replicate 61 (headerRow 1 100 1)).take 60) 0 =
        false :=
  ⟨StoredOn.nil rfl, by decide +kernel, by decide +kernel⟩

end Monero.Blockchain
