import Monero.Blockchain.Chain
import Monero.HardFork.ByHeight

/-!
# The difficulty of the next block

`next_difficulty` of `difficulty.cpp`, and the two ways its input is gathered:
from the main chain, and from an alternative chain with the part of the main
chain below it.
-/

namespace Monero.Blockchain

open HardFork List

variable {β : Type*}

/-- None of the intermediate values leaves its type: the time span is a
difference of sorted 64-bit numbers, the work is a difference modulo `2 ^ 128`,
and the quotient is formed in 256 bits. -/
def nextDifficulty (timestamps cumulativeDifficulties : List ℕ) (targetSeconds : ℕ) : ℕ :=
  let long := difficultyWindow < timestamps.length
  let timestamps := if long then timestamps.take difficultyWindow else timestamps
  let cumulativeDifficulties :=
    if long then cumulativeDifficulties.take difficultyWindow else cumulativeDifficulties
  let length := timestamps.length
  if length ≤ 1 then 1
  else
    let timestamps := timestamps.insertionSort (· ≤ ·)
    let kept := difficultyWindow - 2 * difficultyCut
    let cutBegin := if length ≤ kept then 0 else (length - kept + 1) / 2
    let cutEnd := if length ≤ kept then length else cutBegin + kept
    let span := timestamps.getD (cutEnd - 1) 0 - timestamps.getD cutBegin 0
    let timeSpan := if span = 0 then 1 else span
    let totalWork := (cumulativeDifficulties.getD (cutEnd - 1) 0 + 2 ^ 128 -
      cumulativeDifficulties.getD cutBegin 0) % 2 ^ 128
    let res := (totalWork * targetSeconds + timeSpan - 1) / timeSpan
    if 2 ^ 128 ≤ res then 0 else res

variable (version : UInt8)

def targetOfVersion : ℕ :=
  if version < 2 then difficultyTargetV1 else difficultyTargetV2

def getDifficultyTarget (hf : HardFork) : ℕ := targetOfVersion hf.getCurrentVersion

/-! ## On the main chain -/

def difficultyOffset (height : ℕ) : ℕ :=
  let offset := height - min height difficultyBlocksCount
  if offset = 0 then offset + 1 else offset

variable (f : Row β → ℕ) (chain : List (Row β))

def difficultyColumn : List ℕ := readRange f chain (difficultyOffset chain.length) chain.length

def uncachedDifficulty (target : ℕ) (chain : List (Row β)) : ℕ :=
  nextDifficulty (difficultyColumn Row.timestamp chain)
    (difficultyColumn Row.cumulativeDifficulty chain) target

lemma difficultyOffset_eq (height : ℕ) :
    difficultyOffset height = max 1 (height - difficultyBlocksCount) := by
  simp only [difficultyOffset]
  split_ifs <;> omega

lemma difficultyColumn_eq :
    difficultyColumn f chain = (chain.map f).drop (difficultyOffset chain.length) := by
  rw [difficultyColumn, readRange_eq f le_rfl, ← length_map f, take_length]

lemma difficultyColumn_eq_rtake :
    difficultyColumn f chain = (chain.tail.map f).rtake difficultyBlocksCount := by
  have hoffset : max 1 (chain.length - difficultyBlocksCount) =
      1 + (chain.length - 1 - difficultyBlocksCount) := by omega
  calc
    difficultyColumn f chain =
        (chain.map f).drop (1 + (chain.length - 1 - difficultyBlocksCount)) := by
      rw [difficultyColumn_eq, difficultyOffset_eq, hoffset]
    _ = (chain.map f).tail.drop (chain.length - 1 - difficultyBlocksCount) := by
      rw [← drop_drop, drop_one]
    _ = (chain.tail.map f).rtake difficultyBlocksCount := by
      rw [rtake, map_tail, length_tail, length_map]

/-! ## On an alternative chain -/

structure BlockExtendedInfo (β : Type*) where
  block : β
  versions : BlockVersions
  timestamp : ℕ
  height : ℕ
  cumulativeWeight : ℕ
  cumulativeDifficulty : ℕ
  alreadyGeneratedCoins : ℕ
  deriving DecidableEq

def mainChainStopOffset (alt : List (BlockExtendedInfo β)) (height : ℕ) : ℕ :=
  match alt with
  | [] => height
  | front :: _ => front.height

def mainChainStartOffset (alt : List (BlockExtendedInfo β)) (height : ℕ) : ℕ :=
  let stop := mainChainStopOffset alt height
  let count := min (difficultyBlocksCount - min difficultyBlocksCount alt.length) stop
  let start := stop - count
  if start = 0 then start + 1 else start

def altColumn (g : BlockExtendedInfo β → ℕ) (main : List (Row β))
    (alt : List (BlockExtendedInfo β)) (height : ℕ) : List ℕ :=
  if alt.length < difficultyBlocksCount then
    readRange f main (mainChainStartOffset alt height)
      (mainChainStopOffset alt height) ++ alt.map g
  else ((alt.reverse.take difficultyBlocksCount).map g).reverse

/-- The internal check on the number of blocks gathered makes the call return
`false`, which is the difficulty `0`. -/
def getNextDifficultyForAlternativeChain (hf : HardFork) (main : List (Row β))
    (alt : List (BlockExtendedInfo β)) (height : ℕ) : ℕ :=
  if alt.length < difficultyBlocksCount ∧ difficultyBlocksCount < alt.length +
      (mainChainStopOffset alt height - mainChainStartOffset alt height) then 0
  else
    nextDifficulty (altColumn Row.timestamp BlockExtendedInfo.timestamp main alt height)
      (altColumn Row.cumulativeDifficulty BlockExtendedInfo.cumulativeDifficulty main alt height)
      (targetOfVersion (hf.getIdealVersion height))

/-- The blocks of `alt` have the heights from `split` on. -/
def HeightsFrom (split : ℕ) (alt : List (BlockExtendedInfo β)) : Prop :=
  alt.map BlockExtendedInfo.height = range' split alt.length

variable {split : ℕ} {alt : List (BlockExtendedInfo β)} {rows main : List (Row β)}

lemma mainChainStopOffset_eq
    (h : HeightsFrom split alt) : mainChainStopOffset alt (split + alt.length) = split := by
  cases alt with
  | nil => rfl
  | cons front alt =>
    rw [HeightsFrom, map_cons, length_cons, range'_succ] at h
    exact (cons.inj h).1

lemma mainChainStartOffset_eq
    (h : HeightsFrom split alt) (hshort : alt.length < difficultyBlocksCount) :
    mainChainStartOffset alt (split + alt.length) = difficultyOffset (split + alt.length) := by
  simp only [difficultyOffset_eq, mainChainStartOffset, mainChainStopOffset_eq h]
  split_ifs <;> omega

section

variable (hsplit : 1 ≤ split) (hmain : split ≤ main.length) (hheights : HeightsFrom split alt)

include hsplit hmain hheights

/-- Both ways gather the same rows, whatever the split height and the length
of the alternative chain are. -/
theorem altColumn_eq {f : Row β → ℕ} {g : BlockExtendedInfo β → ℕ} (hrows : rows.map f = alt.map g)
    :
    altColumn f g main alt (split + alt.length) =
      difficultyColumn f (main.take split ++ rows) := by
  have hlen : rows.length = alt.length := by simpa using congrArg length hrows
  have htotal : (main.take split ++ rows).length = split + alt.length := by
    simp [hlen, hmain]
  have htake : ((main.take split).map f).length = split := by simp [hmain]
  have hoffset := difficultyOffset_eq (split + alt.length)
  rw [difficultyColumn_eq, htotal, map_append, hrows, drop_append, htake, altColumn]
  split_ifs with hshort
  · -- rows of the main chain below the split fill the window up
    rw [mainChainStartOffset_eq hheights hshort, mainChainStopOffset_eq hheights,
      readRange_eq f hmain, ← map_take, Nat.sub_eq_zero_of_le (by omega), drop_zero]
  · -- the alternative chain fills the window alone
    have hskip : difficultyOffset (split + alt.length) - split =
        alt.length - difficultyBlocksCount := by
      omega
    rw [hskip, drop_eq_nil_of_le (by omega), nil_append, ← map_reverse,
      reverse_take, reverse_reverse, length_reverse, map_drop]

lemma nextDifficulty_alternative_eq
    (htimestamps : rows.map Row.timestamp = alt.map BlockExtendedInfo.timestamp)
    (hdifficulties : rows.map Row.cumulativeDifficulty =
      alt.map BlockExtendedInfo.cumulativeDifficulty) (hf : HardFork) :
    getNextDifficultyForAlternativeChain hf main alt (split + alt.length) =
      uncachedDifficulty (targetOfVersion (hf.getIdealVersion (split + alt.length)))
        (main.take split ++ rows) := by
  rw [getNextDifficultyForAlternativeChain, if_neg, altColumn_eq hsplit hmain hheights htimestamps,
    altColumn_eq hsplit hmain hheights hdifficulties]
  · rfl
  · rintro ⟨hshort, hmany⟩
    rw [mainChainStartOffset_eq hheights hshort, mainChainStopOffset_eq hheights,
      difficultyOffset_eq] at hmany
    omega

end

/-! ## The two paths agree -/

/-- For a schedule without voting whose first version is the original one, the
difficulty of a block on an alternative chain is the difficulty on the main
chain that has this alternative chain on top of the common part. -/
theorem alternative_difficulty_eq_main {w : ℕ} {version : UInt8} {hf₀ : HardFork}
    (hbuilt : Built w version hf₀) (hw : 1 ≤ w) (hthreshold : ∀ f ∈ hf₀.heights, f.threshold = 0)
    (hfirst : ∀ f ∈ hf₀.heights.head?, f.version = version) {main rows : List (Row β)}
    {alt : List (BlockExtendedInfo β)} {split : ℕ} (hsplit : 1 ≤ split)
    (hmain : split ≤ main.length) (hheights : HeightsFrom split alt)
    (htimestamps : rows.map Row.timestamp = alt.map BlockExtendedInfo.timestamp)
    (hdifficulties : rows.map Row.cumulativeDifficulty =
      alt.map BlockExtendedInfo.cumulativeDifficulty) {s t : HardFork × Db}
    (hrun : addBlocks (hf₀.init Db.empty, Db.empty) (main.map Row.versions) = some s)
    (hjoined : addBlocks (hf₀.init Db.empty, Db.empty)
      ((main.take split ++ rows).map Row.versions) = some t) :
    getNextDifficultyForAlternativeChain s.1 main alt (split + alt.length) =
      uncachedDifficulty (getDifficultyTarget t.1) (main.take split ++ rows) := by
  have hlen : ((main.take split ++ rows).map Row.versions).length = split + alt.length := by
    have hrows : rows.length = alt.length := by simpa using congrArg length htimestamps
    simp [hrows, hmain]
  have hcurrent := hbuilt.currentVersion_eq hw hthreshold hfirst hjoined
  rw [nextDifficulty_alternative_eq hsplit hmain hheights htimestamps hdifficulties,
    getDifficultyTarget, hcurrent, hlen, hbuilt.idealVersion_eq hw hrun]

/-- A schedule of one fork, at height zero, with original version `1`. -/
def oneFork : HardFork where
  windowSize := 1
  originalVersion := 1
  heights := [⟨version, 0, 0, 0⟩]
  versions := []
  lastVersions := fun _ ↦ 0
  currentForkIndex := 0

lemma oneFork_built {version : UInt8} (h : version ≠ 0) : Built 1 1 (oneFork version) := by
  refine Built.addFork ⟨version, 0, 0, 0⟩ (Built.new fun _ ↦ 0) ?_
  simp [addFork, h, oneFork]

def headerRow (timestamp cumulativeDifficulty : ℕ) : Row Unit :=
  ⟨(), ⟨version, version⟩, timestamp, 0, 0, cumulativeDifficulty, 0⟩

def headerInfo (timestamp height cumulativeDifficulty : ℕ) : BlockExtendedInfo Unit :=
  ⟨(), ⟨version, version⟩, timestamp, height, 0, cumulativeDifficulty, 0⟩

theorem alternative_difficulty_eq_main_short : ∃ s t : HardFork × Db,
      addBlocks ((oneFork 1).init Db.empty, Db.empty)
        ([headerRow 1 0 1, headerRow 1 10 2, headerRow 1 20 3].map Row.versions) = some s ∧
      addBlocks ((oneFork 1).init Db.empty, Db.empty)
        ([headerRow 1 0 1, headerRow 1 10 2, headerRow 1 30 3].map Row.versions) = some t ∧
      getNextDifficultyForAlternativeChain s.1
          [headerRow 1 0 1, headerRow 1 10 2, headerRow 1 20 3] [headerInfo 1 30 2 3] 3 =
        uncachedDifficulty (getDifficultyTarget t.1)
          [headerRow 1 0 1, headerRow 1 10 2, headerRow 1 30 3] :=
  ⟨_, _, rfl, rfl, @alternative_difficulty_eq_main Unit 1 1 (oneFork 1)
    (oneFork_built (by decide)) le_rfl (by decide) (by decide)
    [headerRow 1 0 1, headerRow 1 10 2, headerRow 1 20 3] [headerRow 1 30 3] [headerInfo 1 30 2 3]
    2 (by decide) (by decide) rfl rfl rfl _ _ rfl rfl⟩

/-- A first fork with another version than the original one: the alternative
path computes with the target of the original version. -/
theorem alternative_difficulty_ne_main : ∃ s t : HardFork × Db,
      Built 1 1 (oneFork 2) ∧ (∀ f ∈ (oneFork 2).heights, f.threshold = 0) ∧
      addBlocks ((oneFork 2).init Db.empty, Db.empty)
        ([headerRow 2 0 1, headerRow 2 10 2, headerRow 2 20 3].map Row.versions) = some s ∧
      addBlocks ((oneFork 2).init Db.empty, Db.empty)
        ([headerRow 2 0 1, headerRow 2 10 2, headerRow 2 30 3].map Row.versions) = some t ∧
      getNextDifficultyForAlternativeChain s.1
          [headerRow 2 0 1, headerRow 2 10 2, headerRow 2 20 3] [headerInfo 2 30 2 3] 3 = 3 ∧
      uncachedDifficulty (getDifficultyTarget t.1)
          [headerRow 2 0 1, headerRow 2 10 2, headerRow 2 30 3] = 6 :=
  ⟨_, _, oneFork_built (by decide), by decide, rfl, rfl, by decide, by decide⟩

end Monero.Blockchain
