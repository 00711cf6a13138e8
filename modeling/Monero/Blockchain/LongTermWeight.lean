import Monero.Blockchain.Chain
import Monero.Epee.RollingInsert

/-!
# The cached median of the long-term weights

`get_long_term_block_weight_median` keeps a rolling median together with the
hash of the top block it was filled for.  The median is reused for the same
top block, extended for a child of it, and filled anew otherwise.
-/

namespace Monero.Blockchain

open Monero.Epee
open RollingMedian (clear_N new clear_holds)

def grantedFullRewardZoneV1 : ℕ := 20000

def grantedFullRewardZoneV2 : ℕ := 60000

def grantedFullRewardZoneV5 : ℕ := 300000

def rewardBlocksWindow : ℕ := 100

def longTermBlockWeightWindowSize : ℕ := 100000

def shortTermBlockWeightSurgeFactor : ℕ := 50

def hfVersionLongTermBlockWeight : UInt8 := 10

def hfVersion2021Scaling : UInt8 := 15

def getMinBlockWeight (version : UInt8) : ℕ :=
  if version < 2 then grantedFullRewardZoneV1
  else if version < 5 then grantedFullRewardZoneV2
  else grantedFullRewardZoneV5

structure WeightState (β H : Type*) where
  chain : List (Row β)
  version : UInt8
  cacheTipHash : H
  cacheRollingMedian : RollingMedian ℕ
  longTermEffectiveMedianBlockWeight : ℕ
  currentBlockCumulWeightMedian : ℕ
  currentBlockCumulWeightLimit : ℕ

namespace WeightState

variable {β H : Type*} [DecidableEq H] (s : WeightState β H)

def getLastNBlocksWeights (count : ℕ) : List ℕ :=
  readRange Row.weight s.chain (s.chain.length - min s.chain.length count) s.chain.length

variable (hash : List (Row β) → H)

def getBlockHashFromHeight (s : WeightState β H) (height : ℕ) : H :=
  hash (s.chain.take (height + 1))

/-- `none` is the exception for a count of zero. -/
def getLongTermBlockWeightMedian (s : WeightState β H) (startHeight count : ℕ) :
    Option (WeightState β H × ℕ) :=
  if count = 0 then none
  else
    let tipHeight := startHeight + count - 1
    let tipHash :=
      if tipHeight < s.chain.length then s.getBlockHashFromHeight hash tipHeight else hash []
    let rmsize := s.cacheRollingMedian.size
    if tipHeight < s.chain.length ∧ count = rmsize ∧ tipHash = s.cacheTipHash then
      some (s, s.cacheRollingMedian.median)
    else if 0 < tipHeight ∧ tipHeight < s.chain.length ∧
        (count = rmsize ∨ count = rmsize + 1 ∧ rmsize < longTermBlockWeightWindowSize) ∧
        s.getBlockHashFromHeight hash (tipHeight - 1) = s.cacheTipHash then
      let rm := s.cacheRollingMedian.insert (getBlockLongTermWeight s.chain tipHeight)
      some ({ s with cacheTipHash := tipHash, cacheRollingMedian := rm }, rm.median)
    else
      let weights := readRange Row.longTermWeight s.chain startHeight (startHeight + count)
      let rm := weights.foldl RollingMedian.insert s.cacheRollingMedian.clear
      some ({ s with cacheTipHash := tipHash, cacheRollingMedian := rm }, rm.median)

/-- The call as both callers make it: the last blocks, up to the window. -/
def longTermMedian (window : ℕ) (s : WeightState β H) : Option (WeightState β H × ℕ) :=
  let nblocks := min window s.chain.length
  s.getLongTermBlockWeightMedian hash (s.chain.length - nblocks) nblocks

def getNextLongTermBlockWeight (window : ℕ) (s : WeightState β H)
    (blockWeight : ℕ) : Option (WeightState β H × ℕ) :=
  if s.version < hfVersionLongTermBlockWeight then some (s, blockWeight)
  else do
    let (s', longTermMedian) ← s.longTermMedian hash window
    let effective := max grantedFullRewardZoneV5 longTermMedian
    if hfVersion2021Scaling ≤ s.version then
      return (s', min (max blockWeight (effective * 10 / 17)) (effective + effective * 7 / 10))
    else return (s', min blockWeight (effective + effective * 2 / 5))

def setLimit (median : ℕ) : WeightState β H :=
  let median := max median (getMinBlockWeight s.version)
  { s with currentBlockCumulWeightMedian := median, currentBlockCumulWeightLimit := median * 2 }

def updateNextCumulativeWeightLimit (window : ℕ) (s : WeightState β H) :
    Option (WeightState β H) :=
  if s.version < hfVersionLongTermBlockWeight then
    some (s.setLimit (Epee.median (s.getLastNBlocksWeights rewardBlocksWindow)))
  else do
    let (s', longTermMedian) ← s.longTermMedian hash window
    let effective := max grantedFullRewardZoneV5 longTermMedian
    let shortTermMedian := Epee.median (s'.getLastNBlocksWeights rewardBlocksWindow)
    let lower := if hfVersion2021Scaling ≤ s.version then effective else grantedFullRewardZoneV5
    let median := min (max lower shortTermMedian) (shortTermBlockWeightSurgeFactor * effective)
    return { s' with longTermEffectiveMedianBlockWeight := effective }.setLimit median

variable {hash} {window : ℕ} {s' s : WeightState β H}

lemma longTermMedian_chain {m : ℕ}
    (h : s.longTermMedian hash window = some (s', m)) : s'.chain = s.chain := by
  simp only [longTermMedian, getLongTermBlockWeightMedian] at h
  split_ifs at h <;> cases h <;> rfl

lemma longTermMedian_version {m : ℕ}
    (h : s.longTermMedian hash window = some (s', m)) : s'.version = s.version := by
  simp only [longTermMedian, getLongTermBlockWeightMedian] at h
  split_ifs at h <;> cases h <;> rfl

lemma updateNextCumulativeWeightLimit_chain
    (h : s.updateNextCumulativeWeightLimit hash window = some s') : s'.chain = s.chain := by
  by_cases hold : s.version < hfVersionLongTermBlockWeight
  · rw [updateNextCumulativeWeightLimit, if_pos hold] at h
    cases h
    rfl
  · rw [updateNextCumulativeWeightLimit, if_neg hold] at h
    obtain ⟨⟨t, median⟩, hmedian, ht⟩ := Option.bind_eq_some_iff.mp h
    cases ht
    have hchain : t.chain = s.chain := longTermMedian_chain hmedian
    exact hchain

lemma updateNextCumulativeWeightLimit_isSome (hwindow : 0 < window) (hne : s.chain ≠ []) :
    ∃ s', s.updateNextCumulativeWeightLimit hash window = some s' := by
  have hmedian : ∃ r, s.longTermMedian hash window = some r := by
    have hcount : ¬min window s.chain.length = 0 := by
      have hpos := List.length_pos_iff.mpr hne
      omega
    simp only [longTermMedian, getLongTermBlockWeightMedian, if_neg hcount]
    split_ifs <;> exact ⟨_, rfl⟩
  obtain ⟨r, hr⟩ := hmedian
  rw [updateNextCumulativeWeightLimit, hr]
  split_ifs <;> exact ⟨_, rfl⟩

lemma getD_update_chain (hash : List (Row β) → H) (window : ℕ) (s : WeightState β H) :
    ((s.updateNextCumulativeWeightLimit hash window).getD s).chain = s.chain := by
  cases h : s.updateNextCumulativeWeightLimit hash window with
  | none => rfl
  | some s' => exact updateNextCumulativeWeightLimit_chain h

end WeightState

/-- A block for the main chain as far as its long-term weight is concerned;
`stored` is `false` when a later step of the addition fails. -/
structure WeightedBlock (β : Type*) where
  block : β
  versions : HardFork.BlockVersions
  timestamp : ℕ
  weight : ℕ
  cumulativeDifficulty : ℕ
  alreadyGeneratedCoins : ℕ
  stored : Bool
  versionAfter : UInt8

def WeightedBlock.row {β : Type*} (b : WeightedBlock β) (longTermWeight : ℕ) : Row β where
  block := b.block
  versions := b.versions
  timestamp := b.timestamp
  weight := b.weight
  longTermWeight := longTermWeight
  cumulativeDifficulty := b.cumulativeDifficulty
  alreadyGeneratedCoins := b.alreadyGeneratedCoins

/-- What happens to the chain and the cache.  A reorganisation pops blocks,
updates the limit and adds blocks; a batch that is aborted goes back to an
earlier chain. -/
inductive WeightOp (β : Type*) where
  | addBlock (b : WeightedBlock β)
  | popBlock (version : UInt8)
  | abortBatch (chain : List (Row β))
  | updateLimit

namespace WeightState

variable {β H : Type*} [DecidableEq H]

/-- A step that throws leaves the state as it is. -/
def step (hash : List (Row β) → H) (window : ℕ) (s : WeightState β H) :
    WeightOp β → WeightState β H
  | .addBlock b =>
    match s.getNextLongTermBlockWeight hash window b.weight with
    | none => s
    | some (s', longTermWeight) =>
      if b.stored then
        let s'' := { s' with
          chain := s'.chain ++ [b.row longTermWeight], version := b.versionAfter }
        (s''.updateNextCumulativeWeightLimit hash window).getD s''
      else s'
  | .popBlock version =>
    if s.chain.length ≤ 1 then s else { s with chain := s.chain.dropLast, version := version }
  | .abortBatch chain => { s with chain := chain }
  | .updateLimit => (s.updateNextCumulativeWeightLimit hash window).getD s

def run (hash : List (Row β) → H) (window : ℕ) (s : WeightState β H) (ops : List (WeightOp β)) :
    WeightState β H :=
  ops.foldl (step hash window) s

def start (nullHash : H) (chain : List (Row β)) (version : UInt8) (rm : RollingMedian ℕ) :
    WeightState β H where
  chain := chain
  version := version
  cacheTipHash := nullHash
  cacheRollingMedian := rm
  longTermEffectiveMedianBlockWeight := 0
  currentBlockCumulWeightMedian := 0
  currentBlockCumulWeightLimit := 0

end WeightState

/-! ## The cache is transparent

The rolling median always holds the last long-term weights of the chain whose
top hash is kept with it.  This does not mention the current chain, so no
change of the chain can break it. -/

open Monero.Lib List

namespace WeightState

variable {β H : Type*} {hash : List (Row β) → H} {window : ℕ} {s s' : WeightState β H}

def Cached (hash : List (Row β) → H) (window : ℕ) (s : WeightState β H) : Prop :=
  ∃ (X : List (Row β)) (xs : List ℕ), s.cacheTipHash = hash X ∧
    s.cacheRollingMedian.N = window ∧ s.cacheRollingMedian.Holds xs ∧
      xs.rtake window = (X.map Row.longTermWeight).rtake window

lemma median_of_holds {rm : RollingMedian ℕ} {xs : List ℕ} (hw : 1 ≤ window)
    (hN : rm.N = window) (h : rm.Holds xs) {chain : List (Row β)} (hne : chain ≠ [])
    (hxs : xs.rtake window = (chain.map Row.longTermWeight).rtake window) :
    rm.median = Epee.median ((chain.map Row.longTermWeight).rtake window) := by
  have hlen := congrArg length hxs
  rw [length_rtake, length_rtake, length_map] at hlen
  have hpos := length_pos_iff.mpr hne
  have hxs' : xs ≠ [] := by
    rintro rfl
    simp only [length_nil] at hlen
    omega
  rw [h.median_eq (by omega) hxs', hN, hxs]

lemma rtake_concat_congr (hw : 1 ≤ window) {xs ys : List ℕ} (h : xs.rtake window = ys.rtake window)
    (x : ℕ) : (xs ++ [x]).rtake window = (ys ++ [x]).rtake window := by
  rw [rtake_concat hw, rtake_concat hw, h]

variable [DecidableEq H]

lemma longTermMedian_spec (hinj : Function.Injective hash) (hw : 1 ≤ window)
    (h : Cached hash window s) (hne : s.chain ≠ []) :
    ∃ s' xs, s.longTermMedian hash window =
        some (s', Epee.median ((s.chain.map Row.longTermWeight).rtake window)) ∧
      s'.cacheTipHash = hash s.chain ∧ s'.cacheRollingMedian.N = window ∧
      s'.cacheRollingMedian.Holds xs ∧
        xs.rtake window = (s.chain.map Row.longTermWeight).rtake window := by
  obtain ⟨X, xs, hkey, hN, hholds, hxs⟩ := h
  have hpos := length_pos_iff.mpr hne
  have hcount : min window s.chain.length ≠ 0 := by omega
  have htip : s.chain.length - min window s.chain.length + min window s.chain.length - 1 =
      s.chain.length - 1 := by
    omega
  have hlt : s.chain.length - 1 < s.chain.length := by omega
  have hhash : s.getBlockHashFromHeight hash (s.chain.length - 1) = hash s.chain := by
    rw [getBlockHashFromHeight, Nat.sub_add_cancel hpos, take_length]
  simp only [longTermMedian, getLongTermBlockWeightMedian, hcount, htip, hlt, hhash, if_true,
    if_false, true_and]
  split_ifs with hhit hchild
  · -- the cached top block is the current one
    obtain rfl : s.chain = X := hinj (hhit.2.trans hkey)
    exact ⟨s, xs, by rw [median_of_holds hw hN hholds hne hxs], hkey, hN, hholds, hxs⟩
  · -- the cached top block is the parent: one insertion slides the window
    obtain ⟨hlong, _, hparent⟩ := hchild
    rw [getBlockHashFromHeight, Nat.sub_add_cancel hlong] at hparent
    obtain rfl : s.chain.take (s.chain.length - 1) = X := hinj (hparent.trans hkey)
    have hsplit : s.chain.take (s.chain.length - 1) ++ [s.chain.getLast hne] = s.chain := by
      rw [← dropLast_eq_take, dropLast_append_getLast]
    have hrow : getBlockLongTermWeight s.chain (s.chain.length - 1) =
        (s.chain.getLast hne).longTermWeight :=
      readAt_eq (by rw [← getLast?_eq_getElem?, getLast?_eq_some_getLast hne])
    have hxs' : (xs ++ [(s.chain.getLast hne).longTermWeight]).rtake window =
        (s.chain.map Row.longTermWeight).rtake window := by
      rw [rtake_concat_congr hw hxs]
      conv_rhs => rw [← hsplit, map_append, map_singleton]
    have hholds' := hholds.insert (hN ▸ hw) (s.chain.getLast hne).longTermWeight
    have hN' := (RollingMedian.insert_N hholds (hN ▸ hw)
      (s.chain.getLast hne).longTermWeight).trans hN
    rw [hrow]
    exact ⟨_, _, by rw [median_of_holds hw hN' hholds' hne hxs'], rfl, hN', hholds', hxs'⟩
  · -- filled anew
    have hweights : readRange Row.longTermWeight s.chain
        (s.chain.length - min window s.chain.length)
        (s.chain.length - min window s.chain.length + min window s.chain.length) =
          (s.chain.map Row.longTermWeight).rtake window := by
      rw [Nat.sub_add_cancel (min_le_right _ _), readRange_eq _ le_rfl, rtake,
        length_map, ← length_map Row.longTermWeight, take_length, length_map,
        show s.chain.length - min window s.chain.length = s.chain.length - window by omega]
    have hclear := clear_holds s.cacheRollingMedian (hN ▸ hw)
    obtain ⟨hholds', hN'⟩ := hclear.foldl_insert
      (by rw [clear_N, hN]; exact hw) ((s.chain.map Row.longTermWeight).rtake window)
    rw [nil_append] at hholds'
    rw [clear_N, hN] at hN'
    have hxs' := rtake_rtake (l := s.chain.map Row.longTermWeight) (le_refl window)
    rw [hweights]
    exact ⟨_, _, by rw [median_of_holds hw hN' hholds' hne hxs'], rfl, hN', hholds', hxs'⟩

lemma longTermMedian_nil (hash : List (Row β) → H) (window : ℕ) (h : s.chain = []) :
    s.longTermMedian hash window = none := by
  simp [longTermMedian, getLongTermBlockWeightMedian, h]

section

variable (hinj : Function.Injective hash) (hw : 1 ≤ window) (h : Cached hash window s) {m : ℕ}

include hinj hw h

lemma Cached.longTermMedian (hm : s.longTermMedian hash window = some (s', m)) :
    Cached hash window s' := by
  rcases eq_or_ne s.chain [] with hnil | hne
  · rw [longTermMedian_nil hash window hnil] at hm
    cases hm
  · obtain ⟨t, xs, ht, hcached⟩ := longTermMedian_spec hinj hw h hne
    rw [ht] at hm
    cases hm
    exact ⟨s.chain, xs, hcached⟩

lemma Cached.getNextLongTermBlockWeight {blockWeight : ℕ}
    (hm : s.getNextLongTermBlockWeight hash window blockWeight = some (s', m)) :
    Cached hash window s' := by
  by_cases hold : s.version < hfVersionLongTermBlockWeight
  · rw [WeightState.getNextLongTermBlockWeight, if_pos hold] at hm
    cases hm
    exact h
  · rw [WeightState.getNextLongTermBlockWeight, if_neg hold] at hm
    cases hmedian : s.longTermMedian hash window with
    | none => simp [hmedian] at hm
    | some r =>
      obtain ⟨t, median⟩ := r
      have hcached := h.longTermMedian hinj hw hmedian
      simp only [hmedian, Option.bind_eq_bind, Option.bind_some] at hm
      split_ifs at hm <;> cases hm <;> exact hcached

lemma Cached.updateNextCumulativeWeightLimit
    (hs : s.updateNextCumulativeWeightLimit hash window = some s') : Cached hash window s' := by
  by_cases hold : s.version < hfVersionLongTermBlockWeight
  · rw [WeightState.updateNextCumulativeWeightLimit, if_pos hold] at hs
    cases hs
    exact h
  · rw [WeightState.updateNextCumulativeWeightLimit, if_neg hold] at hs
    cases hmedian : s.longTermMedian hash window with
    | none => simp [hmedian] at hs
    | some r =>
      obtain ⟨t, median⟩ := r
      have hcached := h.longTermMedian hinj hw hmedian
      simp only [hmedian, Option.bind_eq_bind, Option.bind_some] at hs
      cases hs
      exact hcached

lemma Cached.getD_update :
    Cached hash window ((s.updateNextCumulativeWeightLimit hash window).getD s) := by
  cases hs : s.updateNextCumulativeWeightLimit hash window with
  | none => exact h
  | some t => exact h.updateNextCumulativeWeightLimit hinj hw hs

lemma Cached.step (op : WeightOp β) : Cached hash window (s.step hash window op) := by
  cases op with
  | addBlock b =>
    rw [WeightState.step]
    cases hnext : s.getNextLongTermBlockWeight hash window b.weight with
    | none => exact h
    | some r =>
      obtain ⟨t, weight⟩ := r
      have ht := h.getNextLongTermBlockWeight hinj hw hnext
      simp only
      split_ifs
      · exact Cached.getD_update hinj hw ht
      · exact ht
  | popBlock version =>
    rw [WeightState.step]
    split_ifs <;> exact h
  | abortBatch chain => exact h
  | updateLimit => exact h.getD_update hinj hw

end

lemma Cached.run (hinj : Function.Injective hash) (hw : 1 ≤ window) (h : Cached hash window s)
    (ops : List (WeightOp β)) : Cached hash window (s.run hash window ops) := by
  induction ops generalizing s with
  | nil => exact h
  | cons op ops ih => exact ih (h.step hinj hw op)

/-- After any run on a chain that is not empty, the median for the last blocks
of the window is the median of their long-term weights. -/
theorem longTermMedian_transparent (hash : List (Row β) → H) (hinj : Function.Injective hash)
    (nullHash : H) (hnull : hash [] = nullHash) (window : ℕ) (hw : 1 ≤ window)
    (chain : List (Row β)) (version : UInt8) (data : ℕ → ℕ) (pos : ℕ → ℤ) (heap : ℤ → ℕ)
    (ops : List (WeightOp β)) (s : WeightState β H)
    (hs : s = (start nullHash chain version (new window data pos heap)).run hash
      window ops) (hne : s.chain ≠ []) (n : ℕ) (hn : n = min window s.chain.length) :
    ∃ s', s.getLongTermBlockWeightMedian hash (s.chain.length - n) n =
      some (s', Epee.median ((s.chain.map Row.longTermWeight).rtake n)) := by
  have hstart : Cached hash window
      (start nullHash chain version (new window data pos heap)) :=
    ⟨[], [], hnull.symm, clear_N _, clear_holds _ hw, rfl⟩
  have hrun := hstart.run hinj hw ops
  rw [← hs] at hrun
  obtain ⟨s', -, hmedian, -⟩ := longTermMedian_spec hinj hw hrun hne
  have hlast : (s.chain.map Row.longTermWeight).rtake n =
      (s.chain.map Row.longTermWeight).rtake window := by
    rw [rtake, rtake, length_map,
      show s.chain.length - n = s.chain.length - window by omega]
  rw [hlast]
  subst hn
  exact ⟨s', hmedian⟩

def weightOps : List (WeightOp Unit) :=
  let block (weight : ℕ) : WeightOp Unit := .addBlock ⟨(), ⟨10, 10⟩, 0, weight, 0, 0, true, 10⟩
  [block 5, block 400000, .popBlock 10, .updateLimit, block 7, block 9]

theorem longTermMedian_transparent_popped :
    ∃ s', ((start [] [] 1 (new 2 (fun _ ↦ 0) (fun _ ↦ 0) fun _ ↦ 0)).run id 2
        weightOps).getLongTermBlockWeightMedian id 1 2 =
      some (s', Epee.median [7, 9]) :=
  longTermMedian_transparent id Function.injective_id [] rfl 2 (by decide) [] 1 (fun _ ↦ 0)
    (fun _ ↦ 0) (fun _ ↦ 0) weightOps _ rfl (by decide) 2 (by decide)

end WeightState

end Monero.Blockchain
