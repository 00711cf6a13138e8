import Monero.Blockchain.MinerTx
import Monero.Blockchain.RoundMoney

/-!
# The fee a node asks for and the fee it estimates

`check_fee` rejects a transaction that pays less than the dynamic base fee per
byte, and `get_dynamic_base_fee_estimate_2021_scaling` tells a wallet what to
pay.  The check works with the long-term median of the last blocks.  The
estimate works with the median after some blocks without weight, in 64-bit
arithmetic that wraps around.
-/

namespace Monero.Blockchain

open Monero.Epee Monero.Lib List
open RollingMedian (new clear_N clear_holds)
open Nat (mod_eq_of_lt mod_le)
open Option (bind_eq_bind bind_some getD_some)

def dynamicFeeReferenceTransactionWeight : ℕ := 3000

def displayDecimalPoint : ℕ := 12

def perKbFeeQuantizationDecimals : ℕ := 8

def scaling2021FeeRoundingPlaces : ℕ := 2

def blockRewardOverestimate : ℕ := 10 * 1000000000000

def getFeeQuantizationMask : ℕ := 10 ^ (displayDecimalPoint - perKbFeeQuantizationDecimals)

def getDynamicBaseFee (blockReward medianBlockWeight : ℕ) : ℕ :=
  let medianBlockWeight := max medianBlockWeight grantedFullRewardZoneV5
  let lo := blockReward * dynamicFeeReferenceTransactionWeight / medianBlockWeight /
    medianBlockWeight % 2 ^ 64
  let lo := lo - lo / 20
  if lo = 0 then 1 else lo

/-- A division of 64-bit numbers; `none` is the trap for a divisor of zero. -/
def div64 (a b : ℕ) : Option ℕ := if b = 0 then none else some (a / b)

lemma div64_of_pos (a : ℕ) {b : ℕ} (hb : 0 < b) : div64 a b = some (a / b) := if_neg hb.ne'

/-- The static overload, on a reward and the two medians. -/
def getDynamicBaseFeeEstimate2021Scaling (baseReward Mnw Mlw : ℕ) : Option (List ℕ) := do
  let Mfw := min Mnw Mlw
  let Fl ← div64 (baseReward * dynamicFeeReferenceTransactionWeight % 2 ^ 64) (Mfw * Mfw % 2 ^ 64)
  let Fn ← div64 (4 * baseReward * dynamicFeeReferenceTransactionWeight % 2 ^ 64)
    (Mfw * Mfw % 2 ^ 64)
  let Fm ← div64 (16 * baseReward * dynamicFeeReferenceTransactionWeight % 2 ^ 64)
    (grantedFullRewardZoneV5 * Mfw % 2 ^ 64)
  let surge ← div64 (4 * Fm * Mfw % 2 ^ 64)
    (32 * dynamicFeeReferenceTransactionWeight * Mnw % 2 ^ 64 / grantedFullRewardZoneV5)
  let Fh := max (4 * Fm % 2 ^ 64) surge
  [Fl, Fn, Fm, Fh].mapM fun fee ↦ roundMoneyUp fee scaling2021FeeRoundingPlaces

namespace WeightState

variable {β H : Type*} (s : WeightState β H)

/-- Of the last block; `0` for an empty chain. -/
def alreadyGeneratedCoins : ℕ :=
  if s.chain.length ≠ 0 then getBlockAlreadyGeneratedCoins s.chain (s.chain.length - 1) else 0

def baseReward : Option ℕ :=
  getBlockReward (s.currentBlockCumulWeightLimit / 2) 1 s.alreadyGeneratedCoins s.version

def checkFee (txWeight fee : ℕ) : Bool :=
  let median := s.currentBlockCumulWeightLimit / 2
  match s.baseReward with
  | none => false
  | some baseReward =>
    let feePerByte :=
      getDynamicBaseFee baseReward (min median s.longTermEffectiveMedianBlockWeight)
    let neededFee := txWeight * feePerByte % 2 ^ 64
    let mask := getFeeQuantizationMask
    let neededFee := (neededFee + mask - 1) % 2 ^ 64 / mask * mask
    decide (neededFee - neededFee / 50 ≤ fee)

/-- The long-term median after `graceBlocks` blocks without weight, at least the
minimum penalty free zone. -/
def penaltyFreeZoneForWallet (graceBlocks : ℕ) : ℕ :=
  let rm := (replicate graceBlocks 0).foldl RollingMedian.insert s.cacheRollingMedian
  max (if rm.size = 0 then 0 else rm.median) grantedFullRewardZoneV5

/-- The member overload; `none` also stands for the exception for too many grace
blocks. -/
def getDynamicBaseFeeEstimate2021Scaling (s : WeightState β H) (graceBlocks : ℕ) :
    Option (List ℕ) :=
  if rewardBlocksWindow < graceBlocks then none
  else
    let Mlw := s.penaltyFreeZoneForWallet graceBlocks
    let weights := s.getLastNBlocksWeights (100 - graceBlocks) ++ replicate graceBlocks 0
    let Msw := max (Epee.median weights) Mlw
    let Mnw := min Msw (50 * Mlw % 2 ^ 64)
    Blockchain.getDynamicBaseFeeEstimate2021Scaling
      (s.baseReward.getD blockRewardOverestimate) Mnw Mlw

/-! ## The medians -/

variable {hash : List (Row β) → H} {window reward : ℕ} {s s' : WeightState β H} {fees : List ℕ}

lemma median_slide_zero_le (hw : 1 ≤ window) (xs : List ℕ) :
    Epee.median ((xs ++ [0]).rtake window) ≤ Epee.median (xs.rtake window) := by
  rw [rtake_concat hw]
  rcases Nat.lt_or_ge xs.length window with hshort | hfull
  · -- the window is not full, so the zero is one item more
    rw [rtake_rtake (Nat.sub_le window 1), rtake_eq_self (show xs.length ≤ window - 1 by omega),
      rtake_eq_self hshort.le, median_perm (perm_append_singleton 0 xs)]
    exact median_zero_cons_le xs
  · -- the oldest item goes out for the zero
    have hlen : (xs.rtake window).length = window := by
      rw [length_rtake]
      omega
    generalize xs.rtake window = ys at hlen
    cases ys with
    | nil =>
      simp only [length_nil] at hlen
      omega
    | cons a ys =>
      rw [length_cons] at hlen
      have htail : (a :: ys).rtake (window - 1) = ys := by
        rw [rtake, length_cons, show ys.length + 1 - (window - 1) = 1 by omega]
        rfl
      rw [htail, median_perm (perm_append_singleton 0 ys)]
      exact median_zero_cons_le_cons a ys

lemma median_zeros_le (hw : 1 ≤ window) (xs : List ℕ) (n : ℕ) :
    Epee.median ((xs ++ replicate n 0).rtake window) ≤ Epee.median (xs.rtake window) := by
  induction n with
  | zero => rw [replicate_zero, append_nil]
  | succ n ih =>
    rw [replicate_succ', ← append_assoc]
    exact (median_slide_zero_le hw _).trans ih

/-- What the state holds once the limit is updated at the current hard fork. -/
structure Updated (window : ℕ) (s : WeightState β H) : Prop where
  nonempty : s.chain ≠ []
  cached : s.cacheRollingMedian.N = window ∧ ∃ xs, s.cacheRollingMedian.Holds xs ∧
    xs.rtake window = (s.chain.map Row.longTermWeight).rtake window
  longTerm : s.longTermEffectiveMedianBlockWeight =
    max grantedFullRewardZoneV5 (Epee.median ((s.chain.map Row.longTermWeight).rtake window))
  longTerm_le : s.longTermEffectiveMedianBlockWeight ≤ s.currentBlockCumulWeightLimit / 2

lemma updated_of_update [DecidableEq H] (hinj : Function.Injective hash) (hw : 1 ≤ window)
    (h : Cached hash window s) (hversion : hfVersion2021Scaling ≤ s.version)
    (hs : s.updateNextCumulativeWeightLimit hash window = some s') :
    Updated window s' ∧ s'.version = s.version := by
  have hold : ¬s.version < hfVersionLongTermBlockWeight := by
    rw [UInt8.not_lt]
    exact UInt8.le_trans (show hfVersionLongTermBlockWeight ≤ hfVersion2021Scaling by decide)
      hversion
  rw [updateNextCumulativeWeightLimit, if_neg hold] at hs
  rcases eq_or_ne s.chain [] with hnil | hne
  · rw [longTermMedian_nil hash window hnil] at hs
    cases hs
  obtain ⟨t, xs, hmedian, -, hN, hholds, hxs⟩ := longTermMedian_spec hinj hw h hne
  have hchain := longTermMedian_chain hmedian
  have htversion : t.version = s.version := longTermMedian_version hmedian
  rw [hmedian] at hs
  simp only [bind_eq_bind, bind_some, if_pos hversion] at hs
  cases hs
  refine ⟨⟨?_, ⟨hN, xs, hholds, hchain ▸ hxs⟩, ?_, ?_⟩, htversion⟩
  · exact fun hnil ↦ hne (hchain ▸ hnil)
  · rw [← hchain]
    rfl
  · simp only [setLimit, shortTermBlockWeightSurgeFactor]
    omega

variable (window s) in
/-- The long-term median with `graceBlocks` more blocks without weight on the chain. -/
def medianAfter (graceBlocks : ℕ) : ℕ := max grantedFullRewardZoneV5
  (Epee.median ((s.chain.map Row.longTermWeight ++ replicate graceBlocks 0).rtake window))

lemma Updated.penaltyFreeZoneForWallet_eq (hw : 1 ≤ window) (h : Updated window s)
    (graceBlocks : ℕ) :
    s.penaltyFreeZoneForWallet graceBlocks = s.medianAfter window graceBlocks := by
  obtain ⟨hN, xs, hholds, hxs⟩ := h.cached
  obtain ⟨hholds', hN'⟩ := hholds.foldl_insert (by rwa [hN]) (replicate graceBlocks 0)
  have hlen := congrArg length hxs
  have hpos := length_pos_iff.mpr h.nonempty
  rw [length_rtake, length_rtake, length_map] at hlen
  have hne : 0 < (xs ++ replicate graceBlocks 0).length := by
    rw [length_append]
    omega
  simp only [penaltyFreeZoneForWallet, RollingMedian.size, hholds'.sz_eq, hN', hN]
  rw [if_neg (by omega), hholds'.median_eq (by rwa [hN', hN]) (length_pos_iff.mp hne), hN', hN,
    rtake_append_congr hxs, max_comm, medianAfter]

lemma Updated.medianAfter_le (hw : 1 ≤ window) (h : Updated window s) (graceBlocks : ℕ) :
    s.medianAfter window graceBlocks ≤ s.longTermEffectiveMedianBlockWeight := by
  rw [h.longTerm]
  exact max_le_max_left _ (median_zeros_le hw _ _)

lemma le_medianAfter (window graceBlocks : ℕ) :
    grantedFullRewardZoneV5 ≤ s.medianAfter window graceBlocks :=
  le_max_left _ _

/-! ## The fee per byte -/

lemma baseFee_le {median fee : ℕ} (hfee : fee ≠ 0)
    (h : reward * dynamicFeeReferenceTransactionWeight / (median * median) ≤ fee)
    (hmedian : grantedFullRewardZoneV5 ≤ median) : getDynamicBaseFee reward median ≤ fee := by
  simp only [getDynamicBaseFee, max_eq_left hmedian, Nat.div_div_eq_div_mul]
  have hmod := mod_le (reward * dynamicFeeReferenceTransactionWeight / (median * median)) (2 ^ 64)
  split_ifs
  · omega
  · omega

lemma getDynamicBaseFee_bounds (h : reward * dynamicFeeReferenceTransactionWeight < 2 ^ 58)
    (median : ℕ) :
    1 ≤ getDynamicBaseFee reward median ∧ getDynamicBaseFee reward median ≤ 2 ^ 58 := by
  simp only [getDynamicBaseFee, Nat.div_div_eq_div_mul]
  generalize max median grantedFullRewardZoneV5 = m
  have hlow : reward * dynamicFeeReferenceTransactionWeight / (m * m) % 2 ^ 64 < 2 ^ 58 :=
    calc reward * dynamicFeeReferenceTransactionWeight / (m * m) % 2 ^ 64
        ≤ reward * dynamicFeeReferenceTransactionWeight / (m * m) := mod_le _ _
      _ ≤ reward * dynamicFeeReferenceTransactionWeight := Nat.div_le_self _ _
      _ < 2 ^ 58 := h
  split_ifs <;> omega

lemma estimate_head {Mnw Mlw fee : ℕ}
    (h : Blockchain.getDynamicBaseFeeEstimate2021Scaling reward Mnw Mlw = some fees)
    (hfee : fees[0]? = some fee) :
    roundMoneyUp (reward * dynamicFeeReferenceTransactionWeight % 2 ^ 64 /
      (min Mnw Mlw * min Mnw Mlw % 2 ^ 64)) scaling2021FeeRoundingPlaces = some fee := by
  simp only [Blockchain.getDynamicBaseFeeEstimate2021Scaling, bind_eq_bind,
    Option.bind_eq_some_iff, div64] at h
  obtain ⟨Fl, hFl, Fn, _, Fm, _, surge, _, hround⟩ := h
  rw [mapM_cons] at hround
  simp only [bind_eq_bind, Option.bind_eq_some_iff] at hround
  obtain ⟨rounded, hrounded, rest, _, hfees⟩ := hround
  split_ifs at hFl
  cases hFl
  cases hfees
  cases hfee
  exact hrounded

lemma baseReward_lt (h : s.baseReward = some reward) :
    reward * dynamicFeeReferenceTransactionWeight < 2 ^ 58 := by
  have hlt := getBlockReward_lt h
  rw [dynamicFeeReferenceTransactionWeight]
  omega

/-- Below `2 ^ 32` no product for the lowest fee wraps around. -/
lemma Updated.estimate_lowest (hw : 1 ≤ window) (h : Updated window s) {graceBlocks fee : ℕ}
    (hreward : s.baseReward = some reward) (hnarrow : s.medianAfter window graceBlocks < 2 ^ 32)
    (hfees : s.getDynamicBaseFeeEstimate2021Scaling graceBlocks = some fees)
    (hfee : fees[0]? = some fee) :
    roundMoneyUp (reward * dynamicFeeReferenceTransactionWeight /
      (s.medianAfter window graceBlocks * s.medianAfter window graceBlocks))
        scaling2021FeeRoundingPlaces = some fee := by
  have hsmall := baseReward_lt hreward
  simp only [getDynamicBaseFeeEstimate2021Scaling, hreward, getD_some,
    h.penaltyFreeZoneForWallet_eq hw] at hfees
  split_ifs at hfees
  have hhead := estimate_head hfees hfee
  generalize s.medianAfter window graceBlocks = Mlw at *
  have hsquare : Mlw * Mlw < 2 ^ 64 := by nlinarith
  rw [mod_eq_of_lt (show 50 * Mlw < 2 ^ 64 by omega)] at hhead
  rwa [min_eq_right (by omega), mod_eq_of_lt (by omega), mod_eq_of_lt hsquare] at hhead

/-- The least multiple of the mask that is not below an amount. -/
def quantized (amount : ℕ) : ℕ :=
  (amount + getFeeQuantizationMask - 1) / getFeeQuantizationMask * getFeeQuantizationMask

lemma Updated.one_le_limit (h : Updated window s) : 1 ≤ s.currentBlockCumulWeightLimit / 2 := by
  calc
    1 ≤ s.longTermEffectiveMedianBlockWeight := h.longTerm ▸ le_max_of_le_left (by decide)
    _ ≤ s.currentBlockCumulWeightLimit / 2 := h.longTerm_le

lemma Updated.baseReward_isSome (h : Updated window s) : ∃ reward, s.baseReward = some reward := by
  simp only [baseReward, getBlockReward]
  exact ⟨_, if_pos (le_max_of_le_left h.one_le_limit)⟩

lemma Updated.checkFee_of_le (h : Updated window s) {fee : ℕ}
    (hreward : s.baseReward = some reward)
    (hfee : getDynamicBaseFee reward s.longTermEffectiveMedianBlockWeight ≤ fee) (txWeight : ℕ) :
    s.checkFee txWeight (quantized (txWeight * fee)) = true := by
  simp only [checkFee, hreward, min_eq_right h.longTerm_le, decide_eq_true_eq]
  generalize getDynamicBaseFee reward s.longTermEffectiveMedianBlockWeight = feePerByte at hfee
  refine (Nat.sub_le _ _).trans (Nat.mul_le_mul_right _ (Nat.div_le_div_right ?_))
  have hneeded : txWeight * feePerByte % 2 ^ 64 ≤ txWeight * fee := by
    calc
      txWeight * feePerByte % 2 ^ 64 ≤ txWeight * feePerByte := mod_le _ _
      _ ≤ txWeight * fee := Nat.mul_le_mul_left txWeight hfee
  exact (mod_le _ _).trans (by omega)

/-! ## The estimate is returned -/

lemma exists_estimate {Mnw Mlw : ℕ}
    (hreward : reward * dynamicFeeReferenceTransactionWeight < 2 ^ 58)
    (hMlw : grantedFullRewardZoneV5 ≤ Mlw) (hnarrow : Mlw < 2 ^ 29) (hle : Mlw ≤ Mnw)
    (hsurge : Mnw ≤ 50 * Mlw) :
    ∃ fees fee, Blockchain.getDynamicBaseFeeEstimate2021Scaling reward Mnw Mlw = some fees ∧
      fees[0]? = some fee := by
  rw [grantedFullRewardZoneV5] at hMlw
  have hround : ∀ a, a < 2 ^ 63 → ∃ r, roundMoneyUp a scaling2021FeeRoundingPlaces = some r :=
    fun a ha ↦ roundMoneyUp_isSome (by decide) ha
  have hsquare : 0 < Mlw * Mlw % 2 ^ 64 := by
    rw [mod_eq_of_lt (by nlinarith)]
    positivity
  have hzone : 2 ^ 36 ≤ grantedFullRewardZoneV5 * Mlw % 2 ^ 64 := by
    rw [grantedFullRewardZoneV5, mod_eq_of_lt (by omega)]
    omega
  have hspan : 0 < 32 * dynamicFeeReferenceTransactionWeight * Mnw % 2 ^ 64 /
      grantedFullRewardZoneV5 := by
    rw [dynamicFeeReferenceTransactionWeight, grantedFullRewardZoneV5,
      mod_eq_of_lt (by omega)]
    omega
  have hFm : 16 * reward * dynamicFeeReferenceTransactionWeight % 2 ^ 64 /
      (grantedFullRewardZoneV5 * Mlw % 2 ^ 64) < 2 ^ 28 := by
    apply Nat.div_lt_of_lt_mul
    calc 16 * reward * dynamicFeeReferenceTransactionWeight % 2 ^ 64 < 2 ^ 36 * 2 ^ 28 :=
          Nat.mod_lt _ (by norm_num)
      _ ≤ grantedFullRewardZoneV5 * Mlw % 2 ^ 64 * 2 ^ 28 := Nat.mul_le_mul_right _ hzone
  have hFh : ∀ Fm < 2 ^ 28, max (4 * Fm % 2 ^ 64) (4 * Fm * Mlw % 2 ^ 64 /
      (32 * dynamicFeeReferenceTransactionWeight * Mnw % 2 ^ 64 / grantedFullRewardZoneV5)) <
        2 ^ 63 := by
    intro Fm hFm
    refine max_lt (by omega) ((Nat.div_le_self _ _).trans_lt ?_)
    calc
      4 * Fm * Mlw % 2 ^ 64 ≤ 4 * Fm * Mlw := mod_le _ _
      _ < 2 ^ 30 * 2 ^ 29 := Nat.mul_lt_mul'' (by omega) hnarrow
      _ < 2 ^ 63 := by norm_num
  obtain ⟨low, hlow⟩ := hround (reward * dynamicFeeReferenceTransactionWeight % 2 ^ 64 /
    (Mlw * Mlw % 2 ^ 64)) ((Nat.div_le_self _ _).trans_lt ((mod_le _ _).trans_lt (by omega)))
  obtain ⟨normal, hnormal⟩ := hround (4 * reward * dynamicFeeReferenceTransactionWeight % 2 ^ 64 /
    (Mlw * Mlw % 2 ^ 64)) ((Nat.div_le_self _ _).trans_lt ((mod_le _ _).trans_lt
      (by rw [Nat.mul_assoc]; omega)))
  obtain ⟨medium, hmedium⟩ := hround _ (hFm.trans (by norm_num))
  obtain ⟨high, hhigh⟩ := hround _ (hFh _ hFm)
  refine ⟨[low, normal, medium, high], low, ?_, rfl⟩
  simp only [Blockchain.getDynamicBaseFeeEstimate2021Scaling, min_eq_right hle,
    div64_of_pos _ hsquare,
      div64_of_pos _ (show 0 < grantedFullRewardZoneV5 * Mlw % 2 ^ 64 by omega),
    div64_of_pos _ hspan, bind_eq_bind, bind_some, mapM_cons, hlow, hnormal,
    hmedium, hhigh, mapM_nil, Option.pure_def]

section

variable (hw : 1 ≤ window) (h : Updated window s) (hreward : s.baseReward = some reward)
  {graceBlocks : ℕ}

include hw h hreward

lemma Updated.estimate_isSome (hgrace : graceBlocks ≤ rewardBlocksWindow)
    (hnarrow : s.medianAfter window graceBlocks < 2 ^ 29) :
    ∃ fees fee, s.getDynamicBaseFeeEstimate2021Scaling graceBlocks = some fees ∧
      fees[0]? = some fee := by
  have hzone := s.le_medianAfter window graceBlocks
  simp only [getDynamicBaseFeeEstimate2021Scaling, if_neg (not_lt.mpr hgrace), hreward, getD_some,
    h.penaltyFreeZoneForWallet_eq hw]
  generalize s.medianAfter window graceBlocks = Mlw at *
  rw [mod_eq_of_lt (show 50 * Mlw < 2 ^ 64 by omega)]
  exact exists_estimate (baseReward_lt hreward) hzone hnarrow (by omega) (min_le_right _ _)

variable (s graceBlocks) in
omit hw h hreward in
/-- Paying for each byte the lowest fee of the estimate passes the check. -/
def EstimatePasses : Prop :=
  ∃ fees fee, s.getDynamicBaseFeeEstimate2021Scaling graceBlocks = some fees ∧
    fees[0]? = some fee ∧ ∀ txWeight, 1 ≤ txWeight → txWeight * fee < 2 ^ 64 →
      s.checkFee txWeight (quantized (txWeight * fee)) = true

lemma Updated.estimatePasses (hgrace : graceBlocks ≤ rewardBlocksWindow)
    (hsquare : s.medianAfter window graceBlocks * s.medianAfter window graceBlocks ≤
      reward * dynamicFeeReferenceTransactionWeight) : s.EstimatePasses graceBlocks := by
  have hle := h.medianAfter_le hw graceBlocks
  have hzone := s.le_medianAfter window graceBlocks
  have hsmall := baseReward_lt hreward
  have hnarrow : s.medianAfter window graceBlocks < 2 ^ 29 := by
    by_contra hwide
    have := Nat.mul_le_mul (not_lt.mp hwide) (not_lt.mp hwide)
    omega
  obtain ⟨fees, fee, hfees, hfee⟩ := h.estimate_isSome hw hreward hgrace hnarrow
  have hlow := le_roundMoneyUp (h.estimate_lowest hw hreward (by omega) hfees hfee)
  refine ⟨fees, fee, hfees, hfee, fun txWeight _ _ ↦ h.checkFee_of_le hreward ?_ txWeight⟩
  have hpos : 0 < s.medianAfter window graceBlocks * s.medianAfter window graceBlocks :=
    Nat.mul_pos (Nat.zero_lt_of_lt hzone) (Nat.zero_lt_of_lt hzone)
  have hone := (Nat.one_le_div_iff hpos).mpr hsquare
  refine baseFee_le (by omega) ?_ (hzone.trans hle)
  calc
    reward * dynamicFeeReferenceTransactionWeight /
        (s.longTermEffectiveMedianBlockWeight * s.longTermEffectiveMedianBlockWeight) ≤
        reward * dynamicFeeReferenceTransactionWeight /
          (s.medianAfter window graceBlocks * s.medianAfter window graceBlocks) :=
      Nat.div_le_div_left (Nat.mul_le_mul hle hle) hpos
    _ ≤ fee := hlow

/-- The lowest fee of the estimate is then zero, and the check asks for one. -/
lemma Updated.not_estimatePasses (hnarrow : s.medianAfter window graceBlocks < 2 ^ 32)
    (hsquare : reward * dynamicFeeReferenceTransactionWeight <
      s.medianAfter window graceBlocks * s.medianAfter window graceBlocks) :
    ¬s.EstimatePasses graceBlocks := by
  rintro ⟨fees, fee, hfees, hfee, hpass⟩
  have hlow := h.estimate_lowest hw hreward hnarrow hfees hfee
  rw [Nat.div_eq_of_lt hsquare] at hlow
  have hzero : roundMoneyUp 0 scaling2021FeeRoundingPlaces = some 0 := by decide
  rw [hzero] at hlow
  cases hlow
  have hcheck := hpass 1 le_rfl (by decide)
  have hmask : getFeeQuantizationMask = 10000 := rfl
  obtain ⟨hpos, hle⟩ := getDynamicBaseFee_bounds (baseReward_lt hreward)
    s.longTermEffectiveMedianBlockWeight
  simp only [checkFee, hreward, min_eq_right h.longTerm_le, decide_eq_true_eq, quantized, hmask]
    at hcheck
  omega

end

/-! ## Chains of equal blocks -/

def evenRow (weight : ℕ) : Row Unit := ⟨(), ⟨16, 16⟩, 0, weight, weight, 0, 18300000000000000000⟩

def startedOn (window : ℕ) (chain : List (Row Unit)) : WeightState Unit (List (Row Unit)) :=
  start [] chain 16 (new window (fun _ ↦ 0) (fun _ ↦ 0) fun _ ↦ 0)

variable {s : WeightState Unit (List (Row Unit))}

lemma getLastNBlocksWeights_even {n weight : ℕ}
    (hchain : s.chain = replicate (n + 100) (evenRow weight)) :
    s.getLastNBlocksWeights 100 = replicate 100 weight := by
  rw [getLastNBlocksWeights, readRange_eq _ le_rfl, hchain, length_replicate,
    map_replicate, take_replicate, drop_replicate]
  simp [evenRow]

lemma Updated.baseReward_even {n weight : ℕ} (h : Updated window s) (hversion : s.version = 16)
    (hchain : s.chain = replicate (n + 1) (evenRow weight)) :
    s.baseReward = some 600000000000 := by
  have hcoins : s.alreadyGeneratedCoins = 18300000000000000000 := by
    rw [alreadyGeneratedCoins, hchain, length_replicate, if_pos (Nat.succ_ne_zero n)]
    exact readAt_eq (getElem?_replicate_of_lt (by omega))
  have hmedian := h.one_le_limit
  simp only [baseReward, getBlockReward, hcoins, hversion, if_pos (le_max_of_le_left hmedian)]
  decide +kernel

/-! ## What is paid by the estimate passes the check -/

end WeightState

end Monero.Blockchain
