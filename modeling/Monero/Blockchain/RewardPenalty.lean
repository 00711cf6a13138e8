import Monero.Blockchain.MinerTx
import Monero.Epee.IntUtil

/-!
# The penalty for a large block

`get_block_reward` with the words it computes in: a product of 128 bits that is
divided twice.  As long as twice the median has 64 bits it is `getBlockReward`, and
for medians below `2 ^ 32` it is the quadratic penalty, rounded down once.
-/

namespace Monero.Blockchain

open Monero.Epee

def baseBlockReward (alreadyGeneratedCoins : ℕ) (version : UInt8) : ℕ :=
  let targetMinutes := targetOfVersion version / 60
  let emissionSpeedFactor := emissionSpeedFactorPerMinute - (targetMinutes - 1)
  let baseReward := (moneySupply - alreadyGeneratedCoins) >>> emissionSpeedFactor
  if baseReward < finalSubsidyPerMinute * targetMinutes then finalSubsidyPerMinute * targetMinutes
  else baseReward

def getBlockReward64 (medianWeight currentBlockWeight alreadyGeneratedCoins : ℕ)
    (version : UInt8) : Option ℕ :=
  let baseReward := baseBlockReward alreadyGeneratedCoins version
  let fullRewardZone := getMinBlockWeight version
  let medianWeight := if medianWeight < fullRewardZone then fullRewardZone else medianWeight
  if currentBlockWeight ≤ medianWeight then some baseReward
  else if 2 * medianWeight % 2 ^ 64 < currentBlockWeight then none
  else
    let multiplicand := 2 * medianWeight % 2 ^ 64 - currentBlockWeight
    let multiplicand := multiplicand * currentBlockWeight % 2 ^ 64
    let (productLo, productHi) := mul128 baseReward multiplicand
    let (rewardLo, rewardHi) := div12864 productHi productLo medianWeight
    let (rewardLo, _) := div12864 rewardHi rewardLo medianWeight
    some rewardLo

lemma baseBlockReward_eq (coins : ℕ) (version : UInt8) :
    baseBlockReward coins version = max ((moneySupply - coins) /
      2 ^ (emissionSpeedFactorPerMinute - (targetOfVersion version / 60 - 1)))
        (finalSubsidyPerMinute * (targetOfVersion version / 60)) := by
  simp only [baseBlockReward, Nat.shiftRight_eq_div_pow]
  split_ifs <;> omega

lemma baseBlockReward_pos (coins : ℕ) (version : UInt8) : 0 < baseBlockReward coins version := by
  rw [baseBlockReward_eq, targetOfVersion]
  refine lt_of_lt_of_le ?_ (le_max_right _ _)
  split_ifs <;> decide

lemma baseBlockReward_lt (coins : ℕ) (version : UInt8) :
    baseBlockReward coins version < 2 ^ 64 := by
  have hreward : getBlockReward 0 0 coins version = some (baseBlockReward coins version) := by
    rw [baseBlockReward_eq, getBlockReward]
    exact if_pos (Nat.zero_le _)
  exact (getBlockReward_lt hreward).trans (by decide)

lemma div12864_twice {base multiplicand median : ℕ} (hbase : base < 2 ^ 64)
    (hmultiplicand : multiplicand ≤ median * median) (hword : multiplicand < 2 ^ 64) :
    (div12864 (div12864 (mul128 base multiplicand).2 (mul128 base multiplicand).1 median).2
      (div12864 (mul128 base multiplicand).2 (mul128 base multiplicand).1 median).1 median).1 =
        base * multiplicand / (median * median) := by
  have hproduct := mul_le_of_lt hbase hword
  have hquotient : base * multiplicand / median ≤ base * multiplicand := Nat.div_le_self _ _
  have hle : base * multiplicand / (median * median) ≤ base := by
    apply Nat.div_le_of_le_mul
    calc
      base * multiplicand ≤ base * (median * median) := Nat.mul_le_mul_left base hmultiplicand
      _ = median * median * base := Nat.mul_comm _ _
  rw [multipliesWords_mul128 base multiplicand hbase hword]
  dsimp only
  rw [div12864_eq (by omega) (Nat.mod_lt _ (by decide)), Nat.div_add_mod']
  dsimp only
  rw [div12864_eq (by omega) (Nat.mod_lt _ (by decide)), Nat.div_add_mod', Nat.div_div_eq_div_mul]
  exact Nat.mod_eq_of_lt (hle.trans_lt hbase)

/-! ## The quadratic -/

lemma penalty_lt_square {median weight : ℕ} (hlt : median < weight) (hle : weight ≤ 2 * median) :
    weight * (2 * median - weight) < median * median := by
  obtain ⟨excess, rfl⟩ := Nat.exists_eq_add_of_lt hlt
  zify [hle]
  nlinarith [sq_nonneg ((excess : ℤ) + 1)]

lemma penalty_antitone {median weight weight' : ℕ} (hlt : median < weight) (hle : weight ≤ weight')
    (hle' : weight' ≤ 2 * median) :
    weight' * (2 * median - weight') ≤ weight * (2 * median - weight) := by
  zify [hle', hle.trans hle']
  have hmedian : (median : ℤ) < weight := by exact_mod_cast hlt
  have hweight : (weight : ℤ) ≤ weight' := by exact_mod_cast hle
  nlinarith [mul_nonneg (sub_nonneg.mpr hweight)
    (by linarith : (0 : ℤ) ≤ weight + weight' - 2 * median)]

section

variable {medianWeight coins : ℕ} {version : UInt8}

lemma softMedian_eq : (if medianWeight < getMinBlockWeight version then getMinBlockWeight version
    else medianWeight) = max medianWeight (getMinBlockWeight version) := by
  split_ifs <;> omega

/-- The two models of `get_block_reward` agree. -/
theorem getBlockReward64_eq_getBlockReward
    (hmedian : 2 * max medianWeight (getMinBlockWeight version) < 2 ^ 64) (weight : ℕ) :
    getBlockReward64 medianWeight weight coins version =
      getBlockReward medianWeight weight coins version := by
  simp only [getBlockReward64, getBlockReward, softMedian_eq, baseBlockReward_eq]
  have hbase := baseBlockReward_lt coins version
  rw [baseBlockReward_eq] at hbase
  generalize max medianWeight (getMinBlockWeight version) = median at *
  rw [Nat.mod_eq_of_lt hmedian]
  split_ifs with hfull hnone
  · rfl
  · rfl
  · have hsquare : (2 * median - weight) * weight % 2 ^ 64 ≤ median * median :=
      calc (2 * median - weight) * weight % 2 ^ 64
          ≤ weight * (2 * median - weight) := (Nat.mod_le _ _).trans (Nat.mul_comm _ _).le
        _ ≤ median * median := (penalty_lt_square (not_le.mp hfull) (not_lt.mp hnone)).le
    rw [div12864_twice hbase hsquare (Nat.mod_lt _ (by decide)), Nat.div_div_eq_div_mul]

lemma getBlockReward64_eq {weight : ℕ}
    (hmedian : max medianWeight (getMinBlockWeight version) < 2 ^ 32)
    (hlt : max medianWeight (getMinBlockWeight version) < weight)
    (hle : weight ≤ 2 * max medianWeight (getMinBlockWeight version)) :
    getBlockReward64 medianWeight weight coins version = some (baseBlockReward coins version *
      (weight * (2 * max medianWeight (getMinBlockWeight version) - weight)) /
        max medianWeight (getMinBlockWeight version) ^ 2) := by
  rw [getBlockReward64_eq_getBlockReward (by omega)]
  simp only [getBlockReward, baseBlockReward_eq]
  generalize max medianWeight (getMinBlockWeight version) = median at *
  have hword : weight * (2 * median - weight) < 2 ^ 64 :=
    calc weight * (2 * median - weight) < median * median := penalty_lt_square hlt hle
      _ < 2 ^ 32 * 2 ^ 32 := Nat.mul_lt_mul'' hmedian hmedian
      _ = 2 ^ 64 := rfl
  rw [if_neg (by omega), if_neg (by omega), Nat.mul_comm (2 * median - weight),
    Nat.mod_eq_of_lt hword, Nat.div_div_eq_div_mul, sq]

/-- A block above the median loses a part of its reward that grows with its weight, and one above
twice the median has none. -/
theorem penalty_exact (hmedian : max medianWeight (getMinBlockWeight version) < 2 ^ 32) :
    (∀ weight ≤ max medianWeight (getMinBlockWeight version),
      getBlockReward64 medianWeight weight coins version = some (baseBlockReward coins version)) ∧
    (∀ weight, max medianWeight (getMinBlockWeight version) < weight →
      weight ≤ 2 * max medianWeight (getMinBlockWeight version) →
      ∃ reward, getBlockReward64 medianWeight weight coins version = some reward ∧
        reward = baseBlockReward coins version *
          weight * (2 * max medianWeight (getMinBlockWeight version) - weight) /
            max medianWeight (getMinBlockWeight version) ^ 2 ∧
        reward < baseBlockReward coins version ∧
        ∀ weight' reward', weight ≤ weight' →
          weight' ≤ 2 * max medianWeight (getMinBlockWeight version) →
          getBlockReward64 medianWeight weight' coins version = some reward' → reward' ≤ reward) ∧
    ∀ weight, 2 * max medianWeight (getMinBlockWeight version) < weight →
      getBlockReward64 medianWeight weight coins version = none := by
  refine ⟨fun weight hweight ↦ ?_, fun weight hlt hle ↦ ?_, fun weight hweight ↦ ?_⟩
  · simp only [getBlockReward64, softMedian_eq]
    rw [if_pos hweight]
  · refine ⟨_, getBlockReward64_eq hmedian hlt hle, by rw [Nat.mul_assoc], ?_, ?_⟩
    · rw [sq]
      refine Nat.div_lt_of_lt_mul ?_
      rw [Nat.mul_comm _ (baseBlockReward coins version)]
      exact Nat.mul_lt_mul_of_pos_left (penalty_lt_square hlt hle)
        (baseBlockReward_pos coins version)
    · intro weight' reward' hweight hle' hreward
      rw [getBlockReward64_eq hmedian (hlt.trans_le hweight) hle'] at hreward
      cases hreward
      exact Nat.div_le_div_right (Nat.mul_le_mul_left _ (penalty_antitone hlt hweight hle'))
  · simp only [getBlockReward64, softMedian_eq]
    generalize max medianWeight (getMinBlockWeight version) = median at *
    rw [if_neg (by omega), Nat.mod_eq_of_lt (by omega), if_pos hweight]

theorem penalty_exact_sample : ∃ reward, getBlockReward64 0 450000 0 16 = some reward ∧
      reward = baseBlockReward 0 16 * 450000 * (2 * max 0 (getMinBlockWeight 16) - 450000) /
        max 0 (getMinBlockWeight 16) ^ 2 ∧ reward < baseBlockReward 0 16 := by
  obtain ⟨reward, hreward, heq, hlt, -⟩ :=
    (@penalty_exact 0 0 16 (by decide)).2.1 450000 (by decide) (by decide)
  exact ⟨reward, hreward, heq, hlt⟩

end

end Monero.Blockchain
