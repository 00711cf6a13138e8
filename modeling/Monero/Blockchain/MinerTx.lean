import Monero.Blockchain.Difficulty
import Monero.Blockchain.LongTermWeight

/-!
# The miner transaction

The block reward, the checks on the miner transaction, and the number of coins
generated up to a block.
-/

namespace Monero.Blockchain

open Monero.Epee

def emissionSpeedFactorPerMinute : ℕ := 20

def finalSubsidyPerMinute : ℕ := 300000000000

def minedMoneyUnlockWindow : ℕ := 60

def hfVersionMinV2CoinbaseTx : UInt8 := 12

def hfVersionRejectSigsInCoinbase : UInt8 := 12

def hfVersionEffectiveShortTermMedianInPenalty : UInt8 := 12

def hfVersionExactCoinbase : UInt8 := 13

variable {K P H β : Type*}

/-- `none` is the return value `false`, for a block of more than twice the
median weight. -/
def getBlockReward (medianWeight currentBlockWeight alreadyGeneratedCoins : ℕ) (version : UInt8) :
    Option ℕ :=
  let targetMinutes := targetOfVersion version / 60
  let emissionSpeedFactor := emissionSpeedFactorPerMinute - (targetMinutes - 1)
  let baseReward := max ((moneySupply - alreadyGeneratedCoins) / 2 ^ emissionSpeedFactor)
    (finalSubsidyPerMinute * targetMinutes)
  let medianWeight := max medianWeight (getMinBlockWeight version)
  if currentBlockWeight ≤ medianWeight then some baseReward
  else if 2 * medianWeight < currentBlockWeight then none
  else
    let multiplicand := (2 * medianWeight - currentBlockWeight) * currentBlockWeight % 2 ^ 64
    some (baseReward * multiplicand / medianWeight / medianWeight)

lemma penalized_le (base median weight : ℕ) :
    base * ((2 * median - weight) * weight % 2 ^ 64) / median / median ≤ base := by
  have hsquare : (2 * median - weight) * weight ≤ median * median := by
    rcases Nat.le_total weight (2 * median) with hle | hle
    · zify [hle]
      nlinarith [sq_nonneg ((median : ℤ) - weight)]
    · rw [Nat.sub_eq_zero_of_le hle, Nat.zero_mul]
      exact Nat.zero_le _
  rw [Nat.div_div_eq_div_mul]
  apply Nat.div_le_of_le_mul
  calc base * ((2 * median - weight) * weight % 2 ^ 64)
      ≤ base * (median * median) := Nat.mul_le_mul_left _ ((Nat.mod_le _ _).trans hsquare)
    _ = median * median * base := Nat.mul_comm _ _

lemma getBlockReward_lt {medianWeight weight coins reward : ℕ} {version : UInt8}
    (h : getBlockReward medianWeight weight coins version = some reward) : reward < 2 ^ 46 := by
  have hbase : max ((moneySupply - coins) /
      2 ^ (emissionSpeedFactorPerMinute - (targetOfVersion version / 60 - 1)))
        (finalSubsidyPerMinute * (targetOfVersion version / 60)) < 2 ^ 46 := by
    rw [targetOfVersion]
    split_ifs
    all_goals
      simp only [moneySupply, emissionSpeedFactorPerMinute, finalSubsidyPerMinute,
        difficultyTargetV1, difficultyTargetV2]
      omega
  simp only [getBlockReward] at h
  split at h
  · cases h
    exact hbase
  · split at h
    · cases h
    · cases h
      exact (penalized_le _ _ _).trans_lt hbase

/-- The number is capped at `MONEY_SUPPLY`. -/
def addGeneratedCoins (alreadyGeneratedCoins reward : ℕ) : ℕ :=
  if reward < moneySupply - alreadyGeneratedCoins then alreadyGeneratedCoins + reward
  else moneySupply

/-- Dividing out the trailing zeros; a 64-bit number has at most twenty digits. -/
def stripTrailingZeros : ℕ → ℕ → ℕ
  | 0, amount => amount
  | fuel + 1, amount => if amount % 10 = 0 then stripTrailingZeros fuel (amount / 10) else amount

def isValidDecomposedAmount (amount : ℕ) : Bool :=
  if amount = 0 then false else stripTrailingZeros 20 amount < 10

def prevalidateMinerTransaction (b : BlockBody K P H) (height : ℕ) (hfVersion : UInt8) : Bool :=
  match b.minerTx.vin with
  | [.gen minerHeight] =>
    if ¬(1 < b.minerTx.version ∨ hfVersion < hfVersionMinV2CoinbaseTx) then false
    else if hfVersionRejectSigsInCoinbase ≤ hfVersion ∧ 2 ≤ b.minerTx.version ∧
        b.minerTx.rctType ≠ .null then false
    else if minerHeight ≠ height then false
    else if b.minerTx.unlockTime ≠ height + minedMoneyUnlockWindow then false
    else checkOutsOverflow b.minerTx && checkOutputTypes b.minerTx hfVersion
  | _ => false

/-- The median that the penalty for a large block is computed from. -/
def penaltyMedianWeight (s : WeightState β H) (version : UInt8) : ℕ :=
  if hfVersionEffectiveShortTermMedianInPenalty ≤ version then s.currentBlockCumulWeightMedian
  else median (s.getLastNBlocksWeights rewardBlocksWindow)

/-- The base reward, and whether the miner claims less than the full reward;
`none` is the return value `false`.  From version 2 to version 12 the base
reward is what is claimed above the fees. -/
def validateMinerTransaction (s : WeightState β H) (minerTx : Transaction K P)
    (cumulativeBlockWeight fee alreadyGeneratedCoins : ℕ) (version : UInt8) : Option (ℕ × Bool) :=
  let moneyInUse := getOutsMoneyAmount minerTx
  if version = 3 ∧ ¬minerTx.vout.all fun o ↦ isValidDecomposedAmount o.amount then none
  else
    match getBlockReward (penaltyMedianWeight s version) cumulativeBlockWeight
        alreadyGeneratedCoins version with
    | none => none
    | some baseReward =>
      if (baseReward + fee) % 2 ^ 64 < moneyInUse then none
      else if version < 2 ∨ hfVersionExactCoinbase ≤ version then
        if (baseReward + fee) % 2 ^ 64 ≠ moneyInUse then none else some (baseReward, false)
      else
        let claimed := (moneyInUse + 2 ^ 64 - fee) % 2 ^ 64
        if baseReward < claimed then none
        else some (claimed, (baseReward + fee) % 2 ^ 64 ≠ moneyInUse)

lemma addGeneratedCoins_eq {coins : ℕ} (h : coins ≤ moneySupply) (reward : ℕ) :
    addGeneratedCoins coins reward = min moneySupply (coins + reward) := by
  rw [addGeneratedCoins]
  split_ifs <;> omega

end Monero.Blockchain
