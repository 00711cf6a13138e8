import Monero.Blockchain.Chain

/-!
# Transaction inputs

`check_tx_semantic` checks a transaction by itself, and `check_tx_inputs`
checks the rings of its inputs against the outputs in the database.
-/

namespace Monero.Blockchain

open Monero.Lib

/-! ## Constants of `cryptonote_config.h` -/

def hfVersionEnforceMinAge : UInt8 := 12

def hfVersionMin2Outputs : UInt8 := 12

def hfVersionSameMixin : UInt8 := 12

def hfVersionMinMixin4 : UInt8 := 6

def hfVersionMinMixin6 : UInt8 := 7

def hfVersionMinMixin10 : UInt8 := 8

def hfVersionMinMixin15 : UInt8 := 15

def hfVersionEnforceRct : UInt8 := 6

def hfVersionDeterministicUnlockTime : UInt8 := 13

def defaultTxSpendableAge : ℕ := 10

def maxBlockNumber : ℕ := 500000000

def lockedTxAllowedDeltaBlocks : ℕ := 1

structure OutputData (P : Type*) where
  pubkey : P
  commitment : P
  unlockTime : ℕ
  height : ℕ
  deriving DecidableEq

structure ProofChecks (K P H : Type*) where
  outputKeysValid : Transaction K P → Bool
  keyImageInDomain : K → Bool
  makeInputVerificationId : Transaction K P → List (List (P × P)) → H
  verInputProofsRings : Transaction K P → List (List (P × P)) → Bool

/-- The state that the input checks read.  `outputs` finds an output by its
amount and its absolute offset, and `scanTable` holds the outputs looked up
beforehand for a key image of a transaction. -/
structure InputView (K P : Type*) where
  hfVersion : UInt8
  height : ℕ
  now : ℕ
  adjustedTime : ℕ
  outputs : ℕ → UInt64 → Option (OutputData P)
  numOutputs : ℕ → ℕ
  keyImageSpent : K → Bool
  scanTable : Transaction K P → K → Option (List (OutputData P))

structure TxVerificationContext where
  verifivationFailed : Bool := false
  lowMixin : Bool := false
  doubleSpend : Bool := false
  invalidInput : Bool := false
  invalidOutput : Bool := false
  overspend : Bool := false
  tooFewOutputs : Bool := false
  deriving DecidableEq, Repr

variable {K P H : Type*}

/-! ## The transaction by itself -/

def TxIn.isToKey : TxIn K → Bool
  | .toKey _ _ _ => true
  | _ => false

def TxIn.keyImage? : TxIn K → Option K
  | .toKey _ _ keyImage => some keyImage
  | _ => none

variable (tx : Transaction K P)

def checkInputsTypesSupported : Bool := tx.vin.all TxIn.isToKey

def checkOutsValid (checks : ProofChecks K P H) (tx : Transaction K P) : Bool :=
  (tx.vout.all fun o ↦ (o.target = .toKey ∨ o.target = .toTaggedKey) ∧
    (tx.version = 1 → 0 < o.amount)) && checks.outputKeysValid tx

def checkTxInputsKeyimagesDiff [DecidableEq K] (tx : Transaction K P) : Bool :=
  match tx.vin.mapM TxIn.keyImage? with
  | none => false
  | some keyImages => keyImages.Nodup

/-- Only a relative offset of zero is refused. -/
def checkTxInputsRingMembersDiff (hfVersion : UInt8) : Bool :=
  if 6 ≤ hfVersion then
    tx.vin.all fun
      | .toKey _ keyOffsets _ => keyOffsets.tail.all fun offset ↦ offset ≠ 0
      | _ => false
  else true

def checkTxInputsKeyimagesDomain (checks : ProofChecks K P H) (tx : Transaction K P) : Bool :=
  tx.vin.all fun
    | .toKey _ _ keyImage => checks.keyImageInDomain keyImage
    | _ => false

def checkTxSemantic [DecidableEq K] (checks : ProofChecks K P H) (tx : Transaction K P)
    (hfVersion : UInt8) : Except TxVerificationContext Unit :=
  let invalidInput : TxVerificationContext := { verifivationFailed := true, invalidInput := true }
  let invalidOutput : TxVerificationContext :=
    { verifivationFailed := true, invalidOutput := true }
  let overspend : TxVerificationContext := { verifivationFailed := true, overspend := true }
  if tx.vin.isEmpty then .error invalidInput
  else if !checkInputsTypesSupported tx then .error invalidInput
  else if !checkOutsValid checks tx then .error invalidOutput
  else if 1 < tx.version ∧ tx.outPk.length ≠ tx.vout.length then .error invalidOutput
  else if !checkMoneyOverflow tx then .error overspend
  else if tx.version = 1 ∧ getInputsMoneyAmount tx ≤ getOutsMoneyAmount tx then .error overspend
  else if !checkTxInputsKeyimagesDiff tx then .error invalidInput
  else if !checkTxInputsRingMembersDiff tx hfVersion then .error invalidInput
  else if !checkTxInputsKeyimagesDomain checks tx then .error invalidInput
  else if !checkOutputTypes tx hfVersion then .error invalidOutput
  else .ok ()

/-! ## Rings -/

/-- The sums wrap around at `2 ^ 64`. -/
def relativeOutputOffsetsToAbsolute : List UInt64 → List UInt64
  | [] => []
  | offset :: offsets => offset :: runningSumsFrom offset offsets

namespace InputView

variable (view : InputView K P)

def isTxSpendtimeUnlocked (unlockTime : ℕ) : Bool :=
  if unlockTime < maxBlockNumber then
    unlockTime ≤ view.height - 1 + lockedTxAllowedDeltaBlocks
  else
    let currentTime :=
      if hfVersionDeterministicUnlockTime ≤ view.hfVersion then view.adjustedTime else view.now
    let delta := if view.hfVersion < 2 then difficultyTargetV1 else difficultyTargetV2
    unlockTime ≤ currentTime + delta * lockedTxAllowedDeltaBlocks

/-- `get_output_key` for several offsets and the comparison of sizes after it. -/
def getOutputKeys (amount : ℕ) (offsets : List UInt64) : Option (List (OutputData P)) :=
  offsets.mapM (view.outputs amount)

/-- The outputs found before the loop of `scan_outputkeys_for_indexes`. -/
def lookUpOutputs (cached : Option (List (OutputData P))) (amount : ℕ) (offsets : List UInt64) :
    Option (List (OutputData P)) :=
  match cached with
  | none => view.getOutputKeys amount offsets
  | some outputs =>
    if outputs.length < offsets.length ∧ 0 < outputs.length then
      (view.getOutputKeys amount (offsets.drop outputs.length)).map (outputs ++ ·)
    else some outputs

/-- The loop of `scan_outputkeys_for_indexes`, with the outputs it visits. -/
def visitOutputs (amount : ℕ) : List UInt64 → List (OutputData P) → Option (List (OutputData P))
  | [], _ => some []
  | offset :: offsets, outputs =>
    match outputs.head?.or (view.outputs amount offset) with
    | none => none
    | some output =>
      if view.isTxSpendtimeUnlocked output.unlockTime then
        (visitOutputs amount offsets outputs.tail).map (output :: ·)
      else none

/-- The ring members, and the height of the last one taken into the maximum. -/
def scanOutputkeysForIndexes (amount : ℕ) (keyOffsets : List UInt64)
    (keyImage : K) (maxRelatedBlockHeight : ℕ) : Option (List (OutputData P) × ℕ) :=
  if keyOffsets.isEmpty then none
  else
    let absoluteOffsets := relativeOutputOffsetsToAbsolute keyOffsets
    match view.lookUpOutputs (view.scanTable tx keyImage) amount absoluteOffsets with
    | none => none
    | some outputs =>
      match view.visitOutputs amount absoluteOffsets outputs with
      | none => none
      | some visited =>
        some (visited, max maxRelatedBlockHeight ((visited.getLast?.map OutputData.height).getD 0))

def checkTxInput (sigIndex amount : ℕ) (keyOffsets : List UInt64)
    (keyImage : K) (maxRelatedBlockHeight : ℕ) : Option (List (P × P) × ℕ) :=
  match view.scanOutputkeysForIndexes tx amount keyOffsets keyImage maxRelatedBlockHeight with
  | none => none
  | some (visited, maxHeight) =>
    let outputKeys := visited.map fun output ↦ (output.pubkey, output.commitment)
    if keyOffsets.length ≠ outputKeys.length then none
    else if tx.version = 1 ∧ (tx.signatures.getD sigIndex []).length ≠ outputKeys.length then none
    else some (outputKeys, maxHeight)

def checkInputs (tx : Transaction K P) : ℕ → List (TxIn K) → ℕ →
    Except TxVerificationContext (List (List (P × P)) × ℕ)
  | _, [], maxUsedBlockHeight => .ok ([], maxUsedBlockHeight)
  | sigIndex, .toKey amount keyOffsets keyImage :: vin, maxUsedBlockHeight =>
    if keyOffsets.isEmpty then .error {}
    else if view.keyImageSpent keyImage then .error { doubleSpend := true }
    else if tx.version = 1 ∧ tx.signatures.length ≤ sigIndex then .error {}
    else
      match view.checkTxInput tx sigIndex amount keyOffsets keyImage maxUsedBlockHeight with
      | none => .error {}
      | some (outputKeys, maxUsedBlockHeight) =>
        (checkInputs tx (sigIndex + 1) vin maxUsedBlockHeight).map
          fun (pubkeys, maxHeight) ↦ (outputKeys :: pubkeys, maxHeight)
  | _, _ :: _, _ => .error {}

/-! ## Ring sizes -/

def minMixin : ℕ :=
  if hfVersionMinMixin15 ≤ view.hfVersion then 15
  else if hfVersionMinMixin10 ≤ view.hfVersion then 10
  else if hfVersionMinMixin6 ≤ view.hfVersion then 6
  else if hfVersionMinMixin4 ≤ view.hfVersion then 4
  else 2

def ringMixins : List ℕ := tx.vin.filterMap fun
    | .toKey _ keyOffsets _ => some ((keyOffsets.length + 2 ^ 64 - 1) % 2 ^ 64)
    | _ => none

/-- An input that has no more outputs of its amount than the ring needs. -/
def isUnmixable : TxIn K → Bool
  | .toKey amount _ _ => decide (amount ≠ 0) && decide (view.numOutputs amount ≤ view.minMixin)
  | _ => false

def checkMixin : Option TxVerificationContext :=
  let hfVersion := view.hfVersion
  let nUnmixable := (tx.vin.filter view.isUnmixable).length
  let nMixable := (tx.vin.filter fun txin ↦ txin.isToKey && !view.isUnmixable txin).length
  let minActualMixin := (ringMixins tx).foldl min (2 ^ 64 - 1)
  let maxActualMixin := (ringMixins tx).foldl max 0
  let failed : TxVerificationContext := { verifivationFailed := true }
  -- all rings have the same size
  if hfVersionSameMixin ≤ hfVersion ∧ minActualMixin ≠ maxActualMixin then
    some { lowMixin := true }
  -- small rings need an input that cannot be mixed, and at most one that can
  else if minActualMixin < view.minMixin ∧
      ¬(hfVersion = hfVersionMinMixin15 ∧ minActualMixin = 10) ∧
        (nUnmixable = 0 ∨ 1 < nMixable) then some { lowMixin := true }
  else if ¬(minActualMixin < view.minMixin ∧
        ¬(hfVersion = hfVersionMinMixin15 ∧ minActualMixin = 10)) ∧
      (hfVersionMinMixin15 < hfVersion ∧ 15 < minActualMixin ∨
        hfVersion = hfVersionMinMixin15 ∧ minActualMixin ≠ 15 ∧ minActualMixin ≠ 10 ∨
        hfVersion < hfVersionMinMixin15 ∧ hfVersionMinMixin10 + 2 ≤ hfVersion ∧
          10 < minActualMixin ∨
        (hfVersion = hfVersionMinMixin10 ∨ hfVersion = hfVersionMinMixin10 + 1) ∧
          minActualMixin ≠ 10) then some { lowMixin := true }
  else if (if hfVersion ≤ 3 then 1 else 2) < tx.version then some failed
  else if tx.version < (if 0 < nUnmixable then 1 else if hfVersionEnforceRct ≤ hfVersion then 2
      else 1) then some failed
  else none

/-! ## All inputs -/

/-- From version 7 on the key images are in decreasing order. -/
def sortedInputs [LinearOrder K] (tx : Transaction K P) : Bool :=
  decide ((tx.vin.filterMap TxIn.keyImage?).IsChain (· > ·))

/-- The ring signatures are not verified again for a known verification id. -/
def verifyRings [DecidableEq H] (checks : ProofChecks K P H) (nullHash : H)
    (tx : Transaction K P) (pubkeys : List (List (P × P))) (validInputVerificationId : H) :
    Option H :=
  if validInputVerificationId ≠ nullHash ∧
      checks.makeInputVerificationId tx pubkeys = validInputVerificationId then
    some validInputVerificationId
  else if checks.verInputProofsRings tx pubkeys then
    some (checks.makeInputVerificationId tx pubkeys)
  else none

/-- The verification id and the maximum of the heights, on success. -/
def checkTxInputs [LinearOrder K] [DecidableEq H] (checks : ProofChecks K P H) (nullHash : H)
    (tx : Transaction K P) (validInputVerificationId : H) : Except TxVerificationContext (H × ℕ) :=
  if hfVersionMin2Outputs ≤ view.hfVersion ∧ 2 ≤ tx.version ∧ tx.vout.length < 2 then
    .error { tooFewOutputs := true }
  else
    match if 2 ≤ view.hfVersion then view.checkMixin tx else none with
    | some tvc => .error tvc
    | none =>
      if 7 ≤ view.hfVersion ∧ !sortedInputs tx then .error { verifivationFailed := true }
      else
        match view.checkInputs tx 0 tx.vin 0 with
        | .error tvc => .error tvc
        | .ok (pubkeys, maxUsedBlockHeight) =>
          if hfVersionEnforceMinAge ≤ view.hfVersion ∧
              view.height < maxUsedBlockHeight + defaultTxSpendableAge then .error {}
          else
            match verifyRings checks nullHash tx pubkeys validInputVerificationId with
            | none => .error {}
            | some verificationId => .ok (verificationId, maxUsedBlockHeight)

end InputView

end Monero.Blockchain
