import Monero.Lib.Result
import Monero.Lib.Sorted

/-!
# Multisig accounts and their key exchange

`multisig_account` with its rounds of key exchange, as in
`multisig_account.cpp` and `multisig_account_kex_impl.cpp`.  Scalars are a field
acting on the group of points, and the hash functions are arbitrary.  An
exception is an error with the text of the failed check.
-/

namespace Monero.Multisig

open Monero.Lib

structure Crypto (F P : Type) where
  basePoint : P
  /-- The blinded secret key of a derivation. -/
  getMultisigBlindedSecretKey : P → F
  /-- The hash of the base common private keys, one after the other. -/
  hashToScalar : List F → F
  /-- The hash of a key and of the sorted keys it is merged with. -/
  hashAggregation : P → List P → F

def multisigMaxSigners : ℕ := 16

variable {F P : Type} [Field F] [LinearOrder F] [AddCommGroup P] [Module F P] [LinearOrder P]

/-! ## Messages -/

/-- A message that was parsed and whose signature is valid. -/
structure KexMsg (F P : Type) where
  kexRound : ℕ
  signingPubkey : P
  msgPubkeys : List P
  msgPrivkey : F
  deriving DecidableEq

variable (c : Crypto F P)

def KexMsg.make (round : ℕ) (signingPrivkey : F) (msgPubkeys : List P)
    (msgPrivkey : F) : Except String (KexMsg F P) := do
  check (0 < round) "Kex round must be > 0."
  check (signingPrivkey ≠ 0) "Invalid msg signing key."
  if round = 1 then
    check (msgPrivkey ≠ 0) "Invalid msg privkey."
    return ⟨round, signingPrivkey • c.basePoint, [], msgPrivkey⟩
  else
    check (∀ pubkey ∈ msgPubkeys, pubkey ≠ 0) "Pubkey for message was invalid."
    return ⟨round, signingPrivkey • c.basePoint, msgPubkeys, 0⟩

/-! ## Keyset maps -/

/-- A map from keys to sets of keys.  None of its sets is ever empty, so it is the
relation between the keys and the members of their sets. -/
abbrev KeysetMap (P : Type) := Finset (P × P)

namespace KeysetMap

variable (m : KeysetMap P)

/-- An unordered map is gone through in ascending order. -/
def keys : List P := ascending (m.image Prod.fst)

def mapped (key : P) : Finset P := (m.filter (·.1 = key)).image Prod.snd

def origins : Finset P := m.image Prod.snd

def keysOf (origin : P) : Finset P := (m.filter (·.2 = origin)).image Prod.fst

end KeysetMap

def removeKeyFromMappedSets (keyToRemove : P) (keyset : KeysetMap P) : KeysetMap P :=
  keyset.filter (·.2 ≠ keyToRemove)

/-! ## Rounds -/

def multisigKexRoundsRequired (numSigners threshold : ℕ) : Except String ℕ := do
  check (threshold ≤ numSigners) "num_signers must be >= threshold"
  check (1 ≤ threshold) "threshold must be >= 1"
  return numSigners - threshold + 1

def multisigSetupRoundsRequired (numSigners threshold : ℕ) : Except String ℕ := do
  return (← multisigKexRoundsRequired numSigners threshold) + 1

def checkMultisigConfig (round threshold numSigners : ℕ) : Except String Unit := do
  check (1 < numSigners) "Must be at least one other multisig signer."
  check (numSigners ≤ multisigMaxSigners) ("Too many multisig signers specified (limit = 16 to " ++
    "prevent dangerous combinatorial explosion during key exchange).")
  check (threshold ≤ numSigners) "Multisig threshold may not be larger than number of signers."
  check (0 < threshold) "Multisig threshold must be > 0."
  check (0 < round) "Multisig kex round must be > 0."
  let setupRounds ← multisigSetupRoundsRequired numSigners threshold
  check (round ≤ setupRounds) "Trying to process multisig kex for an invalid round."

/-! ## Merging keys -/

def makeMultisigCommonPrivkey (participantBaseCommonPrivkeys : List F) : Except String F := do
  let commonPrivkey := c.hashToScalar (participantBaseCommonPrivkeys.insertionSort (· ≤ ·))
  check (commonPrivkey ≠ 0) "Unexpected null secret key (danger!)."
  return commonPrivkey

def computeMultisigAggregationCoefficient (sortedKeys : List P)
    (aggregationKey : P) : Except String F := do
  check (sortedKeys.Pairwise (· ≤ ·)) "Keys for aggregation coefficient aren't sorted."
  check (aggregationKey ∈ sortedKeys) "Aggregation key expected to be in input keyset."
  return c.hashAggregation aggregationKey sortedKeys

/-- One key of the merge: the account's own private key for it is converted, and the
converted public key is added. -/
def aggregateStep (finalKeys ownKeys : List P) (s : List F × P) (key : P) :
    Except String (List F × P) := do
  let coeff ← computeMultisigAggregationCoefficient c finalKeys key
  if key ∈ ownKeys then
    let privkey := coeff * s.1.getD (ownKeys.idxOf key) 0
    check (privkey ≠ 0) "Multisig privkey with aggregation coefficient unexpectedly null."
    return (s.1.set (ownKeys.idxOf key) privkey, s.2 + coeff • key)
  else return (s.1, s.2 + coeff • key)

/-- The private keys come back converted.  The check for duplicates comes before the
index of an own key is used. -/
def generateMultisigAggregateKey (finalKeys : List P) (privkeys : List F) :
    Except String (P × List F) := do
  let ownKeys := privkeys.map (· • c.basePoint)
  let sortedKeys := (finalKeys ++ ownKeys).insertionSort (· ≤ ·)
  check sortedKeys.Nodup "Unexpected duplicate found in input list."
  let (privkeys, aggregateKey) ←
    sortedKeys.foldlM (aggregateStep c sortedKeys ownKeys) (privkeys, (0 : P))
  return (aggregateKey, privkeys)

/-! ## Evaluating messages -/

/-- The derivation shared with the holders of each key. -/
def makeRoundKeys (basePrivkey : F) (pubkeyOrigins : KeysetMap P) : KeysetMap P :=
  pubkeyOrigins.image fun e ↦ (8 • basePrivkey • e.1, e.2)

def checkMessagesRound (msgs : List (KexMsg F P)) (expectedRound : ℕ) : Except String Unit :=
  match msgs with
  | [] => .error "At least one input message expected."
  | msg :: _ => do
      check (msg.kexRound = expectedRound) "Messages don't have the expected kex round number."
      check (∀ m ∈ msgs, m.kexRound = msg.kexRound)
        "All messages must have the same kex round number."

/-- What one message recommends; in the first round that is the signing key only. -/
def sanitizeMsg (round : ℕ) (excludePubkeys : List P) (msg : KexMsg F P) : KeysetMap P :=
  if round = 1 then {(msg.signingPubkey, msg.signingPubkey)}
  else ((msg.msgPubkeys.filter (· ∉ excludePubkeys)).map fun key ↦
    (key, msg.signingPubkey)).toFinset

def sanitizePubkeys (msgs : List (KexMsg F P)) (excludePubkeys : List P) :
    Except String (ℕ × KeysetMap P) :=
  match msgs with
  | [] => .error "At least one input message expected."
  | msg :: _ => do
      checkMessagesRound msgs msg.kexRound
      return (msg.kexRound,
        msgs.foldl (fun m msg' ↦ m ∪ sanitizeMsg msg.kexRound excludePubkeys msg') ∅)

def nChooseK (n k : ℕ) : ℕ := if 2 ^ 31 - 1 < n.choose k then 0 else n.choose k

def evaluateKexRoundMsgs (basePubkey : P) (expectedRound : ℕ) (signers : List P)
    (msgs : List (KexMsg F P)) (excludePubkeys : List P) (incompleteSignerSet : Bool) :
    Except String (KeysetMap P) := do
  check excludePubkeys.Nodup "Found duplicate pubkeys for exclusion unexpectedly."
  let (round, sanitized) ← sanitizePubkeys msgs excludePubkeys
  check (round = expectedRound) ("Kex messages were for round [" ++ toString round ++
    "], but expected round is [" ++ toString expectedRound ++ "]")
  let pubkeyOrigins := removeKeyFromMappedSets basePubkey sanitized
  let recommendationsRequired := if incompleteSignerSet then 1 else round
  check (∀ key ∈ pubkeyOrigins.keys, recommendationsRequired ≤ (pubkeyOrigins.mapped key).card)
    "A pubkey recommended by multisig kex messages had an unexpected number of recommendations."
  let signersRequired :=
    if incompleteSignerSet then signers.length - 1 - (round - 1) else signers.length - 1
  check (signersRequired ≤ pubkeyOrigins.origins.card) ("Number of unique other signers " ++
    "recommending pubkeys does not equal number of required other signers (kex round: " ++
    toString round ++ ", num signers found: " ++ toString pubkeyOrigins.origins.card ++
    ", num signers required: " ++ toString signersRequired ++ ").")
  let expectedOthers := nChooseK (signers.length - 2) (round - 1)
  let expectedSelf := nChooseK (signers.length - 1) (round - 1)
  check (0 < expectedSelf ∧ 0 < expectedOthers)
    "Bad num signers or round num (possibly numerical limits exceeded)."
  check (excludePubkeys.length = expectedSelf)
    "Local account did not recommend expected number of multisig keys."
  (ascending pubkeyOrigins.origins).forM fun origin ↦ do
    check ((pubkeyOrigins.keysOf origin).card = expectedOthers)
      "A multisig signer recommended an unexpected number of pubkeys."
    check (origin ∈ signers) "Multisig kex message with unexpected signer encountered."
  return pubkeyOrigins

def evaluatePostKexRoundMsgs (basePubkey : P) (expectedRound : ℕ) (signers : List P)
    (msgs : List (KexMsg F P)) (incompleteSignerSet : Bool) : Except String (KeysetMap P) := do
  let (round, pubkeyOrigins) ← sanitizePubkeys msgs []
  check (round = expectedRound) ("Kex messages were for round [" ++ toString round ++
    "], but expected round is [" ++ toString expectedRound ++ "]")
  match pubkeyOrigins.keys with
  | [key₁, key₂] =>
    check (pubkeyOrigins.mapped key₁ = pubkeyOrigins.mapped key₂) ("Multisig post-kex round " ++
      "messages from other signers did not all recommend the same pubkey pair.")
    let origins := insert basePubkey (pubkeyOrigins.mapped key₁)
    let signersRequired := if incompleteSignerSet then 1 else signers.length
    check (signersRequired ≤ origins.card)
      ("Multisig post-kex round message origins don't line " ++
      "up with multisig signer set (num signers found: " ++ toString origins.card ++
      ", num signers required: " ++ toString signersRequired ++ ").")
    check (∀ origin ∈ origins, origin ∈ signers)
      "An unknown origin recommended a multisig post-kex verification message."
    return pubkeyOrigins
  | _ => .error ("Multisig post-kex round messages from other signers did not all contain two " ++
      "pubkeys.")

def processRoundMsgs (basePrivkey : F) (basePubkey : P) (currentRound threshold : ℕ)
    (signers : List P) (msgs : List (KexMsg F P)) (excludePubkeys : List P)
    (incompleteSignerSet : Bool) : Except String (KeysetMap P) := do
  checkMultisigConfig currentRound threshold signers.length
  let roundsRequired ← multisigKexRoundsRequired signers.length threshold
  let evaluated ← (
    if threshold = 1 ∧ currentRound = roundsRequired then .ok ∅
    else if currentRound ≤ roundsRequired then
      evaluateKexRoundMsgs basePubkey currentRound signers msgs excludePubkeys incompleteSignerSet
    else evaluatePostKexRoundMsgs basePubkey currentRound signers msgs incompleteSignerSet :
      Except String (KeysetMap P))
  return if currentRound < roundsRequired then makeRoundKeys basePrivkey evaluated else evaluated

/-! ## Accounts -/

structure Account (F P : Type) where
  threshold : ℕ
  signers : List P
  basePrivkey : F
  basePubkey : P
  baseCommonPrivkey : F
  multisigPrivkeys : List F
  commonPrivkey : F
  multisigPubkey : P
  commonPubkey : P
  kexRoundsComplete : ℕ
  kexKeysToOrigins : KeysetMap P
  nextRoundKexMessage : KexMsg F P

namespace Account

def new (basePrivkey baseCommonPrivkey : F) : Except String (Account F P) := do
  let msg ← KexMsg.make c 1 basePrivkey [] baseCommonPrivkey
  return {
    threshold := 0
    signers := []
    basePrivkey := basePrivkey
    basePubkey := basePrivkey • c.basePoint
    baseCommonPrivkey := baseCommonPrivkey
    multisigPrivkeys := []
    commonPrivkey := 0
    multisigPubkey := 0
    commonPubkey := 0
    kexRoundsComplete := 0
    kexKeysToOrigins := ∅
    nextRoundKexMessage := msg }

variable (a : Account F P)

def accountIsActive : Bool := 0 < a.kexRoundsComplete

def mainKexRoundsDone : Except String Bool :=
  if a.accountIsActive then do
    return decide
      ((← multisigKexRoundsRequired a.signers.length a.threshold) ≤ a.kexRoundsComplete)
  else return false

def multisigIsReady : Except String Bool := do
  if ← a.mainKexRoundsDone then
    return decide
      ((← multisigSetupRoundsRequired a.signers.length a.threshold) ≤ a.kexRoundsComplete)
  else return false

def setMultisigConfig (threshold : ℕ) (signers : List P) : Except String (Account F P) := do
  check (0 < threshold ∧ threshold ≤ signers.length)
    "multisig account: tried to set invalid threshold."
  check (2 ≤ signers.length ∧ signers.length ≤ multisigMaxSigners)
    "multisig account: tried to set invalid number of signers."
  check (∀ signer ∈ signers, signer ≠ 0)
    "multisig account: tried to set signers, but a signer pubkey is invalid."
  check (a.basePubkey ∈ signers)
    ("multisig account: tried to set signers, but did not find the " ++
    "account's base pubkey in signer list.")
  let signers := signers.insertionSort (· ≤ ·)
  check signers.Nodup
    "multisig account: tried to set signers, but there are duplicate signers unexpectedly."
  return { a with threshold := threshold, signers := signers }

def getKexExcludePubkeys : List P :=
  if a.kexRoundsComplete = 0 then [a.basePubkey] else a.kexKeysToOrigins.keys

variable (msgs : List (KexMsg F P)) (roundsRequired : ℕ)

/-- The first round brings the common key. -/
def initializeKexUpdate : Except String (Account F P) :=
  if 0 < a.kexRoundsComplete then return a
  else do
    let others := (msgs.filter (·.signingPubkey ≠ a.basePubkey)).map KexMsg.msgPrivkey
    let commonPrivkey ← makeMultisigCommonPrivkey c (a.baseCommonPrivkey :: others)
    let a := { a with commonPrivkey := commonPrivkey, commonPubkey := commonPrivkey • c.basePoint }
    return if roundsRequired = 1 then { a with multisigPrivkeys := [a.basePrivkey] } else a

/-- The account after the results of a round, and the keys of its next message. -/
def applyResults (results : KeysetMap P) : Except String (Account F P × List P) := do
  if a.kexRoundsComplete = roundsRequired then
    check (a.multisigPubkey ∈ results.keys)
      ("Multisig post-kex round: expected multisig pubkey " ++ "wasn't found in input messages.")
    check (a.commonPubkey ∈ results.keys) ("Multisig post-kex round: expected common pubkey " ++
      "wasn't found in input messages.")
    return (a, [a.multisigPubkey, a.commonPubkey])
  else if a.kexRoundsComplete + 1 = roundsRequired then
    let (multisigPubkey, privkeys) ← generateMultisigAggregateKey c results.keys a.multisigPrivkeys
    return ({ a with
      multisigPubkey := multisigPubkey
      multisigPrivkeys := privkeys
      kexKeysToOrigins := ∅ }, [multisigPubkey, a.commonPubkey])
  else if a.kexRoundsComplete + 2 = roundsRequired then
    let privkeys := results.keys.map c.getMultisigBlindedSecretKey
    return ({ a with
      multisigPrivkeys := privkeys
      kexKeysToOrigins :=
        results.image fun e ↦ (c.getMultisigBlindedSecretKey e.1 • c.basePoint, e.2) },
      privkeys.map (· • c.basePoint))
  else return ({ a with kexKeysToOrigins := results }, results.keys)

def finalizeKexUpdate (results : KeysetMap P) : Except String (Account F P) := do
  let (a, nextMsgKeys) ← a.applyResults c roundsRequired results
  let roundsComplete := a.kexRoundsComplete + 1
  let msg ← KexMsg.make c (min roundsComplete roundsRequired + 1) a.basePrivkey nextMsgKeys 0
  return { a with kexRoundsComplete := roundsComplete, nextRoundKexMessage := msg }

def kexUpdateImpl (incompleteSignerSet : Bool) : Except String (Account F P) := do
  checkMessagesRound msgs (a.kexRoundsComplete + 1)
  let roundsRequired ← multisigKexRoundsRequired a.signers.length a.threshold
  check (0 < roundsRequired) "Multisig kex rounds required unexpectedly 0."
  check (a.kexRoundsComplete < roundsRequired + 1) ("Multisig kex has already completed all " ++
    "required rounds (including post-kex verification).")
  let a ← a.initializeKexUpdate c msgs roundsRequired
  let results ← processRoundMsgs a.basePrivkey a.basePubkey (a.kexRoundsComplete + 1) a.threshold
    a.signers msgs a.getKexExcludePubkeys incompleteSignerSet
  a.finalizeKexUpdate c roundsRequired results

/-- An account that throws stays as it was. -/
def initializeKex (threshold : ℕ) (signers : List P)
    (msgs : List (KexMsg F P)) : Except String (Account F P) := do
  check (a.accountIsActive = false)
    "multisig account: tried to initialize kex, but already initialized"
  let a ← a.setMultisigConfig threshold signers
  a.kexUpdateImpl c msgs false

def kexUpdate (forceUpdate : Bool) : Except String (Account F P) := do
  check (a.accountIsActive = true)
    "multisig account: tried to update kex, but kex isn't initialized yet."
  let ready ← a.multisigIsReady
  check (ready = false) "multisig account: tried to update kex, but kex is already complete."
  a.kexUpdateImpl c msgs forceUpdate

def getMultisigKexRoundBooster (c : Crypto F P) (a : Account F P) (threshold numSigners : ℕ)
    (msgs : List (KexMsg F P)) : Except String (KexMsg F P) := do
  let expectedMsgsRound := a.kexRoundsComplete + 1
  let roundsRequired ← multisigKexRoundsRequired numSigners threshold
  check (1 < numSigners) "Must be at least one other multisig signer."
  check (numSigners ≤ multisigMaxSigners) "Too many multisig signers specified."
  check (expectedMsgsRound < roundsRequired) ("Multisig kex booster: this account has already " ++
    "completed all intermediate kex rounds so it can't make a kex booster (there is no round " ++
    "available to boost).")
  check (0 < msgs.length) "At least one input kex message expected."
  let (msgsRound, sanitized) ← sanitizePubkeys msgs a.getKexExcludePubkeys
  check (msgsRound = expectedMsgsRound) "Kex messages were not for expected round."
  let derivations := (makeRoundKeys a.basePrivkey
    (removeKeyFromMappedSets a.basePubkey sanitized)).keys
  let nextMsgKeys :=
    if msgsRound + 1 = roundsRequired then
      derivations.map fun d ↦ c.getMultisigBlindedSecretKey d • c.basePoint
    else derivations
  KexMsg.make c (msgsRound + 1) a.basePrivkey nextMsgKeys 0

end Account

end Monero.Multisig
