import Mathlib

/-!
# The keys of the outputs of a transaction

The part of `construct_tx_with_tx_key` that makes the transaction public keys
and the outputs, the same part of the multisig transaction builder
(`compute_keys_for_destinations`), and the scan of an output by a wallet
(`is_out_to_acc_precomp`).  Secret keys are elements of a field of scalars,
public keys and derivations are points of a group it acts on, and the hash
functions are arbitrary.
-/

namespace Monero.Outputs

structure SubaddressIndex where
  major : ℕ
  minor : ℕ
  deriving DecidableEq, Repr

def SubaddressIndex.isZero (index : SubaddressIndex) : Bool := index.major = 0 ∧ index.minor = 0

structure Primitives (F P T : Type*) where
  basePoint : P
  derivationToScalar : P → ℕ → F
  deriveViewTag : P → ℕ → T
  getSubaddressSecretKey : F → SubaddressIndex → F
  /-- The hash of the seed and a link of the chain of transaction secret keys. -/
  hashToScalar : F → F → F
  /-- The link the chain starts from. -/
  hashKeyMultisigTxPrivkeys : F

structure AccountPublicAddress (P : Type*) where
  spendPublicKey : P
  viewPublicKey : P
  deriving DecidableEq

structure TxDestinationEntry (P : Type*) where
  amount : ℕ
  addr : AccountPublicAddress P
  isSubaddress : Bool

variable {F P T : Type*} [Field F] [AddCommGroup P] [Module F P]

/-! ## Curve operations -/

def generateKeyDerivation (key1 : P) (key2 : F) : P := 8 • key2 • key1

variable (c : Primitives F P T)

def derivePublicKey (derivation : P) (outputIndex : ℕ) (base : P) : P :=
  base + c.derivationToScalar derivation outputIndex • c.basePoint

def deriveSubaddressPublicKey (outKey derivation : P) (outputIndex : ℕ) : P :=
  outKey - c.derivationToScalar derivation outputIndex • c.basePoint

/-! ## Accounts -/

/-- The keys of an account, the spend secret key apart. -/
structure AccountKeys where
  accountAddress : AccountPublicAddress P
  viewSecretKey : F
  viewPublicKey_eq : accountAddress.viewPublicKey = viewSecretKey • c.basePoint

def getSubaddressSpendPublicKey (keys : AccountKeys c) (index : SubaddressIndex) : P :=
  if index.isZero then keys.accountAddress.spendPublicKey
  else keys.accountAddress.spendPublicKey +
    c.getSubaddressSecretKey keys.viewSecretKey index • c.basePoint

def getSubaddress (keys : AccountKeys c) (index : SubaddressIndex) : AccountPublicAddress P :=
  if index.isZero then keys.accountAddress
  else
    let D := getSubaddressSpendPublicKey c keys index
    ⟨D, keys.viewSecretKey • D⟩

structure Wallet where
  keys : AccountKeys c
  subaddresses : P → Option SubaddressIndex

variable [DecidableEq P]

/-- The index of the change address if the account re-derives that address. -/
def sanityCheckChangeAddress (changeAddr : AccountPublicAddress P)
    (sender : Wallet c) : Option SubaddressIndex :=
  let subaddrIndex := (sender.subaddresses changeAddr.spendPublicKey).getD ⟨0, 0⟩
  if changeAddr = getSubaddress c sender.keys subaddrIndex then some subaddrIndex else none

/-! ## Counting the recipients -/

structure Classified (P : Type*) where
  numStdaddresses : ℕ
  numSubaddresses : ℕ
  singleDestSubaddress : Option (AccountPublicAddress P)
  uniqueDstAddresses : List (AccountPublicAddress P)

def classifyStep (changeAddr : Option (AccountPublicAddress P)) (s : Classified P)
    (dst : TxDestinationEntry P) : Classified P :=
  if changeAddr = some dst.addr then s
  else if dst.addr ∈ s.uniqueDstAddresses then s
  else
    let s := { s with uniqueDstAddresses := dst.addr :: s.uniqueDstAddresses }
    if dst.isSubaddress then
      { s with
        numSubaddresses := s.numSubaddresses + 1
        singleDestSubaddress := some dst.addr }
    else { s with numStdaddresses := s.numStdaddresses + 1 }

variable (destinations : List (TxDestinationEntry P))

def classifyAddresses (changeAddr : Option (AccountPublicAddress P)) : Classified P :=
  destinations.foldl (classifyStep changeAddr) ⟨0, 0, none, []⟩

/-! ## One output -/

/-- What `generate_output_ephemeral_keys` hands back or appends to its vectors. -/
structure OutputKeys (F P T : Type*) where
  additionalTxPublicKey : Option P
  amountKey : Option F
  outEphPublicKey : P
  viewTag : Option T

def additionalTxPublicKey (dst : TxDestinationEntry P) (sec : F) : P :=
  if dst.isSubaddress then sec • dst.addr.spendPublicKey else sec • c.basePoint

/-- The local variable `derivation`; `additional` is the additional secret key of the
output, if they are needed. -/
def outputDerivation {c : Primitives F P T} (sender : AccountKeys c) (txkeyPub : P) (txKey : F)
    (dst : TxDestinationEntry P) (changeAddr : Option (AccountPublicAddress P))
    (additional : Option F) : P :=
  if changeAddr = some dst.addr then generateKeyDerivation txkeyPub sender.viewSecretKey
  else
    generateKeyDerivation dst.addr.viewPublicKey
      (if dst.isSubaddress then additional.getD txKey else txKey)

/-- What is taken from the derivation. -/
def outputKeys (txVersion : ℕ) (dst : TxDestinationEntry P)
    (derivation : P) (outputIndex : ℕ) (additional : Option F) (useViewTags : Bool) :
    OutputKeys F P T where
  additionalTxPublicKey := additional.map (additionalTxPublicKey c dst)
  amountKey := if 1 < txVersion then some (c.derivationToScalar derivation outputIndex) else none
  outEphPublicKey := derivePublicKey c derivation outputIndex dst.addr.spendPublicKey
  viewTag := if useViewTags then some (c.deriveViewTag derivation outputIndex) else none

/-- `none` would be an access past the end of the additional keys. -/
def generateOutputEphemeralKeys {c : Primitives F P T} (txVersion : ℕ) (sender : AccountKeys c)
    (txkeyPub : P) (txKey : F) (dst : TxDestinationEntry P)
    (changeAddr : Option (AccountPublicAddress P)) (outputIndex : ℕ) (needAdditionalTxkeys : Bool)
    (additionalTxKeys : List F) (useViewTags : Bool) : Option (OutputKeys F P T) :=
  if needAdditionalTxkeys ∧ additionalTxKeys.length ≤ outputIndex then none
  else
    let additional := if needAdditionalTxkeys then additionalTxKeys[outputIndex]? else none
    let derivation := outputDerivation sender txkeyPub txKey dst changeAddr additional
    some (outputKeys c txVersion dst derivation outputIndex additional useViewTags)

/-! ## All outputs -/

structure TxOut (P T : Type*) where
  amount : ℕ
  key : P
  viewTag : Option T
  deriving DecidableEq

structure TxKeys (F P T : Type*) where
  txPublicKey : P
  additionalTxPublicKeys : List P
  amountKeys : List F
  vout : List (TxOut P T)
  deriving DecidableEq

/-- The loop over the destinations, with `accept` for the checks before an output. -/
def fillOutputs {c : Primitives F P T} (txVersion : ℕ) (sender : AccountKeys c) (txkeyPub : P)
    (txKey : F) (changeAddr : Option (AccountPublicAddress P)) (needAdditionalTxkeys : Bool)
    (additionalTxKeys : List F) (useViewTags : Bool) (accept : TxDestinationEntry P → Bool) :
    List (TxDestinationEntry P) → TxKeys F P T → Option (TxKeys F P T)
  | [], tx => some tx
  | dst :: destinations, tx =>
    if accept dst then
      match generateOutputEphemeralKeys txVersion sender txkeyPub txKey dst changeAddr
          tx.vout.length needAdditionalTxkeys additionalTxKeys useViewTags with
      | none => none
      | some keys =>
        fillOutputs txVersion sender txkeyPub txKey changeAddr needAdditionalTxkeys
          additionalTxKeys useViewTags accept destinations
          { tx with
            additionalTxPublicKeys :=
              tx.additionalTxPublicKeys ++ keys.additionalTxPublicKey.toList
            amountKeys := tx.amountKeys ++ keys.amountKey.toList
            vout := tx.vout ++ [⟨dst.amount, keys.outEphPublicKey, keys.viewTag⟩] }
    else none

def Classified.needAdditionalTxkeys (k : Classified P) : Bool :=
  0 < k.numSubaddresses ∧ (0 < k.numStdaddresses ∨ 1 < k.numSubaddresses)

/-- A single subaddress takes the place of the base point. -/
def Classified.txkeyPub (k : Classified P) (txKey : F) : P :=
  match k.numStdaddresses, k.numSubaddresses, k.singleDestSubaddress with
  | 0, 1, some addr => txKey • addr.spendPublicKey
  | _, _, _ => txKey • c.basePoint

/-- The checks on a destination of `construct_tx_with_tx_key`. -/
def acceptDestination (txVersion : ℕ) (changeAddr : Option (AccountPublicAddress P))
    (recognizedChangeIndex : Option SubaddressIndex) (dst : TxDestinationEntry P) : Bool :=
  (0 < dst.amount ∨ 1 < txVersion) ∧
    ¬(changeAddr = some dst.addr ∧ 0 < dst.amount ∧ recognizedChangeIndex = none)

def constructTxWithTxKey {c : Primitives F P T} (sender : Wallet c)
    (destinations : List (TxDestinationEntry P)) (changeAddr : Option (AccountPublicAddress P))
    (txKey : F) (additionalTxKeys : List F) (txVersion : ℕ) (useViewTags : Bool) :
    Option (TxKeys F P T) :=
  let recognizedChangeIndex := changeAddr.bind (sanityCheckChangeAddress c · sender)
  let k := classifyAddresses destinations changeAddr
  let txkeyPub := k.txkeyPub c txKey
  if k.needAdditionalTxkeys ∧ destinations.length ≠ additionalTxKeys.length then none
  else
    match fillOutputs txVersion sender.keys txkeyPub txKey changeAddr k.needAdditionalTxkeys
        additionalTxKeys useViewTags (acceptDestination txVersion changeAddr recognizedChangeIndex)
        destinations ⟨txkeyPub, [], [], []⟩ with
    | none => none
    | some tx =>
      if tx.additionalTxPublicKeys.length = additionalTxKeys.length then some tx else none

/-! ## The multisig transaction builder -/

def makeTxSecretKeys (c : Primitives F P T) (seed : F) : ℕ → F → List F
  | 0, _ => []
  | n + 1, link => c.hashToScalar seed link :: makeTxSecretKeys c seed n (c.hashToScalar seed link)

/-- The recipients other than the change address, of one kind, each once. -/
def uniqueRecipients
    (changeAddr : AccountPublicAddress P) (isSubaddress : Bool) : List (AccountPublicAddress P) :=
  ((destinations.filter fun dst ↦ dst.addr ≠ changeAddr ∧ dst.isSubaddress = isSubaddress).map
    TxDestinationEntry.addr).dedup

def needTxAuxKeys (changeAddr : AccountPublicAddress P) : Bool :=
  let numStd := (uniqueRecipients destinations changeAddr false).length
  1 < (uniqueRecipients destinations changeAddr true).length + if numStd = 0 then 0 else 1

def multisigTxPublicKey (changeAddr : AccountPublicAddress P) (txSecretKey : F) : P :=
  match uniqueRecipients destinations changeAddr false,
      uniqueRecipients destinations changeAddr true with
  | [], [addr] => txSecretKey • addr.spendPublicKey
  | _, _ => txSecretKey • c.basePoint

/-- The transaction secret key and the additional ones come with the outputs;
`reconstruction` has those that are expected when a transaction is rebuilt. -/
def computeKeysForDestinations [DecidableEq F] {c : Primitives F P T} (accountKeys : AccountKeys c)
    (subaddrAccount : ℕ) (destinations : List (TxDestinationEntry P))
    (change : TxDestinationEntry P) (useViewTags : Bool) (reconstruction : Option (F × List F))
    (txSecretKeySeed : F) (txVersion : ℕ) : Option (F × List F × TxKeys F P T) :=
  if 0 < change.amount ∧ (change.addr ≠ getSubaddress c accountKeys ⟨subaddrAccount, 0⟩ ∨
      ∀ dst ∈ destinations, dst.addr ≠ change.addr) then none
  else
    let needAux := needTxAuxKeys destinations change.addr
    let numTxKeys := 1 + if needAux then destinations.length else 0
    match makeTxSecretKeys c txSecretKeySeed numTxKeys c.hashKeyMultisigTxPrivkeys with
    | [] => none
    | txSecretKey :: txAuxSecretKeys =>
      if reconstruction.any (· ≠ (txSecretKey, txAuxSecretKeys)) then none
      else
        let txPublicKey := multisigTxPublicKey c destinations change.addr txSecretKey
        match fillOutputs txVersion accountKeys txPublicKey txSecretKey (some change.addr) needAux
            txAuxSecretKeys useViewTags (fun _ ↦ true) destinations ⟨txPublicKey, [], [], []⟩ with
        | none => none
        | some tx =>
          if destinations.length ≠ tx.amountKeys.length then none
          else if tx.additionalTxPublicKeys.length ≠ txAuxSecretKeys.length then none
          else some (txSecretKey, txAuxSecretKeys, tx)

/-! ## Scanning -/

structure SubaddressReceiveInfo (P : Type*) where
  index : SubaddressIndex
  derivation : P
  deriving DecidableEq

def outCanBeToAcc [DecidableEq T] (c : Primitives F P T) (viewTag : Option T) (derivation : P)
    (outputIndex : ℕ) : Bool :=
  match viewTag with
  | none => true
  | some viewTag => viewTag = c.deriveViewTag derivation outputIndex

def receivedWith [DecidableEq T] (c : Primitives F P T) (subaddresses : P → Option SubaddressIndex)
    (outKey derivation : P) (outputIndex : ℕ) (viewTag : Option T) :
    Option (SubaddressReceiveInfo P) :=
  if outCanBeToAcc c viewTag derivation outputIndex then
    (subaddresses (deriveSubaddressPublicKey c outKey derivation outputIndex)).map
      fun index ↦ ⟨index, derivation⟩
  else none

def isOutToAccPrecomp [DecidableEq T] (c : Primitives F P T)
    (subaddresses : P → Option SubaddressIndex) (outKey derivation : P)
    (additionalDerivations : List P) (outputIndex : ℕ) (viewTag : Option T) :
    Option (SubaddressReceiveInfo P) :=
  match receivedWith c subaddresses outKey derivation outputIndex viewTag with
  | some info => some info
  | none =>
    match additionalDerivations[outputIndex]? with
    | none => none
    | some additional => receivedWith c subaddresses outKey additional outputIndex viewTag

/-- A wallet derives from the shared and the additional public keys with its view key. -/
def Wallet.scan [DecidableEq T] {c : Primitives F P T} (w : Wallet c) (tx : TxKeys F P T)
    (outputIndex : ℕ) (out : TxOut P T) : Option (SubaddressReceiveInfo P) :=
  isOutToAccPrecomp c w.subaddresses out.key
    (generateKeyDerivation tx.txPublicKey w.keys.viewSecretKey)
    (tx.additionalTxPublicKeys.map (generateKeyDerivation · w.keys.viewSecretKey)) outputIndex
    out.viewTag

end Monero.Outputs
