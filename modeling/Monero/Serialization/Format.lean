import Monero.Lib.Codec
import Monero.Blockchain.Chain

/-!
# The binary format of transactions

Reader and writer are one template in the source, `member_do_serialize` and
the functions it calls, and each of its pieces is one codec here.  Types that
are stored byte for byte are vectors of bytes.
-/

namespace Monero.Serialization

open Lib Lib.Codec Blockchain

/-- `crypto::public_key`, `crypto::hash`, `crypto::key_image` and `rct::key` -/
abbrev Key := List.Vector UInt8 32

/-- `crypto::signature` -/
abbrev Signature := List.Vector UInt8 64

def zeroKey : Key := List.Vector.replicate 32 0

/-! ## Transactions -/

structure TxoutToScript where
  keys : List Key
  script : List UInt8
  deriving DecidableEq

/-- `txout_target_v` -/
inductive TxoutTarget where
  | toScript (script : TxoutToScript)
  | toScripthash (hash : Key)
  | toKey (key : Key)
  | toTaggedKey (key : Key) (viewTag : UInt8)
  deriving DecidableEq

/-- `txin_v` -/
inductive Txin where
  | gen (height : UInt64)
  | toScript (prev : Key) (prevout : UInt64) (sigset : List UInt8)
  | toScripthash (prev : Key) (prevout : UInt64) (script : TxoutToScript) (sigset : List UInt8)
  | toKey (amount : UInt64) (keyOffsets : List UInt64) (kImage : Key)
  deriving DecidableEq

/-- `tx_out` -/
structure Txout where
  amount : UInt64
  target : TxoutTarget
  deriving DecidableEq

structure TransactionPrefix where
  version : UInt64
  unlockTime : UInt64
  vin : List Txin
  vout : List Txout
  extra : List UInt8
  deriving DecidableEq

structure EcdhTuple where
  mask : Key
  amount : Key
  deriving DecidableEq

/-- `asig` is a `boroSig` and `Ci` an array of 64 keys. -/
structure RangeSig where
  asig : List.Vector UInt8 4128
  Ci : List.Vector UInt8 2048
  deriving DecidableEq

structure MgSig where
  ss : List (List Key)
  cc : Key
  II : List Key
  deriving DecidableEq

structure Clsag where
  s : List Key
  c1 : Key
  I : Key
  D : Key
  deriving DecidableEq

structure Bulletproof where
  V : List Key
  A : Key
  S : Key
  T1 : Key
  T2 : Key
  taux : Key
  mu : Key
  L : List Key
  R : List Key
  a : Key
  b : Key
  t : Key
  deriving DecidableEq

structure BulletproofPlus where
  V : List Key
  A : Key
  A1 : Key
  B : Key
  r1 : Key
  s1 : Key
  d1 : Key
  L : List Key
  R : List Key
  deriving DecidableEq

structure CtKey where
  dest : Key
  mask : Key
  deriving DecidableEq

structure RctSigBase where
  type : RctType
  message : Key
  mixRing : List (List CtKey)
  pseudoOuts : List Key
  ecdhInfo : List EcdhTuple
  outPk : List CtKey
  txnFee : UInt64
  deriving DecidableEq

structure RctSigPrunable where
  rangeSigs : List RangeSig
  bulletproofs : List Bulletproof
  bulletproofsPlus : List BulletproofPlus
  MGs : List MgSig
  CLSAGs : List Clsag
  pseudoOuts : List Key
  deriving DecidableEq

structure RctSig extends RctSigBase where
  p : RctSigPrunable
  deriving DecidableEq

structure Transaction extends TransactionPrefix where
  signatures : List (List Signature)
  rctSignatures : RctSig
  pruned : Bool
  deriving DecidableEq

/-- `rctSigBase()`, and in the fields what a new `rctSig` holds. -/
def RctSigBase.empty : RctSigBase := ⟨.null, zeroKey, [], [], [], [], 0⟩

def RctSigPrunable.empty : RctSigPrunable := ⟨[], [], [], [], [], []⟩

def RctSig.empty : RctSig := ⟨RctSigBase.empty, RctSigPrunable.empty⟩

/-! ## The prefix -/

def varint64 : Codec UInt64 := (varint 64).map UInt64.ofNat fun v ↦ some v.toNat

def key : Codec Key := blob 32

def txoutToScript : Codec TxoutToScript :=
  (key.container.seq byte.container).map (fun p ↦ ⟨p.1, p.2⟩) fun s ↦ some (s.keys, s.script)

def TxoutTarget.tag : TxoutTarget → UInt8
  | .toScript _ => 0x0
  | .toScripthash _ => 0x1
  | .toKey _ => 0x2
  | .toTaggedKey _ _ => 0x3

def txoutTarget : Codec TxoutTarget := variant TxoutTarget.tag fun t ↦
    if t = 0x0 then some (txoutToScript.map .toScript fun
      | .toScript script => some script
      | _ => none)
    else if t = 0x1 then some (key.map .toScripthash fun
      | .toScripthash hash => some hash
      | _ => none)
    else if t = 0x2 then some (key.map .toKey fun
      | .toKey key => some key
      | _ => none)
    else if t = 0x3 then some ((key.seq byte).map (fun p ↦ .toTaggedKey p.1 p.2) fun
      | .toTaggedKey key viewTag => some (key, viewTag)
      | _ => none)
    else none

def Txin.tag : Txin → UInt8
  | .gen _ => 0xff
  | .toScript _ _ _ => 0x0
  | .toScripthash _ _ _ _ => 0x1
  | .toKey _ _ _ => 0x2

def txin : Codec Txin := variant Txin.tag fun t ↦
    if t = 0xff then some (varint64.map .gen fun
      | .gen height => some height
      | _ => none)
    else if t = 0x0 then some ((key.seq (varint64.seq byte.container)).map
      (fun p ↦ .toScript p.1 p.2.1 p.2.2) fun
      | .toScript prev prevout sigset => some (prev, prevout, sigset)
      | _ => none)
    else if t = 0x1 then some ((key.seq (varint64.seq (txoutToScript.seq byte.container))).map
      (fun p ↦ .toScripthash p.1 p.2.1 p.2.2.1 p.2.2.2) fun
      | .toScripthash prev prevout script sigset => some (prev, prevout, script, sigset)
      | _ => none)
    else if t = 0x2 then some ((varint64.seq (varint64.container.seq key)).map
      (fun p ↦ .toKey p.1 p.2.1 p.2.2) fun
      | .toKey amount keyOffsets kImage => some (amount, keyOffsets, kImage)
      | _ => none)
    else none

def txout : Codec Txout :=
  (varint64.seq txoutTarget).map (fun p ↦ ⟨p.1, p.2⟩) fun o ↦ some (o.amount, o.target)

def currentTransactionVersion : UInt64 := 2

def transactionPrefix : Codec TransactionPrefix :=
  ((varint64.guard fun version ↦ version ≠ 0 ∧ version ≤ currentTransactionVersion).seq
    (varint64.seq (txin.container.seq (txout.container.seq byte.container)))).map
    (fun p ↦ ⟨p.1, p.2.1, p.2.2.1, p.2.2.2.1, p.2.2.2.2⟩)
    fun t ↦ some (t.version, t.unlockTime, t.vin, t.vout, t.extra)

/-! ## Signatures of version 1 -/

def Txin.getSignatureSize : Txin → ℕ
  | .toKey _ keyOffsets _ => keyOffsets.length
  | _ => 0

/-- As many signatures for each input as its size says. -/
def signatureLists : List ℕ → Codec (List (List Signature))
  | [] => (pure ()).map (fun _ ↦ []) fun l ↦ if l.isEmpty then some () else none
  | size :: sizes =>
    (((blob 64).list size).seq (signatureLists sizes)).map (fun p ↦ p.1 :: p.2)
      fun l ↦ l.head?.map fun s ↦ (s, l.tail)

/-- The writer takes no signatures at all when every input has size zero.  The
signatures of a pruned transaction are not looked into. -/
def signatures (sizes : List ℕ) (pruned : Bool) : Codec (List (List Signature)) where
  read b := if pruned then some (sizes.map fun _ ↦ [], b) else (signatureLists sizes).read b
  write l :=
    if l.isEmpty then (if pruned ∨ sizes.all (· = 0) then some [] else none)
    else if l.length ≠ sizes.length then none
    else if pruned then some []
    else (signatureLists sizes).write l

/-! ## RingCT signatures -/

def rctTypeToByte : RctType → UInt8
  | .null => 0
  | .full => 1
  | .simple => 2
  | .bulletproof => 3
  | .bulletproof2 => 4
  | .clsag => 5
  | .bulletproofPlus => 6

def rctTypeOfByte (b : UInt8) : Option RctType :=
  [RctType.null, .full, .simple, .bulletproof, .bulletproof2, .clsag, .bulletproofPlus][b.toNat]?

/-- A byte that is none of the types fails. -/
def rctType : Codec RctType where
  read b := (byte.read b).bind fun p ↦ (rctTypeOfByte p.1).map fun type ↦ (type, p.2)
  write type := byte.write (rctTypeToByte type)

/-- The types that keep eight bytes of the amount, and no mask. -/
def hasShortEcdh (type : RctType) : Bool :=
  type = .bulletproof2 ∨ type = .clsag ∨ type = .bulletproofPlus

def longAmount (amount : List.Vector UInt8 8) : Key :=
  ⟨amount.toList ++ List.replicate 24 0, by simp⟩

def shortAmount (amount : Key) : List.Vector UInt8 8 := ⟨amount.toList.take 8, by simp⟩

def ecdhTuple (type : RctType) : Codec EcdhTuple :=
  if hasShortEcdh type then
    (blob 8).map (fun amount ↦ ⟨zeroKey, longAmount amount⟩) fun e ↦ some (shortAmount e.amount)
  else (key.seq key).map (fun p ↦ ⟨p.1, p.2⟩) fun e ↦ some (e.mask, e.amount)

def outPkMask : Codec CtKey := key.map (fun mask ↦ ⟨zeroKey, mask⟩) fun k ↦ some k.mask

def rctsigBaseFields (type : RctType) (inputs outputs : ℕ) :
    Codec (UInt64 × List Key × List EcdhTuple × List CtKey) :=
  if type = .null then pure (0, [], [], [])
  else
    varint64.seq ((if type = .simple then key.list inputs else pure []).seq
      (((ecdhTuple type).list outputs).seq (outPkMask.list outputs)))

def rctsigBase (inputs outputs : ℕ) : Codec RctSigBase :=
  (rctType.bind fun type ↦ rctsigBaseFields type inputs outputs).map
    (fun p ↦ { RctSigBase.empty with
      type := p.1, txnFee := p.2.1, pseudoOuts := p.2.2.1, ecdhInfo := p.2.2.2.1,
      outPk := p.2.2.2.2 })
    fun r ↦ some (r.type, r.txnFee, r.pseudoOuts, r.ecdhInfo, r.outPk)

def rangeSig : Codec RangeSig :=
  ((blob 4128).seq (blob 2048)).map (fun p ↦ ⟨p.1, p.2⟩) fun r ↦ some (r.asig, r.Ci)

def bulletproof : Codec Bulletproof :=
  ((key.seq (key.seq (key.seq (key.seq (key.seq (key.seq (key.container.seq (key.container.seq
    (key.seq (key.seq key)))))))))).map
    (fun (A, S, T1, T2, taux, mu, L, R, a, b, t) ↦ ⟨[], A, S, T1, T2, taux, mu, L, R, a, b, t⟩)
    fun p ↦ some (p.A, p.S, p.T1, p.T2, p.taux, p.mu, p.L, p.R, p.a, p.b, p.t)).guard
    fun p ↦ !p.L.isEmpty && p.L.length = p.R.length

def bulletproofPlus : Codec BulletproofPlus :=
  ((key.seq (key.seq
    (key.seq (key.seq (key.seq (key.seq (key.container.seq key.container))))))).map
    (fun (A, A1, B, r1, s1, d1, L, R) ↦ ⟨[], A, A1, B, r1, s1, d1, L, R⟩)
    fun p ↦ some (p.A, p.A1, p.B, p.r1, p.s1, p.d1, p.L, p.R)).guard
    fun p ↦ !p.L.isEmpty && p.L.length = p.R.length

/-- `n_bulletproof_max_amounts_base`; both limits on the outputs are 16. -/
def nBulletproofMaxAmountsBase (L R : ℕ) : ℕ :=
  if L < 6 then 0 else if L ≠ R then 0 else if 6 + 4 < L then 0 else 2 ^ (L - 6)

/-- The loop over the proofs, from the sum `n` on. -/
def nBulletproofMaxAmountsFrom : ℕ → List (ℕ × ℕ) → ℕ
  | n, [] => n
  | n, (L, R) :: sizes =>
    let n2 := nBulletproofMaxAmountsBase L R
    if 0xffffffff - n ≤ n2 then 0
    else if n2 = 0 then 0
    else nBulletproofMaxAmountsFrom (n + n2) sizes

def nBulletproofMaxAmounts (proofs : List Bulletproof) : ℕ :=
  nBulletproofMaxAmountsFrom 0 (proofs.map fun p ↦ (p.L.length, p.R.length))

def nBulletproofPlusMaxAmounts (proofs : List BulletproofPlus) : ℕ :=
  nBulletproofMaxAmountsFrom 0 (proofs.map fun p ↦ (p.L.length, p.R.length))

/-- Proofs after their number, `uint32_t nbp`, which may not be above the
number of outputs. -/
def proofs {α : Type*} (nbp : Codec ℕ) (c : Codec α) (maxAmounts : List α → ℕ) (outputs : ℕ) :
    Codec (List α) :=
  (((nbp.guard fun n ↦ n ≤ outputs).bind c.list).map Prod.snd
    fun l ↦ some (l.length % 2 ^ 32, l.take (l.length % 2 ^ 32))).guard
    fun l ↦ outputs ≤ maxAmounts l

/-- The range proofs of each type, in the three fields they are kept in. -/
def rangeProofs (type : RctType) (outputs : ℕ) :
    Codec (List RangeSig × List Bulletproof × List BulletproofPlus) :=
  if type = .bulletproofPlus then
    (proofs (varint 32) bulletproofPlus nBulletproofPlusMaxAmounts outputs).map
      (fun l ↦ ([], [], l)) fun p ↦ some p.2.2
  else if type = .bulletproof2 ∨ type = .clsag then
    (proofs (varint 32) bulletproof nBulletproofMaxAmounts outputs).map
      (fun l ↦ ([], l, [])) fun p ↦ some p.2.1
  else if type = .bulletproof then
    (proofs (uint 4) bulletproof nBulletproofMaxAmounts outputs).map
      (fun l ↦ ([], l, [])) fun p ↦ some p.2.1
  else (rangeSig.list outputs).map (fun l ↦ (l, [], [])) fun p ↦ some p.1

def clsag (mixin : ℕ) : Codec Clsag :=
  ((key.list (mixin + 1)).seq (key.seq key)).map (fun p ↦ ⟨p.1, p.2.1, zeroKey, p.2.2⟩)
    fun c ↦ some (c.s, c.c1, c.D)

def mgSig (mixin ss2 : ℕ) : Codec MgSig :=
  (((key.list ss2).list (mixin + 1)).seq key).map (fun p ↦ ⟨p.1, p.2, []⟩) fun m ↦
    some (m.ss, m.cc)

/-- Whether every input has a signature of its own. -/
def hasSimpleMGs (type : RctType) : Bool :=
  type = .simple ∨ type = .bulletproof ∨ type = .bulletproof2

def ringSignatures (type : RctType) (inputs mixin : ℕ) : Codec (List MgSig × List Clsag) :=
  if type = .clsag ∨ type = .bulletproofPlus then
    ((clsag mixin).list inputs).map (fun l ↦ ([], l)) fun p ↦ some p.2
  else
    ((mgSig mixin ((if hasSimpleMGs type then 1 else inputs) + 1)).list
      (if hasSimpleMGs type then inputs else 1)).map (fun l ↦ (l, [])) fun p ↦ some p.1

/-- Whether the pseudo outputs are kept in the prunable part. -/
def hasPrunablePseudoOuts (type : RctType) : Bool :=
  type = .bulletproof ∨ type = .bulletproof2 ∨ type = .clsag ∨ type = .bulletproofPlus

/-- `serialize_rctsig_prunable`, for a type other than `RCTTypeNull` -/
def rctsigPrunable (type : RctType) (inputs outputs mixin : ℕ) : Codec RctSigPrunable :=
  if 0xffffffff ≤ inputs ∨ 0xffffffff ≤ outputs ∨ 0xffffffff ≤ mixin then fail
  else
    ((rangeProofs type outputs).seq ((ringSignatures type inputs mixin).seq
      (if hasPrunablePseudoOuts type then key.list inputs else pure []))).map
      (fun p ↦ ⟨p.1.1, p.1.2.1, p.1.2.2, p.2.1.1, p.2.1.2, p.2.2⟩)
      fun p ↦ some ((p.rangeSigs, p.bulletproofs, p.bulletproofsPlus), (p.MGs, p.CLSAGs),
        p.pseudoOuts)

/-- The ring size of the first input less one, a 64-bit number, or zero. -/
def mixin (vin : List Txin) : ℕ :=
  match vin with
  | .toKey _ keyOffsets _ :: _ => (keyOffsets.length + 2 ^ 64 - 1) % 2 ^ 64
  | _ => 0

/-- `rct_signatures`, without the prunable part when the transaction is pruned
or has none. -/
def rctSignatures (t : TransactionPrefix) (pruned : Bool) : Codec RctSig :=
  ((rctsigBase t.vin.length t.vout.length).bind fun r ↦
    if pruned ∨ r.type = .null then pure RctSigPrunable.empty
    else rctsigPrunable r.type t.vin.length t.vout.length (mixin t.vin)).map
    (fun p ↦ ⟨p.1, p.2⟩) fun r ↦ some (r.toRctSigBase, r.p)

/-- What follows the prefix. -/
def signaturePart (t : TransactionPrefix) (pruned : Bool) :
    Codec (List (List Signature) × RctSig) :=
  if t.version = 1 then
    (signatures (t.vin.map Txin.getSignatureSize) pruned).map
      (fun l ↦ (l, RctSig.empty)) fun p ↦ some p.1
  else if t.vin.isEmpty then pure ([], RctSig.empty)
  else (rctSignatures t pruned).map (fun r ↦ ([], r)) fun p ↦ some p.2

/-- `transaction`, for an object whose flag `pruned` has the value given. -/
def transaction (pruned : Bool) : Codec Transaction :=
  (transactionPrefix.bind fun t ↦ signaturePart t pruned).map
    (fun p ↦ { p.1 with signatures := p.2.1, rctSignatures := p.2.2, pruned := false })
    fun t ↦ some (t.toTransactionPrefix, t.signatures, t.rctSignatures)

/-- A new transaction read from a blob, to the end of it. -/
def readTransaction (blob : List UInt8) : Option Transaction :=
  ((transaction false).read blob).bind fun p ↦ if p.2.isEmpty then some p.1 else none

def writeTransaction (t : Transaction) : Option (List UInt8) := (transaction t.pruned).write t

end Monero.Serialization
