import Monero.Serialization.Canonical

/-!
# Transaction hashes

The hash of a version 2 transaction is the hash of the hashes of its three
parts.  `calculate_transaction_hash` cuts the parts out of a blob at sizes that
reading and writing record, `get_pruned_transaction_hash` writes the first two
and is given the hash of the third.
-/

namespace Monero.Serialization

open Lib Lib.Codec Blockchain List
open Option (bind_some)

/-- A transaction with the sizes that reading and writing set, which are of
type `unsigned int`. -/
structure TransactionObject extends Transaction where
  prefixSize : UInt32
  unprunableSize : UInt32
  deriving DecidableEq

/-- The hash function, and the multiplication of a point by the inverse of
eight, which throws when the key is not a point. -/
structure HashEnv where
  cnFastHash : List UInt8 → Key
  scalarmultInvEight : Key → Option Key

/-! ## Parsing -/

def getMaxTxSize : ℕ := 1000000

def maxTotalKeyOffsets : ℕ := getMaxTxSize / 32

def passesMaxSizeCheck (maxSizeCheck : Bool) (blob : List UInt8) : Bool :=
  !maxSizeCheck || blob.length ≤ getMaxTxSize

def nKeyOffsetsExceedsMax (t : TransactionPrefix) : Bool :=
  maxTotalKeyOffsets ≤ (t.vin.map Txin.getSignatureSize).sum

def isCoinbase (t : TransactionPrefix) : Bool :=
  match t.vin with
  | [.gen _] => true
  | _ => false

/-- `get_output_public_key` -/
def TxoutTarget.publicKey? : TxoutTarget → Option Key
  | .toKey key => some key
  | .toTaggedKey key _ => some key
  | _ => none

def expandOutPk : List Txout → List CtKey → Option (List CtKey)
  | o :: vout, k :: outPk =>
    o.target.publicKey?.bind fun dest ↦
      (expandOutPk vout outPk).map ({ k with dest := dest } :: ·)
  | _, outPk => some outPk

def expandBase (t : Transaction) : Option Transaction :=
  if t.rctSignatures.outPk.length ≠ t.vout.length then none
  else (expandOutPk t.vout t.rctSignatures.outPk).map fun outPk ↦
    { t with rctSignatures := { t.rctSignatures with outPk := outPk } }

variable (env : HashEnv)

/-- The commitments are filled in, where the type has a proof for them. -/
def expandProofs (t : Transaction) : Option Transaction :=
  let r := t.rctSignatures
  if isRctBulletproofPlus r.type then
    match r.p.bulletproofsPlus with
    | [proof] =>
      if proof.L.length < 6 then none
      else if nBulletproofMaxAmountsBase proof.L.length proof.R.length < t.vout.length then none
      else (r.outPk.mapM fun k ↦ env.scalarmultInvEight k.mask).map fun V ↦
        { t with rctSignatures := { r with
          p := { r.p with bulletproofsPlus := [{ proof with V := V }] } } }
    | _ => none
  else if isRctBulletproof r.type then
    match r.p.bulletproofs with
    | [proof] =>
      if proof.L.length < 6 then none
      else if 2 ^ (proof.L.length - 6) < t.vout.length then none
      else (r.outPk.mapM fun k ↦ env.scalarmultInvEight k.mask).map fun V ↦
        { t with rctSignatures := { r with
          p := { r.p with bulletproofs := [{ proof with V := V }] } } }
    | _ => none
  else some t

def expandTransaction (t : Transaction) (baseOnly : Bool) : Option Transaction :=
  if 2 ≤ t.version ∧ !isCoinbase t.toTransactionPrefix then
    if t.rctSignatures.type = .null then some t
    else (expandBase t).bind fun t ↦ if baseOnly then some t else expandProofs env t
  else some t

variable (blob : List UInt8)

/-- The sizes that reading a blob into a new object leaves in it. -/
def readSizes : UInt32 × UInt32 :=
  match transactionPrefix.read blob with
  | none => (0, 0)
  | some (t, r) =>
    let prefixSize := UInt32.ofNat (blob.length - r.length)
    if t.version = 1 then (prefixSize, prefixSize)
    else if t.vin.isEmpty then (prefixSize, 0)
    else
      match (rctsigBase t.vin.length t.vout.length).read r with
      | none => (prefixSize, 0)
      | some (_, s) => (prefixSize, UInt32.ofNat (blob.length - s.length))

def parseAndValidateTxFromBlob (maxSizeCheck : Bool) : Option TransactionObject :=
  if !passesMaxSizeCheck maxSizeCheck blob then none
  else (readTransaction blob).bind fun t ↦
    if nKeyOffsetsExceedsMax t.toTransactionPrefix then none
    else (expandTransaction env t false).map fun t ↦
      ⟨t, (readSizes blob).1, (readSizes blob).2⟩

/-- `serialize_base` into a new object.  Nothing asks for the end of the input. -/
def readTransactionBase : Option Transaction :=
  (transactionPrefix.read blob).bind fun p ↦
    if p.1.version = 1 ∨ p.1.vin.isEmpty then
      some { p.1 with signatures := [], rctSignatures := RctSig.empty, pruned := true }
    else ((rctsigBase p.1.vin.length p.1.vout.length).read p.2).map fun q ↦
      { p.1 with signatures := [], rctSignatures := ⟨q.1, RctSigPrunable.empty⟩, pruned := true }

def parseAndValidateTxBaseFromBlob (maxSizeCheck : Bool) : Option TransactionObject :=
  if !passesMaxSizeCheck maxSizeCheck blob then none
  else (readTransactionBase blob).bind fun t ↦
    if nKeyOffsetsExceedsMax t.toTransactionPrefix then none
    else (expandTransaction env t true).map fun t ↦ ⟨t, 0, 0⟩

/-! ## Hashes -/

variable (t : TransactionObject)

/-- The blob, and the object with the sizes that writing leaves in it. -/
def txToBlob : Option (List UInt8 × TransactionObject) :=
  (writeTransaction t.toTransaction).bind fun blob ↦
    (transactionPrefix.write t.toTransactionPrefix).bind fun u ↦
      let prefixSize := UInt32.ofNat u.length
      if t.version = 1 then
        some (blob, { t with prefixSize := prefixSize, unprunableSize := prefixSize })
      else if t.vin.isEmpty then some (blob, { t with prefixSize := prefixSize })
      else ((rctsigBase t.vin.length t.vout.length).write t.rctSignatures.toRctSigBase).map fun v ↦
        (blob, { t with
          prefixSize := prefixSize, unprunableSize := UInt32.ofNat (u.length + v.length) })

/-- `serialize_rctsig_prunable` with an archive of its own. -/
def writeRctsigPrunable (t : Transaction) : Option (List UInt8) :=
  let inputs := t.vin.length
  let outputs := t.vout.length
  if 0xffffffff ≤ inputs ∨ 0xffffffff ≤ outputs ∨ 0xffffffff ≤ mixin t.vin then none
  else (prunablePart t.toTransactionPrefix t.rctSignatures.type).write t.rctSignatures.p

def calculateTransactionPrunableHash (blob : Option (List UInt8)) : Option Key :=
  if t.version = 1 then none
  else
    match blob.filter fun _ ↦ t.unprunableSize ≠ 0 with
    | some blob =>
      if blob.length < t.unprunableSize.toNat then none
      else some (env.cnFastHash (blob.drop t.unprunableSize.toNat))
    | none => (writeRctsigPrunable t.toTransaction).map env.cnFastHash

/-- The hash of the three hashes, the last of which is the zero hash for
`RCTTypeNull`. -/
def hashParts (prefixHash baseHash prunableHash : Key) : Key :=
  env.cnFastHash (prefixHash.toList ++ baseHash.toList ++ prunableHash.toList)

def getPrunedTransactionHash (prunedDataHash : Key) : Option Key :=
  if t.version ≤ 1 then none
  else
    (transactionPrefix.write t.toTransactionPrefix).bind fun u ↦
      ((rctsigBase t.vin.length t.vout.length).write t.rctSignatures.toRctSigBase).map fun v ↦
        hashParts env (env.cnFastHash u) (env.cnFastHash v)
          (if t.rctSignatures.type = .null then zeroKey else prunedDataHash)

def calculateTransactionHash : Option Key :=
  if t.pruned then none
  else if t.version = 1 then (writeTransaction t.toTransaction).map env.cnFastHash
  else
    (transactionPrefix.write t.toTransactionPrefix).bind fun u ↦
      (txToBlob t).bind fun (blob, t) ↦
        if ¬(t.prefixSize ≤ t.unprunableSize ∧ t.unprunableSize.toNat ≤ blob.length) then none
        else
          let base := (blob.drop t.prefixSize.toNat).take (t.unprunableSize - t.prefixSize).toNat
          (if t.rctSignatures.type = .null then some zeroKey
            else calculateTransactionPrunableHash env t (some blob)).map fun prunableHash ↦
            hashParts env (env.cnFastHash u) (env.cnFastHash base) prunableHash

/-! ## Expansion does not change the bytes -/

structure WrittenAlike (t t' : Transaction) : Prop where
  fields : t'.toTransactionPrefix = t.toTransactionPrefix
  pruned : t'.pruned = t.pruned
  type : t'.rctSignatures.type = t.rctSignatures.type
  base : ∀ inputs outputs, (rctsigBase inputs outputs).write t'.rctSignatures.toRctSigBase =
    (rctsigBase inputs outputs).write t.rctSignatures.toRctSigBase
  prunable : ∀ tx, (prunablePart tx t.rctSignatures.type).write t'.rctSignatures.p =
    (prunablePart tx t.rctSignatures.type).write t.rctSignatures.p

lemma WrittenAlike.refl (t : Transaction) : WrittenAlike t t :=
  ⟨rfl, rfl, rfl, fun _ _ ↦ rfl, fun _ ↦ rfl⟩

variable {t t' : Transaction} {env : HashEnv} {blob : List UInt8}

lemma WrittenAlike.trans {t'' : Transaction} (h : WrittenAlike t t')
    (h' : WrittenAlike t' t'') : WrittenAlike t t'' where
  fields := h'.fields.trans h.fields
  pruned := h'.pruned.trans h.pruned
  type := h'.type.trans h.type
  base inputs outputs := (h'.base inputs outputs).trans (h.base inputs outputs)
  prunable tx := by
    rw [← h.type, h'.prunable, h.type, h.prunable]

lemma expandOutPk_mask {vout : List Txout} {outPk outPk' : List CtKey}
    (h : expandOutPk vout outPk = some outPk') :
    Forall₂ (fun k k' ↦ outPkMask.write k' = outPkMask.write k) outPk outPk' := by
  induction vout generalizing outPk outPk' with
  | nil =>
    cases h
    exact forall₂_same.mpr fun _ _ ↦ rfl
  | cons o vout ih =>
    cases outPk with
    | nil =>
      cases h
      exact .nil
    | cons k outPk =>
      obtain ⟨dest, -, h⟩ := Option.bind_eq_some_iff.mp h
      obtain ⟨rest, hrest, rfl⟩ := Option.map_eq_some_iff.mp h
      exact .cons rfl (ih hrest)

lemma rctsigBase_write_congr {r : RctSigBase} {outPk : List CtKey}
    (h : Forall₂ (fun k k' ↦ outPkMask.write k' = outPkMask.write k) r.outPk outPk)
    (inputs outputs : ℕ) : (rctsigBase inputs outputs).write { r with outPk := outPk } =
      (rctsigBase inputs outputs).write r := by
  simp only [rctsigBase, map_some_write, Codec.bind, rctsigBaseFields]
  by_cases hnull : r.type = .null
  · simp [if_pos hnull, Codec.pure]
  · simp only [if_neg hnull, seq, Codec.bind, list_write_congr h]

lemma expandBase_alike (h : expandBase t = some t') : WrittenAlike t t' := by
  rw [expandBase] at h
  split_ifs at h
  obtain ⟨outPk, hexpand, rfl⟩ := Option.map_eq_some_iff.mp h
  exact ⟨rfl, rfl, rfl, rctsigBase_write_congr (expandOutPk_mask hexpand), fun _ ↦ rfl⟩

lemma proofs_write_congr {α : Type*} {nbp : Codec ℕ} {c : Codec α} {maxAmounts : List α → ℕ}
    {outputs : ℕ} {a a' : α} (hc : c.write a' = c.write a)
    (hmax : maxAmounts [a'] = maxAmounts [a]) :
    (proofs nbp c maxAmounts outputs).write [a'] =
      (proofs nbp c maxAmounts outputs).write [a] := by
  have hlist := list_write_congr (.cons hc .nil) 1
  simp only [proofs, Codec.guard, hmax, map_some_write, Codec.bind]
  change (if _ then Option.bind _ fun w ↦ ((c.list 1).write [a']).map _ else none) =
    (if _ then Option.bind _ fun w ↦ ((c.list 1).write [a]).map _ else none)
  rw [hlist]
  rfl

lemma alike_of_rangeProofs {bp : List Bulletproof} {bpPlus : List BulletproofPlus}
    (h : ∀ outputs, (rangeProofs t.rctSignatures.type outputs).write
        (t.rctSignatures.p.rangeSigs, bp, bpPlus) =
          (rangeProofs t.rctSignatures.type outputs).write
      (t.rctSignatures.p.rangeSigs, t.rctSignatures.p.bulletproofs,
        t.rctSignatures.p.bulletproofsPlus)) :
    WrittenAlike t { t with rctSignatures := { t.rctSignatures with p := { t.rctSignatures.p with
      bulletproofs := bp, bulletproofsPlus := bpPlus } } } := by
  refine ⟨rfl, rfl, rfl, fun _ _ ↦ rfl, fun tx ↦ ?_⟩
  rw [prunablePart, rctsigPrunable]
  split_ifs
  · rfl
  · rfl
  all_goals simp only [map_some_write, seq, Codec.bind, h]

lemma expandProofs_alike (h : expandProofs env t = some t') : WrittenAlike t t' := by
  simp only [expandProofs] at h
  split_ifs at h with hplus hbulletproof
  · split at h
    · rename_i proof hproof
      split_ifs at h
      obtain ⟨V, -, rfl⟩ := Option.map_eq_some_iff.mp h
      refine alike_of_rangeProofs fun outputs ↦ ?_
      rw [rangeProofs, if_pos (of_decide_eq_true hplus), map_some_write, map_some_write, hproof]
      exact proofs_write_congr rfl rfl
    · cases h
  · split at h
    · rename_i proof hproof
      split_ifs at h
      obtain ⟨V, -, rfl⟩ := Option.map_eq_some_iff.mp h
      refine alike_of_rangeProofs fun outputs ↦ ?_
      have hne : t.rctSignatures.type ≠ .bulletproofPlus := fun h ↦ hplus (decide_eq_true h)
      rw [rangeProofs, if_neg hne]
      rcases of_decide_eq_true hbulletproof with h | h | h <;>
        simp only [h, hproof] <;> exact proofs_write_congr rfl rfl
    · cases h
  · cases h
    exact .refl t

lemma expandTransaction_alike {baseOnly : Bool}
    (h : expandTransaction env t baseOnly = some t') : WrittenAlike t t' := by
  rw [expandTransaction] at h
  split at h
  · split at h
    · cases h
      exact .refl t
    · obtain ⟨u, hbase, hproofs⟩ := Option.bind_eq_some_iff.mp h
      have halike := expandBase_alike hbase
      split_ifs at hproofs
      · cases hproofs
        exact halike
      · exact halike.trans (expandProofs_alike hproofs)
  · cases h
    exact .refl t

lemma expandBase_prune (t : Transaction) :
    expandBase t.prune = (expandBase t).map Transaction.prune := by
  rw [expandBase, expandBase]
  by_cases hlength : t.rctSignatures.outPk.length ≠ t.vout.length
  · rw [if_pos hlength]
    exact if_pos hlength
  · rw [if_neg hlength, Option.map_map]
    exact if_neg hlength

lemma expandTransaction_prune (h : expandTransaction env t false = some t') :
    ∃ p, expandTransaction env t.prune true = some p := by
  have hprune : expandTransaction env t.prune true =
      if 2 ≤ t.version ∧ !isCoinbase t.toTransactionPrefix then
        if t.rctSignatures.type = .null then some t.prune
        else (expandBase t.prune).bind some
      else some t.prune := rfl
  rw [hprune]
  rw [expandTransaction] at h
  split at h
  · rw [if_pos ‹_›]
    split at h
    · exact ⟨_, if_pos ‹_›⟩
    · obtain ⟨u, hbase, -⟩ := Option.bind_eq_some_iff.mp h
      rw [if_neg ‹_›, expandBase_prune, hbase]
      exact ⟨_, rfl⟩
  · exact ⟨_, if_neg ‹_›⟩

/-! ## The parts of a blob -/

lemma blobParts_of_read (hread : readTransaction blob = some t)
    (hversion : t.version ≠ 1) (hvin : t.vin ≠ []) : ∃ u v x, BlobParts t blob u v x := by
  obtain ⟨hwell, hwrite⟩ := writeTransaction_of_read hread hversion hvin
  exact (writeTransaction_eq_some_iff hversion hvin hwell.unpruned).mp hwrite

section

variable {u v x : List UInt8}

lemma BlobParts.alike (h : BlobParts t blob u v x) (halike : WrittenAlike t t') :
    BlobParts t' blob u v x where
  blob := h.blob
  writePrefix := by rw [halike.fields, h.writePrefix]
  writeBase := by rw [halike.base, halike.fields, h.writeBase]
  writePrunable := by rw [halike.type, halike.prunable, halike.fields, h.writePrunable]

variable (h : BlobParts t blob u v x) (hwell : t.WellFormed) (hversion : t.version ≠ 1)
  (hvin : t.vin ≠ [])
include h

lemma BlobParts.length_eq : blob.length = u.length + v.length + x.length := by
  rw [h.blob, length_append, length_append, Nat.add_assoc]

lemma BlobParts.drop_eq : blob.drop (u.length + v.length) = x := by
  rw [← drop_drop, h.blob, drop_left' rfl, drop_left' rfl]

include hwell

lemma BlobParts.readPrefix (rest : List UInt8) :
    transactionPrefix.read (u ++ rest) = some (t.toTransactionPrefix, rest) := by
  obtain ⟨w, hw, hread⟩ := transactionPrefix_lawful.read_write _ hwell.fields
  cases h.writePrefix.symm.trans hw
  exact hread rest

lemma BlobParts.prefix_ne_nil : u ≠ [] := by
  rintro rfl
  cases h.readPrefix hwell []

include hversion hvin

lemma BlobParts.readBase (rest : List UInt8) :
    (rctsigBase t.vin.length t.vout.length).read (v ++ rest) =
      some (t.rctSignatures.toRctSigBase, rest) := by
  have hbase := (hwell.signatures.rct (not_or.mpr ⟨hversion, hvin⟩)).base
  obtain ⟨w, hw, hread⟩ := (rctsigBase_lawful _ _).read_write _ hbase
  cases h.writeBase.symm.trans hw
  exact hread rest

lemma BlobParts.readSizes_eq :
    readSizes blob = (UInt32.ofNat u.length, UInt32.ofNat (u.length + v.length)) := by
  have hempty : ¬t.vin.isEmpty := fun hnil ↦ hvin (isEmpty_iff.mp hnil)
  have hprefixSize : (u ++ (v ++ x)).length - (v ++ x).length = u.length := by simp
  have hbase : (u ++ (v ++ x)).length - x.length = u.length + v.length := by simp; omega
  rw [readSizes, h.blob, h.readPrefix hwell]
  simp only [if_neg hversion, if_neg hempty, h.readBase hwell hversion hvin, hprefixSize, hbase]

lemma BlobParts.readTransactionBase_eq : readTransactionBase (u ++ v) = some t.prune := by
  have hempty : ¬(t.version = 1 ∨ t.vin.isEmpty) :=
    not_or.mpr ⟨hversion, fun hnil ↦ hvin (isEmpty_iff.mp hnil)⟩
  have hbase := h.readBase hwell hversion hvin []
  rw [append_nil] at hbase
  have hsignatures : t.signatures = [] := by
    have hlengths := hwell.signatures.signatures
    rw [if_neg hversion] at hlengths
    exact map_eq_nil_iff.mp hlengths
  rw [readTransactionBase, h.readPrefix hwell, bind_some, if_neg hempty, hbase, Transaction.prune,
    hsignatures]
  rfl

end

/-! ## The hashes agree -/

def TransactionObject.withSizes (t : TransactionObject) (u v : List UInt8) : TransactionObject :=
  { t with
    prefixSize := UInt32.ofNat u.length, unprunableSize := UInt32.ofNat (u.length + v.length) }

section

variable (env : HashEnv) {t : TransactionObject} {blob u v x : List UInt8}

lemma txToBlob_eq (h : BlobParts t.toTransaction blob u v x) (hversion : t.version ≠ 1)
    (hvin : t.vin ≠ []) (hpruned : t.pruned = false) :
    txToBlob t = some (blob, t.withSizes u v) := by
  have hempty : ¬t.vin.isEmpty := fun hnil ↦ hvin (isEmpty_iff.mp hnil)
  have hwrite : writeTransaction t.toTransaction = some blob :=
    (writeTransaction_eq_some_iff hversion hvin hpruned).mpr ⟨u, v, x, h⟩
  rw [txToBlob, hwrite, bind_some, h.writePrefix, bind_some, if_neg hversion,
    if_neg hempty, h.writeBase]
  rfl

lemma getPrunedTransactionHash_eq (hversion : t.version = 2)
    (hu : transactionPrefix.write t.toTransactionPrefix = some u)
    (hv : (rctsigBase t.vin.length t.vout.length).write t.rctSignatures.toRctSigBase = some v)
    (d : Key) :
    getPrunedTransactionHash env t d = some (hashParts env (env.cnFastHash u) (env.cnFastHash v)
      (if t.rctSignatures.type = .null then zeroKey else d)) := by
  have hnew : ¬t.version ≤ 1 := by simp [hversion]
  rw [getPrunedTransactionHash, if_neg hnew, hu, bind_some, hv]
  rfl

variable (h : BlobParts t.toTransaction blob u v x) (hone : t.version ≠ 1)
include h hone

/-- The prunable part is written as it stands in the blob, if it can be written
by itself. -/
theorem prunableHash_reserialised {d : Key}
    (hd : calculateTransactionPrunableHash env t none = some d) : d = env.cnFastHash x := by
  simp only [calculateTransactionPrunableHash, if_neg hone, Option.filter_none] at hd
  obtain ⟨w, hw, rfl⟩ := Option.map_eq_some_iff.mp hd
  simp only [writeRctsigPrunable] at hw
  split_ifs at hw
  cases h.writePrunable.symm.trans hw
  rfl

lemma prunableHash_reserialised_of_ne_null (hnull : t.rctSignatures.type ≠ .null) :
    calculateTransactionPrunableHash env t none = some (env.cnFastHash x) := by
  have hlimits : ¬(0xffffffff ≤ t.vin.length ∨ 0xffffffff ≤ t.vout.length ∨
      0xffffffff ≤ mixin t.vin) := by
    intro hlarge
    have hx := h.writePrunable
    rw [prunablePart, if_neg hnull, rctsigPrunable, if_pos hlarge] at hx
    cases hx
  simp [calculateTransactionPrunableHash, if_neg hone, writeRctsigPrunable, if_neg hlimits,
    h.writePrunable]

variable (hu : u ≠ []) (hsize : blob.length < 2 ^ 32)
include hu hsize

lemma prunableHash_slice (hunprunable : t.unprunableSize = UInt32.ofNat (u.length + v.length)) :
    calculateTransactionPrunableHash env t (some blob) = some (env.cnFastHash x) := by
  have hpos := length_pos_iff.mpr hu
  have hlength := h.length_eq
  have hnat : t.unprunableSize.toNat = u.length + v.length := by
    rw [hunprunable, UInt32.toNat_ofNat']
    omega
  have hne : t.unprunableSize ≠ 0 := by
    intro hzero
    rw [hzero] at hnat
    simp at hnat
    omega
  rw [calculateTransactionPrunableHash, if_neg hone]
  simp [Option.filter_some, hne, hnat, h.drop_eq, hlength]

lemma calculateTransactionHash_eq (hpruned : t.pruned = false) (hvin : t.vin ≠ []) :
    calculateTransactionHash env t = some (hashParts env (env.cnFastHash u) (env.cnFastHash v)
      (if t.rctSignatures.type = .null then zeroKey else env.cnFastHash x)) := by
  have hlength := h.length_eq
  have hprefixSize : (UInt32.ofNat u.length).toNat = u.length := by
    rw [UInt32.toNat_ofNat']
    omega
  have hunprunable : (UInt32.ofNat (u.length + v.length)).toNat = u.length + v.length := by
    rw [UInt32.toNat_ofNat']
    omega
  have hle : UInt32.ofNat u.length ≤ UInt32.ofNat (u.length + v.length) := by
    rw [UInt32.le_iff_toNat_le, hprefixSize, hunprunable]
    exact Nat.le_add_right _ _
  have hbase : (blob.drop u.length).take v.length = v := by
    rw [h.blob, drop_left' rfl, take_left' rfl]
  have hblob := txToBlob_eq h hone hvin hpruned
  have hprunable := prunableHash_slice env (t := t.withSizes u v) h hone hu hsize rfl
  have hfits : ¬¬(UInt32.ofNat u.length ≤ UInt32.ofNat (u.length + v.length) ∧
      (UInt32.ofNat (u.length + v.length)).toNat ≤ blob.length) := by
    rw [not_not, hunprunable, hlength]
    exact ⟨hle, Nat.le_add_right _ _⟩
  have hcut : (UInt32.ofNat (u.length + v.length) - UInt32.ofNat u.length).toNat = v.length := by
    rw [UInt32.toNat_sub_of_le _ _ hle, hprefixSize, hunprunable, Nat.add_sub_cancel_left]
  rw [calculateTransactionHash, if_neg (Bool.eq_false_iff.mp hpruned), if_neg hone, h.writePrefix,
    bind_some, hblob]
  simp only [bind_some, TransactionObject.withSizes, if_neg hfits, hprefixSize, hcut, hbase]
  split_ifs
  · rfl
  · rw [TransactionObject.withSizes] at hprunable
    rw [hprunable]
    rfl

end

/-- The ways to hash a transaction that came in a blob give one result: the
transaction itself, its pruned form with the hash of the rest, the parts cut
out of the blob, and the parts written again. -/
structure HashesAgree (env : HashEnv) (blob : List UInt8) (t p : TransactionObject) (d res : Key) :
    Prop where
  prunable : calculateTransactionPrunableHash env t (some blob) = some d
  whole : calculateTransactionHash env t = some res
  pruned : getPrunedTransactionHash env p d = some res
  slices : res = hashParts env (env.cnFastHash (blob.take t.prefixSize.toNat))
    (env.cnFastHash ((blob.take t.unprunableSize.toNat).drop t.prefixSize.toNat))
    (if t.rctSignatures.type = .null then zeroKey
      else env.cnFastHash (blob.drop t.unprunableSize.toNat))
  reserialised : getPrunedTransactionHash env t d = some res ∧
    (∀ d', calculateTransactionPrunableHash env t none = some d' → d' = d) ∧
      (t.rctSignatures.type ≠ .null → calculateTransactionPrunableHash env t none = some d)

lemma hashesAgree_of_parts (env : HashEnv) {t p : TransactionObject} {u v x : List UInt8}
    (h : BlobParts t.toTransaction blob u v x) (hversion : t.version = 2) (hone : t.version ≠ 1)
    (hvin : t.vin ≠ []) (hunpruned : t.pruned = false) (hu : u ≠ []) (hsize : blob.length < 2 ^ 32)
    (hprefixSize : t.prefixSize = UInt32.ofNat u.length)
    (hunprunable : t.unprunableSize = UInt32.ofNat (u.length + v.length))
    (hfields : p.toTransactionPrefix = t.toTransactionPrefix)
    (htype : p.rctSignatures.type = t.rctSignatures.type)
    (hbase : (rctsigBase t.vin.length t.vout.length).write p.rctSignatures.toRctSigBase = some v) :
    HashesAgree env blob t p (env.cnFastHash x)
      (hashParts env (env.cnFastHash u) (env.cnFastHash v)
      (if t.rctSignatures.type = .null then zeroKey else env.cnFastHash x)) where
  prunable := prunableHash_slice env h hone hu hsize hunprunable
  whole := calculateTransactionHash_eq env h hone hu hsize hunpruned hvin
  pruned := by
    rw [← htype]
    refine getPrunedTransactionHash_eq env ?_ ?_ ?_ _
    · rw [hfields, hversion]
    · rw [hfields, h.writePrefix]
    · rw [hfields, hbase]
  slices := by
    have hlength := h.length_eq
    have hcut : (blob.take (u.length + v.length)).drop u.length = v := by
      rw [drop_take, h.blob, drop_left' rfl, Nat.add_sub_cancel_left, take_left' rfl]
    have hfront : blob.take u.length = u := by
      rw [h.blob, take_left' rfl]
    rw [hprefixSize, hunprunable, UInt32.toNat_ofNat', UInt32.toNat_ofNat',
      Nat.mod_eq_of_lt (by omega), Nat.mod_eq_of_lt (by omega), hcut, h.drop_eq, hfront]
  reserialised := ⟨getPrunedTransactionHash_eq env hversion h.writePrefix h.writeBase _,
    fun _ ↦ prunableHash_reserialised env h hone,
    prunableHash_reserialised_of_ne_null env h hone⟩

/-- The pruned form of a transaction is found in the first bytes of its blob,
and has its hash. -/
theorem pruned_hash_agrees (env : HashEnv) {maxSizeCheck : Bool}
    {t : TransactionObject} (hparse : parseAndValidateTxFromBlob env blob maxSizeCheck = some t)
    (hversion : t.version = 2) (hvin : t.vin ≠ []) (hsize : blob.length < 2 ^ 32) :
    ∃ p d res, parseAndValidateTxBaseFromBlob env (blob.take t.unprunableSize.toNat) maxSizeCheck =
      some p ∧ HashesAgree env blob t p d res := by
  rw [parseAndValidateTxFromBlob] at hparse
  split_ifs at hparse with hmax
  obtain ⟨t₀, hread, hparse⟩ := Option.bind_eq_some_iff.mp hparse
  split_ifs at hparse with hoffsets
  obtain ⟨t', hexpand, rfl⟩ := Option.map_eq_some_iff.mp hparse
  have halike := expandTransaction_alike hexpand
  have hone' : t'.version ≠ 1 := by
    simp only at hversion
    rw [hversion]
    decide
  have hone : t₀.version ≠ 1 := by rwa [← halike.fields]
  have hvin₀ : t₀.vin ≠ [] := by
    rw [← halike.fields]
    exact hvin
  obtain ⟨hwell, -⟩ := writeTransaction_of_read hread hone hvin₀
  obtain ⟨u, v, x, hparts⟩ := blobParts_of_read hread hone hvin₀
  have hsizes := hparts.readSizes_eq hwell hone hvin₀
  have hlength := hparts.length_eq
  have htake : blob.take (readSizes blob).2.toNat = u ++ v := by
    rw [hsizes, UInt32.toNat_ofNat', Nat.mod_eq_of_lt (by omega), hparts.blob, ← append_assoc]
    exact take_left' (by simp)
  obtain ⟨p, hp⟩ := expandTransaction_prune hexpand
  have hpruned := expandTransaction_alike hp
  refine ⟨⟨p, 0, 0⟩, _, _, ?_, hashesAgree_of_parts env (hparts.alike halike) hversion hone' hvin
    (halike.pruned.trans hwell.unpruned) (hparts.prefix_ne_nil hwell) hsize
    (congrArg Prod.fst hsizes) (congrArg Prod.snd hsizes) (hpruned.fields.trans halike.fields.symm)
    (hpruned.type.trans halike.type.symm) ?_⟩
  · have hpasses : passesMaxSizeCheck maxSizeCheck (u ++ v) = true := by
      simp only [passesMaxSizeCheck, Bool.not_eq_true', Bool.not_eq_false, Bool.or_eq_true,
        decide_eq_true_eq, hlength, length_append] at hmax ⊢
      exact hmax.imp id (by omega)
    simp only [htake, parseAndValidateTxBaseFromBlob, hpasses, Bool.not_true, Bool.false_eq_true,
      if_false, hparts.readTransactionBase_eq hwell hone hvin₀, bind_some]
    change (if nKeyOffsetsExceedsMax t₀.toTransactionPrefix then _ else _) = _
    rw [if_neg hoffsets, hp]
    rfl
  · rw [hpruned.base]
    change (rctsigBase t'.vin.length t'.vout.length).write t₀.rctSignatures.toRctSigBase = some v
    rw [halike.fields, hparts.writeBase]

/-! ### Two blobs -/

def lengthEnv : HashEnv where
  cnFastHash := fun blob ↦ ⟨toLittleEndian 32 blob.length, toLittleEndian_length 32 _⟩
  scalarmultInvEight := some

theorem pruned_hash_agrees_simple :
    ∃ t, parseAndValidateTxFromBlob lengthEnv simpleBlob true = some t ∧
      (t.rctSignatures.type = .simple ∧ t.prefixSize = 41 ∧ t.unprunableSize = 75) ∧
        ∃ p d res, parseAndValidateTxBaseFromBlob lengthEnv
          (simpleBlob.take t.unprunableSize.toNat) true = some p ∧
            HashesAgree lengthEnv simpleBlob t p d res := by
  obtain ⟨t, ht⟩ := Option.isSome_iff_exists.mp
    (show (parseAndValidateTxFromBlob lengthEnv simpleBlob true).isSome by decide +kernel)
  have hfields : (parseAndValidateTxFromBlob lengthEnv simpleBlob true).map (fun t ↦
      ((t.rctSignatures.type, t.prefixSize, t.unprunableSize), t.version, t.vin.isEmpty)) =
        some ((.simple, 41, 75), 2, false) := by decide +kernel
  rw [ht, Option.map_some, Option.some_inj] at hfields
  obtain ⟨⟨htype, hprefixSize, hunprunable⟩, hversion, hvin⟩ :
      (t.rctSignatures.type = .simple ∧ t.prefixSize = 41 ∧ t.unprunableSize = 75) ∧
        t.version = 2 ∧ t.vin.isEmpty = false := by simpa using hfields
  refine ⟨t, ht, ⟨htype, hprefixSize, hunprunable⟩, pruned_hash_agrees lengthEnv ht hversion ?_
    (by decide +kernel)⟩
  intro hnil
  rw [hnil] at hvin
  cases hvin

/-- A coinbase transaction with an `extra` field of `n` bytes. -/
def extraCoinbase (n : ℕ) : Transaction where
  version := 2
  unlockTime := 0
  vin := [.gen 0]
  vout := []
  extra := replicate n 0
  signatures := []
  rctSignatures := RctSig.empty
  pruned := false

lemma extraCoinbase_wellFormed {n : ℕ} (hn : n < 2 ^ 64) : (extraCoinbase n).WellFormed where
  fields := {
    version_ne_zero := by simp [extraCoinbase]
    version_le := by simp [extraCoinbase, currentTransactionVersion]
    vin_length := by simp [extraCoinbase]
    vin_sized := by simp [extraCoinbase, Txin.Sized]
    vout_length := by simp [extraCoinbase]
    vout_sized := by simp [extraCoinbase]
    extra_length := by simpa [extraCoinbase] using hn }
  signatures := {
    signatures := by simp [extraCoinbase]
    empty := fun _ ↦ rfl
    rct := fun _ ↦ {
      base := by
        constructor <;> simp [extraCoinbase, RctSig.empty, RctSigBase.empty]
      empty_of_null := fun _ ↦ rfl
      prunable := fun h ↦ absurd rfl h } }
  unpruned := rfl

lemma extraCoinbase_prefix_length {n : ℕ} {u : List UInt8}
    (hu : transactionPrefix.write (extraCoinbase n).toTransactionPrefix = some u) :
    u.length = 6 + (writeVarint n).length + n := by
  rw [transactionPrefix, map_some_write] at hu
  obtain ⟨version, r₁, hversion, hr₁, rfl⟩ := bind_write_eq_some.mp hu
  obtain ⟨unlockTime, r₂, hunlock, hr₂, rfl⟩ := bind_write_eq_some.mp hr₁
  obtain ⟨vin, r₃, hvin, hr₃, rfl⟩ := bind_write_eq_some.mp hr₂
  obtain ⟨vout, extra, hvout, hextra, rfl⟩ := bind_write_eq_some.mp hr₃
  have hversion' : version = [2] := (Option.some_inj.mp hversion).symm
  have hunlock' : unlockTime = [0] := (Option.some_inj.mp hunlock).symm
  have hvin' : vin = [1, 0xff, 0] := (Option.some_inj.mp hvin).symm
  have hvout' : vout = [0] := (Option.some_inj.mp hvout).symm
  have hlength := byte_measures.container _ _ hextra
  simp only [extraCoinbase, length_replicate, Nat.mul_one] at hlength
  simp only [length_append, length_cons, length_nil, hlength, hversion', hunlock', hvin', hvout']
  omega

/-- The part that is not pruned has `2 ^ 32` bytes, and its recorded size is
zero. -/
theorem pruned_hash_truncated : ∃ (t : TransactionObject) (blob : List UInt8),
    t.version = 2 ∧ t.vin ≠ [] ∧ ∀ env, parseAndValidateTxFromBlob env blob false = some t ∧
        parseAndValidateTxBaseFromBlob env (blob.take t.unprunableSize.toNat) false = none ∧
          calculateTransactionHash env t = none := by
  obtain ⟨n, hn⟩ : ∃ n, n = 2 ^ 32 - 12 := ⟨_, rfl⟩
  have hvarint : (writeVarint n).length = 5 := by
    rw [hn, writeVarint_length_succ (by decide), writeVarint_length_succ (by decide),
      writeVarint_length_succ (by decide), writeVarint_length_succ (by decide),
      writeVarint_length_of_lt (by decide)]
  have hwell : (extraCoinbase n).WellFormed := extraCoinbase_wellFormed (by omega)
  have hone : (extraCoinbase n).version ≠ 1 := by simp [extraCoinbase]
  have hvin : (extraCoinbase n).vin ≠ [] := cons_ne_nil _ _
  obtain ⟨blob, hwrite, hread⟩ := readTransaction_of_wellFormed hwell
  obtain ⟨u, v, x, hparts⟩ := blobParts_of_read hread hone hvin
  have hu : u.length = 2 ^ 32 - 1 := by
    rw [extraCoinbase_prefix_length hparts.writePrefix, hvarint]
    omega
  have hv : v = [0] := (Option.some_inj.mp hparts.writeBase).symm
  have hsizes : readSizes blob = (0xffffffff, 0) := by
    rw [hparts.readSizes_eq hwell hone hvin, hu, hv]
    rfl
  refine ⟨⟨extraCoinbase n, 0xffffffff, 0⟩, blob, rfl, hvin, fun env ↦ ⟨?_, rfl, ?_⟩⟩
  · rw [parseAndValidateTxFromBlob, hread, hsizes]
    rfl
  · have hpruned : ¬(extraCoinbase n).pruned = true := Bool.false_ne_true
    have hblob := @txToBlob_eq ⟨extraCoinbase n, 0xffffffff, 0⟩ blob u v x hparts hone hvin rfl
    rw [calculateTransactionHash, if_neg hpruned, if_neg hone, hparts.writePrefix, bind_some,
      hblob, TransactionObject.withSizes, hu, hv]
    rfl

end Monero.Serialization
