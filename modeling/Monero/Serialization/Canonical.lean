import Monero.Serialization.Format

/-!
# Transaction blobs are canonical

Each piece of the format is lawful, and the pieces that end in something other
than an integer of variable length or a container are exact.  The signatures
of a version 2 transaction with an input always end in a key, or in the type
byte, so that the lenient reading of an integer cut off by the end of the
input does not show.
-/

namespace Monero.Serialization

open Lib Lib.Codec Blockchain List

/-! ## The prefix -/

lemma varint64_lawful : varint64.Lawful fun _ ↦ True := by
  apply (@varint_lawful 64 (by decide)).map
  constructor
  · intro v _
    exact ⟨v.toNat, rfl, v.toNat_lt, UInt64.ofNat_toNat⟩
  · intro n hn
    refine ⟨trivial, ?_⟩
    rw [UInt64.toNat_ofNat_of_lt' hn]

lemma varint64_productive : varint64.Productive := (varint_productive 64).map _ _

lemma key_exact : key.Exact fun _ ↦ True := blob_exact 32

lemma key_productive : key.Productive := blob_productive (by decide)

lemma keyContainer_lawful : key.container.Lawful fun l ↦ l.length < 2 ^ 64 :=
  (key_exact.toLawful.container key_productive).congr fun _ ↦ by simp

lemma byteContainer_lawful : byte.container.Lawful fun l ↦ l.length < 2 ^ 64 :=
  (byte_exact.toLawful.container byte_productive).congr fun _ ↦ by simp

lemma varintContainer_lawful : varint64.container.Lawful fun l ↦ l.length < 2 ^ 64 :=
  (varint64_lawful.container varint64_productive).congr fun _ ↦ by simp

/-- The vectors are no longer than a `size_t` can count. -/
def TxoutToScript.Sized (s : TxoutToScript) : Prop :=
  s.keys.length < 2 ^ 64 ∧ s.script.length < 2 ^ 64

lemma txoutToScript_lawful : txoutToScript.Lawful TxoutToScript.Sized := by
  apply (keyContainer_lawful.seq byteContainer_lawful).map
  constructor
  · intro s hs
    exact ⟨_, rfl, hs, rfl⟩
  · intro p hp
    exact ⟨hp, rfl⟩

def TxoutTarget.Sized : TxoutTarget → Prop
  | .toScript script => script.Sized
  | _ => True

lemma txoutTarget_lawful : txoutTarget.Lawful TxoutTarget.Sized := by
  apply variant_lawful
  · intro a _
    cases a <;> rfl
  · intro t c h
    split_ifs at h with h₀ h₁ h₂ h₃ <;> cases h <;> subst t
    · refine txoutToScript_lawful.map (.of_tag (fun _ ↦ .rfl) fun x hx ↦ ?_)
      cases x with
      | toScript script => exact ⟨_, rfl⟩
      | _ => simp [TxoutTarget.tag] at hx
    · refine key_exact.toLawful.map (.of_tag (fun _ ↦ .rfl) fun x hx ↦ ?_)
      cases x with
      | toScripthash hash => exact ⟨_, rfl⟩
      | _ => simp [TxoutTarget.tag] at hx
    · refine key_exact.toLawful.map (.of_tag (fun _ ↦ .rfl) fun x hx ↦ ?_)
      cases x with
      | toKey key => exact ⟨_, rfl⟩
      | _ => simp [TxoutTarget.tag] at hx
    · refine (key_exact.toLawful.seq byte_exact.toLawful).map
        (.of_tag (fun _ ↦ (and_self_iff).symm) fun x hx ↦ ?_)
      cases x with
      | toTaggedKey key viewTag => exact ⟨(key, viewTag), rfl⟩
      | _ => simp [TxoutTarget.tag] at hx

def Txin.Sized : Txin → Prop
  | .gen _ => True
  | .toScript _ _ sigset => sigset.length < 2 ^ 64
  | .toScripthash _ _ script sigset => script.Sized ∧ sigset.length < 2 ^ 64
  | .toKey _ keyOffsets _ => keyOffsets.length < 2 ^ 64

lemma txin_lawful : txin.Lawful Txin.Sized := by
  apply variant_lawful
  · intro a _
    cases a <;> rfl
  · intro t c h
    split_ifs at h with h₀ h₁ h₂ h₃ <;> cases h <;> subst t
    · refine varint64_lawful.map (.of_tag (fun _ ↦ .rfl) fun x hx ↦ ?_)
      cases x with
      | gen height => exact ⟨_, rfl⟩
      | _ => simp [Txin.tag] at hx
    · refine (key_exact.toLawful.seq (varint64_lawful.seq byteContainer_lawful)).map
        (.of_tag (fun _ ↦ by simp [Txin.Sized]) fun x hx ↦ ?_)
      cases x with
      | toScript prev prevout sigset => exact ⟨(prev, prevout, sigset), rfl⟩
      | _ => simp [Txin.tag] at hx
    · refine (key_exact.toLawful.seq (varint64_lawful.seq
        (txoutToScript_lawful.seq byteContainer_lawful))).map
        (.of_tag (fun _ ↦ by simp [Txin.Sized]) fun x hx ↦ ?_)
      cases x with
      | toScripthash prev prevout script sigset => exact ⟨(prev, prevout, script, sigset), rfl⟩
      | _ => simp [Txin.tag] at hx
    · refine (varint64_lawful.seq (varintContainer_lawful.seq key_exact.toLawful)).map
        (.of_tag (fun _ ↦ by simp [Txin.Sized]) fun x hx ↦ ?_)
      cases x with
      | toKey amount keyOffsets kImage => exact ⟨(amount, keyOffsets, kImage), rfl⟩
      | _ => simp [Txin.tag] at hx

lemma txout_lawful : txout.Lawful fun o ↦ o.target.Sized := by
  apply (varint64_lawful.seq txoutTarget_lawful).map
  constructor
  · intro o ho
    exact ⟨_, rfl, ⟨trivial, ho⟩, rfl⟩
  · intro p hp
    exact ⟨hp.2, rfl⟩

lemma txout_productive : txout.Productive := (varint64_productive.bind_left _).map _ _

variable (t : TransactionPrefix) {inputs outputs : ℕ} {b : List UInt8}

structure TransactionPrefix.WellFormed : Prop where
  version_ne_zero : t.version ≠ 0
  version_le : t.version ≤ currentTransactionVersion
  vin_length : t.vin.length < 2 ^ 64
  vin_sized : ∀ i ∈ t.vin, i.Sized
  vout_length : t.vout.length < 2 ^ 64
  vout_sized : ∀ o ∈ t.vout, o.target.Sized
  extra_length : t.extra.length < 2 ^ 64

lemma transactionPrefix_lawful : transactionPrefix.Lawful TransactionPrefix.WellFormed := by
  apply ((varint64_lawful.guard _).seq (varint64_lawful.seq
    ((txin_lawful.container variant_productive).seq
      ((txout_lawful.container txout_productive).seq byteContainer_lawful)))).map
  constructor
  · intro t ht
    refine ⟨_, rfl, ⟨⟨trivial, ?_⟩, trivial, ⟨ht.vin_length, ht.vin_sized⟩,
      ⟨ht.vout_length, ht.vout_sized⟩, ht.extra_length⟩, rfl⟩
    exact decide_eq_true ⟨ht.version_ne_zero, ht.version_le⟩
  · rintro p ⟨⟨-, hversion⟩, -, hvin, hvout, hextra⟩
    have hversion := of_decide_eq_true hversion
    exact ⟨⟨hversion.1, hversion.2, hvin.1, hvin.2, hvout.1, hvout.2, hextra⟩, rfl⟩

/-! ## RingCT signatures, the base -/

lemma rctType_exact : rctType.Exact fun _ ↦ True := by
  apply Exact.of_write_read
  · intro type _
    refine ⟨[rctTypeToByte type], rfl, fun rest ↦ ?_⟩
    cases type <;> rfl
  · intro b type rest hread
    obtain ⟨⟨x, r⟩, hx, hmap⟩ := Option.bind_eq_some_iff.mp hread
    obtain ⟨type', htype, heq⟩ := Option.map_eq_some_iff.mp hmap
    cases heq
    obtain ⟨-, w, hw, hb⟩ := byte_exact.write_read_any hx
    cases hw
    refine ⟨trivial, [x], ?_, hb⟩
    have hbyte : rctTypeToByte type = x := by
      simp only [rctTypeOfByte] at htype
      obtain ⟨hlt, htype⟩ := List.getElem?_eq_some_iff.mp htype
      apply UInt8.toNat_inj.mp
      subst htype
      generalize x.toNat = n at hlt
      simp only [length_cons, length_nil] at hlt
      interval_cases n <;> rfl
    rw [← hbyte]
    rfl

lemma rctType_productive : rctType.Productive := fun _ _ hw ↦ byte_productive _ _ hw

/-- The parts that are not written are as the reader leaves them. -/
def EcdhTuple.Restored (type : RctType) (e : EcdhTuple) : Prop :=
  hasShortEcdh type → e.mask = zeroKey ∧ e.amount = longAmount (shortAmount e.amount)

lemma shortAmount_longAmount (amount : List.Vector UInt8 8) :
    shortAmount (longAmount amount) = amount := by
  apply Subtype.ext
  exact take_left' amount.toList_length

lemma ecdhTuple_exact (type : RctType) : (ecdhTuple type).Exact (EcdhTuple.Restored type) := by
  rw [ecdhTuple]
  split_ifs with hshort
  · apply (blob_exact 8).map
    constructor
    · rintro ⟨mask, amount⟩ he
      obtain ⟨rfl, hamount⟩ := he hshort
      refine ⟨_, rfl, trivial, ?_⟩
      rw [← hamount]
    · intro amount _
      refine ⟨fun _ ↦ ⟨rfl, ?_⟩, ?_⟩
      · rw [shortAmount_longAmount]
      · rw [shortAmount_longAmount]
  · apply (key_exact.seq key_exact).map
    constructor
    · intro e _
      exact ⟨_, rfl, ⟨trivial, trivial⟩, rfl⟩
    · intro p _
      exact ⟨fun h ↦ absurd h hshort, rfl⟩

lemma outPkMask_exact : outPkMask.Exact fun k ↦ k.dest = zeroKey := by
  apply key_exact.map
  constructor
  · rintro ⟨dest, mask⟩ hdest
    cases hdest
    exact ⟨mask, rfl, trivial, rfl⟩
  · intro mask _
    exact ⟨rfl, rfl⟩

lemma keyList_exact (n : ℕ) : (key.list n).Exact fun l ↦ l.length = n :=
  (key_exact.list n).congr fun _ ↦ by simp

lemma optionalKeys_exact (p : Prop) [Decidable p] (n : ℕ) :
    (if p then key.list n else pure []).Exact fun l ↦ l.length = if p then n else 0 := by
  split_ifs
  · exact keyList_exact n
  · exact (pure_exact []).congr fun l ↦ length_eq_zero_iff.symm

structure RctSigBase.WellFormed (inputs outputs : ℕ) (r : RctSigBase) : Prop where
  message : r.message = zeroKey
  mixRing : r.mixRing = []
  empty_of_null : r.type = .null → r = RctSigBase.empty
  pseudoOuts : r.type ≠ .null → r.pseudoOuts.length = if r.type = .simple then inputs else 0
  ecdhInfo_length : r.type ≠ .null → r.ecdhInfo.length = outputs
  ecdhInfo_restored : ∀ e ∈ r.ecdhInfo, e.Restored r.type
  outPk_length : r.type ≠ .null → r.outPk.length = outputs
  outPk_dest : ∀ k ∈ r.outPk, k.dest = zeroKey

/-- The condition on the fields that follow the type. -/
def BaseFields (type : RctType) (inputs outputs : ℕ)
    (f : UInt64 × List Key × List EcdhTuple × List CtKey) : Prop :=
  (type = .null → f = (0, [], [], [])) ∧
    (type ≠ .null → f.2.1.length = (if type = .simple then inputs else 0) ∧
      (f.2.2.1.length = outputs ∧ ∀ e ∈ f.2.2.1, e.Restored type) ∧
        f.2.2.2.length = outputs ∧ ∀ k ∈ f.2.2.2, k.dest = zeroKey)

lemma rctsigBaseFields_lawful (type : RctType) (inputs outputs : ℕ) :
    (rctsigBaseFields type inputs outputs).Lawful (BaseFields type inputs outputs) := by
  rw [rctsigBaseFields]
  split
  · rename_i hnull
    exact (pure_exact _).toLawful.congr fun f ↦ by simp [BaseFields, hnull]
  · rename_i hnull
    have hlists := ((ecdhTuple_exact type).list outputs).seq (outPkMask_exact.list outputs)
    have hkeys := optionalKeys_exact (type = .simple) inputs
    exact (varint64_lawful.seq (hkeys.seq hlists).toLawful).congr fun f ↦ by
      simp [BaseFields, hnull]

lemma rctsigBase_inverse : Inverse
    (fun p : RctType × UInt64 × List Key × List EcdhTuple × List CtKey ↦
      { RctSigBase.empty with
        type := p.1, txnFee := p.2.1, pseudoOuts := p.2.2.1, ecdhInfo := p.2.2.2.1,
        outPk := p.2.2.2.2 })
    (fun r ↦ some (r.type, r.txnFee, r.pseudoOuts, r.ecdhInfo, r.outPk))
    (fun p ↦ True ∧ BaseFields p.1 inputs outputs p.2) (RctSigBase.WellFormed inputs outputs) := by
  constructor
  · rintro ⟨type, message, mixRing, pseudoOuts, ecdhInfo, outPk, txnFee⟩ hr
    obtain rfl : message = zeroKey := hr.message
    obtain rfl : mixRing = [] := hr.mixRing
    refine ⟨_, rfl, ⟨trivial, fun hnull ↦ ?_, fun hnull ↦ ?_⟩, rfl⟩
    · have hempty := hr.empty_of_null hnull
      simp only [RctSigBase.empty, RctSigBase.mk.injEq] at hempty
      simp [hempty]
    · exact ⟨hr.pseudoOuts hnull, ⟨hr.ecdhInfo_length hnull, hr.ecdhInfo_restored⟩,
        hr.outPk_length hnull, hr.outPk_dest⟩
  · rintro ⟨type, txnFee, pseudoOuts, ecdhInfo, outPk⟩ ⟨-, hnull, hfields⟩
    refine ⟨?_, rfl⟩
    by_cases htype : type = .null
    · cases hnull htype
      cases htype
      exact ⟨rfl, rfl, fun _ ↦ rfl, fun h ↦ absurd rfl h, fun h ↦ absurd rfl h, by simp,
        fun h ↦ absurd rfl h, by simp⟩
    · obtain ⟨hpseudo, hecdh, houtPk⟩ := hfields htype
      exact ⟨rfl, rfl, fun h ↦ absurd h htype, fun _ ↦ hpseudo, fun _ ↦ hecdh.1, hecdh.2,
        fun _ ↦ houtPk.1, houtPk.2⟩

lemma rctsigBase_lawful (inputs outputs : ℕ) :
    (rctsigBase inputs outputs).Lawful (RctSigBase.WellFormed inputs outputs) :=
  (rctType_exact.toLawful.bind fun type ↦ rctsigBaseFields_lawful type inputs outputs).map
    rctsigBase_inverse

/-! ## RingCT signatures, the prunable part -/

lemma rangeSig_exact : rangeSig.Exact fun _ ↦ True := by
  apply ((blob_exact 4128).seq (blob_exact 2048)).map
  constructor
  · intro r _
    exact ⟨_, rfl, ⟨trivial, trivial⟩, rfl⟩
  · intro p _
    exact ⟨trivial, rfl⟩

/-- The commitments are left out, and the two vectors are not empty and of one
length. -/
@[mk_iff]
structure Bulletproof.WellFormed (p : Bulletproof) : Prop where
  V : p.V = []
  L_length : p.L.length < 2 ^ 64
  R_length : p.R.length < 2 ^ 64
  L_ne_nil : p.L ≠ []
  lengths : p.L.length = p.R.length

@[mk_iff]
structure BulletproofPlus.WellFormed (p : BulletproofPlus) : Prop where
  V : p.V = []
  L_length : p.L.length < 2 ^ 64
  R_length : p.R.length < 2 ^ 64
  L_ne_nil : p.L ≠ []
  lengths : p.L.length = p.R.length

lemma bulletproof_exact : bulletproof.Exact Bulletproof.WellFormed := by
  have hscalars := key_exact.seq (key_exact.seq key_exact)
  have hR := keyContainer_lawful.seq_exact hscalars (key_productive.bind_left _)
  have hL := keyContainer_lawful.seq_exact hR ((container_productive _).bind_left _)
  have hpoints := key_exact.seq (key_exact.seq (key_exact.seq (key_exact.seq (key_exact.seq
    (key_exact.seq hL)))))
  refine ((hpoints.map
    (Q := fun p ↦ p.V = [] ∧ p.L.length < 2 ^ 64 ∧ p.R.length < 2 ^ 64) ⟨?_, ?_⟩).guard _).congr ?_
  · rintro ⟨V, A, S, T1, T2, taux, mu, L, R, a, b, t⟩ ⟨hV, hL, hR⟩
    cases hV
    exact ⟨_, rfl, ⟨trivial, trivial, trivial, trivial, trivial, trivial, hL, hR, trivial, trivial,
      trivial⟩, rfl⟩
  · rintro p ⟨-, -, -, -, -, -, hL, hR, -⟩
    exact ⟨⟨rfl, hL, hR⟩, rfl⟩
  simp [Bulletproof.wellFormed_iff, and_assoc]

lemma bulletproofPlus_lawful : bulletproofPlus.Lawful BulletproofPlus.WellFormed := by
  have hvectors := keyContainer_lawful.seq keyContainer_lawful
  have hkey := key_exact.toLawful
  have hpoints := hkey.seq (hkey.seq (hkey.seq (hkey.seq (hkey.seq (hkey.seq hvectors)))))
  refine ((hpoints.map
    (Q := fun p ↦ p.V = [] ∧ p.L.length < 2 ^ 64 ∧ p.R.length < 2 ^ 64) ⟨?_, ?_⟩).guard _).congr ?_
  · rintro ⟨V, A, A1, B, r1, s1, d1, L, R⟩ ⟨hV, hL, hR⟩
    cases hV
    exact ⟨_, rfl, ⟨trivial, trivial, trivial, trivial, trivial, trivial, hL, hR⟩, rfl⟩
  · rintro p ⟨-, -, -, -, -, -, hL, hR⟩
    exact ⟨⟨rfl, hL, hR⟩, rfl⟩
  simp [BulletproofPlus.wellFormed_iff, and_assoc]

/-- No more proofs than outputs, and enough of them for all outputs. -/
def ProofsWellFormed {α : Type*} (P : α → Prop) (maxAmounts : List α → ℕ) (outputs : ℕ)
    (l : List α) : Prop :=
  (l.length ≤ outputs ∧ ∀ a ∈ l, P a) ∧ outputs ≤ maxAmounts l

lemma proofs_lawful {α : Type*} {nbp : Codec ℕ} {c : Codec α} {P : α → Prop}
    (hnbp : nbp.Lawful (· < 2 ^ 32)) (hc : c.Lawful P) (maxAmounts : List α → ℕ)
    (houtputs : outputs < 2 ^ 32) :
    (proofs nbp c maxAmounts outputs).Lawful (ProofsWellFormed P maxAmounts outputs) := by
  have hlist := (hnbp.guard fun n ↦ decide (n ≤ outputs)).bind fun n ↦ hc.list n
  refine ((hlist.map (Q := fun l ↦ l.length ≤ outputs ∧ ∀ a ∈ l, P a) ⟨?_, ?_⟩).guard _).congr
    fun l ↦ by simp [ProofsWellFormed]
  · rintro l ⟨hlen, hall⟩
    have hlt : l.length < 2 ^ 32 := hlen.trans_lt houtputs
    refine ⟨(l.length, l), ?_, ⟨⟨hlt, decide_eq_true hlen⟩, rfl, hall⟩, rfl⟩
    rw [Nat.mod_eq_of_lt hlt, take_length]
  · rintro ⟨n, l⟩ ⟨⟨hlt, hle⟩, hlen, hall⟩
    simp only at hlt hlen hall
    subst hlen
    refine ⟨⟨of_decide_eq_true hle, hall⟩, ?_⟩
    rw [Nat.mod_eq_of_lt hlt, take_length]

/-- The range proofs are those of the type, and the fields of the other types
are empty. -/
def RangeProofsWellFormed (type : RctType) (outputs : ℕ)
    (p : List RangeSig × List Bulletproof × List BulletproofPlus) : Prop :=
  match type with
  | .bulletproofPlus =>
    p.1 = [] ∧ p.2.1 = [] ∧
      ProofsWellFormed BulletproofPlus.WellFormed nBulletproofPlusMaxAmounts outputs p.2.2
  | .bulletproof | .bulletproof2 | .clsag =>
    p.1 = [] ∧ ProofsWellFormed Bulletproof.WellFormed nBulletproofMaxAmounts outputs p.2.1 ∧
      p.2.2 = []
  | .null | .full | .simple => p.1.length = outputs ∧ p.2.1 = [] ∧ p.2.2 = []

lemma rangeProofs_lawful (type : RctType) (houtputs : outputs < 2 ^ 32) :
    (rangeProofs type outputs).Lawful (RangeProofsWellFormed type outputs) := by
  have hvarint := @varint_lawful 32 (by decide)
  have huint : (uint 4).Lawful (· < 2 ^ 32) := (uint_exact 4).toLawful
  have hplus : Inverse (fun l ↦ (([], [], l) :
        List RangeSig × List Bulletproof × List BulletproofPlus)) (fun p ↦ some p.2.2)
      (ProofsWellFormed BulletproofPlus.WellFormed nBulletproofPlusMaxAmounts outputs)
      (RangeProofsWellFormed .bulletproofPlus outputs) := by
    constructor
    · rintro ⟨r, p, l⟩ ⟨hr, hp, hl⟩
      cases hr
      cases hp
      exact ⟨l, rfl, hl, rfl⟩
    · exact fun l hl ↦ ⟨⟨rfl, rfl, hl⟩, rfl⟩
  have hbulletproofs : Inverse (fun l ↦ (([], l, []) :
        List RangeSig × List Bulletproof × List BulletproofPlus)) (fun p ↦ some p.2.1)
      (ProofsWellFormed Bulletproof.WellFormed nBulletproofMaxAmounts outputs)
      (RangeProofsWellFormed .bulletproof outputs) := by
    constructor
    · rintro ⟨r, l, q⟩ ⟨hr, hl, hq⟩
      cases hr
      cases hq
      exact ⟨l, rfl, hl, rfl⟩
    · exact fun l hl ↦ ⟨⟨rfl, hl, rfl⟩, rfl⟩
  have hrange : Inverse (fun l ↦ ((l, [], []) :
        List RangeSig × List Bulletproof × List BulletproofPlus)) (fun p ↦ some p.1)
      (fun l ↦ l.length = outputs ∧ ∀ a ∈ l, True) (RangeProofsWellFormed .full outputs) := by
    constructor
    · rintro ⟨l, p, q⟩ ⟨hl, hp, hq⟩
      cases hp
      cases hq
      exact ⟨l, rfl, ⟨hl, fun _ _ ↦ trivial⟩, rfl⟩
    · exact fun l hl ↦ ⟨⟨hl.1, rfl, rfl⟩, rfl⟩
  have hproofs := fun {nbp : Codec ℕ} (hnbp : nbp.Lawful (· < 2 ^ 32)) ↦
    (proofs_lawful hnbp bulletproof_exact.toLawful nBulletproofMaxAmounts houtputs).map
      hbulletproofs
  have hlist := (rangeSig_exact.list outputs).toLawful.map hrange
  cases type with
  | bulletproofPlus =>
    exact (proofs_lawful hvarint bulletproofPlus_lawful nBulletproofPlusMaxAmounts
      houtputs).map hplus
  | bulletproof => exact hproofs huint
  | bulletproof2 => exact hproofs hvarint
  | clsag => exact hproofs hvarint
  | null => exact hlist
  | full => exact hlist
  | simple => exact hlist

structure Clsag.WellFormed (mixin : ℕ) (c : Clsag) : Prop where
  s_length : c.s.length = mixin + 1
  I : c.I = zeroKey

lemma clsag_exact (mixin : ℕ) : (clsag mixin).Exact (Clsag.WellFormed mixin) := by
  apply ((keyList_exact (mixin + 1)).seq (key_exact.seq key_exact)).map
  constructor
  · rintro ⟨s, c1, I, D⟩ ⟨hs, hI⟩
    cases hI
    exact ⟨_, rfl, ⟨hs, trivial, trivial⟩, rfl⟩
  · rintro p ⟨hs, -⟩
    exact ⟨⟨hs, rfl⟩, rfl⟩

lemma clsag_productive (mixin : ℕ) : (clsag mixin).Productive :=
  (Productive.bind_right _ fun _ ↦ key_productive.bind_left _).map _ _

structure MgSig.WellFormed (mixin ss2 : ℕ) (m : MgSig) : Prop where
  ss_length : m.ss.length = mixin + 1
  ss_lengths : ∀ s ∈ m.ss, s.length = ss2
  II : m.II = []

lemma mgSig_exact (mixin ss2 : ℕ) : (mgSig mixin ss2).Exact (MgSig.WellFormed mixin ss2) := by
  apply (((keyList_exact ss2).list (mixin + 1)).seq key_exact).map
  constructor
  · rintro ⟨ss, cc, II⟩ ⟨hss, hall, hII⟩
    cases hII
    exact ⟨_, rfl, ⟨⟨hss, hall⟩, trivial⟩, rfl⟩
  · rintro p ⟨⟨hss, hall⟩, -⟩
    exact ⟨⟨hss, hall, rfl⟩, rfl⟩

lemma mgSig_productive (mixin ss2 : ℕ) : (mgSig mixin ss2).Productive :=
  (Productive.bind_right _ fun _ ↦ key_productive).map _ _

/-- One signature for each input, or a single one for all of them. -/
def RingSignaturesWellFormed (type : RctType) (inputs mixin : ℕ)
    (p : List MgSig × List Clsag) : Prop :=
  if type = .clsag ∨ type = .bulletproofPlus then
    p.1 = [] ∧ p.2.length = inputs ∧ ∀ c ∈ p.2, c.WellFormed mixin
  else
    (p.1.length = (if hasSimpleMGs type then inputs else 1) ∧
      ∀ m ∈ p.1, m.WellFormed mixin ((if hasSimpleMGs type then 1 else inputs) + 1)) ∧ p.2 = []

lemma ringSignatures_exact (type : RctType) (inputs mixin : ℕ) :
    (ringSignatures type inputs mixin).Exact (RingSignaturesWellFormed type inputs mixin) := by
  unfold ringSignatures RingSignaturesWellFormed
  split
  · apply ((clsag_exact mixin).list inputs).map
    constructor
    · rintro ⟨m, l⟩ ⟨hm, hl⟩
      cases hm
      exact ⟨l, rfl, hl, rfl⟩
    · exact fun l hl ↦ ⟨⟨rfl, hl⟩, rfl⟩
  · apply ((mgSig_exact mixin _).list _).map
    constructor
    · rintro ⟨l, c⟩ ⟨hl, hc⟩
      cases hc
      exact ⟨l, rfl, hl, rfl⟩
    · exact fun l hl ↦ ⟨⟨hl, rfl⟩, rfl⟩

lemma ringSignatures_productive (type : RctType) (hinputs : inputs ≠ 0) (mixin : ℕ) :
    (ringSignatures type inputs mixin).Productive := by
  rw [ringSignatures]
  split
  · exact ((clsag_productive mixin).list hinputs).map _ _
  · apply Productive.map
    apply (mgSig_productive mixin _).list
    split_ifs
    · exact hinputs
    · exact one_ne_zero

structure RctSigPrunable.WellFormed (type : RctType) (inputs outputs mixin : ℕ)
    (p : RctSigPrunable) : Prop where
  inputs_lt : inputs < 0xffffffff
  outputs_lt : outputs < 0xffffffff
  mixin_lt : mixin < 0xffffffff
  rangeProofs : RangeProofsWellFormed type outputs
    (p.rangeSigs, p.bulletproofs, p.bulletproofsPlus)
  ringSignatures : RingSignaturesWellFormed type inputs mixin (p.MGs, p.CLSAGs)
  pseudoOuts : p.pseudoOuts.length = if hasPrunablePseudoOuts type then inputs else 0

lemma rctsigPrunable_exact (type : RctType) (hinputs : inputs ≠ 0) (outputs mixin : ℕ) :
    (rctsigPrunable type inputs outputs mixin).Exact
      (RctSigPrunable.WellFormed type inputs outputs mixin) := by
  rw [rctsigPrunable]
  split
  · rename_i hlarge
    apply fail_exact.congr
    intro p
    constructor
    · exact False.elim
    · intro hp
      have h₁ := hp.inputs_lt
      have h₂ := hp.outputs_lt
      have h₃ := hp.mixin_lt
      omega
  · rename_i hsmall
    rw [not_or, not_or, not_le, not_le, not_le] at hsmall
    obtain ⟨hin, hout, hmix⟩ := hsmall
    have hproofs := rangeProofs_lawful type (show outputs < 2 ^ 32 by omega)
    have hkeys := optionalKeys_exact (hasPrunablePseudoOuts type = true) inputs
    have hsigs := (ringSignatures_exact type inputs mixin).seq hkeys
    apply (hproofs.seq_exact hsigs
      ((ringSignatures_productive type hinputs mixin).bind_left _)).map
    constructor
    · intro p hp
      exact ⟨_, rfl, ⟨hp.rangeProofs, hp.ringSignatures, hp.pseudoOuts⟩, rfl⟩
    · rintro p ⟨hrange, hring, hpseudo⟩
      exact ⟨⟨hin, hout, hmix, hrange, hring, hpseudo⟩, rfl⟩

lemma rctsigPrunable_productive (type : RctType) (hinputs : inputs ≠ 0) (outputs mixin : ℕ) :
    (rctsigPrunable type inputs outputs mixin).Productive := by
  rw [rctsigPrunable]
  split
  · exact fail_productive
  · apply Productive.map
    apply Productive.bind_right
    exact fun _ ↦ (ringSignatures_productive type hinputs mixin).bind_left _

/-! ## Whole transactions -/

structure RctSig.WellFormed (r : RctSig) : Prop where
  base : r.toRctSigBase.WellFormed t.vin.length t.vout.length
  empty_of_null : r.type = .null → r.p = RctSigPrunable.empty
  prunable : r.type ≠ .null → r.p.WellFormed r.type t.vin.length t.vout.length (mixin t.vin)

/-- The prunable part as it depends on the type. -/
def PrunablePart (r : RctSigBase) (p : RctSigPrunable) : Prop :=
  (r.type = .null → p = RctSigPrunable.empty) ∧
    (r.type ≠ .null → p.WellFormed r.type t.vin.length t.vout.length (mixin t.vin))

section Inputs

variable {t : TransactionPrefix} (hvin : t.vin ≠ [])
include hvin

lemma prunablePart_exact (r : RctSigBase) :
    (if (false : Bool) ∨ r.type = .null then pure RctSigPrunable.empty
      else rctsigPrunable r.type t.vin.length t.vout.length (mixin t.vin)).Exact
      (PrunablePart t r) := by
  have hinputs : t.vin.length ≠ 0 := fun h ↦ hvin (length_eq_zero_iff.mp h)
  by_cases htype : r.type = .null
  · rw [if_pos (.inr htype)]
    exact (pure_exact _).congr fun p ↦ by simp [PrunablePart, htype]
  · rw [if_neg (by simp [htype])]
    exact (rctsigPrunable_exact r.type hinputs _ _).congr fun p ↦ by simp [PrunablePart, htype]

omit hvin in
lemma rctSig_inverse : Inverse (fun p : RctSigBase × RctSigPrunable ↦ (⟨p.1, p.2⟩ : RctSig))
    (fun r ↦ some (r.toRctSigBase, r.p))
    (fun p ↦ p.1.WellFormed t.vin.length t.vout.length ∧ PrunablePart t p.1 p.2)
    (RctSig.WellFormed t) where
  of_view _ hr := ⟨_, rfl, ⟨hr.base, hr.empty_of_null, hr.prunable⟩, rfl⟩
  view _ hp := ⟨⟨hp.1, hp.2.1, hp.2.2⟩, rfl⟩

omit hvin in
lemma rctsigBase_read_end_null {r : RctSigBase}
    (hread : (rctsigBase inputs outputs).read b = some (r, [])) (hnull : r.type = .null) :
    r.WellFormed inputs outputs ∧ (rctsigBase inputs outputs).write r = some b := by
  obtain ⟨⟨type, fields⟩, hfields, rfl⟩ := map_read_eq_some.mp hread
  cases hnull
  have hexact : (rctsigBaseFields .null inputs outputs).Exact (BaseFields .null inputs outputs) :=
    (pure_exact _).congr fun f ↦ by simp [BaseFields]
  obtain ⟨⟨hP, hR⟩, w, hw, hb⟩ := rctType_exact.bind_write_read (p := (RctType.null, fields))
    (R := fun type ↦ BaseFields type inputs outputs) hexact hfields
  rw [append_nil] at hb
  subst hb
  exact ⟨(rctsigBase_inverse.view _ ⟨hP, hR⟩).1,
    (rctsigBase_inverse.map_write _ ⟨hP, hR⟩).trans hw⟩

lemma rctSignatures_exact : (rctSignatures t false).Exact (RctSig.WellFormed t) := by
  have hinputs : t.vin.length ≠ 0 := fun h ↦ hvin (length_eq_zero_iff.mp h)
  have hbase := rctsigBase_lawful t.vin.length t.vout.length
  apply Exact.map (P := fun p ↦
    p.1.WellFormed t.vin.length t.vout.length ∧ PrunablePart t p.1 p.2) _ rctSig_inverse
  refine ⟨hbase.bind fun r ↦ (prunablePart_exact hvin r).toLawful, fun b p hread ↦ ?_⟩
  by_cases htype : p.1.type = .null
  · obtain ⟨r, hr, hp⟩ := bind_read_eq_some.mp hread
    have hexact := prunablePart_exact hvin p.1
    rw [if_pos (.inr htype)] at hp hexact
    obtain ⟨hpart, hu⟩ := hexact.read_end r p.2 hp
    cases hu
    obtain ⟨hwell, hwrite⟩ := rctsigBase_read_end_null hr htype
    refine ⟨⟨hwell, hpart⟩, bind_write_eq_some.mpr ⟨b, [], hwrite, ?_, (append_nil b).symm⟩⟩
    rw [if_pos (.inr htype)]
    rfl
  · have hprod := rctsigPrunable_productive p.1.type hinputs t.vout.length (mixin t.vin)
    apply hbase.bind_read_end (prunablePart_exact hvin p.1) _ hread
    rw [if_neg (by simp [htype])]
    exact hprod

omit hvin in
lemma rctSignatures_productive (pruned : Bool) : (rctSignatures t pruned).Productive := by
  apply Productive.map
  apply Productive.bind_left
  apply Productive.map
  exact rctType_productive.bind_left _

end Inputs

/-! ### Signatures of version 1 -/

lemma signatureLists_exact (sizes : List ℕ) :
    (signatureLists sizes).Exact fun l ↦ l.map length = sizes := by
  induction sizes with
  | nil =>
    apply (pure_exact ()).map
    constructor
    · intro l hl
      cases map_eq_nil_iff.mp hl
      exact ⟨(), rfl, rfl, rfl⟩
    · exact fun _ _ ↦ ⟨rfl, rfl⟩
  | cons size sizes ih =>
    apply (((blob_exact 64).list size).seq ih).map
    constructor
    · intro l hl
      cases l with
      | nil => cases hl
      | cons s l =>
        obtain ⟨hs, hl⟩ := cons.inj hl
        exact ⟨(s, l), rfl, ⟨⟨hs, fun _ _ ↦ trivial⟩, hl⟩, rfl⟩
    · rintro ⟨s, l⟩ ⟨⟨hs, -⟩, hl⟩
      refine ⟨?_, rfl⟩
      rw [map_cons, hs, hl]

lemma signatures_exact (sizes : List ℕ) :
    (signatures sizes false).Exact fun l ↦ l.map length = sizes := by
  -- the two writers agree on lists of the right sizes
  have hwrite : ∀ l : List (List Signature), l.map length = sizes →
      (signatures sizes false).write l = (signatureLists sizes).write l := by
    rintro l rfl
    cases l with
    | nil => rfl
    | cons s l => simp [signatures]
  apply Exact.of_write_read
  · intro l hl
    obtain ⟨w, hw, hread⟩ := (signatureLists_exact sizes).read_write l hl
    exact ⟨w, (hwrite l hl).trans hw, hread⟩
  · intro b l rest hread
    obtain ⟨hl, w, hw, hb⟩ := (signatureLists_exact sizes).write_read_any hread
    exact ⟨hl, w, (hwrite l hl).trans hw, hb⟩

/-! ### Transactions -/

/-- The signatures of the version of the transaction; those of the other
version are as in a new object. -/
structure SignaturesWellFormed (t : TransactionPrefix) (p : List (List Signature) × RctSig) :
    Prop where
  signatures : p.1.map length = if t.version = 1 then t.vin.map Txin.getSignatureSize else []
  empty : t.version = 1 ∨ t.vin = [] → p.2 = RctSig.empty
  rct : ¬(t.version = 1 ∨ t.vin = []) → p.2.WellFormed t

lemma signaturePart_exact (t : TransactionPrefix) :
    (signaturePart t false).Exact (SignaturesWellFormed t) := by
  rw [signaturePart]
  split
  · rename_i hversion
    apply (signatures_exact _).map
    constructor
    · rintro ⟨l, r⟩ hp
      obtain rfl : r = RctSig.empty := hp.empty (.inl hversion)
      refine ⟨l, rfl, ?_, rfl⟩
      have hl := hp.signatures
      rwa [if_pos hversion] at hl
    · intro l hl
      refine ⟨⟨?_, fun _ ↦ rfl, fun h ↦ absurd (.inl hversion) h⟩, rfl⟩
      rwa [if_pos hversion]
  · rename_i hversion
    split
    · rename_i hvin
      have hnone := isEmpty_iff.mp hvin
      apply (pure_exact _).congr
      intro p
      constructor
      · rintro rfl
        refine ⟨?_, fun _ ↦ rfl, fun h ↦ absurd (.inr hnone) h⟩
        rw [if_neg hversion]
        rfl
      · intro hp
        have hl := hp.signatures
        rw [if_neg hversion, map_eq_nil_iff] at hl
        exact Prod.ext hl (hp.empty (.inr hnone))
    · rename_i hvin
      have hsome : t.vin ≠ [] := fun h ↦ hvin (isEmpty_iff.mpr h)
      have hrct : ¬(t.version = 1 ∨ t.vin = []) := not_or.mpr ⟨hversion, hsome⟩
      apply (rctSignatures_exact hsome).map
      constructor
      · rintro ⟨l, r⟩ hp
        have hl := hp.signatures
        rw [if_neg hversion, map_eq_nil_iff] at hl
        cases hl
        exact ⟨r, rfl, hp.rct hrct, rfl⟩
      · intro r hr
        refine ⟨⟨?_, fun h ↦ absurd h hrct, fun _ ↦ hr⟩, rfl⟩
        rw [if_neg hversion]
        rfl

structure Transaction.WellFormed (t : Transaction) : Prop where
  fields : t.toTransactionPrefix.WellFormed
  signatures : SignaturesWellFormed t.toTransactionPrefix (t.signatures, t.rctSignatures)
  unpruned : t.pruned = false

lemma transaction_inverse : Inverse (fun p : TransactionPrefix × List (List Signature) × RctSig ↦
      ({ p.1 with signatures := p.2.1, rctSignatures := p.2.2, pruned := false } : Transaction))
    (fun t ↦ some (t.toTransactionPrefix, t.signatures, t.rctSignatures))
    (fun p ↦ p.1.WellFormed ∧ SignaturesWellFormed p.1 p.2) Transaction.WellFormed where
  of_view t ht := by
    refine ⟨_, rfl, ⟨ht.fields, ht.signatures⟩, ?_⟩
    cases t
    cases ht.unpruned
    rfl
  view _ hp := ⟨⟨hp.1, hp.2, rfl⟩, rfl⟩

lemma transaction_lawful : (transaction false).Lawful Transaction.WellFormed :=
  (transactionPrefix_lawful.bind fun t ↦ (signaturePart_exact t).toLawful).map transaction_inverse

lemma readTransaction_eq_some {t : Transaction} :
    readTransaction b = some t ↔ (transaction false).read b = some (t, []) := readAll_eq_some

lemma signaturePart_productive {t : TransactionPrefix} (hversion : t.version ≠ 1)
    (hvin : t.vin ≠ []) : (signaturePart t false).Productive := by
  rw [signaturePart, if_neg hversion, if_neg (fun h ↦ hvin (isEmpty_iff.mp h))]
  exact (rctSignatures_productive false).map _ _

lemma writeTransaction_of_read {t : Transaction} (hread : readTransaction b = some t)
    (hversion : t.version ≠ 1) (hvin : t.vin ≠ []) :
    t.WellFormed ∧ writeTransaction t = some b := by
  obtain ⟨p, hp, rfl⟩ := map_read_eq_some.mp (readTransaction_eq_some.mp hread)
  obtain ⟨hwell, hwrite⟩ := transactionPrefix_lawful.bind_read_end (signaturePart_exact p.1)
    (signaturePart_productive hversion hvin) hp
  exact ⟨(transaction_inverse.view p hwell).1,
    (transaction_inverse.map_write _ hwell).trans hwrite⟩

lemma readTransaction_of_wellFormed {t : Transaction} (ht : t.WellFormed) :
    ∃ b, writeTransaction t = some b ∧ readTransaction b = some t := by
  obtain ⟨w, hw, hread⟩ := transaction_lawful.read_write t ht
  refine ⟨w, ?_, readTransaction_eq_some.mpr ?_⟩
  · rw [writeTransaction, ht.unpruned, hw]
  · have hend := hread []
    rwa [append_nil] at hend

/-- A version 2 transaction with an input has exactly one blob. -/
theorem transactionBlob_canonical :
    (∀ b t, readTransaction b = some t → t.version = 2 → t.vin ≠ [] →
      writeTransaction t = some b) ∧
    (∀ t : Transaction, t.version = 2 → t.WellFormed →
      ∃ b, writeTransaction t = some b ∧ readTransaction b = some t) ∧
    ∀ b b' t, readTransaction b = some t → readTransaction b' = some t → t.version = 2 →
      t.vin ≠ [] → b = b' := by
  have hcanonical : ∀ b t, readTransaction b = some t → t.version = 2 → t.vin ≠ [] →
      writeTransaction t = some b := by
    intro b t hread hversion hvin
    exact (writeTransaction_of_read hread (by rw [hversion]; decide) hvin).2
  refine ⟨hcanonical, fun t _ ht ↦ readTransaction_of_wellFormed ht, ?_⟩
  intro b b' t hread hread' hversion hvin
  have hwrite := hcanonical b t hread hversion hvin
  rw [hcanonical b' t hread' hversion hvin] at hwrite
  exact (Option.some_inj.mp hwrite).symm

/-- A transaction of `RCTTypeSimple` with one input and no outputs. -/
def simpleBlob : List UInt8 :=
  [2, 0, 1, 2, 0, 1, 5] ++ replicate 32 0 ++ [0, 0, 2, 100] ++ replicate 128 0

theorem simpleBlob_canonical :
    ∃ t, readTransaction simpleBlob = some t ∧ t.rctSignatures.type = .simple ∧
      t.rctSignatures.p.MGs.length = 1 ∧ writeTransaction t = some simpleBlob ∧
        ∀ b, readTransaction b = some t → b = simpleBlob := by
  obtain ⟨t, ht⟩ := Option.isSome_iff_exists.mp
    (show (readTransaction simpleBlob).isSome by decide +kernel)
  have hfields : (readTransaction simpleBlob).map (fun t ↦ (t.version, t.vin.isEmpty,
      t.rctSignatures.type, t.rctSignatures.p.MGs.length)) = some (2, false, .simple, 1) := by
    decide +kernel
  obtain ⟨hversion, hvin, htype, hcount⟩ : t.version = 2 ∧ t.vin.isEmpty = false ∧
      t.rctSignatures.type = .simple ∧ t.rctSignatures.p.MGs.length = 1 := by
    simpa [ht] using hfields
  obtain ⟨hwrite, -, hunique⟩ := transactionBlob_canonical
  have hne : t.vin ≠ [] := isEmpty_eq_false_iff.mp hvin
  exact ⟨t, ht, htype, hcount, hwrite _ t ht hversion hne,
    fun b hb ↦ hunique b simpleBlob t hb ht hversion hne⟩

-- without inputs the blob ends in the length of `extra`, and may end in the middle of it
example : readTransaction [2, 0, 0, 0, 0x80] = readTransaction [2, 0, 0, 0, 0] := by decide +kernel

/-! ## The parts of a transaction

The blob of a version 2 transaction with inputs is its prefix, the base of its
RingCT signatures and their prunable part.  The first two are the blob of the
pruned transaction. -/

def isRctBulletproof (type : RctType) : Bool :=
  type = .bulletproof ∨ type = .bulletproof2 ∨ type = .clsag

def isRctBulletproofPlus (type : RctType) : Bool := type = .bulletproofPlus

/-- The prunable part as the transaction has it, which is empty for
`RCTTypeNull`. -/
def prunablePart (t : TransactionPrefix) (type : RctType) : Codec RctSigPrunable :=
  if type = .null then pure RctSigPrunable.empty
  else rctsigPrunable type t.vin.length t.vout.length (mixin t.vin)

def Transaction.prune (t : Transaction) : Transaction := { t with
    rctSignatures := { t.rctSignatures with p := RctSigPrunable.empty }
    pruned := true }

section

variable {t : TransactionPrefix}

lemma signaturePart_of_inputs (hversion : t.version ≠ 1) (hvin : t.vin ≠ []) (pruned : Bool) :
    signaturePart t pruned = (rctSignatures t pruned).map (fun r ↦ ([], r)) fun p ↦ some p.2 := by
  rw [signaturePart, if_neg hversion, if_neg fun h ↦ hvin (isEmpty_iff.mp h)]

end

/-- A parsed blob cut into its parts. -/
structure BlobParts (t : Transaction) (blob u v x : List UInt8) : Prop where
  blob : blob = u ++ (v ++ x)
  writePrefix : transactionPrefix.write t.toTransactionPrefix = some u
  writeBase : (rctsigBase t.vin.length t.vout.length).write t.rctSignatures.toRctSigBase = some v
  writePrunable :
    (prunablePart t.toTransactionPrefix t.rctSignatures.type).write t.rctSignatures.p = some x

section

variable {t : Transaction} {b : List UInt8} (hversion : t.version ≠ 1) (hvin : t.vin ≠ [])
include hversion hvin

lemma writeTransaction_eq_some_iff (hpruned : t.pruned = false) :
    writeTransaction t = some b ↔ ∃ u v x, BlobParts t b u v x := by
  have hwrite : writeTransaction t = (transactionPrefix.bind fun t ↦ signaturePart t false).write
      (t.toTransactionPrefix, t.signatures, t.rctSignatures) := by
    rw [writeTransaction, hpruned]
    rfl
  have hpart : (signaturePart t.toTransactionPrefix false).write (t.signatures, t.rctSignatures) =
      ((rctsigBase t.vin.length t.vout.length).bind fun r ↦
        prunablePart t.toTransactionPrefix r.type).write
          (t.rctSignatures.toRctSigBase, t.rctSignatures.p) := by
    rw [signaturePart_of_inputs hversion hvin, rctSignatures]
    simp only [Bool.false_eq_true, false_or]
    rfl
  rw [hwrite, bind_write_eq_some]
  simp only [hpart, bind_write_eq_some]
  constructor
  · rintro ⟨u, r, hu, ⟨v, x, hv, hx, rfl⟩, rfl⟩
    exact ⟨u, v, x, rfl, hu, hv, hx⟩
  · rintro ⟨u, v, x, rfl, hu, hv, hx⟩
    exact ⟨u, v ++ x, hu, ⟨v, x, hv, hx, rfl⟩, rfl⟩

lemma writeTransaction_prune {u v x : List UInt8} (h : BlobParts t b u v x) :
    writeTransaction t.prune = some (u ++ v) := by
  have hwrite : writeTransaction t.prune =
      (transactionPrefix.bind fun t ↦ signaturePart t true).write
        (t.toTransactionPrefix, t.signatures, t.prune.rctSignatures) := rfl
  have hpart : (signaturePart t.toTransactionPrefix true).write
      (t.signatures, t.prune.rctSignatures) = some v := by
    have hbase : ((rctsigBase t.vin.length t.vout.length).bind fun _ ↦
        pure RctSigPrunable.empty).write (t.rctSignatures.toRctSigBase, RctSigPrunable.empty) =
          some v := bind_write_eq_some.mpr ⟨v, [], h.writeBase, rfl, (append_nil v).symm⟩
    rw [signaturePart_of_inputs hversion hvin, rctSignatures]
    simp only [true_or, if_true]
    exact hbase
  rw [hwrite]
  exact bind_write_eq_some.mpr ⟨u, v, h.writePrefix, hpart, rfl⟩

end

end Monero.Serialization
