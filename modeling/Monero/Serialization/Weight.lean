import Monero.Serialization.Canonical

/-!
# Transaction weights

The weight of a transaction is the size of its blob, with a clawback for the
bytes that a proof for many outputs saves.  For a pruned transaction the size
of the part that is missing is computed from the numbers of inputs and outputs
and from the ring size.
-/

namespace Monero.Serialization

open Lib Lib.Codec Blockchain List

def isRctClsag (type : RctType) : Bool := type = .clsag ∨ type = .bulletproofPlus

def bulletproofMaxOutputs : ℕ := 16

def uint64Max : ℕ := 2 ^ 64 - 1

/-- The loop that finds the first power of two that is not below `n`, of 32
bits. -/
def paddedLogFrom (n : ℕ) : ℕ → ℕ → ℕ
  | 0, nlr => nlr
  | fuel + 1, nlr => if 2 ^ nlr < n then paddedLogFrom n fuel (nlr + 1) else nlr

def paddedLog (n : ℕ) : ℕ := paddedLogFrom n 32 0

/-- The number of keys in a proof besides `L` and `R`. -/
def proofKeys (plus : Bool) : ℕ := if plus then 6 else 9

variable (t : Transaction) {k : ℕ}

/-- An exception is `none`. -/
def getTransactionWeightClawback (nPaddedOutputs : ℕ) : Option ℕ :=
  let plus := isRctBulletproofPlus t.rctSignatures.type
  let bpBase := 32 * (proofKeys plus + 7 * 2) / 2
  if nPaddedOutputs ≤ 2 then some 0
  else
    let nlr := paddedLog nPaddedOutputs + 6
    let bpSize := 32 * (proofKeys plus + 2 * nlr)
    if bulletproofMaxOutputs < t.vout.length then none
    else if bpBase * nPaddedOutputs < bpSize then none
    else some ((bpBase * nPaddedOutputs - bpSize) * 4 / 5)

/-- The clawback is added to a 64-bit number; on overflow there is an
exception. -/
def addClawback (nPaddedOutputs weight : ℕ) : Option ℕ :=
  (getTransactionWeightClawback t nPaddedOutputs).bind fun bpClawback ↦
    if uint64Max - weight < bpClawback then none else some (weight + bpClawback)

def getTransactionWeight (blobSize : ℕ) : Option ℕ :=
  if t.pruned then some uint64Max
  else if t.version < 2 then some blobSize
  else
    let bulletproof := isRctBulletproof t.rctSignatures.type
    let bulletproofPlus := isRctBulletproofPlus t.rctSignatures.type
    if !bulletproof && !bulletproofPlus then some blobSize
    else
      addClawback t
        (if bulletproofPlus then nBulletproofPlusMaxAmounts t.rctSignatures.p.bulletproofsPlus
        else nBulletproofMaxAmounts t.rctSignatures.p.bulletproofs) blobSize

/-- A transaction that the writer fails on is `none` too. -/
def getPrunedTransactionWeight : Option ℕ :=
  let type := t.rctSignatures.type
  if !t.pruned then some uint64Max
  else if t.version < 2 then some uint64Max
  else if type ≠ .bulletproof2 ∧ type ≠ .clsag ∧ type ≠ .bulletproofPlus then some uint64Max
  else
    match t.vin with
    | .toKey _ keyOffsets _ :: _ =>
      (writeTransaction t).bind fun s ↦
        let nrl := paddedLog t.vout.length
        let proof := 32 * (proofKeys (isRctBulletproofPlus type) + 2 * (nrl + 6)) + 2
        let ringSize := keyOffsets.length
        let rings := if isRctClsag type then t.vin.length * (ringSize + 2) * 32
          else t.vin.length * (ringSize * (1 + 1) * 32 + 32)
        -- the byte is the number of proofs
        addClawback t (2 ^ nrl) ((s.length + 1 + proof + rings + 32 * t.vin.length) % 2 ^ 64)
    | _ => some uint64Max

/-! ## The size of the prunable part -/

lemma key_measures : key.Measures fun _ ↦ 32 := blob_measures 32

def vectorSize (l : List Key) : ℕ := (writeVarint l.length).length + l.length * 32

lemma vectorSize_of_lt {l : List Key} (h : l.length < 0x80) :
    vectorSize l = 1 + l.length * 32 := by
  rw [vectorSize, writeVarint_length_of_lt h]

lemma bulletproof_measures :
    bulletproof.Measures fun p ↦ 32 * 9 + vectorSize p.L + vectorSize p.R := by
  have hkey := key_measures
  have hvector := hkey.container
  refine ((hkey.seq (hkey.seq (hkey.seq (hkey.seq (hkey.seq (hkey.seq (hvector.seq (hvector.seq
    (hkey.seq (hkey.seq hkey)))))))))).map _ ?_).guard _
  rintro p _ h
  cases h
  simp only [vectorSize]
  omega

lemma bulletproofPlus_measures :
    bulletproofPlus.Measures fun p ↦ 32 * 6 + vectorSize p.L + vectorSize p.R := by
  have hkey := key_measures
  have hvector := hkey.container
  refine ((hkey.seq (hkey.seq (hkey.seq (hkey.seq (hkey.seq (hkey.seq (hvector.seq
    hvector))))))).map _ ?_).guard _
  rintro p _ h
  cases h
  simp only [vectorSize]
  omega

lemma proofs_write_singleton {α : Type*} {c : Codec α} {maxAmounts : List α → ℕ}
    {outputs keys nlr : ℕ} {L R : α → List Key} {a : α} {w : List UInt8}
    (hc : c.Measures fun q ↦ 32 * keys + vectorSize (L q) + vectorSize (R q))
    (hlengths : ((L a).length, (R a).length) = (nlr, nlr)) (hnlr : nlr < 0x80)
    (hw : (proofs (varint 32) c maxAmounts outputs).write [a] = some w) :
    w.length = 1 + (32 * (keys + 2 * nlr) + 2) := by
  obtain ⟨hL, hR⟩ := Prod.mk.inj hlengths
  rw [proofs, Codec.guard] at hw
  simp only at hw
  split_ifs at hw
  rw [map_some_write] at hw
  obtain ⟨v, u, hv, hu, rfl⟩ := bind_write_eq_some.mp hw
  simp only [Codec.guard] at hv
  split_ifs at hv
  cases hv
  change (c.write a).bind (fun x ↦ some (x ++ [])) = some u at hu
  obtain ⟨x, hx, hxu⟩ := Option.bind_eq_some_iff.mp hu
  cases hxu
  have hsize := hc a x hx
  simp only [vectorSize_of_lt (hL ▸ hnlr), vectorSize_of_lt (hR ▸ hnlr), hL, hR] at hsize
  have hone : (writeVarint ([a].length % 2 ^ 32)).length = 1 := rfl
  rw [length_append, append_nil, hone, hsize]
  omega

lemma clsag_measures (mixin : ℕ) : (clsag mixin).Measures fun _ ↦ (mixin + 1 + 2) * 32 := by
  apply ((key_measures.list (mixin + 1)).seq (key_measures.seq key_measures)).map
  intro c p _
  ring

lemma mgSig_measures (mixin ss2 : ℕ) :
    (mgSig mixin ss2).Measures fun _ ↦ (mixin + 1) * ss2 * 32 + 32 := by
  apply (((key_measures.list ss2).list (mixin + 1)).seq key_measures).map
  intro m p _
  ring

/-- The lengths of `L` and `R` in the range proofs of a type. -/
def proofLengths (type : RctType) (p : RctSigPrunable) : List (ℕ × ℕ) :=
  if type = .bulletproofPlus then p.bulletproofsPlus.map fun q ↦ (q.L.length, q.R.length)
  else p.bulletproofs.map fun q ↦ (q.L.length, q.R.length)

/-- The types with a compact list of proofs in front of the signatures. -/
def HasPrunedWeight (type : RctType) : Prop :=
  type = .bulletproof2 ∨ type = .clsag ∨ type = .bulletproofPlus

section

variable {type : RctType} {inputs outputs mixin nlr : ℕ} {p : RctSigPrunable} {w : List UInt8}

lemma rangeProofs_write_length (htype : HasPrunedWeight type)
    (hproof : proofLengths type p = [(nlr, nlr)]) (hnlr : nlr < 0x80)
    (hw : (rangeProofs type outputs).write (p.rangeSigs, p.bulletproofs, p.bulletproofsPlus) =
      some w) : w.length = 1 + (32 * (proofKeys (isRctBulletproofPlus type) + 2 * nlr) + 2) := by
  rw [proofLengths] at hproof
  by_cases hplus : type = .bulletproofPlus
  · rw [if_pos hplus] at hproof
    obtain ⟨q, hq, hlengths⟩ := map_eq_singleton_iff.mp hproof
    rw [rangeProofs, if_pos hplus, map_some_write, hq] at hw
    rw [proofs_write_singleton bulletproofPlus_measures hlengths hnlr hw, hplus]
    rfl
  · have hcompact : type = .bulletproof2 ∨ type = .clsag := by
      rcases htype with h | h | h
      · exact .inl h
      · exact .inr h
      · exact absurd h hplus
    rw [if_neg hplus] at hproof
    obtain ⟨q, hq, hlengths⟩ := map_eq_singleton_iff.mp hproof
    rw [rangeProofs, if_neg hplus, if_pos hcompact, map_some_write, hq] at hw
    rw [proofs_write_singleton bulletproof_measures hlengths hnlr hw, isRctBulletproofPlus,
      decide_eq_false hplus]
    rfl

/-- The bytes of the ring signatures over rings of `ringSize` members. -/
def ringBytes (type : RctType) (inputs ringSize : ℕ) : ℕ :=
  if isRctClsag type then inputs * (ringSize + 2) * 32
  else inputs * (ringSize * (1 + 1) * 32 + 32)

lemma ringBytes_modEq {m n : ℕ} (h : m ≡ n [MOD k]) :
    ringBytes type inputs m ≡ ringBytes type inputs n [MOD k] := by
  rw [ringBytes, ringBytes]
  split_ifs
  · exact ((h.add_right 2).mul_left _).mul_right 32
  · exact (((h.mul_right _).mul_right 32).add_right 32).mul_left _

lemma ringSignatures_write_length (htype : HasPrunedWeight type)
    (hw : (ringSignatures type inputs mixin).write (p.MGs, p.CLSAGs) = some w) :
    w.length = ringBytes type inputs (mixin + 1) := by
  rw [ringSignatures] at hw
  rw [ringBytes]
  by_cases hclsag : type = .clsag ∨ type = .bulletproofPlus
  · rw [if_pos hclsag, map_some_write] at hw
    rw [(clsag_measures mixin).list inputs _ _ hw, isRctClsag, if_pos (decide_eq_true hclsag),
      Nat.mul_assoc]
  · have hsimple : hasSimpleMGs type = true := by
      rcases htype with h | h | h
      · simp [hasSimpleMGs, h]
      · exact absurd (.inl h) hclsag
      · exact absurd (.inr h) hclsag
    rw [if_neg hclsag, map_some_write] at hw
    simp only [hsimple, if_true] at hw
    rw [(mgSig_measures mixin (1 + 1)).list inputs _ _ hw, isRctClsag,
      if_neg fun h ↦ hclsag (of_decide_eq_true h)]

lemma rctsigPrunable_write_length (htype : HasPrunedWeight type)
    (hproof : proofLengths type p = [(nlr, nlr)]) (hnlr : nlr < 0x80)
    (hw : (rctsigPrunable type inputs outputs mixin).write p = some w) :
    w.length = 1 + (32 * (proofKeys (isRctBulletproofPlus type) + 2 * nlr) + 2) +
      ringBytes type inputs (mixin + 1) + 32 * inputs := by
  rw [rctsigPrunable] at hw
  split_ifs at hw with hlarge hpseudo
  · cases hw
  · rw [map_some_write] at hw
    obtain ⟨x, r, hx, hr, rfl⟩ := bind_write_eq_some.mp hw
    obtain ⟨y, z, hy, hz, rfl⟩ := bind_write_eq_some.mp hr
    rw [length_append, length_append, rangeProofs_write_length htype hproof hnlr hx,
      ringSignatures_write_length htype hy, key_measures.list inputs _ _ hz]
    ring
  · rcases htype with h | h | h <;> simp [hasPrunablePseudoOuts, h] at hpseudo

end

/-! ## The weights agree -/

lemma paddedLogFrom_eq {n : ℕ} (hk : IsLeast { k | n ≤ 2 ^ k } k) {fuel nlr : ℕ} (hle : nlr ≤ k)
    (hfuel : k ≤ nlr + fuel) : paddedLogFrom n fuel nlr = k := by
  induction fuel generalizing nlr with
  | zero => exact le_antisymm hle hfuel
  | succ fuel ih =>
    rw [paddedLogFrom]
    split_ifs with hlt
    · have hne : nlr ≠ k := by
        rintro rfl
        exact hlt.not_ge hk.1
      exact ih (lt_of_le_of_ne hle hne) (by omega)
    · exact le_antisymm hle (hk.2 (not_lt.mp hlt))

lemma paddedLog_eq {n : ℕ} (hk : IsLeast { k | n ≤ 2 ^ k } k) (hn : n ≤ bulletproofMaxOutputs) :
    k ≤ 4 ∧ paddedLog n = k := by
  have hle : k ≤ 4 := hk.2 hn
  exact ⟨hle, paddedLogFrom_eq hk (Nat.zero_le k) (by omega)⟩

lemma mixin_modEq {amount : UInt64} {keyOffsets : List UInt64} {kImage : Key} (vin : List Txin) :
    mixin (.toKey amount keyOffsets kImage :: vin) + 1 ≡ keyOffsets.length [MOD 2 ^ 64] := by
  have hmod : mixin (.toKey amount keyOffsets kImage :: vin) ≡ keyOffsets.length + 2 ^ 64 - 1
      [MOD 2 ^ 64] := Nat.mod_modEq _ _
  have hone := hmod.add_right 1
  rw [Nat.sub_add_cancel (by omega)] at hone
  exact hone.trans (by simp [Nat.ModEq])

lemma nBulletproofMaxAmountsFrom_singleton (hk : k ≤ 4) :
    nBulletproofMaxAmountsFrom 0 [(6 + k, 6 + k)] = 2 ^ k := by
  interval_cases k <;> rfl

lemma getTransactionWeight_eq {t : Transaction} (hpruned : t.pruned = false)
    (hversion : t.version = 2) (htype : HasPrunedWeight t.rctSignatures.type) (hk : k ≤ 4)
    (hproof : proofLengths t.rctSignatures.type t.rctSignatures.p = [(6 + k, 6 + k)])
    (blobSize : ℕ) : getTransactionWeight t blobSize = addClawback t (2 ^ k) blobSize := by
  have hlt : ¬t.version < 2 := by simp [hversion]
  have hamounts := nBulletproofMaxAmountsFrom_singleton hk
  rw [← hproof, proofLengths] at hamounts
  rw [getTransactionWeight, hpruned, if_neg Bool.false_ne_true, if_neg hlt]
  rcases htype with h | h | h <;>
    simpa [h, isRctBulletproof, isRctBulletproofPlus, nBulletproofMaxAmounts,
      nBulletproofPlusMaxAmounts] using congrArg (addClawback t · blobSize) hamounts

lemma getTransactionWeightClawback_le {t : Transaction} (hk : k ≤ 4)
    (hmax : t.vout.length ≤ bulletproofMaxOutputs) :
    ∃ bpClawback ≤ 2 ^ 12, getTransactionWeightClawback t (2 ^ k) = some bpClawback := by
  simp only [getTransactionWeightClawback, not_lt.mpr hmax, if_false]
  cases isRctBulletproofPlus t.rctSignatures.type <;> interval_cases k <;>
    exact ⟨_, by decide, rfl⟩

/-- The weight computed without the prunable part is the weight of the whole
transaction, and there is one unless the blob comes near the 64-bit limit. -/
theorem pruned_weight_eq {t : Transaction} {b : List UInt8} (hwrite : writeTransaction t = some b)
    (hpruned : t.pruned = false) (hversion : t.version = 2)
    (htype : HasPrunedWeight t.rctSignatures.type) (hvin : t.vin ≠ [])
    (hkey : ∀ i ∈ t.vin, ∃ amount keyOffsets kImage, i = .toKey amount keyOffsets kImage)
    (hmax : t.vout.length ≤ bulletproofMaxOutputs) {k : ℕ}
    (hk : IsLeast { k | t.vout.length ≤ 2 ^ k } k)
    (hproof : proofLengths t.rctSignatures.type t.rctSignatures.p = [(6 + k, 6 + k)]) :
    getPrunedTransactionWeight t.prune = getTransactionWeight t (b.length % 2 ^ 64) ∧
      (b.length < 2 ^ 64 - 2 ^ 12 → (getTransactionWeight t (b.length % 2 ^ 64)).isSome) := by
  obtain ⟨hk4, hlog⟩ := paddedLog_eq hk hmax
  obtain ⟨i, vin, hcons⟩ := exists_cons_of_ne_nil hvin
  obtain ⟨amount, keyOffsets, kImage, rfl⟩ := hkey i (hcons ▸ mem_cons_self)
  have hversion' : t.version ≠ 1 := by simp [hversion]
  have hnull : t.rctSignatures.type ≠ .null := by
    rcases htype with h | h | h <;> simp [h]
  obtain ⟨u, v, x, hparts⟩ := (writeTransaction_eq_some_iff hversion' hvin hpruned).mp hwrite
  obtain rfl := hparts.blob
  have hx := hparts.writePrunable
  rw [prunablePart, if_neg hnull] at hx
  have hsize := rctsigPrunable_write_length htype hproof (by omega) hx
  -- the ring size and one more than the 64-bit `mixin` differ by a multiple of `2 ^ 64`
  have hring : mixin t.vin + 1 ≡ keyOffsets.length [MOD 2 ^ 64] := hcons ▸ mixin_modEq vin
  have hwhole : (u ++ (v ++ x)).length ≡ (u ++ v).length + 1 +
      (32 * (proofKeys (isRctBulletproofPlus t.rctSignatures.type) + 2 * (k + 6)) + 2) +
      ringBytes t.rctSignatures.type t.vin.length keyOffsets.length + 32 * t.vin.length
      [MOD 2 ^ 64] := by
    rw [← append_assoc, length_append, hsize, Nat.add_comm k, ← Nat.add_assoc, ← Nat.add_assoc,
      ← Nat.add_assoc]
    exact ((ringBytes_modEq hring).add_left _).add_right _
  rw [getTransactionWeight_eq hpruned hversion htype hk4 hproof]
  constructor
  · rw [hwhole, ← hlog]
    have hpart := writeTransaction_prune hversion' hvin hparts
    have hlt : ¬t.prune.version < 2 := by simp [Transaction.prune, hversion]
    have hinputs : t.prune.vin = .toKey amount keyOffsets kImage :: vin := hcons
    have hsupported : ¬(t.prune.rctSignatures.type ≠ .bulletproof2 ∧
        t.prune.rctSignatures.type ≠ .clsag ∧ t.prune.rctSignatures.type ≠ .bulletproofPlus) := by
      rcases htype with h | h | h <;> simp [Transaction.prune, h]
    simp only [getPrunedTransactionWeight, hpart, if_neg hlt, if_neg hsupported, Option.bind_some,
      hinputs]
    rw [hcons]
    rfl
  · intro hroom
    obtain ⟨bpClawback, hle, hclawback⟩ := getTransactionWeightClawback_le hk4 hmax
    have hfits : ¬uint64Max - (u ++ (v ++ x)).length % 2 ^ 64 < bpClawback := by
      rw [uint64Max]
      omega
    rw [addClawback, hclawback, Option.bind_some, if_neg hfits]
    rfl

/-! ### A transaction with three outputs -/

def threeOutputs (vin : List Txin) : Transaction where
  version := 2
  unlockTime := 0
  vin := vin
  vout := replicate 3 ⟨0, .toTaggedKey zeroKey 0⟩
  extra := [1]
  signatures := []
  rctSignatures := {
    type := .clsag
    message := zeroKey
    mixRing := []
    pseudoOuts := []
    ecdhInfo := replicate 3 ⟨zeroKey, zeroKey⟩
    outPk := replicate 3 ⟨zeroKey, zeroKey⟩
    txnFee := 1000
    p := {
      rangeSigs := []
      bulletproofs := [⟨[], zeroKey, zeroKey, zeroKey, zeroKey, zeroKey, zeroKey,
        replicate 8 zeroKey, replicate 8 zeroKey, zeroKey, zeroKey, zeroKey⟩]
      bulletproofsPlus := []
      MGs := []
      CLSAGs := vin.map fun _ ↦ ⟨replicate 2 zeroKey, zeroKey, zeroKey, zeroKey⟩
      pseudoOuts := vin.map fun _ ↦ zeroKey } }
  pruned := false

theorem pruned_weight_eq_three : let t := threeOutputs [.toKey 0 [7, 1] zeroKey]
    ∃ b, writeTransaction t = some b ∧ b.length = 1234 ∧
      getPrunedTransactionWeight t.prune = some 1771 ∧
        getPrunedTransactionWeight t.prune = getTransactionWeight t (b.length % 2 ^ 64) := by
  intro t
  obtain ⟨b, hb⟩ :=
    Option.isSome_iff_exists.mp (show (writeTransaction t).isSome by decide +kernel)
  have hlength : (writeTransaction t).map length = some 1234 := by decide +kernel
  rw [hb] at hlength
  refine ⟨b, hb, Option.some_inj.mp hlength, by decide +kernel, (pruned_weight_eq hb rfl rfl
    (.inr (.inl rfl)) (cons_ne_nil _ _) (fun i hi ↦ ?_) (by decide) (k := 2) ⟨by decide, ?_⟩
    rfl).1⟩
  · exact ⟨0, [7, 1], zeroKey, mem_singleton.mp hi⟩
  · intro k hk
    by_contra hlt
    interval_cases k <;> exact absurd hk (by decide)

/-- Without inputs the writer has no signatures to write, and there is no ring
to take the size of. -/
theorem pruned_weight_ne_without_inputs : let t := threeOutputs []
    ∃ b, writeTransaction t = some b ∧ getPrunedTransactionWeight t.prune = some uint64Max ∧
      getTransactionWeight t (b.length % 2 ^ 64) ≠ some uint64Max := by
  intro t
  obtain ⟨b, hb⟩ :=
    Option.isSome_iff_exists.mp (show (writeTransaction t).isSome by decide +kernel)
  refine ⟨b, hb, by decide +kernel, ?_⟩
  have hweight : (writeTransaction t).map (fun b ↦ getTransactionWeight t (b.length % 2 ^ 64)) ≠
      some (some uint64Max) := by decide +kernel
  rw [hb] at hweight
  exact fun h ↦ hweight (congrArg some h)

end Monero.Serialization
