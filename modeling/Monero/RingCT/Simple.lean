import Mathlib
import Monero.RingCT.Clsag

/-!
# RingCT signatures with one ring per input

`genRctSimple`, `verRctNonSemanticsSimple` and `verRctSemanticsSimple` of
`rctSigs.cpp` for the types that sign with CLSAG.  Range proofs, the encryption of
the amounts and the hash of the transaction are arbitrary functions.
-/

namespace Monero.RingCT

open Monero.Lib List

/-- The types whose inputs are signed with CLSAG. -/
inductive RctType where
  | clsag
  | bulletproofPlus
  deriving DecidableEq

/-- Types: scalars, points, messages, amount keys, encrypted amounts and range proofs. -/
structure RctCrypto (F P M K E B : Type) extends ClsagCrypto F P M where
  H : P
  genCommitmentMask : K → F
  bulletproofProve : RctType → List ℕ → List F → B
  /-- An eighth of each commitment. -/
  bulletproofV : B → List P
  nBulletproofAmounts : RctType → List B → ℕ
  bulletproofVerify : RctType → List B → Bool
  ecdhEncode : F → ℕ → K → E
  /-- The hash of the message, the serialized base and the range proofs. -/
  mlsagPrehash : M → RctType → ℕ → List E → List (CtKey P) → List B → M

structure RctSig (F P M E B : Type) where
  type : RctType
  message : M
  mixRing : List (List (CtKey P))
  ecdhInfo : List E
  outPk : List (CtKey P)
  txnFee : ℕ
  bulletproofs : List B
  CLSAGs : List (Clsag F P)
  pseudoOuts : List P

variable {F P M K E B : Type} [Field F] [AddCommGroup P] [Module F P]

variable (c : RctCrypto F P M K E B)

def getPreMlsagHash (rv : RctSig F P M E B) : Except String M := do
  check (rv.mixRing ≠ []) "Empty mixRing"
  return c.mlsagPrehash rv.message rv.type rv.txnFee rv.ecdhInfo rv.outPk rv.bulletproofs

/-- A Pedersen commitment. -/
def genC (a : F) (amount : ℕ) : P := a • c.G + (amount : F) • c.H

def addKeys : List P → P
  | [] => 0
  | A :: As => As.foldl (· + ·) A

/-! ## Signing -/

/-- What is drawn: the masks of the pseudo outputs but the last, the nonce of each input and the
responses of its decoys. -/
structure Randomness (F : Type) where
  pseudoMask : ℕ → F
  nonce : ℕ → F
  response : ℕ → ℕ → F

/-- The last mask makes up for the others. -/
def pseudoMasks (n : ℕ) (sumout : F) (rand : Randomness F) : List F :=
  let a := (range (n - 1)).map rand.pseudoMask
  a ++ [sumout - a.foldl (fun sum k ↦ k + sum) 0]

def sumMasks (masks : List F) : F := masks.foldl (fun sum k ↦ k + sum) 0

def rctBase (message : M) (destinations : List P)
    (inamounts outamounts : List ℕ) (txnFee : ℕ) (mixRing : List (List (CtKey P)))
    (amountKeys : List K) (type : RctType) (a : List F) : RctSig F P M E B :=
  let masks := amountKeys.map c.genCommitmentMask
  let proof := c.bulletproofProve type outamounts masks
  { type := type
    message := message
    mixRing := mixRing
    ecdhInfo := zipWith (fun (m : F × ℕ) key ↦ c.ecdhEncode m.1 m.2 key)
      (masks.zip outamounts) amountKeys
    outPk := zipWith (fun dest C ↦ ⟨dest, 8 • C⟩) destinations (c.bulletproofV proof)
    txnFee := txnFee
    bulletproofs := [proof]
    CLSAGs := []
    pseudoOuts := zipWith (genC c) a inamounts }

def genRctSimple (message : M) (inSk : List (CtSecret F))
    (destinations : List P) (inamounts outamounts : List ℕ) (txnFee : ℕ)
    (mixRing : List (List (CtKey P))) (amountKeys : List K) (index : List ℕ) (type : RctType)
    (rand : Randomness F) : Except String (RctSig F P M E B) := do
  check (0 < inamounts.length) "Empty inamounts"
  check (inamounts.length = inSk.length) "Different number of inamounts/inSk"
  check (outamounts.length = destinations.length) "Different number of amounts/destinations"
  check (amountKeys.length = destinations.length) "Different number of amount_keys/destinations"
  check (index.length = inSk.length) "Different number of index/inSk"
  check (mixRing.length = inSk.length) "Different number of mixRing/inSk"
  check (∀ n < mixRing.length, index.getD n 0 < (mixRing.getD n []).length)
    "Bad index into mixRing"
  let masks := amountKeys.map c.genCommitmentMask
  check ((c.bulletproofV (c.bulletproofProve type outamounts masks)).length = outamounts.length)
    "V does not have the expected size"
  let a := pseudoMasks inamounts.length (sumMasks masks) rand
  let rv := rctBase c message destinations inamounts outamounts txnFee mixRing amountKeys type a
  let fullMessage ← getPreMlsagHash c rv
  let CLSAGs ← (range inamounts.length).mapM fun i ↦
    proveRctCLSAGSimple c.toClsagCrypto fullMessage (mixRing.getD i []) (inSk.getD i ⟨0, 0⟩)
      (a.getD i 0) (rv.pseudoOuts.getD i 0) (index.getD i 0) (rand.nonce i) (rand.response i)
  return { rv with CLSAGs := CLSAGs }

/-! ## Sums -/

lemma addKeys_eq_sum (l : List P) : addKeys l = l.sum := by
  have hfold : ∀ (As : List P) (A : P), As.foldl (· + ·) A = A + As.sum := by
    intro As
    induction As with
    | nil => intro A; simp
    | cons B As ih => intro A; rw [foldl_cons, ih, sum_cons, add_assoc]
  cases l with
  | nil => rfl
  | cons A As => rw [addKeys, hfold, sum_cons]

lemma sumMasks_eq_sum (l : List F) : sumMasks l = l.sum := by
  rw [sumMasks, sum_eq_foldl]
  exact congrArg (fun f ↦ l.foldl f 0) (funext fun s ↦ funext fun k ↦ add_comm k s)

lemma length_pseudoMasks {n : ℕ} (hn : 0 < n) (sumout : F) (rand : Randomness F) :
    (pseudoMasks n sumout rand).length = n := by
  simp [pseudoMasks]
  omega

lemma sum_pseudoMasks (n : ℕ) (sumout : F) (rand : Randomness F) :
    (pseudoMasks n sumout rand).sum = sumout := by
  have h := sumMasks_eq_sum ((range (n - 1)).map rand.pseudoMask)
  rw [sumMasks] at h
  rw [pseudoMasks, sum_append, h, sum_singleton]
  ring

lemma sum_genC (c : RctCrypto F P M K E B) {a : List F} {amounts : List ℕ}
    (h : a.length = amounts.length) :
    (zipWith (genC c) a amounts).sum = a.sum • c.G + ((amounts.sum : ℕ) : F) • c.H := by
  induction a generalizing amounts with
  | nil =>
    obtain rfl : amounts = [] := length_eq_zero_iff.mp h.symm
    simp
  | cons k a ih =>
    cases amounts with
    | nil => simp at h
    | cons amount amounts =>
      rw [zipWith_cons_cons, sum_cons, ih (by simpa using h), genC, sum_cons,
        sum_cons, Nat.cast_add]
      module

/-! ## Verifying -/

variable [DecidableEq F] [DecidableEq P]

def sumCheck (rv : RctSig F P M E B) : Bool :=
  let sumOutpks := addKeys (rv.outPk.map CtKey.mask)
  let txnFeeKey := (rv.txnFee : F) • c.H
  addKeys rv.pseudoOuts = txnFeeKey + sumOutpks

/-- For a single signature. -/
def verRctSemanticsSimple (rv : RctSig F P M E B) : Bool :=
  if rv.outPk.length ≠ c.nBulletproofAmounts rv.type rv.bulletproofs then false
  else if rv.pseudoOuts.length ≠ rv.CLSAGs.length then false
  else if rv.outPk.length ≠ rv.ecdhInfo.length then false
  else if sumCheck c rv = false then false
  else rv.bulletproofs = [] || c.bulletproofVerify rv.type rv.bulletproofs

def verRctNonSemanticsSimple (rv : RctSig F P M E B) : Bool :=
  if rv.pseudoOuts.length ≠ rv.mixRing.length then false
  else
    match getPreMlsagHash c rv with
    | .error _ => false
    | .ok message => (range rv.mixRing.length).all fun i ↦
        verRctCLSAGSimple c.toClsagCrypto message (rv.CLSAGs.getD i ⟨[], 0, 0, 0⟩)
          (rv.mixRing.getD i []) (rv.pseudoOuts.getD i 0)

/-! ## Honest signatures -/

variable (c : RctCrypto F P M K E B)

/-- The secrets open the real member of each ring to the input amount. -/
structure Opens (inSk : List (CtSecret F)) (inamounts : List ℕ)
    (mixRing : List (List (CtKey P))) (index : List ℕ) : Prop where
  pos : 0 < inamounts.length
  length_inSk : inamounts.length = inSk.length
  length_index : index.length = inSk.length
  length_mixRing : mixRing.length = inSk.length
  real : ∀ i < inamounts.length, (mixRing.getD i [])[index.getD i 0]? =
    some ⟨(inSk.getD i ⟨0, 0⟩).dest • c.G, genC c (inSk.getD i ⟨0, 0⟩).mask (inamounts.getD i 0)⟩

/-- The range proof is correct: it is about the commitments to the amounts, and it verifies. -/
structure RangeProved (type : RctType) (outamounts : List ℕ) (masks : List F) : Prop where
  V_eq : c.bulletproofV (c.bulletproofProve type outamounts masks) =
    zipWith (fun mask amount ↦ invEight F • genC c mask amount) masks outamounts
  count : c.nBulletproofAmounts type [c.bulletproofProve type outamounts masks] = outamounts.length
  verify : c.bulletproofVerify type [c.bulletproofProve type outamounts masks] = true

def NoZeroChallenge (rv : RctSig F P M E B) : Prop :=
  ∀ message, getPreMlsagHash c rv = .ok message → ∀ i < rv.mixRing.length,
    0 ∉ challenges c.toClsagCrypto message (rv.CLSAGs.getD i ⟨[], 0, 0, 0⟩) (rv.mixRing.getD i [])
      (rv.pseudoOuts.getD i 0)

omit [AddCommGroup P] [Module F P] [DecidableEq F] [DecidableEq P] in
lemma zero_notMem_walk {next : CtKey P → F → F → F} (h : ∀ pub s ch, next pub s ch ≠ 0)
    (l : List (CtKey P × F)) (ch : F) : 0 ∉ walk next l ch := by
  induction l generalizing ch with
  | nil => exact not_mem_nil
  | cons x l ih =>
    intro hmem
    rcases mem_cons.mp hmem with heq | hrest
    · exact h x.1 x.2 ch heq.symm
    · exact ih _ hrest

omit [DecidableEq F] [DecidableEq P] in
lemma noZeroChallenge_of_hash {c : RctCrypto F P M K E B} (h : ∀ items, c.hashToScalar items ≠ 0)
    (rv : RctSig F P M E B) : NoZeroChallenge c rv := by
  intro message _ i _
  exact zero_notMem_walk (fun _ _ _ ↦ h _) _ _

/-- Amounts of any transaction are told apart as scalars. -/
def AmountsFit (F : Type) [Field F] : Prop :=
  ∀ a b : ℕ, a < 2 ^ 129 → b < 2 ^ 129 → (a : F) = (b : F) → a = b

omit [DecidableEq F] in
lemma AmountsFit.eight_ne_zero (h : AmountsFit F) : (8 : F) ≠ 0 := by
  intro h8
  have := h 8 0 (by norm_num) (by norm_num) (by exact_mod_cast h8)
  omega

lemma sum_lt_of_forall_lt {l : List ℕ} (hlength : l.length < 2 ^ 64) (h : ∀ a ∈ l, a < 2 ^ 64) :
    l.sum < 2 ^ 128 := by
  calc
    l.sum ≤ l.length • (2 ^ 64 - 1) :=
      sum_le_card_nsmul l (2 ^ 64 - 1) fun a ha ↦ Nat.le_sub_one_of_lt (h a ha)
    _ = l.length * (2 ^ 64 - 1) := nsmul_eq_mul _ _
    _ ≤ 2 ^ 64 * (2 ^ 64 - 1) := Nat.mul_le_mul_right _ hlength.le
    _ < 2 ^ 128 := by decide

/-- A prime field that the amounts fit in. -/
abbrev SampleScalar := ZMod (5 * 2 ^ 127 + 1)

instance prime_sampleScalar : Fact (Nat.Prime (5 * 2 ^ 127 + 1)) := by
  refine ⟨lucas_primality _ (17 : SampleScalar) ?_ fun q hq hdvd ↦ ?_⟩
  · reduce_mod_char
  · rw [Nat.add_sub_cancel] at hdvd
    have hfactor : q = 5 ∨ q = 2 := by
      rcases hq.dvd_mul.mp hdvd with h | h
      · exact .inl ((Nat.prime_dvd_prime_iff_eq hq Nat.prime_five).mp h)
      · exact .inr ((Nat.prime_dvd_prime_iff_eq hq Nat.prime_two).mp (hq.dvd_of_dvd_pow h))
    rcases hfactor with rfl | rfl
    · reduce_mod_char
      decide
    · reduce_mod_char
      decide

lemma amountsFit_sampleScalar : AmountsFit SampleScalar := by
  intro a b ha hb h
  rw [ZMod.natCast_eq_natCast_iff', Nat.mod_eq_of_lt (by omega), Nat.mod_eq_of_lt (by omega)] at h
  exact h

/-- Points are pairs of scalars, proofs are the commitments they are about. -/
def sampleRct : RctCrypto SampleScalar (SampleScalar × SampleScalar) ℕ ℕ ℕ
    (List (SampleScalar × SampleScalar)) where
  G := (1, 0)
  H := (0, 1)
  hashToP3 := fun K ↦ K + (1, 1)
  hashToScalar := fun items ↦ (items.length % 7 + 1 : ℕ)
  genCommitmentMask := fun key ↦ key
  bulletproofProve := fun _ amounts masks ↦
    zipWith (fun mask amount ↦
      invEight SampleScalar • (mask • (1, 0) + (amount : SampleScalar) • (0, 1))) masks amounts
  bulletproofV := fun proof ↦ proof
  nBulletproofAmounts := fun _ proofs ↦ (proofs.map length).sum
  bulletproofVerify := fun _ _ ↦ true
  ecdhEncode := fun _ amount _ ↦ amount
  mlsagPrehash := fun message _ _ _ _ _ ↦ message

section Honest

variable {c : RctCrypto F P M K E B} {message : M} {inSk : List (CtSecret F)}
  {destinations : List P} {inamounts outamounts : List ℕ} {txnFee : ℕ}
  {mixRing : List (List (CtKey P))} {amountKeys : List K} {index : List ℕ} {type : RctType}
  {rand : Randomness F} {a : List F} {base : RctSig F P M E B}

omit [DecidableEq F] [DecidableEq P] in
lemma getD_pseudoOuts (ha : a.length = inamounts.length) {i : ℕ} (hi : i < inamounts.length) :
    (rctBase c message destinations inamounts outamounts txnFee mixRing amountKeys type
      a).pseudoOuts.getD i 0 = genC c (a.getD i 0) (inamounts.getD i 0) := by
  have hlength : (zipWith (genC c) a inamounts).length = inamounts.length := by
    rw [length_zipWith, ha, min_self]
  rw [rctBase, getD_eq_getElem _ _ (hlength ▸ hi), getElem_zipWith,
    getD_eq_getElem _ _ (ha ▸ hi), getD_eq_getElem _ _ hi]

omit [Field F] [AddCommGroup P] [Module F P] [DecidableEq F] [DecidableEq P] in
lemma getPreMlsagHash_ok (hne : base.mixRing ≠ []) :
    ∃ fullMessage, ∀ sigs, getPreMlsagHash c { base with CLSAGs := sigs } = .ok fullMessage := by
  refine ⟨c.mlsagPrehash base.message base.type base.txnFee base.ecdhInfo base.outPk
    base.bulletproofs, fun sigs ↦ ?_⟩
  rw [getPreMlsagHash, check_bind hne]
  rfl

variable (hfit : AmountsFit F) (hH : c.H ≠ 0) (hopens : Opens c inSk inamounts mixRing index)
  (hout : outamounts.length = destinations.length)
  (hkeys : amountKeys.length = destinations.length)
  (hproof : RangeProved c type outamounts (amountKeys.map c.genCommitmentMask))
  (hin : inamounts.length < 2 ^ 64 ∧ ∀ amount ∈ inamounts, amount < 2 ^ 64)
  (houts : outamounts.length < 2 ^ 64 ∧ ∀ amount ∈ outamounts, amount < 2 ^ 64)
  (hfee : txnFee < 2 ^ 64)
  (hI : ∀ i < inamounts.length, (inSk.getD i ⟨0, 0⟩).dest •
    c.hashToP3 ((inSk.getD i ⟨0, 0⟩).dest • c.G) ≠ 0)

include hfit hout hkeys hproof

omit [DecidableEq F] in
/-- The sums of the masks are equal by the choice of the last mask, so the check is about the
amounts. -/
theorem sumCheck_iff (hH : c.H ≠ 0) (ha : a.length = inamounts.length)
    (hsum : a.sum = (amountKeys.map c.genCommitmentMask).sum)
    (hin : inamounts.sum < 2 ^ 129) (houtfee : outamounts.sum + txnFee < 2 ^ 129) :
    sumCheck c (rctBase c message destinations inamounts outamounts txnFee mixRing amountKeys type
      a) = true ↔ inamounts.sum = outamounts.sum + txnFee := by
  have hmasks : (amountKeys.map c.genCommitmentMask).length = outamounts.length := by
    rw [length_map, hkeys, hout]
  have hmask : (zipWith (fun dest C ↦ (⟨dest, 8 • C⟩ : CtKey P)) destinations
      (c.bulletproofV (c.bulletproofProve type outamounts
        (amountKeys.map c.genCommitmentMask)))).map CtKey.mask =
      zipWith (genC c) (amountKeys.map c.genCommitmentMask) outamounts := by
    rw [hproof.V_eq, map_zipWith]
    refine ext_getElem ?_ fun j h₁ h₂ ↦ ?_
    · simp only [length_zipWith]
      omega
    · simp only [getElem_zipWith]
      rw [← Nat.cast_smul_eq_nsmul F, Nat.cast_ofNat, smul_smul,
        mul_inv_cancel₀ hfit.eight_ne_zero, one_smul]
  have hpseudo : addKeys (zipWith (genC c) a inamounts) =
      (amountKeys.map c.genCommitmentMask).sum • c.G + ((inamounts.sum : ℕ) : F) • c.H := by
    rw [addKeys_eq_sum, sum_genC c ha, hsum]
  have houts : addKeys (zipWith (genC c) (amountKeys.map c.genCommitmentMask) outamounts) =
      (amountKeys.map c.genCommitmentMask).sum • c.G + ((outamounts.sum : ℕ) : F) • c.H := by
    rw [addKeys_eq_sum, sum_genC c hmasks]
  simp only [sumCheck, rctBase, hmask, hpseudo, houts, decide_eq_true_eq]
  constructor
  · intro heq
    have hcast : ((inamounts.sum : ℕ) : F) • c.H = ((outamounts.sum + txnFee : ℕ) : F) • c.H := by
      rw [Nat.cast_add, add_smul]
      have := add_left_cancel (a := (amountKeys.map c.genCommitmentMask).sum • c.G)
        (heq.trans (add_left_comm _ _ _))
      rw [this, add_comm]
    exact hfit _ _ hin houtfee (smul_left_injective F hH hcast)
  · intro heq
    rw [heq, Nat.cast_add]
    module

include hopens hI

lemma genRctSimple_signed
    (ha : pseudoMasks inamounts.length (sumMasks (amountKeys.map c.genCommitmentMask)) rand = a)
    (hmask : ∀ i < inamounts.length, a.getD i 0 ≠ (inSk.getD i ⟨0, 0⟩).mask)
    (hbase : rctBase c message destinations inamounts outamounts txnFee
      mixRing amountKeys type a = base) :
    ∃ (fullMessage : M) (sigs : ℕ → Clsag F P),
      genRctSimple c message inSk destinations inamounts outamounts txnFee mixRing amountKeys index
        type rand = .ok { base with CLSAGs := (range inamounts.length).map sigs } ∧
      (∀ l, getPreMlsagHash c { base with CLSAGs := l } = .ok fullMessage) ∧
      ∀ i < inamounts.length, 0 ∉ challenges c.toClsagCrypto fullMessage (sigs i)
        (mixRing.getD i []) (base.pseudoOuts.getD i 0) →
          verRctCLSAGSimple c.toClsagCrypto fullMessage (sigs i) (mixRing.getD i [])
            (base.pseudoOuts.getD i 0) = true := by
  have halength : a.length = inamounts.length := by
    rw [← ha, length_pseudoMasks hopens.pos]
  have hrings : mixRing.length = inamounts.length :=
    hopens.length_mixRing.trans hopens.length_inSk.symm
  have hne : mixRing ≠ [] := by
    intro hnil
    have hpos := hopens.pos
    rw [hnil, length_nil] at hrings
    omega
  have hindex : ∀ n < mixRing.length, index.getD n 0 < (mixRing.getD n []).length := by
    intro n hn
    exact (List.getElem?_eq_some_iff.mp (hopens.real n (hrings ▸ hn))).1
  have hV : (c.bulletproofV (c.bulletproofProve type outamounts
      (amountKeys.map c.genCommitmentMask))).length = outamounts.length := by
    rw [hproof.V_eq, length_zipWith, length_map]
    omega
  have hmixRing : base.mixRing = mixRing := by rw [← hbase]; rfl
  obtain ⟨fullMessage, hhash⟩ := getPreMlsagHash_ok (c := c) (hmixRing ▸ hne)
  have hsign : ∀ i, ∃ sig, i < inamounts.length →
      proveRctCLSAGSimple c.toClsagCrypto fullMessage (mixRing.getD i []) (inSk.getD i ⟨0, 0⟩)
        (a.getD i 0) (base.pseudoOuts.getD i 0) (index.getD i 0) (rand.nonce i) (rand.response i) =
          .ok sig ∧
      (0 ∉ challenges c.toClsagCrypto fullMessage sig (mixRing.getD i [])
        (base.pseudoOuts.getD i 0) → verRctCLSAGSimple c.toClsagCrypto fullMessage sig
          (mixRing.getD i []) (base.pseudoOuts.getD i 0) = true) := by
    intro i
    by_cases hi : i < inamounts.length
    · have hreal := hopens.real i hi
      have hopen : genC c (inSk.getD i ⟨0, 0⟩).mask (inamounts.getD i 0) =
          ((inSk.getD i ⟨0, 0⟩).mask - a.getD i 0) • c.G +
            genC c (a.getD i 0) (inamounts.getD i 0) := by
        rw [genC, genC]
        module
      rw [hopen] at hreal
      have hring : mixRing.getD i [] ≠ [] := by
        intro hnil
        rw [hnil] at hreal
        cases hreal
      obtain ⟨sig, hgen, hver⟩ := verRctCLSAGSimple_clsagGen fullMessage (rand.nonce i)
        (rand.response i) hfit.eight_ne_zero hreal (hI i hi) (sub_ne_zero.mpr (hmask i hi).symm)
      refine ⟨sig, fun _ ↦ ?_⟩
      rw [← hbase, getD_pseudoOuts halength hi, proveRctCLSAGSimple, check_bind hring, hgen]
      exact ⟨rfl, hver⟩
    · exact ⟨⟨[], 0, 0, 0⟩, fun h ↦ absurd h hi⟩
  choose sigs hsigs using hsign
  refine ⟨fullMessage, sigs, ?_, hhash, fun i hi ↦ (hsigs i hi).2⟩
  have hmapM := mapM_eq_ok (l := range inamounts.length) (g := sigs)
    fun i hi ↦ (hsigs i (mem_range.mp hi)).1
  rw [genRctSimple, check_bind hopens.pos, check_bind hopens.length_inSk,
    check_bind hout, check_bind hkeys, check_bind hopens.length_index,
    check_bind hopens.length_mixRing, check_bind hindex]
  simp only [ha, hbase]
  rw [check_bind hV, show getPreMlsagHash c base = .ok fullMessage from hhash base.CLSAGs,
    ok_bind, hmapM, ok_bind]
  rfl

include hH hin houts hfee

/-- The signature is made, all its inputs are accepted, and its sums agree just if the amounts
do. -/
theorem genRctSimple_verifies (hmask : ∀ i < inamounts.length, (pseudoMasks inamounts.length
      (sumMasks (amountKeys.map c.genCommitmentMask)) rand).getD i 0 ≠ (inSk.getD i ⟨0, 0⟩).mask) :
    ∃ rv, genRctSimple c message inSk destinations inamounts outamounts txnFee mixRing amountKeys
        index type rand = .ok rv ∧
      (NoZeroChallenge c rv → verRctNonSemanticsSimple c rv = true) ∧
      (sumCheck c rv = true ↔ inamounts.sum = outamounts.sum + txnFee) ∧
      (verRctSemanticsSimple c rv = true ↔ inamounts.sum = outamounts.sum + txnFee) := by
  generalize ha : pseudoMasks inamounts.length (sumMasks (amountKeys.map c.genCommitmentMask)) rand
    = a at hmask
  generalize hbase : rctBase c message destinations inamounts outamounts txnFee mixRing amountKeys
    type a = base
  obtain ⟨fullMessage, sigs, hgen, hhash, hver⟩ := genRctSimple_signed hfit hopens hout hkeys
    hproof hI ha hmask hbase
  have halength : a.length = inamounts.length := by
    rw [← ha, length_pseudoMasks hopens.pos]
  have hasum : a.sum = (amountKeys.map c.genCommitmentMask).sum := by
    rw [← ha, sum_pseudoMasks, sumMasks_eq_sum]
  have hmixRing : base.mixRing = mixRing := by rw [← hbase]; rfl
  have hrings : base.mixRing.length = inamounts.length := by
    rw [hmixRing]
    exact hopens.length_mixRing.trans hopens.length_inSk.symm
  have hpseudoLength : base.pseudoOuts.length = inamounts.length := by
    rw [← hbase, rctBase, length_zipWith, halength, min_self]
  have hcheck : sumCheck c base = true ↔ inamounts.sum = outamounts.sum + txnFee := by
    have hinsum := sum_lt_of_forall_lt hin.1 hin.2
    have houtsum := sum_lt_of_forall_lt houts.1 houts.2
    rw [← hbase]
    exact sumCheck_iff hfit hout hkeys hproof hH halength hasum (by omega) (by omega)
  refine ⟨_, hgen, ?_, hcheck, ?_⟩
  · intro hzero
    have hlength : base.pseudoOuts.length = base.mixRing.length := hpseudoLength.trans hrings.symm
    rw [verRctNonSemanticsSimple, if_neg (not_not.mpr hlength)]
    simp only [hhash, all_eq_true, mem_range]
    intro i hi
    have hi' : i < inamounts.length := hrings ▸ hi
    have hget : ((range inamounts.length).map sigs).getD i ⟨[], 0, 0, 0⟩ = sigs i := by
      rw [getD_eq_getElem _ _ (by simpa using hi'), getElem_map, getElem_range]
    have hno := hzero fullMessage (hhash _) i hi
    simp only [hget, hmixRing] at hno ⊢
    exact hver i hi' hno
  · have houtPk : base.outPk.length = outamounts.length := by
      rw [← hbase, rctBase]
      simp only [length_zipWith, hproof.V_eq, length_map]
      omega
    have hecdh : base.ecdhInfo.length = outamounts.length := by
      rw [← hbase, rctBase]
      simp only [length_zipWith, length_zip, length_map]
      omega
    have hcount : c.nBulletproofAmounts base.type base.bulletproofs = outamounts.length := by
      rw [← hbase]
      exact hproof.count
    have hverify : c.bulletproofVerify base.type base.bulletproofs = true := by
      rw [← hbase]
      exact hproof.verify
    have hsame : sumCheck c { base with CLSAGs := (range inamounts.length).map sigs } =
        sumCheck c base := rfl
    rw [← hcheck, verRctSemanticsSimple]
    simp only [houtPk, hcount, hecdh, hpseudoLength, length_map, length_range, ne_eq,
      not_true_eq_false, if_false, hverify, Bool.or_true, hsame]
    cases sumCheck c base with
    | true => simp
    | false => simp

omit hfit hH hopens hout hkeys hproof hin houts hfee hI

-- Two inputs of 5 and 4, in rings of two and of one, pay 6 and a fee of 3.
theorem genRctSimple_verifies_sample :
    ∃ rv, genRctSimple sampleRct 0 [⟨2, 3⟩, ⟨4, 1⟩] [(9, 0)] [5, 4] [6] 3
        [[⟨(7, 0), (1, 1)⟩, ⟨(2, 0), (3, 5)⟩], [⟨(4, 0), (1, 4)⟩]] [11] [1, 0] .clsag
        ⟨fun _ ↦ 5, fun _ ↦ 6, fun _ _ ↦ 7⟩ = .ok rv ∧
      verRctNonSemanticsSimple sampleRct rv = true ∧ sumCheck sampleRct rv = true := by
  have hopens : Opens sampleRct [⟨2, 3⟩, ⟨4, 1⟩] [5, 4]
      [[⟨(7, 0), (1, 1)⟩, ⟨(2, 0), (3, 5)⟩], [⟨(4, 0), (1, 4)⟩]] [1, 0] := by
    refine ⟨by decide, rfl, rfl, rfl, fun i hi ↦ ?_⟩
    have hi' : i < 2 := hi
    interval_cases i
    · simp [sampleRct, genC]
    · simp [sampleRct, genC]
  have hI : ∀ i < 2, (([⟨2, 3⟩, ⟨4, 1⟩] : List (CtSecret SampleScalar)).getD i ⟨0, 0⟩).dest •
      sampleRct.hashToP3 ((([⟨2, 3⟩, ⟨4, 1⟩] : List (CtSecret SampleScalar)).getD i
        ⟨0, 0⟩).dest • sampleRct.G) ≠ 0 := by
    decide +kernel
  have hmask : ∀ i < 2, (pseudoMasks 2 (sumMasks ([11].map sampleRct.genCommitmentMask))
      ⟨fun _ ↦ 5, fun _ ↦ 6, fun _ _ ↦ 7⟩).getD i 0 ≠
        (([⟨2, 3⟩, ⟨4, 1⟩] : List (CtSecret SampleScalar)).getD i ⟨0, 0⟩).mask := by
    decide +kernel
  obtain ⟨rv, hgen, hver, hsum, -⟩ := @genRctSimple_verifies SampleScalar
    (SampleScalar × SampleScalar) ℕ ℕ ℕ (List (SampleScalar × SampleScalar)) _ _ _ _ _ sampleRct 0
    _ [(9, 0)] _ [6] 3 _ [11] _ .clsag _ amountsFit_sampleScalar (by simp [sampleRct]) hopens rfl
    rfl ⟨rfl, rfl, rfl⟩ (by simp) (by simp) (by norm_num) hI hmask
  refine ⟨rv, hgen, hver (noZeroChallenge_of_hash (fun items hzero ↦ ?_) rv), hsum.mpr rfl⟩
  have := amountsFit_sampleScalar _ 0 (by omega) (by decide) (hzero.trans Nat.cast_zero.symm)
  omega

end Honest

end Monero.RingCT
