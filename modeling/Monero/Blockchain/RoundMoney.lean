import Mathlib

/-!
# Rounding an amount up

`round_money_up` works on the decimal text of the amount: the digits after the
significant ones become zeros and, unless they all were, one is carried into
those before.  A text is modelled by its digits, the least significant one first.
-/

namespace Monero.Blockchain

open Nat (ofDigits digits ofDigits_cons zero_add)

/-- Nines become zeros up to the first digit that takes the carry; past the
highest digit a `1` is put in front. -/
def bumpDigits : List ℕ → List ℕ
  | [] => [1]
  | d :: ds => if d = 9 then 0 :: bumpDigits ds else (d + 1) :: ds

def roundDigitsUp (buf : List ℕ) (significantDigits : ℕ) : List ℕ :=
  if significantDigits < buf.length then
    let rest := buf.take (buf.length - significantDigits)
    let kept := buf.drop (buf.length - significantDigits)
    List.replicate rest.length 0 ++ if rest.any (· ≠ 0) then bumpDigits kept else kept
  else buf

/-- `none` is one of the three exceptions; `strtoull` reports a text that does
not fit 64 bits. -/
def roundMoneyUp (amount significantDigits : ℕ) : Option ℕ :=
  if significantDigits = 0 then none
  else
    let ull := ofDigits 10 (roundDigitsUp (digits 10 amount) significantDigits)
    if 2 ^ 64 ≤ ull then none
    else if ull = 0 ∧ amount ≠ 0 then none
    else some ull

lemma ofDigits_bumpDigits (ds : List ℕ) :
    ofDigits 10 (bumpDigits ds) = ofDigits 10 ds + 1 := by
  induction ds with
  | nil => rfl
  | cons d ds ih =>
    rw [bumpDigits]
    split_ifs with hnine
    · rw [ofDigits_cons, ofDigits_cons, ih, hnine]
      ring
    · rw [ofDigits_cons, ofDigits_cons]
      ring

lemma ofDigits_eq_zero_iff (ds : List ℕ) : ofDigits 10 ds = 0 ↔ ds.any (· ≠ 0) = false := by
  induction ds with
  | nil => exact ⟨fun _ ↦ rfl, fun _ ↦ rfl⟩
  | cons d ds ih =>
    rw [ofDigits_cons, List.any_cons, Bool.or_eq_false_iff, ← ih]
    simp

/-- The next multiple of the unit. -/
def nextMultiple (amount unit : ℕ) : ℕ := unit * ((amount + unit - 1) / unit)

lemma ofDigits_roundDigitsUp (buf : List ℕ) (hbuf : ∀ d ∈ buf, d < 10) (n : ℕ) :
    ofDigits 10 (roundDigitsUp buf n) =
      nextMultiple (ofDigits 10 buf) (10 ^ (buf.length - n)) := by
  rw [nextMultiple]
  by_cases hlong : n < buf.length
  swap
  · rw [roundDigitsUp, if_neg hlong, Nat.sub_eq_zero_of_le (not_lt.mp hlong)]
    simp
  set k := buf.length - n with hk
  have hlen : (buf.take k).length = k := by
    rw [List.length_take]
    omega
  have hsplit : ofDigits 10 buf =
      ofDigits 10 (buf.take k) + 10 ^ k * ofDigits 10 (buf.drop k) := by
    conv_lhs => rw [← List.take_append_drop k buf, Nat.ofDigits_append, hlen]
  have hrest : ofDigits 10 (buf.take k) < 10 ^ k := by
    have hlt := Nat.ofDigits_lt_base_pow_length (b := 10) (l := buf.take k) (by norm_num)
      fun d hd ↦ hbuf d (List.mem_of_mem_take hd)
    rwa [hlen] at hlt
  have hpow : 0 < 10 ^ k := by positivity
  have hzeros : ∀ ds : List ℕ,
      ofDigits 10 (List.replicate k 0 ++ ds) = 10 ^ k * ofDigits 10 ds := by
    intro ds
    rw [Nat.ofDigits_append, List.length_replicate, Nat.ofDigits_replicate_zero, zero_add]
  simp only [roundDigitsUp, if_pos hlong, ← hk, hlen, hzeros]
  congr 1
  split_ifs with hany
  · have hne : ofDigits 10 (buf.take k) ≠ 0 := by
      rw [Ne, ofDigits_eq_zero_iff, hany]
      decide
    have hshift : ofDigits 10 buf + 10 ^ k - 1 = ofDigits 10 (buf.take k) - 1 +
        10 ^ k * (ofDigits 10 (buf.drop k) + 1) := by
      rw [hsplit, Nat.mul_add]
      omega
    symm
    calc
      (ofDigits 10 buf + 10 ^ k - 1) / 10 ^ k =
          (ofDigits 10 (buf.take k) - 1) / 10 ^ k + (ofDigits 10 (buf.drop k) + 1) := by
        rw [hshift, Nat.add_mul_div_left _ _ hpow]
      _ = ofDigits 10 (buf.drop k) + 1 := by rw [Nat.div_eq_of_lt (by omega), zero_add]
      _ = ofDigits 10 (bumpDigits (buf.drop k)) := (ofDigits_bumpDigits _).symm
  · have hzero : ofDigits 10 (buf.take k) = 0 := by
      rw [ofDigits_eq_zero_iff]
      exact Bool.not_eq_true _ ▸ hany
    have hshift : ofDigits 10 buf + 10 ^ k - 1 =
        10 ^ k - 1 + 10 ^ k * ofDigits 10 (buf.drop k) := by omega
    symm
    calc
      (ofDigits 10 buf + 10 ^ k - 1) / 10 ^ k =
          (10 ^ k - 1) / 10 ^ k + ofDigits 10 (buf.drop k) := by
        rw [hshift, Nat.add_mul_div_left _ _ hpow]
      _ = ofDigits 10 (buf.drop k) := by rw [Nat.div_eq_of_lt (by omega), zero_add]

/-- What is rounded away, as a power of ten. -/
def roundingUnit (amount significantDigits : ℕ) : ℕ :=
  10 ^ ((digits 10 amount).length - significantDigits)

lemma roundingUnit_pos (amount n : ℕ) : 0 < roundingUnit amount n := by
  rw [roundingUnit]
  positivity

lemma le_nextMultiple (amount : ℕ) {unit : ℕ} (hunit : 0 < unit) :
    amount ≤ nextMultiple amount unit := by
  rw [nextMultiple]
  have hdiv := Nat.div_add_mod (amount + unit - 1) unit
  have hmod := Nat.mod_lt (amount + unit - 1) hunit
  omega

/-- An amount is rounded up to the next multiple of the unit, or there is an
exception as that does not fit. -/
theorem roundMoneyUp_eq (amount : ℕ) {n : ℕ} (hn : n ≠ 0) : roundMoneyUp amount n =
      if nextMultiple amount (roundingUnit amount n) < 2 ^ 64 then
        some (nextMultiple amount (roundingUnit amount n)) else none := by
  have hround := ofDigits_roundDigitsUp (digits 10 amount)
    (fun d hd ↦ Nat.digits_lt_base (by norm_num) hd) n
  rw [Nat.ofDigits_digits] at hround
  have hle := le_nextMultiple amount (roundingUnit_pos amount n)
  simp only [roundMoneyUp, if_neg hn, hround]
  rw [← roundingUnit]
  split_ifs with hbig hzero
  · omega
  · rfl
  · omega
  · omega
  · rfl
  · omega

lemma le_roundMoneyUp {amount n rounded : ℕ} (h : roundMoneyUp amount n = some rounded) :
    amount ≤ rounded := by
  have hn : n ≠ 0 := by
    rintro rfl
    cases h
  rw [roundMoneyUp_eq amount hn] at h
  split_ifs at h
  cases h
  exact le_nextMultiple amount (roundingUnit_pos amount n)

lemma roundMoneyUp_isSome {amount n : ℕ} (hn : n ≠ 0) (hsmall : amount < 2 ^ 63) :
    ∃ rounded, roundMoneyUp amount n = some rounded := by
  rw [roundMoneyUp_eq amount hn]
  refine ⟨_, if_pos ?_⟩
  rcases Nat.eq_zero_or_pos amount with rfl | hpos
  · simp [roundingUnit, nextMultiple]
  have hunit : roundingUnit amount n ≤ amount := by
    rw [roundingUnit, ← Nat.lt_digits_length_iff (by norm_num)]
    have hlen := Nat.digits_ne_nil_iff_ne_zero (b := 10).mpr hpos.ne'
    have := List.length_pos_iff.mpr hlen
    omega
  have hmul := Nat.mul_div_le (amount + roundingUnit amount n - 1) (roundingUnit amount n)
  rw [nextMultiple]
  omega

/-! ## The least amount with few digits -/

/-- The digits after the first `n` are all zeros. -/
def FewDigits (n amount : ℕ) : Prop :=
  ∀ d ∈ (digits 10 amount).take ((digits 10 amount).length - n), d = 0

lemma fewDigits_iff (n amount : ℕ) : FewDigits n amount ↔ roundingUnit amount n ∣ amount := by
  rw [Nat.dvd_iff_mod_eq_zero, roundingUnit, Nat.self_mod_pow_eq_ofDigits_take _ _ (by norm_num),
    ofDigits_eq_zero_iff]
  simp [FewDigits]

lemma roundingUnit_dvd {a b : ℕ} (h : (digits 10 a).length ≤ (digits 10 b).length)
    (n : ℕ) : roundingUnit a n ∣ roundingUnit b n :=
  pow_dvd_pow 10 (Nat.sub_le_sub_right h n)

lemma nextMultiple_le {amount unit s : ℕ} (hunit : 0 < unit) (hdvd : unit ∣ s)
    (hle : amount ≤ s) : nextMultiple amount unit ≤ s := by
  obtain ⟨q, rfl⟩ := hdvd
  apply Nat.mul_le_mul_left
  rw [← Nat.lt_succ_iff, Nat.div_lt_iff_lt_mul hunit, Nat.succ_mul, Nat.mul_comm]
  omega

lemma isLeast_fewDigits (amount : ℕ) {n : ℕ} (hn : n ≠ 0) :
    IsLeast {r | amount ≤ r ∧ FewDigits n r} (nextMultiple amount (roundingUnit amount n)) := by
  have hunit := roundingUnit_pos amount n
  refine ⟨⟨le_nextMultiple amount hunit, ?_⟩, fun s hs ↦ ?_⟩
  · rw [fewDigits_iff]
    have hdvd : roundingUnit amount n ∣ nextMultiple amount (roundingUnit amount n) :=
      Nat.dvd_mul_right _ _
    have hmax := nextMultiple_le hunit (pow_dvd_pow 10 (Nat.sub_le _ n))
      (Nat.lt_base_pow_length_digits (b := 10) (m := amount) (by norm_num)).le
    generalize nextMultiple amount (roundingUnit amount n) = r at hdvd hmax ⊢
    rcases hmax.eq_or_lt with rfl | hlt
    · -- the carry has lengthened the number to a power of ten
      have hlen := (Nat.digits_length_le_iff (b := 10) (k := (digits 10 amount).length + 1)
        (by norm_num) _).mpr (Nat.pow_lt_pow_right (by norm_num) (Nat.lt_succ_self _))
      exact pow_dvd_pow 10 (by omega)
    · exact (roundingUnit_dvd ((Nat.digits_length_le_iff (by norm_num) r).mpr hlt) n).trans hdvd
  · have hdvd := roundingUnit_dvd (Nat.le_length_digits_le 10 amount s hs.1) n
    exact nextMultiple_le hunit (hdvd.trans ((fewDigits_iff n s).mp hs.2)) hs.1

/-- The least amount that is not smaller and has only `n` significant digits, unless it
takes more than 64 bits; a monotone and idempotent function of the amount. -/
theorem roundMoneyUp_least (amount : ℕ) {n : ℕ} (hn : n ≠ 0) :
    (∃ r, IsLeast {r | amount ≤ r ∧ FewDigits n r} r ∧
      roundMoneyUp amount n = if r < 2 ^ 64 then some r else none) ∧
    (∀ larger rounded, amount ≤ larger → roundMoneyUp larger n = some rounded →
      ∃ r ≤ rounded, roundMoneyUp amount n = some r) ∧
    ∀ rounded, roundMoneyUp amount n = some rounded → roundMoneyUp rounded n = some rounded := by
  have hleast := isLeast_fewDigits amount hn
  refine ⟨⟨_, hleast, roundMoneyUp_eq amount hn⟩, fun larger rounded hle hlarger ↦ ?_,
    fun rounded hrounded ↦ ?_⟩
  · have hlarger' := isLeast_fewDigits larger hn
    rw [roundMoneyUp_eq larger hn] at hlarger
    split_ifs at hlarger with hfits
    cases hlarger
    have hmono := hleast.2 ⟨hle.trans hlarger'.1.1, hlarger'.1.2⟩
    exact ⟨_, hmono, by rw [roundMoneyUp_eq amount hn, if_pos (hmono.trans_lt hfits)]⟩
  · rw [roundMoneyUp_eq amount hn] at hrounded
    split_ifs at hrounded with hfits
    cases hrounded
    have hsame := (isLeast_fewDigits _ hn).unique ⟨⟨le_rfl, hleast.1.2⟩, fun s hs ↦ hs.1⟩
    rw [roundMoneyUp_eq _ hn, hsame, if_pos hfits]

theorem roundMoneyUp_least_sample :
    roundMoneyUp 99501 2 = some 100000 ∧ IsLeast {r | 99501 ≤ r ∧ FewDigits 2 r} 100000 := by
  have hrounded : roundMoneyUp 99501 2 = some 100000 := by decide +kernel
  obtain ⟨r, hr, heq⟩ := (roundMoneyUp_least 99501 two_ne_zero).1
  rw [hrounded] at heq
  split_ifs at heq
  cases heq
  exact ⟨hrounded, hr⟩

end Monero.Blockchain
