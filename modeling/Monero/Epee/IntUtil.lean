import Mathlib

/-!
# Products and quotients of two words

`mul128` and `div128_64` of `int-util.h`.  A number of 128 bits is a pair of words,
the low one first.
-/

namespace Monero.Epee

def MultipliesWords (mul : ℕ → ℕ → ℕ × ℕ) : Prop :=
  ∀ a b, a < 2 ^ 64 → b < 2 ^ 64 → mul a b = (a * b % 2 ^ 64, a * b / 2 ^ 64)

def hiDword (val : ℕ) : ℕ := val >>> 32

def loDword (val : ℕ) : ℕ := val &&& 0xFFFFFFFF

/-- By halves of words. -/
def mul128 (multiplier multiplicand : ℕ) : ℕ × ℕ :=
  let a := hiDword multiplier
  let b := loDword multiplier
  let c := hiDword multiplicand
  let d := loDword multiplicand
  let ac := a * c % 2 ^ 64
  let ad := a * d % 2 ^ 64
  let bc := b * c % 2 ^ 64
  let bd := b * d % 2 ^ 64
  let adbc := (ad + bc) % 2 ^ 64
  let adbcCarry := if adbc < ad then 1 else 0
  let productLo := (bd + (adbc <<< 32) % 2 ^ 64) % 2 ^ 64
  let productLoCarry := if productLo < bd then 1 else 0
  (productLo, (ac + adbc >>> 32 + adbcCarry <<< 32 + productLoCarry) % 2 ^ 64)

/-- The quotient; the remainder is not asked for. -/
def div12864 (dividendHi dividendLo divisor : ℕ) : ℕ × ℕ :=
  let dividend := (dividendHi <<< 64) % 2 ^ 128 ||| dividendLo
  let q := dividend / divisor
  (q &&& 0xffffffffffffffff, q >>> 64 &&& 0xffffffffffffffff)

lemma hiDword_eq (val : ℕ) : hiDword val = val / 2 ^ 32 := Nat.shiftRight_eq_div_pow val 32

lemma loDword_eq (val : ℕ) : loDword val = val % 2 ^ 32 := Nat.and_two_pow_sub_one_eq_mod val 32

lemma mul_le_of_lt {a b n : ℕ} (ha : a < n) (hb : b < n) : a * b ≤ (n - 1) * (n - 1) :=
  Nat.mul_le_mul (Nat.le_sub_one_of_lt ha) (Nat.le_sub_one_of_lt hb)

lemma mul_eq_of_halves (m n : ℕ) : m * n = m / 2 ^ 32 * (n / 2 ^ 32) * 2 ^ 64 +
      (m / 2 ^ 32 * (n % 2 ^ 32) + m % 2 ^ 32 * (n / 2 ^ 32)) * 2 ^ 32 +
        m % 2 ^ 32 * (n % 2 ^ 32) := by
  calc
    m * n = (2 ^ 32 * (m / 2 ^ 32) + m % 2 ^ 32) * (2 ^ 32 * (n / 2 ^ 32) + n % 2 ^ 32) := by
      rw [Nat.div_add_mod, Nat.div_add_mod]
    _ = _ := by ring

lemma multipliesWords_mul128 : MultipliesWords mul128 := by
  intro m n hm hn
  have hproduct := mul_le_of_lt hm hn
  have heq := mul_eq_of_halves m n
  have hac := mul_le_of_lt (by omega : m / 2 ^ 32 < 2 ^ 32) (by omega : n / 2 ^ 32 < 2 ^ 32)
  have had := mul_le_of_lt (by omega : m / 2 ^ 32 < 2 ^ 32) (by omega : n % 2 ^ 32 < 2 ^ 32)
  have hbc := mul_le_of_lt (by omega : m % 2 ^ 32 < 2 ^ 32) (by omega : n / 2 ^ 32 < 2 ^ 32)
  have hbd := mul_le_of_lt (by omega : m % 2 ^ 32 < 2 ^ 32) (by omega : n % 2 ^ 32 < 2 ^ 32)
  simp only [mul128, hiDword_eq, loDword_eq, Nat.shiftLeft_eq, Nat.shiftRight_eq_div_pow]
  -- the rest is linear in the four partial products
  generalize m * n = p at *
  generalize m / 2 ^ 32 * (n / 2 ^ 32) = ac at *
  generalize m / 2 ^ 32 * (n % 2 ^ 32) = ad at *
  generalize m % 2 ^ 32 * (n / 2 ^ 32) = bc at *
  generalize m % 2 ^ 32 * (n % 2 ^ 32) = bd at *
  clear hm hn
  rw [Nat.mod_eq_of_lt (by omega : ac < 2 ^ 64), Nat.mod_eq_of_lt (by omega : ad < 2 ^ 64),
    Nat.mod_eq_of_lt (by omega : bc < 2 ^ 64), Nat.mod_eq_of_lt (by omega : bd < 2 ^ 64)]
  refine Prod.ext ?_ ?_
  · dsimp only
    omega
  · dsimp only
    split_ifs <;> omega

lemma div12864_eq {hi lo : ℕ} (hhi : hi < 2 ^ 64) (hlo : lo < 2 ^ 64) (divisor : ℕ) :
    div12864 hi lo divisor =
      ((hi * 2 ^ 64 + lo) / divisor % 2 ^ 64, (hi * 2 ^ 64 + lo) / divisor / 2 ^ 64) := by
  have hdividend : (hi <<< 64) % 2 ^ 128 ||| lo = hi * 2 ^ 64 + lo := by
    rw [Nat.mod_eq_of_lt (by rw [Nat.shiftLeft_eq]; omega), ← Nat.shiftLeft_add_eq_or_of_lt hlo,
      Nat.shiftLeft_eq]
  have hmask : ∀ n, n &&& 0xffffffffffffffff = n % 2 ^ 64 :=
    fun n ↦ Nat.and_two_pow_sub_one_eq_mod n 64
  have hquotient : (hi * 2 ^ 64 + lo) / divisor < 2 ^ 128 :=
    (Nat.div_le_self _ _).trans_lt (by omega)
  simp only [div12864, hdividend, hmask, Nat.shiftRight_eq_div_pow]
  rw [Nat.mod_eq_of_lt (by omega : (hi * 2 ^ 64 + lo) / divisor / 2 ^ 64 < 2 ^ 64)]

end Monero.Epee
