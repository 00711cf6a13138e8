import Monero.Epee.IntUtil

/-!
# Checking a hash against a difficulty

`check_hash` of `difficulty.cpp`, in its version for 64-bit difficulties, which
multiplies word by word with carries, and in its version with large integers.
-/

namespace Monero.Blockchain

open Monero.Epee
open Nat (mod_eq_of_lt shiftLeft_eq mod_lt)

/-- A hash is four words of 64 bits, the lowest first. -/
abbrev HashWords := Fin 4 → UInt64

variable (hash : HashWords) {low difficulty : ℕ}

def loadU64FromHash (index : Fin 4) : ℕ := (hash index).toNat

def HashWords.value : ℕ :=
  loadU64FromHash hash 0 + loadU64FromHash hash 1 * 2 ^ 64 + loadU64FromHash hash 2 * 2 ^ 128 +
    loadU64FromHash hash 3 * 2 ^ 192

/-- The portable `mul`, with the low word first; on x86-64 it is `mul128`. -/
def mul (a b : ℕ) : ℕ × ℕ :=
  let aLow := a &&& 0xFFFFFFFF
  let aHigh := a >>> 32
  let bLow := b &&& 0xFFFFFFFF
  let bHigh := b >>> 32
  let res := aLow * bLow % 2 ^ 64
  let lowRes1 := res &&& 0xFFFFFFFF
  let carry := res >>> 32
  let res := (aHigh * bLow + carry) % 2 ^ 64
  let highResHigh1 := res >>> 32
  let highResLow1 := res &&& 0xFFFFFFFF
  let res := aLow * bHigh % 2 ^ 64
  let lowRes2 := res &&& 0xFFFFFFFF
  let carry := res >>> 32
  let res := (aHigh * bHigh + carry) % 2 ^ 64
  let highResHigh2 := res >>> 32
  let highResLow2 := res &&& 0xFFFFFFFF
  let r := (highResLow1 + lowRes2) % 2 ^ 64
  let carry := r >>> 32
  let low := r <<< 32 % 2 ^ 64 ||| lowRes1
  let r := (highResHigh1 + highResLow2 + carry) % 2 ^ 64
  let d3 := r &&& 0xFFFFFFFF
  let carry := r >>> 32
  let r := (highResHigh2 + carry) % 2 ^ 64
  (low, d3 ||| r <<< 32 % 2 ^ 64)

def cadd (a b : ℕ) : Bool := (a + b) % 2 ^ 64 < a

def cadc (a b : ℕ) (c : Bool) : Bool :=
  (a + b) % 2 ^ 64 < a || (c && (a + b) % 2 ^ 64 = 2 ^ 64 - 1)

/-- With either multiplication of words. -/
def checkHash64 (mul : ℕ → ℕ → ℕ × ℕ) (hash : HashWords) (difficulty : ℕ) : Bool :=
  let (top, high) := mul (loadU64FromHash hash 3) difficulty
  if high ≠ 0 then false
  else
    let (_, cur) := mul (loadU64FromHash hash 0) difficulty
    let (low, high) := mul (loadU64FromHash hash 1) difficulty
    let carry := cadd cur low
    let cur := high
    let (low, high) := mul (loadU64FromHash hash 2) difficulty
    let carry := cadc cur low carry
    let carry := cadc high top carry
    !carry

def checkHash128 (difficulty : ℕ) : Bool :=
  let hashVal := (List.finRange 4).foldl
    (fun hashVal i ↦ hashVal <<< 64 % 2 ^ 512 ||| loadU64FromHash hash (3 - i)) 0
  hashVal * difficulty % 2 ^ 512 ≤ 2 ^ 256 - 1

def checkHash (mul : ℕ → ℕ → ℕ × ℕ) (hash : HashWords) (difficulty : ℕ) : Bool :=
  if difficulty ≤ 2 ^ 64 - 1 then checkHash64 mul hash difficulty else checkHash128 hash difficulty

/-! ## Words -/

lemma loadU64FromHash_lt (i : Fin 4) : loadU64FromHash hash i < 2 ^ 64 := (hash i).toNat_lt

lemma HashWords.value_lt : hash.value < 2 ^ 256 := by
  have h0 := loadU64FromHash_lt hash 0
  have h1 := loadU64FromHash_lt hash 1
  have h2 := loadU64FromHash_lt hash 2
  have h3 := loadU64FromHash_lt hash 3
  rw [HashWords.value]
  omega

lemma or_of_halves {high : ℕ} (hhigh : high < 2 ^ 32) (hlow : low < 2 ^ 32) :
    high <<< 32 % 2 ^ 64 ||| low = high * 2 ^ 32 + low := by
  rw [mod_eq_of_lt (by rw [shiftLeft_eq]; omega), ← Nat.shiftLeft_add_eq_or_of_lt hlow,
    shiftLeft_eq]

lemma or_of_mod {r : ℕ} (hlow : low < 2 ^ 32) :
    r <<< 32 % 2 ^ 64 ||| low = r % 2 ^ 32 * 2 ^ 32 + low := by
  have hwrap : r <<< 32 % 2 ^ 64 = (r % 2 ^ 32) <<< 32 % 2 ^ 64 := by
    rw [shiftLeft_eq, shiftLeft_eq]
    omega
  rw [hwrap, or_of_halves (mod_lt r (by decide)) hlow]

lemma exists_halves (n : ℕ) : ∃ high low, low < 2 ^ 32 ∧ n = high * 2 ^ 32 + low :=
  ⟨n / 2 ^ 32, n % 2 ^ 32, mod_lt n (by decide), (Nat.div_add_mod' n (2 ^ 32)).symm⟩

lemma div_halves (high : ℕ) (h : low < 2 ^ 32) : (high * 2 ^ 32 + low) / 2 ^ 32 = high := by
  omega

lemma mod_halves (high : ℕ) (h : low < 2 ^ 32) : (high * 2 ^ 32 + low) % 2 ^ 32 = low := by
  omega

lemma multipliesWords_mul : MultipliesWords mul := by
  intro a b ha hb
  have hmask : ∀ n, n &&& 0xFFFFFFFF = n % 2 ^ 32 := fun n ↦ Nat.and_two_pow_sub_one_eq_mod n 32
  have hproduct := mul_le_of_lt ha hb
  have heq := mul_eq_of_halves a b
  have hhh := mul_le_of_lt (by omega : a / 2 ^ 32 < 2 ^ 32) (by omega : b / 2 ^ 32 < 2 ^ 32)
  have hhl := mul_le_of_lt (by omega : a / 2 ^ 32 < 2 ^ 32) (by omega : b % 2 ^ 32 < 2 ^ 32)
  have hlh := mul_le_of_lt (by omega : a % 2 ^ 32 < 2 ^ 32) (by omega : b / 2 ^ 32 < 2 ^ 32)
  have hll := mul_le_of_lt (by omega : a % 2 ^ 32 < 2 ^ 32) (by omega : b % 2 ^ 32 < 2 ^ 32)
  simp only [mul, hmask, Nat.shiftRight_eq_div_pow]
  generalize a * b = p at *
  generalize a / 2 ^ 32 * (b / 2 ^ 32) = hh at *
  generalize a / 2 ^ 32 * (b % 2 ^ 32) = hl at *
  generalize a % 2 ^ 32 * (b / 2 ^ 32) = lh at *
  generalize a % 2 ^ 32 * (b % 2 ^ 32) = ll at *
  clear ha hb
  -- the halves of the partial products, each with the carry of the one before it
  rw [mod_eq_of_lt (by omega : ll < 2 ^ 64), mod_eq_of_lt (by omega : lh < 2 ^ 64),
    mod_eq_of_lt (by omega : hl + ll / 2 ^ 32 < 2 ^ 64),
    mod_eq_of_lt (by omega : hh + lh / 2 ^ 32 < 2 ^ 64)]
  obtain ⟨x1, x0, hx0, rfl⟩ := exists_halves ll
  obtain ⟨z1, z0, hz0, rfl⟩ := exists_halves lh
  rw [div_halves x1 hx0, mod_halves x1 hx0, div_halves z1 hz0, mod_halves z1 hz0]
  obtain ⟨y1, y0, hy0, hy⟩ := exists_halves (hl + x1)
  obtain ⟨u1, u0, hu0, hu⟩ := exists_halves (hh + z1)
  rw [hy, hu, div_halves y1 hy0, mod_halves y1 hy0, div_halves u1 hu0, mod_halves u1 hu0]
  rw [or_of_mod hx0, Nat.or_comm, or_of_mod (mod_lt _ (by decide)),
    mod_eq_of_lt (by omega : y0 + z0 < 2 ^ 64)]
  obtain ⟨r1, r0, hr0, hr⟩ := exists_halves (y0 + z0)
  rw [hr, div_halves r1 hr0, mod_halves r1 hr0, mod_eq_of_lt (by omega : y1 + u0 + r1 < 2 ^ 64)]
  obtain ⟨v1, v0, hv0, hv⟩ := exists_halves (y1 + u0 + r1)
  rw [hv, div_halves v1 hv0, mod_halves v1 hv0]
  refine Prod.ext ?_ ?_
  · dsimp only
    omega
  · dsimp only
    omega

/-! ## Carries -/

lemma cadd_eq {a b : ℕ} (ha : a < 2 ^ 64) (hb : b < 2 ^ 64) :
    cadd a b = decide (2 ^ 64 ≤ a + b) := by
  rw [cadd, decide_eq_decide]
  omega

lemma cadc_eq {a b : ℕ} (ha : a < 2 ^ 64) (hb : b < 2 ^ 64) (c : Bool) :
    cadc a b c = decide (2 ^ 64 ≤ a + b + c.toNat) := by
  cases c with
  | false =>
    simp only [cadc, Bool.false_and, Bool.or_false, Bool.toNat_false, Nat.add_zero,
      decide_eq_decide]
    omega
  | true =>
    simp only [cadc, Bool.true_and, Bool.toNat_true, ← Bool.decide_or, decide_eq_decide]
    omega

lemma toNat_decide_le (n m : ℕ) : (decide (n ≤ m)).toNat = if n ≤ m then 1 else 0 := by
  split_ifs with h <;> simp [h]

/-- The product of the hash with the difficulty has no fifth word exactly if the top product has
none and the carry of the fourth word is zero. -/
theorem checkHash64_iff {mul : ℕ → ℕ → ℕ × ℕ} (hmul : MultipliesWords mul) (hash : HashWords)
    (hd : difficulty < 2 ^ 64) :
    checkHash64 mul hash difficulty = true ↔ hash.value * difficulty < 2 ^ 256 := by
  have hproduct : ∀ i, mul (loadU64FromHash hash i) difficulty =
      (loadU64FromHash hash i * difficulty % 2 ^ 64,
        loadU64FromHash hash i * difficulty / 2 ^ 64) :=
    fun i ↦ hmul _ _ (loadU64FromHash_lt hash i) hd
  have hbound : ∀ i, loadU64FromHash hash i * difficulty ≤ (2 ^ 64 - 1) * (2 ^ 64 - 1) :=
    fun i ↦ mul_le_of_lt (loadU64FromHash_lt hash i) hd
  have hvalue : hash.value * difficulty = loadU64FromHash hash 0 * difficulty +
      loadU64FromHash hash 1 * difficulty * 2 ^ 64 +
        loadU64FromHash hash 2 * difficulty * 2 ^ 128 +
      loadU64FromHash hash 3 * difficulty * 2 ^ 192 := by
    rw [HashWords.value]
    ring
  have h0 := hbound 0
  have h1 := hbound 1
  have h2 := hbound 2
  have h3 := hbound 3
  simp only [checkHash64, hproduct]
  rw [hvalue]
  generalize loadU64FromHash hash 0 * difficulty = p0 at *
  generalize loadU64FromHash hash 1 * difficulty = p1 at *
  generalize loadU64FromHash hash 2 * difficulty = p2 at *
  generalize loadU64FromHash hash 3 * difficulty = p3 at *
  rw [cadd_eq (by omega) (by omega), cadc_eq (by omega) (by omega), cadc_eq (by omega) (by omega)]
  simp only [toNat_decide_le]
  by_cases htop : p3 / 2 ^ 64 = 0
  · rw [if_neg (not_not.mpr htop)]
    simp only [Bool.not_eq_true', decide_eq_false_iff_not]
    split_ifs <;> omega
  · rw [if_pos htop]
    simp only [Bool.false_eq_true, false_iff]
    omega

lemma checkHash128_iff (hd : difficulty < 2 ^ 128) :
    checkHash128 hash difficulty = true ↔ hash.value * difficulty < 2 ^ 256 := by
  have hshift : ∀ v w, v < 2 ^ 256 → w < 2 ^ 64 → v <<< 64 % 2 ^ 512 ||| w = v * 2 ^ 64 + w := by
    intro v w hv hw
    rw [mod_eq_of_lt (by rw [shiftLeft_eq]; omega), ← Nat.shiftLeft_add_eq_or_of_lt hw,
      shiftLeft_eq]
  have h0 := loadU64FromHash_lt hash 0
  have h1 := loadU64FromHash_lt hash 1
  have h2 := loadU64FromHash_lt hash 2
  have h3 := loadU64FromHash_lt hash 3
  have hval : (List.finRange 4).foldl
      (fun hashVal i ↦ hashVal <<< 64 % 2 ^ 512 ||| loadU64FromHash hash (3 - i)) 0 =
        hash.value := by
    change ((((0 <<< 64 % 2 ^ 512 ||| loadU64FromHash hash 3) <<< 64 % 2 ^ 512 |||
      loadU64FromHash hash 2) <<< 64 % 2 ^ 512 ||| loadU64FromHash hash 1) <<< 64 % 2 ^ 512 |||
      loadU64FromHash hash 0) = _
    rw [hshift 0 _ (by decide) h3, hshift _ _ (by omega) h2, hshift _ _ (by omega) h1,
      hshift _ _ (by omega) h0, HashWords.value]
    ring
  have hproduct : hash.value * difficulty < 2 ^ 512 := by
    calc
      hash.value * difficulty < 2 ^ 256 * 2 ^ 256 :=
        Nat.mul_lt_mul'' hash.value_lt (hd.trans (by decide))
      _ = 2 ^ 512 := by rw [← pow_add]
  simp only [checkHash128, hval, decide_eq_true_eq]
  rw [mod_eq_of_lt hproduct]
  omega

/-! ## The target -/

/-- A hash passes exactly if its product with the difficulty has 256 bits, whichever version and
whichever multiplication of words is used. -/
theorem checkHash_target (hash : HashWords) {difficulty : ℕ} (hd : difficulty < 2 ^ 128) :
    (checkHash mul hash difficulty = true ↔ hash.value * difficulty < 2 ^ 256) ∧
      (checkHash mul128 hash difficulty = true ↔ hash.value * difficulty < 2 ^ 256) ∧
      (difficulty < 2 ^ 64 → checkHash64 mul hash difficulty = checkHash128 hash difficulty ∧
        checkHash64 mul128 hash difficulty = checkHash128 hash difficulty) := by
  have hcheck : ∀ {m}, MultipliesWords m →
      (checkHash m hash difficulty = true ↔ hash.value * difficulty < 2 ^ 256) := by
    intro m hm
    rw [checkHash]
    split_ifs with hsmall
    · exact checkHash64_iff hm hash (by omega)
    · exact checkHash128_iff hash hd
  refine ⟨hcheck multipliesWords_mul, hcheck multipliesWords_mul128, fun hsmall ↦ ⟨?_, ?_⟩⟩
  · rw [Bool.eq_iff_iff, checkHash64_iff multipliesWords_mul hash hsmall, checkHash128_iff hash hd]
  · rw [Bool.eq_iff_iff, checkHash64_iff multipliesWords_mul128 hash hsmall,
      checkHash128_iff hash hd]

/-- The largest hash that passes with difficulty 3, which needs a carry in every word. -/
def thirdOfRange : HashWords := fun _ ↦ 0x5555555555555555

theorem checkHash_target_third :
    (checkHash mul thirdOfRange 3 = true ↔ thirdOfRange.value * 3 < 2 ^ 256) ∧
      (checkHash mul128 thirdOfRange 3 = true ↔ thirdOfRange.value * 3 < 2 ^ 256) ∧
      (3 < 2 ^ 64 → checkHash64 mul thirdOfRange 3 = checkHash128 thirdOfRange 3 ∧
        checkHash64 mul128 thirdOfRange 3 = checkHash128 thirdOfRange 3) :=
  checkHash_target thirdOfRange (by decide)

example : checkHash mul thirdOfRange 3 = true := by decide

end Monero.Blockchain
