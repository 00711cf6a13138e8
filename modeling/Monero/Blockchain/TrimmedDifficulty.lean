import Monero.Blockchain.Difficulty
import Monero.Blockchain.ProofOfWork
import Monero.Lib.Sorted

/-!
# The difficulty as a trimmed average

`next_difficulty` and the older `next_difficulty_64` divide the work of a window of
blocks by the time it took, without the outliers at both ends.
-/

namespace Monero.Blockchain

open Monero.Epee List

def nextDifficulty64 (mul : ℕ → ℕ → ℕ × ℕ) (timestamps cumulativeDifficulties : List ℕ)
    (targetSeconds : ℕ) : ℕ :=
  let long := difficultyWindow < timestamps.length
  let timestamps := if long then timestamps.take difficultyWindow else timestamps
  let cumulativeDifficulties :=
    if long then cumulativeDifficulties.take difficultyWindow else cumulativeDifficulties
  let length := timestamps.length
  if length ≤ 1 then 1
  else
    let timestamps := timestamps.insertionSort (· ≤ ·)
    let kept := difficultyWindow - 2 * difficultyCut
    let cutBegin := if length ≤ kept then 0 else (length - kept + 1) / 2
    let cutEnd := if length ≤ kept then length else cutBegin + kept
    let span := timestamps.getD (cutEnd - 1) 0 - timestamps.getD cutBegin 0
    let timeSpan := if span = 0 then 1 else span
    let totalWork := (cumulativeDifficulties.getD (cutEnd - 1) 0 + 2 ^ 64 -
      cumulativeDifficulties.getD cutBegin 0) % 2 ^ 64
    let (low, high) := mul totalWork targetSeconds
    if high ≠ 0 ∨ (low + timeSpan - 1) % 2 ^ 64 < low then 0
    else (low + timeSpan - 1) % 2 ^ 64 / timeSpan

/-! ## The window -/

/-- How many of `n` values are kept. -/
def cutSize (n : ℕ) : ℕ := min n (difficultyWindow - 2 * difficultyCut)

/-- How many values are cut off at the beginning: half of the others, rounded up. -/
def cutStart (n : ℕ) : ℕ := (n - cutSize n + 1) / 2

def cut (l : List ℕ) : List ℕ := (l.drop (cutStart l.length)).take (cutSize l.length)

def windowSpan (timestamps : List ℕ) : ℕ :=
  max 1 ((cut (timestamps.insertionSort (· ≤ ·))).getLastD 0 -
    (cut (timestamps.insertionSort (· ≤ ·))).headD 0)

def windowWork (cumulativeDifficulties : List ℕ) : ℕ :=
  (cut cumulativeDifficulties).getLastD 0 - (cut cumulativeDifficulties).headD 0

lemma cut_bounds {n : ℕ} (hn : 2 ≤ n) : 2 ≤ cutSize n ∧ cutStart n + cutSize n ≤ n := by
  have hkept : difficultyWindow - 2 * difficultyCut = 600 := rfl
  simp only [cutStart, cutSize, hkept]
  omega

lemma headD_cut {l : List ℕ} (hl : 2 ≤ l.length) :
    (cut l).headD 0 = l.getD (cutStart l.length) 0 := by
  obtain ⟨htwo, -⟩ := cut_bounds hl
  rw [headD_eq_head?_getD, getD_eq_getElem?_getD, head?_eq_getElem?, cut,
    getElem?_take_of_lt (by omega), getElem?_drop, Nat.add_zero]

lemma getLastD_cut {l : List ℕ} (hl : 2 ≤ l.length) :
    (cut l).getLastD 0 = l.getD (cutStart l.length + cutSize l.length - 1) 0 := by
  obtain ⟨htwo, hle⟩ := cut_bounds hl
  have hlength : (cut l).length = cutSize l.length := by
    rw [cut, length_take, length_drop]
    omega
  rw [getLastD_eq_getLast?, getD_eq_getElem?_getD, getLast?_eq_getElem?, hlength, cut,
    getElem?_take_of_lt (by omega), getElem?_drop, ← Nat.add_sub_assoc (by omega)]

lemma cutBegin_eq (n : ℕ) : (if n ≤ difficultyWindow - 2 * difficultyCut then 0
      else (n - (difficultyWindow - 2 * difficultyCut) + 1) / 2) = cutStart n := by
  have hkept : difficultyWindow - 2 * difficultyCut = 600 := rfl
  simp only [cutStart, cutSize, hkept]
  split_ifs <;> omega

lemma cutEnd_eq (n : ℕ) : (if n ≤ difficultyWindow - 2 * difficultyCut then n
      else cutStart n + (difficultyWindow - 2 * difficultyCut)) = cutStart n + cutSize n := by
  have hkept : difficultyWindow - 2 * difficultyCut = 600 := rfl
  simp only [cutStart, cutSize, hkept]
  split_ifs <;> omega

section

variable {l timestamps cumulativeDifficulties : List ℕ} {target : ℕ}

lemma span_eq (htwo : 2 ≤ l.length) :
    (if (l.insertionSort (· ≤ ·)).getD (cutStart l.length + cutSize l.length - 1) 0 -
        (l.insertionSort (· ≤ ·)).getD (cutStart l.length) 0 = 0 then 1
      else (l.insertionSort (· ≤ ·)).getD (cutStart l.length + cutSize l.length - 1) 0 -
        (l.insertionSort (· ≤ ·)).getD (cutStart l.length) 0) = windowSpan l := by
  have hsorted : (l.insertionSort (· ≤ ·)).length = l.length := length_insertionSort _ _
  rw [windowSpan, headD_cut (by omega), getLastD_cut (by omega), hsorted]
  split_ifs <;> omega

lemma windowSpan_lt {bound : ℕ} (hone : 1 < bound) (hbound : ∀ t ∈ l, t < bound) :
    windowSpan l < bound := by
  refine max_lt hone (lt_of_le_of_lt (Nat.sub_le _ _) ?_)
  have hmem : ∀ t ∈ cut (l.insertionSort (· ≤ ·)), t < bound := fun t ht ↦
    hbound t ((mem_insertionSort _).mp (mem_of_mem_drop (mem_of_mem_take ht)))
  cases hlast : (cut (l.insertionSort (· ≤ ·))).getLast? with
  | none =>
    rw [getLastD_eq_getLast?, hlast]
    exact Nat.zero_lt_of_lt hone
  | some t =>
    rw [getLastD_eq_getLast?, hlast]
    exact hmem t (mem_of_getLast? hlast)

lemma windowSpan_perm {l' : List ℕ} (h : l.Perm l') : windowSpan l' = windowSpan l := by
  rw [windowSpan, windowSpan, Lib.insertionSort_eq_of_perm h]

lemma windowWork_spec (htwo : 2 ≤ l.length) (hinc : l.Pairwise (· < ·)) {bound : ℕ}
    (hbound : ∀ d ∈ l, d < bound) :
    0 < windowWork l ∧ windowWork l < bound ∧
      ∀ m, bound ≤ m → (l.getD (cutStart l.length + cutSize l.length - 1) 0 + m -
        l.getD (cutStart l.length) 0) % m = windowWork l := by
  obtain ⟨hsize, hle⟩ := cut_bounds htwo
  have hfirst : cutStart l.length < l.length := by omega
  have hlast : cutStart l.length + cutSize l.length - 1 < l.length := by omega
  have hlt := pairwise_iff_getElem.mp hinc _ _ hfirst hlast (by omega)
  have hb := hbound _ (getElem_mem hlast)
  rw [windowWork, headD_cut htwo, getLastD_cut htwo, getD_eq_getElem _ _ hfirst,
    getD_eq_getElem _ _ hlast]
  refine ⟨by omega, by omega, fun m hm ↦ ?_⟩
  rw [Nat.add_comm, Nat.add_sub_assoc hlt.le, Nat.add_mod_left, Nat.mod_eq_of_lt (by omega)]

lemma one_le_ceilDiv {a b : ℕ} (ha : 1 ≤ a) (hb : 1 ≤ b) : 1 ≤ a ⌈/⌉ b := by
  rw [Nat.ceilDiv_eq_add_pred_div, Nat.le_div_iff_mul_le hb]
  omega

section

variable {ts ds : List ℕ} (hlen : ts.length = ds.length) (htwo : 2 ≤ ds.length)
  (hwindow : ds.length ≤ difficultyWindow) (hinc : ds.Pairwise (· < ·)) {mul : ℕ → ℕ → ℕ × ℕ}

include hlen htwo hwindow hinc

lemma nextDifficulty_eq (hbound : ∀ d ∈ ds, d < 2 ^ 128) :
    nextDifficulty ts ds target =
      if 2 ^ 128 ≤ windowWork ds * target ⌈/⌉ windowSpan ts then 0
      else windowWork ds * target ⌈/⌉ windowSpan ts := by
  obtain ⟨-, -, hwork⟩ := windowWork_spec htwo hinc hbound
  simp only [nextDifficulty, if_neg (by omega : ¬difficultyWindow < ts.length),
    if_neg (by omega : ¬ts.length ≤ 1), cutBegin_eq, cutEnd_eq, span_eq (hlen ▸ htwo)]
  rw [hlen, hwork _ le_rfl, Nat.ceilDiv_eq_add_pred_div]

lemma nextDifficulty64_eq (hmul : MultipliesWords mul) (hbound : ∀ d ∈ ds, d < 2 ^ 64)
    (htarget : target < 2 ^ 64) (hspan : windowSpan ts < 2 ^ 64) :
    nextDifficulty64 mul ts ds target =
      if 2 ^ 64 ≤ windowWork ds * target + windowSpan ts - 1 then 0
      else windowWork ds * target ⌈/⌉ windowSpan ts := by
  obtain ⟨-, hword, hwork⟩ := windowWork_spec htwo hinc hbound
  have hpos : 1 ≤ windowSpan ts := le_max_left _ _
  simp only [nextDifficulty64, if_neg (by omega : ¬difficultyWindow < ts.length),
    if_neg (by omega : ¬ts.length ≤ 1), cutBegin_eq, cutEnd_eq, span_eq (hlen ▸ htwo)]
  rw [hlen, hwork _ le_rfl, hmul _ _ hword htarget, Nat.ceilDiv_eq_add_pred_div]
  dsimp only
  generalize windowWork ds * target = work at *
  generalize windowSpan ts = span at *
  by_cases hbig : 2 ^ 64 ≤ work + span - 1
  · -- either the product has a high word, or the sum wraps
    rw [if_pos hbig, if_pos]
    omega
  · rw [if_neg hbig, if_neg (by omega)]
    congr 1
    omega

lemma nextDifficulty64_spec (hmul : MultipliesWords mul) (hts : ∀ t ∈ ts, t < 2 ^ 64)
    (hbound : ∀ d ∈ ds, d < 2 ^ 64) (hpos : 1 ≤ target) (htarget : target < 2 ^ 64) :
    (nextDifficulty64 mul ts ds target = 0 ↔
        2 ^ 64 ≤ windowWork ds * target + windowSpan ts - 1) ∧
      (nextDifficulty64 mul ts ds target = 0 ∨
        nextDifficulty64 mul ts ds target = nextDifficulty ts ds target) := by
  have hspan : 1 ≤ windowSpan ts := le_max_left _ _
  have hwork := (windowWork_spec htwo hinc hbound).1
  have hquotient : 1 ≤ windowWork ds * target ⌈/⌉ windowSpan ts :=
    one_le_ceilDiv (Nat.mul_pos hwork hpos) hspan
  rw [nextDifficulty64_eq hlen htwo hwindow hinc hmul hbound htarget
    (windowSpan_lt (by norm_num) hts)]
  split_ifs with hbig
  · exact ⟨iff_of_true rfl hbig, .inl rfl⟩
  · refine ⟨iff_of_false (by omega) hbig, .inr ?_⟩
    have hfits : windowWork ds * target ⌈/⌉ windowSpan ts < 2 ^ 128 := by
      rw [Nat.ceilDiv_eq_add_pred_div]
      exact lt_of_le_of_lt (Nat.div_le_self _ _) (by omega)
    rw [nextDifficulty_eq hlen htwo hwindow hinc (fun d hd ↦ (hbound d hd).trans (by norm_num)),
      if_neg (by omega)]

end

/-- The difficulty is the work of the window without its outliers times the target, over
the time it took, rounded up; the order of the timestamps does not matter.  The 64-bit
version agrees or is zero, and it is zero when its product does not fit. -/
theorem nextDifficulty_trimmed (hlen : timestamps.length = cumulativeDifficulties.length)
    (htwo : 2 ≤ cumulativeDifficulties.length)
    (hwindow : cumulativeDifficulties.length ≤ difficultyWindow)
    (hinc : cumulativeDifficulties.Pairwise (· < ·)) (hts : ∀ t ∈ timestamps, t < 2 ^ 64)
    (hbound : ∀ d ∈ cumulativeDifficulties, d < 2 ^ 128) (hpos : 1 ≤ target)
    (htarget : target < 2 ^ 64) :
    nextDifficulty timestamps cumulativeDifficulties target =
        (if windowWork cumulativeDifficulties * target ⌈/⌉ windowSpan timestamps < 2 ^ 128 then
          windowWork cumulativeDifficulties * target ⌈/⌉ windowSpan timestamps else 0) ∧
      (∀ timestamps', timestamps.Perm timestamps' →
        nextDifficulty timestamps' cumulativeDifficulties target =
          nextDifficulty timestamps cumulativeDifficulties target) ∧
      ((∀ d ∈ cumulativeDifficulties, d < 2 ^ 64) → ∀ multiply ∈ [mul, mul128],
        (nextDifficulty64 multiply timestamps cumulativeDifficulties target = 0 ↔
          2 ^ 64 ≤ windowWork cumulativeDifficulties * target + windowSpan timestamps - 1) ∧
        (nextDifficulty64 multiply timestamps cumulativeDifficulties target = 0 ∨
          nextDifficulty64 multiply timestamps cumulativeDifficulties target =
            nextDifficulty timestamps cumulativeDifficulties target)) := by
  refine ⟨?_, fun timestamps' hperm ↦ ?_, fun hwords multiply hmem ↦ ?_⟩
  · rw [nextDifficulty_eq hlen htwo hwindow hinc hbound]
    split_ifs <;> omega
  · rw [nextDifficulty_eq hlen htwo hwindow hinc hbound,
      nextDifficulty_eq (hperm.length_eq.symm.trans hlen) htwo hwindow hinc hbound,
      windowSpan_perm hperm]
  · have hmul : MultipliesWords multiply := by
      rcases mem_pair.mp hmem with rfl | rfl
      · exact multipliesWords_mul
      · exact multipliesWords_mul128
    exact nextDifficulty64_spec hlen htwo hwindow hinc hmul hts hwords hpos htarget

/-- A block every two minutes but for an early and a late one, so that both ends are cut. -/
def unevenTimestamps : List ℕ := 7 :: 1000000 :: (range 601).map fun i ↦ 1000 + 120 * i

def evenDifficulties : List ℕ := (range 603).map fun i ↦ 10 + 10 * i

theorem nextDifficulty_trimmed_sample :
    difficultyWindow - 2 * difficultyCut < unevenTimestamps.length ∧
      nextDifficulty unevenTimestamps evenDifficulties 120 = 10 ∧
      (∀ timestamps', unevenTimestamps.Perm timestamps' →
        nextDifficulty timestamps' evenDifficulties 120 = 10) ∧
      nextDifficulty64 mul unevenTimestamps evenDifficulties 120 = 10 := by
  have hinc : evenDifficulties.Pairwise (· < ·) :=
    pairwise_lt_range.map _ fun _ _ h ↦ Nat.add_lt_add_left (Nat.mul_lt_mul_of_pos_left h
      (by decide)) 10
  obtain ⟨hvalue, hperm, hwords⟩ := @nextDifficulty_trimmed unevenTimestamps evenDifficulties 120
    (by decide +kernel) (by decide +kernel) (by decide +kernel) hinc (by decide +kernel)
    (by decide +kernel) (by decide) (by decide)
  have hspan : windowSpan unevenTimestamps = 71880 := by decide +kernel
  have hwork : windowWork evenDifficulties = 5990 := by decide +kernel
  have hnext : nextDifficulty unevenTimestamps evenDifficulties 120 = 10 := by
    rw [hvalue, hspan, hwork]
    decide
  obtain ⟨hzero, hsame⟩ := hwords (by decide +kernel) mul (by simp)
  refine ⟨by decide +kernel, hnext, fun timestamps' h ↦ (hperm timestamps' h).trans hnext, ?_⟩
  rcases hsame with h | h
  · rw [hspan, hwork] at hzero
    exact absurd (hzero.mp h) (by decide)
  · exact h.trans hnext

end

end Monero.Blockchain
