import Mathlib

/-!
# Loops around a ring

A loop that starts behind a place of a ring and goes around, modulo the size,
until it is back at the place.  What it does is a fold over the places above and
then those below; and a walk that closes at the place also closes if it starts at 0.
-/

namespace Monero.Lib

section Loop

variable {S : Type*}

/-- `while (i != l) { body; i = (i + 1) % n; }`, with a bound on the number of turns; the place it
stopped at is part of the result. -/
def ringLoop (n l : ℕ) (body : ℕ → S → S) : ℕ → ℕ → S → ℕ × S
  | 0, i, s => (i, s)
  | fuel + 1, i, s => if i = l then (i, s) else ringLoop n l body fuel ((i + 1) % n) (body i s)

variable (body : ℕ → S → S)

def foldFrom (i k : ℕ) (s : S) : S := (List.range' i k).foldl (fun s i ↦ body i s) s

@[simp] lemma foldFrom_zero (i : ℕ) (s : S) : foldFrom body i 0 s = s := rfl

lemma foldFrom_succ (i k : ℕ) (s : S) :
    foldFrom body i (k + 1) s = foldFrom body (i + 1) k (body i s) := rfl

lemma foldFrom_add (i j k : ℕ) (s : S) :
    foldFrom body i (j + k) s = foldFrom body (i + j) k (foldFrom body i j s) := by
  induction j generalizing i s with
  | zero => rw [Nat.zero_add, Nat.add_zero, foldFrom_zero]
  | succ j ih =>
    rw [Nat.add_right_comm, foldFrom_succ, ih, foldFrom_succ, Nat.add_right_comm i 1 j]
    rfl

lemma foldFrom_congr {body body' : ℕ → S → S} {i k : ℕ}
    (h : ∀ j, i ≤ j → j < i + k → body j = body' j) (s : S) :
    foldFrom body i k s = foldFrom body' i k s := by
  induction k generalizing i s with
  | zero => rfl
  | succ k ih =>
    rw [foldFrom_succ, foldFrom_succ, h i le_rfl (by omega)]
    exact ih (fun j hj hjk ↦ h j (by omega) (by omega)) _

lemma foldFrom_shift (i k : ℕ) (s : S) :
    foldFrom body (i + 1) k s = foldFrom (fun j ↦ body (j + 1)) i k s := by
  induction k generalizing i s with
  | zero => rfl
  | succ k ih => rw [foldFrom_succ, foldFrom_succ, ih]

lemma foldl_eq_foldFrom {α : Type*} (f : α → S → S) (default : α) (xs : List α) (s : S) :
    xs.foldl (fun s x ↦ f x s) s = foldFrom (fun i ↦ f (xs.getD i default)) 0 xs.length s := by
  induction xs generalizing s with
  | nil => rfl
  | cons x xs ih =>
    rw [List.foldl_cons, ih, List.length_cons, foldFrom_succ, foldFrom_shift]
    rfl

lemma ringLoop_of_le {n l : ℕ} (hl : l < n) (body : ℕ → S → S) {fuel i : ℕ} (hi : i ≤ l)
    (hfuel : l ≤ i + fuel) (s : S) :
    ringLoop n l body fuel i s = (l, foldFrom body i (l - i) s) := by
  induction fuel generalizing i s with
  | zero =>
    obtain rfl : i = l := by omega
    rw [ringLoop, Nat.sub_self, foldFrom_zero]
  | succ fuel ih =>
    rw [ringLoop]
    split
    next h =>
      subst h
      rw [Nat.sub_self, foldFrom_zero]
    next h =>
      have hnext : (i + 1) % n = i + 1 := Nat.mod_eq_of_lt (by omega)
      have hsub : l - i = l - (i + 1) + 1 := by omega
      rw [hnext, ih (by omega) (by omega), hsub, foldFrom_succ]

lemma ringLoop_of_gt {n l : ℕ} (hl : l < n) (body : ℕ → S → S) {fuel i : ℕ} (hi : l < i)
    (hin : i < n) (hfuel : n + l ≤ i + fuel) (s : S) :
    ringLoop n l body fuel i s = (l, foldFrom body 0 l (foldFrom body i (n - i) s)) := by
  induction fuel generalizing i s with
  | zero => omega
  | succ fuel ih =>
    rw [ringLoop, if_neg hi.ne']
    have hsub : n - i = n - (i + 1) + 1 := by omega
    rcases eq_or_lt_of_le (Nat.succ_le_of_lt hin) with hlast | hlt
    · have hnext : (i + 1) % n = 0 := by
        rw [show i + 1 = n from hlast, Nat.mod_self]
      rw [hnext, ringLoop_of_le hl body (Nat.zero_le l) (by omega), hsub, foldFrom_succ,
        show n - (i + 1) = 0 by omega, foldFrom_zero, Nat.sub_zero]
    · rw [Nat.mod_eq_of_lt (show i + 1 < n from hlt), ih (by omega) hlt (by omega), hsub,
        foldFrom_succ]

lemma ringLoop_around {n l : ℕ} (hl : l < n) (body : ℕ → S → S) (s : S) :
    ringLoop n l body n ((l + 1) % n) s =
      (l, foldFrom body 0 l (foldFrom body (l + 1) (n - 1 - l) s)) := by
  rcases eq_or_lt_of_le (Nat.succ_le_of_lt hl) with hlast | hlt
  · have hstart : (l + 1) % n = 0 := by
      rw [show l + 1 = n from hlast, Nat.mod_self]
    rw [hstart, ringLoop_of_le hl body (Nat.zero_le l) (by omega), show n - 1 - l = 0 by omega,
      foldFrom_zero, Nat.sub_zero]
  · rw [Nat.mod_eq_of_lt (show l + 1 < n from hlt), ringLoop_of_gt hl body (Nat.lt_succ_self l) hlt
      (by omega), show n - 1 - l = n - (l + 1) by omega]

lemma foldFrom_closes {step : ℕ → S → S} {n l : ℕ} (hl : l < n) {v c₀ : S}
    (habove : foldFrom step (l + 1) (n - 1 - l) v = c₀)
    (hclose : step l (foldFrom step 0 l c₀) = v) : foldFrom step 0 n c₀ = c₀ := by
  have hsplit : n = l + (n - 1 - l + 1) := by omega
  calc foldFrom step 0 n c₀ = foldFrom step 0 (l + (n - 1 - l + 1)) c₀ := by rw [← hsplit]
    _ = foldFrom step (0 + l) (n - 1 - l + 1) (foldFrom step 0 l c₀) := foldFrom_add _ _ _ _ _
    _ = foldFrom step (l + 1) (n - 1 - l) (step l (foldFrom step 0 l c₀)) := by
        rw [Nat.zero_add, foldFrom_succ]
    _ = c₀ := by rw [hclose, habove]

end Loop

/-! ## Writing the places of a list -/

@[simp] lemma length_foldFrom_set {α : Type*} (f : ℕ → α) (i k : ℕ) (l : List α) :
    (foldFrom (fun i l ↦ l.set i (f i)) i k l).length = l.length := by
  induction k generalizing i l with
  | zero => rfl
  | succ k ih => rw [foldFrom_succ, ih, List.length_set]

lemma getElem?_foldFrom_set {α : Type*} (f : ℕ → α) (i k : ℕ) (l : List α) (j : ℕ) :
    (foldFrom (fun i l ↦ l.set i (f i)) i k l)[j]? =
      if i ≤ j ∧ j < i + k ∧ j < l.length then some (f j) else l[j]? := by
  induction k generalizing i l with
  | zero =>
    rw [foldFrom_zero, if_neg (by omega)]
  | succ k ih =>
    rw [foldFrom_succ, ih, List.length_set]
    by_cases hij : i = j
    · subst hij
      rw [if_neg (by omega), List.getElem?_set_self']
      by_cases hlen : i < l.length
      · rw [if_pos (by omega), List.getElem?_eq_getElem hlen]
        rfl
      · rw [if_neg (by omega), List.getElem?_eq_none (by omega)]
        rfl
    · rw [List.getElem?_set_ne hij]
      by_cases hrange : i + 1 ≤ j ∧ j < i + 1 + k ∧ j < l.length
      · rw [if_pos hrange, if_pos (by omega)]
      · rw [if_neg hrange, if_neg (by omega)]

end Monero.Lib
