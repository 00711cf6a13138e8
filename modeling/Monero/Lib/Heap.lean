import Mathlib

/-!
# Sifting in a binary heap above a fixed slot

A heap of size `n` lives in the slots `1`, ..., `n` of a function on the
natural numbers.  The parent of slot `j` is slot `j / 2`, so slot `0` is the
parent of the root and bounds the whole heap.  The order is an arbitrary total
relation `r`; a heap for `≤` and one for `≥` over the same slot `0` make a
two-sided heap.
-/

namespace Monero.Lib.Heap

variable {α : Type*}

def swapAt (f : ℕ → α) (i j : ℕ) : ℕ → α :=
  fun k ↦ if k = i then f j else if k = j then f i else f k

lemma swapAt_left (f : ℕ → α) (i j : ℕ) : swapAt f i j i = f j := by
  simp [swapAt]

lemma swapAt_right (f : ℕ → α) (i j : ℕ) : swapAt f i j j = f i := by
  by_cases h : j = i <;> simp [swapAt, h]

variable {i j n : ℕ} {f g : ℕ → α}

lemma swapAt_of_ne (f : ℕ → α) {k : ℕ} (hi : k ≠ i) (hj : k ≠ j) : swapAt f i j k = f k := by
  simp [swapAt, hi, hj]

variable (r : α → α → Prop)

def Ordered (f : ℕ → α) (n : ℕ) : Prop := ∀ j, 1 ≤ j → j ≤ n → r (f (j / 2)) (f j)

/-- Only the edges that leave slot `i` may be out of order. -/
structure DownReady (f : ℕ → α) (n i : ℕ) : Prop where
  edge : ∀ j, 1 ≤ j → j ≤ n → j / 2 ≠ i → r (f (j / 2)) (f j)
  grand : ∀ j, j ≤ n → j / 2 = i → r (f (i / 2)) (f j)

/-- Only the edge that enters slot `i` may be out of order. -/
structure UpReady (f : ℕ → α) (n i : ℕ) : Prop where
  edge : ∀ j, 1 ≤ j → j ≤ n → j ≠ i → r (f (j / 2)) (f j)
  grand : ∀ j, j ≤ n → j / 2 = i → r (f (i / 2)) (f j)

variable {r}

lemma UpReady.ordered (h : UpReady r f n i) (hi : 1 ≤ i → r (f (i / 2)) (f i)) :
    Ordered r f n := by
  intro j hj hjn
  by_cases hji : j = i
  · subst hji
    exact hi hj
  · exact h.edge j hj hjn hji

lemma DownReady.ordered (h : DownReady r f n i)
    (hi : ∀ j, 1 ≤ j → j ≤ n → j / 2 = i → r (f i) (f j)) : Ordered r f n := by
  intro j hj hjn
  by_cases hji : j / 2 = i
  · rw [hji]
    exact hi j hj hjn hji
  · exact h.edge j hj hjn hji

section

variable (h : Ordered r f n)

include h

lemma Ordered.root [IsTrans α r] [Std.Total r] (hj : 1 ≤ j) (hjn : j ≤ n) : r (f 1) (f j) := by
  induction j using Nat.strongRecOn with
  | ind j ih =>
    rcases Nat.lt_or_ge 1 j with hlt | hge
    · have hparent := ih (j / 2) (by omega) (by omega) (by omega)
      exact IsTrans.trans _ _ _ hparent (h j hj hjn)
    · obtain rfl : j = 1 := by omega
      exact (Std.Total.total (r := r) _ _).elim id id

lemma Ordered.of_root (hsame : ∀ j, 1 ≤ j → j ≤ n → g j = f j) (hroot : 1 ≤ n → r (g 0) (f 1)) :
    Ordered r g n := by
  intro j hj hjn
  rw [hsame j hj hjn]
  rcases Nat.lt_or_ge 1 j with hlt | hge
  · rw [hsame (j / 2) (by omega) (by omega)]
    exact h j hj hjn
  · obtain rfl : j = 1 := by omega
    exact hroot hjn

lemma Ordered.congr (hsame : ∀ j ≤ n, g j = f j) : Ordered r g n := by
  intro j hj hjn
  rw [hsame j hjn, hsame (j / 2) (by omega)]
  exact h j hj hjn

lemma Ordered.upReady_succ (hsame : ∀ j ≤ n, g j = f j) : UpReady r g (n + 1) (n + 1) := by
  refine ⟨?_, ?_⟩
  · intro j hj hjn hne
    rw [hsame j (by omega), hsame (j / 2) (by omega)]
    exact h j hj (by omega)
  · intro j hjn hj
    omega

/-- The parent of a changed entry is in order with its children. -/
lemma Ordered.grand_update [IsTrans α r] (hi : 1 ≤ i) (hin : i ≤ n)
    (hsame : ∀ j ≤ n, j ≠ i → g j = f j) (hjn : j ≤ n) (hji : j / 2 = i) :
    r (g (i / 2)) (g j) := by
  have hedge := h j (by omega) hjn
  rw [hji] at hedge
  rw [hsame (i / 2) (by omega) (by omega), hsame j hjn (by omega)]
  exact IsTrans.trans _ _ _ (h i hi hin) hedge

lemma Ordered.upReady_update [IsTrans α r] (hi : 1 ≤ i) (hin : i ≤ n)
    (hsame : ∀ j ≤ n, j ≠ i → g j = f j) (hle : r (g i) (f i)) : UpReady r g n i := by
  refine ⟨?_, ?_⟩
  · intro j hj hjn hne
    rw [hsame j hjn hne]
    by_cases hji : j / 2 = i
    · rw [hji]
      have hedge := h j hj hjn
      rw [hji] at hedge
      exact IsTrans.trans _ _ _ hle hedge
    · rw [hsame (j / 2) (by omega) hji]
      exact h j hj hjn
  · intro j hjn hji
    exact h.grand_update hi hin hsame hjn hji

lemma Ordered.downReady_update [IsTrans α r] (hi : 1 ≤ i) (hin : i ≤ n)
    (hsame : ∀ j ≤ n, j ≠ i → g j = f j) (hle : r (f i) (g i)) : DownReady r g n i := by
  refine ⟨?_, ?_⟩
  · intro j hj hjn hne
    rw [hsame (j / 2) (by omega) hne]
    by_cases hji : j = i
    · rw [hji]
      exact IsTrans.trans _ _ _ (h i hi hin) hle
    · rw [hsame j hjn hji]
      exact h j hj hjn
  · intro j hjn hji
    exact h.grand_update hi hin hsame hjn hji

end

/-- One round: after the exchange with the child, only the edges that leave
the child may be out of order. -/
theorem DownReady.swap [IsTrans α r] [Std.Total r] {c : ℕ} (h : DownReady r f n i) (hi : 1 ≤ i)
    (hc : c ≤ n) (hci : c / 2 = i) (hmin : ∀ j, j ≤ n → j / 2 = i → r (f c) (f j))
    (hlt : ¬r (f i) (f c)) : DownReady r (swapAt f c i) n c := by
  have hci' : c ≠ i := by omega
  refine ⟨?_, ?_⟩
  · intro j hj hjn hjc
    by_cases hji : j / 2 = i
    · rw [hji, swapAt_right]
      by_cases hjc' : j = c
      · rw [hjc', swapAt_left]
        exact (Std.Total.total (r := r) _ _).resolve_left hlt
      · rw [swapAt_of_ne f hjc' (by omega)]
        exact hmin j hjn hji
    · rw [swapAt_of_ne f hjc hji]
      by_cases hj' : j = i
      · rw [hj', swapAt_right]
        exact h.grand c hc hci
      · rw [swapAt_of_ne f (by rintro rfl; exact hji hci) hj']
        exact h.edge j hj hjn hji
  · intro j hjn hjc
    rw [hci, swapAt_right, swapAt_of_ne f (by omega) (by omega)]
    have hedge := h.edge j (by omega) hjn (by omega)
    rwa [hjc] at hedge

lemma UpReady.swap [IsTrans α r] [Std.Total r] (h : UpReady r f n i) (hi : 1 ≤ i) (hin : i ≤ n)
    (hlt : ¬r (f (i / 2)) (f i)) : UpReady r (swapAt f i (i / 2)) n (i / 2) := by
  have hgt : r (f i) (f (i / 2)) := (Std.Total.total (r := r) _ _).resolve_left hlt
  refine ⟨?_, ?_⟩
  · intro j hj hjn hji
    by_cases hj' : j = i
    · rw [hj', swapAt_left, swapAt_right]
      exact hgt
    · rw [swapAt_of_ne f hj' hji]
      have hedge := h.edge j hj hjn hj'
      by_cases hpi : j / 2 = i
      · rw [hpi, swapAt_left]
        exact h.grand j hjn hpi
      · by_cases hsib : j / 2 = i / 2
        · rw [hsib, swapAt_right]
          rw [hsib] at hedge
          exact IsTrans.trans _ _ _ hgt hedge
        · rwa [swapAt_of_ne f hpi hsib]
  · intro j hjn hji
    -- slot `0` is its own parent, so it has no edge above it to compare with
    rcases Nat.eq_zero_or_pos (i / 2) with hzero | hpos
    · have hzero' : i / 2 / 2 = i / 2 := by omega
      rw [hzero', swapAt_right]
      by_cases hj' : j = i
      · rw [hj', swapAt_left]
        exact hgt
      · by_cases hj0 : j = i / 2
        · rw [hj0, swapAt_right]
          exact (Std.Total.total (r := r) _ _).elim id id
        · have hedge := h.edge j (by omega) hjn hj'
          rw [hji] at hedge
          rw [swapAt_of_ne f hj' hj0]
          exact IsTrans.trans _ _ _ hgt hedge
    · have hup := h.edge (i / 2) hpos (by omega) (by omega)
      rw [swapAt_of_ne f (by omega) (by omega)]
      by_cases hj' : j = i
      · rw [hj', swapAt_left]
        exact hup
      · have hedge := h.edge j (by omega) hjn hj'
        rw [hji] at hedge
        rw [swapAt_of_ne f hj' (by omega)]
        exact IsTrans.trans _ _ _ hup hedge

/-- A heap in order below its root, exchanged with a slot `0` that is on the
wrong side of it. -/
theorem downReady_swap_root [Std.Total r] (h : ∀ j, 2 ≤ j → j ≤ n → r (f (j / 2)) (f j))
    (hlt : ¬r (f 0) (f 1)) : DownReady r (swapAt f 1 0) n 1 := by
  refine ⟨?_, ?_⟩
  · intro j hj hjn hj1
    rcases Nat.lt_or_ge j 2 with hlt' | hge
    · obtain rfl : j = 1 := by omega
      rw [show 1 / 2 = 0 from rfl, swapAt_right, swapAt_left]
      exact (Std.Total.total (r := r) _ _).resolve_left hlt
    · rw [swapAt_of_ne f hj1 (by omega), swapAt_of_ne f (by omega) (by omega)]
      exact h j hge hjn
  · intro j hjn hj1
    rw [show 1 / 2 = 0 from rfl, swapAt_right, swapAt_of_ne f (by omega) (by omega)]
    have hedge := h j (by omega) hjn
    rwa [hj1] at hedge

/-! ## Sifting down -/

variable (r) [DecidableRel r]

/-- The child to compare with, from the left child `i`. -/
def child (f : ℕ → α) (n i : ℕ) : ℕ :=
  if i < n ∧ ¬r (f i) (f (i + 1)) then i + 1 else i

def siftDown (n : ℕ) : ℕ → (ℕ → α) → ℕ → ℕ → α
  | 0, f, _ => f
  | fuel + 1, f, i =>
    if i ≤ n then
      if r (f (child r f n i / 2)) (f (child r f n i)) then f
      else siftDown n fuel (swapAt f (child r f n i) (child r f n i / 2)) (2 * child r f n i)
    else f

variable {r}

lemma child_cases (f : ℕ → α) (n i : ℕ) : child r f n i = i ∨ child r f n i = i + 1 ∧ i < n := by
  unfold child
  split_ifs with h
  · exact .inr ⟨rfl, h.1⟩
  · exact .inl rfl

lemma child_le [Std.Total r] (f : ℕ → α) (hj : j ≤ n) (hji : j = i ∨ j = i + 1) :
    r (f (child r f n i)) (f j) := by
  have hrefl : ∀ a : α, r a a := fun a ↦ (Std.Total.total a a).elim id id
  unfold child
  split_ifs with h
  · rcases hji with rfl | rfl
    · exact (Std.Total.total (r := r) _ _).resolve_left h.2
    · exact hrefl _
  · rcases hji with rfl | rfl
    · exact hrefl _
    · exact not_not.mp fun hnot ↦ h ⟨by omega, hnot⟩

lemma siftDown_ordered [IsTrans α r] [Std.Total r] (fuel : ℕ) (h : DownReady r f n i) (hi : 1 ≤ i)
    (hfuel : n < 2 * i + fuel) : Ordered r (siftDown r n fuel f (2 * i)) n := by
  induction fuel generalizing f i with
  | zero =>
    refine h.ordered ?_
    intro j _ hjn hji
    omega
  | succ fuel ih =>
    rw [siftDown]
    split_ifs with hin hle
    · -- the smaller child is in order, so both are
      refine h.ordered ?_
      intro j _ hjn hji
      have hcj := child_le (r := r) f hjn (i := 2 * i) (by omega)
      rcases child_cases (r := r) f n (2 * i) with hc | ⟨hc, _⟩
      all_goals
        have hci : child r f n (2 * i) / 2 = i := by omega
        rw [hci] at hle
        exact IsTrans.trans _ _ _ hle hcj
    · have hc : child r f n (2 * i) ≤ n ∧ child r f n (2 * i) / 2 = i := by
        rcases child_cases (r := r) f n (2 * i) with hc | ⟨hc, hlt⟩ <;> omega
      rw [hc.2] at hle ⊢
      refine ih (h.swap hi hc.1 hc.2 ?_ hle) (by omega) (by omega)
      intro j hjn hji
      exact child_le f hjn (by omega)
    · refine h.ordered ?_
      intro j _ hjn hji
      omega

lemma siftDown_of_lt (fuel : ℕ) (f : ℕ → α) {k : ℕ} (hk : k < i) :
    siftDown r n fuel f (2 * i) k = f k := by
  induction fuel generalizing f i with
  | zero => rfl
  | succ fuel ih =>
    rw [siftDown]
    split_ifs with hin hle
    · rfl
    · have hc : 2 * i ≤ child r f n (2 * i) ∧ child r f n (2 * i) / 2 = i := by
        rcases child_cases (r := r) f n (2 * i) with hc | ⟨hc, hlt⟩ <;> omega
      rw [ih _ (by omega), swapAt_of_ne f (by omega) (by omega)]
    · rfl

/-! ## Sifting up -/

variable (r)

/-- Sifting up; the Boolean says whether slot `0` was reached. -/
def siftUp : ℕ → (ℕ → α) → ℕ → (ℕ → α) × Bool
  | 0, f, i => (f, i = 0)
  | fuel + 1, f, i =>
    if 0 < i ∧ ¬r (f (i / 2)) (f i) then siftUp fuel (swapAt f i (i / 2)) (i / 2)
    else (f, i = 0)

variable {r}

/-- Sifting up restores the order.  When it reaches slot `0`, the value it
started with is there and the old bound has moved to the root. -/
theorem siftUp_spec [IsTrans α r] [Std.Total r] (fuel : ℕ)
    (h : UpReady r f n i) (hi : 1 ≤ i) (hin : i ≤ n) (hfuel : i ≤ fuel) :
    Ordered r (siftUp r fuel f i).1 n ∧ ((siftUp r fuel f i).2 = true →
        (siftUp r fuel f i).1 0 = f i ∧ (siftUp r fuel f i).1 1 = f 0) ∧
      ((siftUp r fuel f i).2 = false → (siftUp r fuel f i).1 0 = f 0) := by
  induction fuel generalizing f i with
  | zero => omega
  | succ fuel ih =>
    rw [siftUp]
    split_ifs with hcond
    · have hready := h.swap hi hin hcond.2
      rcases Nat.eq_zero_or_pos (i / 2) with hzero | hpos
      · obtain rfl : i = 1 := by omega
        have hdone : siftUp r fuel (swapAt f 1 (1 / 2)) (1 / 2) = (swapAt f 1 0, true) := by
          cases fuel <;> simp [siftUp]
        rw [hdone]
        refine ⟨hready.ordered fun hbad ↦ absurd hbad (by norm_num), ?_, by simp⟩
        intro _
        exact ⟨swapAt_right f 1 0, swapAt_left f 1 0⟩
      · obtain ⟨hord, htop, hbot⟩ := ih hready hpos (by omega) (by omega)
        rw [swapAt_right, swapAt_of_ne f (by omega) (by omega)] at htop
        rw [swapAt_of_ne f (by omega) (by omega)] at hbot
        exact ⟨hord, htop, hbot⟩
    · refine ⟨h.ordered fun _ ↦ ?_, ?_, fun _ ↦ rfl⟩
      · exact not_not.mp fun hnot ↦ hcond ⟨by omega, hnot⟩
      · intro hzero
        simp only [decide_eq_true_eq] at hzero
        omega

end Monero.Lib.Heap
