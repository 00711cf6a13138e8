import Mathlib

/-!
# Windows, sums and blocks of a list

A bounded window over a growing sequence keeps its last `n` entries,
`List.rtake`.  A tally counts how often each key occurs in a window, in
wrapping 32-bit counters, and is maintained by one increment for each entry
that comes in and one decrement for each entry that goes out.
-/

namespace Monero.Lib

open List

variable {α : Type*} {n : ℕ}

@[simp] lemma length_rtake (l : List α) (n : ℕ) : (l.rtake n).length = min n l.length := by
  simp only [rtake, length_drop]
  omega

lemma rtake_eq_self {l : List α} (h : l.length ≤ n) : l.rtake n = l := by
  simp [rtake, Nat.sub_eq_zero_of_le h]

lemma rtake_rtake {l : List α} {m : ℕ} (h : m ≤ n) : (l.rtake n).rtake m = l.rtake m := by
  unfold rtake
  rw [length_drop, drop_drop]
  congr 1
  omega

lemma rtake_map {β : Type*} (f : α → β) (l : List α) (n : ℕ) :
    (l.map f).rtake n = (l.rtake n).map f := by
  simp [rtake]

lemma rtake_append_of_le (l₁ : List α) {l₂ : List α} (h : n ≤ l₂.length) :
    (l₁ ++ l₂).rtake n = l₂.rtake n := by
  unfold rtake
  rw [length_append, drop_append]
  have hdrop : l₁.drop (l₁.length + l₂.length - n) = [] := by
    apply drop_eq_nil_of_le
    omega
  rw [hdrop, nil_append]
  congr 1
  omega

lemma rtake_append_of_ge {l₁ l₂ : List α} (h : l₂.length ≤ n) :
    (l₁ ++ l₂).rtake n = l₁.rtake (n - l₂.length) ++ l₂ := by
  unfold rtake
  rw [length_append, drop_append_of_le_length (by omega)]
  congr 2
  omega

/-- Sliding a window of positive size by one entry: forget all but the last
`n - 1` entries, then append. -/
lemma rtake_append_congr {l₁ l₂ : List α} (h : l₁.rtake n = l₂.rtake n) (l : List α) :
    (l₁ ++ l).rtake n = (l₂ ++ l).rtake n := by
  rcases le_total n l.length with hle | hge
  · rw [rtake_append_of_le _ hle, rtake_append_of_le _ hle]
  · rw [rtake_append_of_ge hge, rtake_append_of_ge hge, ← rtake_rtake (Nat.sub_le n _), h,
      rtake_rtake (Nat.sub_le n _)]

theorem rtake_concat (hn : 1 ≤ n) (l : List α) (x : α) :
    (l ++ [x]).rtake n = (l.rtake n).rtake (n - 1) ++ [x] := by
  rw [rtake_append_of_ge (by simpa using hn), rtake_rtake (Nat.sub_le n 1)]
  rfl

/-! ## Tallies -/

section Tally

variable {κ : Type*} [DecidableEq κ]

/-- How often each key occurs, in a 32-bit counter. -/
def tally (l : List κ) (k : κ) : UInt32 := UInt32.ofNat (l.count k)

variable (f : κ → UInt32)

def bump (k : κ) : κ → UInt32 := fun j ↦ if j = k then f j + 1 else f j

def unbump (k : κ) : κ → UInt32 := fun j ↦ if j = k then f j - 1 else f j

@[simp] lemma unbump_bump (k : κ) : unbump (bump f k) k = f := by
  funext j
  by_cases h : j = k <;> simp [bump, unbump, h]

@[simp] lemma tally_nil : tally ([] : List κ) = fun _ ↦ 0 := by
  funext j
  simp [tally]

lemma tally_cons (k : κ) (l : List κ) : tally (k :: l) = bump (tally l) k := by
  funext j
  by_cases h : j = k
  · subst h
    simp [tally, bump, UInt32.ofNat_add]
  · simp [tally, bump, h, Ne.symm h]

lemma tally_perm {l₁ l₂ : List κ} (h : l₁.Perm l₂) : tally l₁ = tally l₂ := by
  funext j
  simp [tally, h.count_eq]

lemma tally_concat (l : List κ) (k : κ) : tally (l ++ [k]) = bump (tally l) k := by
  rw [← tally_cons]
  exact tally_perm (perm_append_singleton k l)

lemma unbump_tally_cons (k : κ) (l : List κ) : unbump (tally (k :: l)) k = tally l := by
  rw [tally_cons, unbump_bump]

lemma unbump_tally_concat (l : List κ) (k : κ) : unbump (tally (l ++ [k])) k = tally l := by
  rw [tally_concat, unbump_bump]

lemma foldl_bump_tally (l₁ l₂ : List κ) : l₂.foldl bump (tally l₁) = tally (l₁ ++ l₂) := by
  induction l₂ generalizing l₁ with
  | nil => simp
  | cons k l₂ ih =>
    rw [foldl_cons, ← tally_concat, ih]
    simp

end Tally

/-! ## Running sums -/

variable {α : Type*}

/-- The sums `acc + a₀`, `acc + a₀ + a₁`, ... -/
def runningSumsFrom [Add α] (acc : α) : List α → List α
  | [] => []
  | a :: l => (acc + a) :: runningSumsFrom (acc + a) l

@[simp] lemma length_runningSumsFrom [Add α] (acc : α) (l : List α) :
    (runningSumsFrom acc l).length = l.length := by
  induction l generalizing acc with
  | nil => rfl
  | cons a l ih => rw [runningSumsFrom, length_cons, ih, length_cons]

lemma runningSumsFrom_getElem? [AddMonoid α] (acc : α) {l : List α} {j : ℕ} (hj : j < l.length) :
    (runningSumsFrom acc l)[j]? = some (acc + (l.take (j + 1)).sum) := by
  induction l generalizing acc j with
  | nil => cases hj
  | cons a l ih =>
    cases j with
    | zero => simp [runningSumsFrom]
    | succ j =>
      rw [runningSumsFrom, getElem?_cons_succ, ih (acc + a) (Nat.lt_of_succ_lt_succ hj),
        take_succ_cons, sum_cons, add_assoc]

/-- The running sums are distinct exactly when no stretch after the first
element sums to zero. -/
theorem nodup_runningSumsFrom_iff [AddGroup α] (acc : α) (l : List α) :
    (runningSumsFrom acc l).Nodup ↔
      ∀ i j, i < j → j < l.length → ((l.take (j + 1)).drop (i + 1)).sum ≠ 0 := by
  rw [nodup_iff_getElem?_ne_getElem?, length_runningSumsFrom]
  refine forall₄_congr fun i j hij hj ↦ ?_
  have hsplit : (l.take (j + 1)).sum =
      (l.take (i + 1)).sum + ((l.take (j + 1)).drop (i + 1)).sum := by
    have hsum := sum_take_add_sum_drop (l.take (j + 1)) (i + 1)
    rw [take_take, min_eq_left (by omega)] at hsum
    exact hsum.symm
  rw [runningSumsFrom_getElem? acc (hij.trans hj), runningSumsFrom_getElem? acc hj, hsplit, ne_eq,
    Option.some_inj, add_right_inj, left_eq_add]

/-! ## Blocks of one size -/

variable {α : Type*}

def blocks (n : ℕ) (l : List α) : List (List α) :=
  (range (l.length / n)).map fun i ↦ (l.drop (i * n)).take n

def remainder (n : ℕ) (l : List α) : List α := l.drop (l.length / n * n)

section

variable {n : ℕ} {l : List α}

lemma length_remainder : (remainder n l).length = l.length % n := by
  rw [remainder, length_drop]
  have hsplit := Nat.div_add_mod' l.length n
  omega

lemma length_of_mem_blocks {b : List α} (hb : b ∈ blocks n l) : b.length = n := by
  obtain ⟨i, hi, rfl⟩ := mem_map.mp hb
  have hle : (i + 1) * n ≤ l.length / n * n := Nat.mul_le_mul_right n (mem_range.mp hi)
  have hsplit := Nat.div_add_mod' l.length n
  rw [Nat.add_mul, Nat.one_mul] at hle
  rw [length_take, length_drop]
  omega

lemma blocks_append (hn : 0 < n) {b : List α} (hb : b.length = n) (l : List α) :
    blocks n (b ++ l) = b :: blocks n l ∧ remainder n (b ++ l) = remainder n l := by
  have hcount : (b ++ l).length / n = l.length / n + 1 := by
    rw [length_append, hb, Nat.add_comm, Nat.add_div_right _ hn]
  constructor
  · rw [blocks, hcount, range_succ_eq_map, map_cons, map_map, blocks]
    congr 1
    · rw [Nat.zero_mul, drop_zero, ← hb, take_left]
    · refine map_congr_left fun i _ ↦ ?_
      rw [Function.comp_apply, Nat.succ_mul, Nat.add_comm, ← hb, ← drop_drop, drop_left]
  · rw [remainder, hcount, Nat.succ_mul, Nat.add_comm, ← hb, ← drop_drop, drop_left, remainder]

lemma blocks_of_length_lt (h : l.length < n) : blocks n l = [] ∧ remainder n l = l := by
  rw [blocks, remainder, Nat.div_eq_of_lt h, Nat.zero_mul]
  exact ⟨rfl, rfl⟩

lemma blocks_flatten_append (hn : 0 < n) {bs : List (List α)} (hbs : ∀ b ∈ bs, b.length = n)
    {rest : List α} (hrest : rest.length < n) :
    blocks n (bs.flatten ++ rest) = bs ∧ remainder n (bs.flatten ++ rest) = rest := by
  induction bs with
  | nil => exact blocks_of_length_lt hrest
  | cons b bs ih =>
    obtain ⟨hblocks, hremainder⟩ := ih fun c hc ↦ hbs c (mem_cons_of_mem b hc)
    obtain ⟨hfirst, hlast⟩ := blocks_append hn (hbs b mem_cons_self) (bs.flatten ++ rest)
    rw [flatten_cons, append_assoc, hfirst, hlast, hblocks, hremainder]
    exact ⟨rfl, rfl⟩

lemma flatten_blocks_append (hn : 0 < n) (l : List α) :
    (blocks n l).flatten ++ remainder n l = l := by
  induction h : l.length using Nat.strong_induction_on generalizing l with
  | _ m ih =>
    by_cases hlt : l.length < n
    · obtain ⟨hblocks, hremainder⟩ := blocks_of_length_lt hlt
      rw [hblocks, hremainder]
      rfl
    · have htake : (l.take n).length = n := length_take_of_le (by omega)
      obtain ⟨hfirst, hlast⟩ := blocks_append hn htake (l.drop n)
      rw [take_append_drop] at hfirst hlast
      rw [hfirst, hlast, flatten_cons, append_assoc,
        ih (l.drop n).length (by rw [length_drop]; omega) _ rfl, take_append_drop]

end

end Monero.Lib
