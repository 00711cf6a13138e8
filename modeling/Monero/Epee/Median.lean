import Monero.Lib.Sorted

/-!
# The median of a vector

`get_mid` and `median` of `misc_language.h`, over any item type with the
arithmetic the templates use.
-/

namespace Monero.Epee

open List Function

variable {α : Type*} [Add α] [Sub α] [Mul α] [Div α] [OfNat α 2]

def getMid (a b : α) : α := a / 2 + b / 2 + ((a - 2 * (a / 2)) + (b - 2 * (b / 2))) / 2

lemma getMid_comm {α : Type*} [AddCommMagma α] [Sub α] [Mul α] [Div α] [OfNat α 2] (a b : α) :
    getMid a b = getMid b a := by
  rw [getMid, getMid, add_comm (a / 2), add_comm (a - 2 * (a / 2))]

variable [LinearOrder α] [Zero α] {v : List α}

/-- The empty vector has the value-initialised item as its median. -/
def median (v : List α) : α :=
  if v.isEmpty then 0
  else if v.length = 1 then v.getD 0 0
  else
    let sorted := v.insertionSort (· ≤ ·)
    if v.length % 2 = 1 then sorted.getD (v.length / 2) 0
    else getMid (sorted.getD (v.length / 2 - 1) 0) (sorted.getD (v.length / 2) 0)

lemma median_perm {w : List α} (h : v.Perm w) : median v = median w := by
  have hlen := h.length_eq
  have hempty : v.isEmpty = w.isEmpty := by
    rw [Bool.eq_iff_iff, isEmpty_iff_length_eq_zero, isEmpty_iff_length_eq_zero, hlen]
  unfold median
  rw [hempty, hlen, Monero.Lib.insertionSort_eq_of_perm h]
  split_ifs with _ hone
  · rfl
  · obtain ⟨a, rfl⟩ := length_eq_one_iff.mp hone
    rw [perm_singleton.mp h]
  · rfl
  · rfl

lemma median_odd (h : v.length % 2 = 1) :
    median v = (v.insertionSort (· ≤ ·)).getD (v.length / 2) 0 := by
  unfold median
  have hne : ¬v.isEmpty = true := by
    rw [isEmpty_iff_length_eq_zero]
    omega
  rw [if_neg hne]
  split_ifs with hone
  · obtain ⟨a, rfl⟩ := length_eq_one_iff.mp hone
    simp
  · rfl

lemma median_even (h : v.length % 2 = 0) (hv : v ≠ []) :
    median v = getMid ((v.insertionSort (· ≤ ·)).getD (v.length / 2 - 1) 0)
      ((v.insertionSort (· ≤ ·)).getD (v.length / 2) 0) := by
  have hone : ¬v.length = 1 := by omega
  have hodd : ¬v.length % 2 = 1 := by omega
  simp [median, hv, hone, hodd]

lemma median_of_split_odd {L U : List α} {m : α} (hv : v.Perm (L ++ m :: U)) (hL : ∀ a ∈ L, a ≤ m)
    (hU : ∀ b ∈ U, m ≤ b) (hlen : U.length = L.length) : median v = m := by
  have hcount := hv.length_eq
  simp only [length_append, length_cons] at hcount
  have hmid := Monero.Lib.insertionSort_getElem?_middle hv hL hU
  rw [median_odd (by omega), show v.length / 2 = L.length by omega, getD_eq_getElem?_getD,
    hmid, Option.getD_some]

lemma median_of_split_even {L U : List α} {x m : α} (hv : v.Perm (L ++ x :: m :: U))
    (hL : ∀ a ∈ L, a ≤ x) (hx : x ≤ m) (hU : ∀ b ∈ U, m ≤ b) (hlen : U.length = L.length) :
    median v = getMid x m := by
  have hcount := hv.length_eq
  simp only [length_append, length_cons] at hcount
  have hlow := Monero.Lib.insertionSort_getElem?_middle hv hL (by
    intro b hb
    rcases mem_cons.mp hb with rfl | hb
    · exact hx
    · exact hx.trans (hU b hb))
  have hv' : v.Perm ((L ++ [x]) ++ m :: U) := by simpa using hv
  have hhigh := Monero.Lib.insertionSort_getElem?_middle hv' (by
    intro a ha
    rcases mem_append.mp ha with ha | ha
    · exact (hL a ha).trans hx
    · rw [mem_singleton.mp ha]
      exact hx) hU
  have hne : v ≠ [] := by
    intro hnil
    simp [hnil] at hcount
  simp only [length_append, length_cons, length_nil] at hhigh
  rw [median_even (by omega) hne, show v.length / 2 - 1 = L.length by omega,
    show v.length / 2 = L.length + (0 + 1) by omega, getD_eq_getElem?_getD,
    getD_eq_getElem?_getD, hlow, hhigh, Option.getD_some, Option.getD_some]

/-! ## Over the natural numbers -/

lemma getMid_nat (a b : ℕ) : getMid a b = (a + b) / 2 := by
  rw [getMid]
  omega

lemma median_nat (v : List ℕ) :
    median v = ((v.insertionSort (· ≤ ·)).getD ((v.length - 1) / 2) 0 +
      (v.insertionSort (· ≤ ·)).getD (v.length / 2) 0) / 2 := by
  rcases Nat.mod_two_eq_zero_or_one v.length with heven | hodd
  · rcases eq_or_ne v [] with rfl | hne
    · rfl
    · rw [median_even heven hne, getMid_nat, show (v.length - 1) / 2 = v.length / 2 - 1 by omega]
  · rw [median_odd hodd, show (v.length - 1) / 2 = v.length / 2 by omega]
    omega

lemma median_replicate (n weight : ℕ) : median (replicate (n + 1) weight) = weight := by
  have hsorted : (replicate (n + 1) weight).insertionSort (· ≤ ·) =
      replicate (n + 1) weight :=
    Pairwise.insertionSort_eq (pairwise_replicate.mpr (.inr le_rfl))
  rw [median_nat, hsorted, length_replicate, getD_replicate _ (by omega),
    getD_replicate _ (by omega)]
  omega

lemma median_mono {u v : List ℕ}
    (h : Forall₂ (· ≤ ·) (u.insertionSort (· ≤ ·)) (v.insertionSort (· ≤ ·))) :
    median u ≤ median v := by
  have hlen : u.length = v.length := by
    have hsorted := h.length_eq
    rwa [length_insertionSort, length_insertionSort] at hsorted
  rw [median_nat, median_nat, hlen]
  have hlow := Monero.Lib.getD_le_of_forall₂ h ((v.length - 1) / 2)
  have hhigh := Monero.Lib.getD_le_of_forall₂ h (v.length / 2)
  omega

lemma insertionSort_zero_cons (v : List ℕ) :
    (0 :: v).insertionSort (· ≤ ·) = 0 :: v.insertionSort (· ≤ ·) :=
  insertionSort_cons_of_forall_rel _ fun b _ ↦ Nat.zero_le b

lemma median_zero_cons_le (v : List ℕ) : median (0 :: v) ≤ median v := by
  rcases eq_or_ne v [] with rfl | hne
  · decide
  have hpos := length_pos_iff.mpr hne
  have hsorted : (v.insertionSort (· ≤ ·)).Pairwise (· ≤ ·) := pairwise_insertionSort _ _
  have hshift : ∀ i, (0 :: v.insertionSort (· ≤ ·)).getD (i + 1) 0 =
      (v.insertionSort (· ≤ ·)).getD i 0 := fun i ↦ rfl
  rw [median_nat, median_nat, insertionSort_zero_cons, length_cons, Nat.add_sub_cancel]
  have hlow : (0 :: v.insertionSort (· ≤ ·)).getD (v.length / 2) 0 ≤
      (v.insertionSort (· ≤ ·)).getD ((v.length - 1) / 2) 0 := by
    rcases Nat.eq_zero_or_pos (v.length / 2) with hzero | hhalf
    · rw [hzero]
      exact Nat.zero_le _
    · rw [show v.length / 2 = v.length / 2 - 1 + 1 by omega, hshift]
      exact Monero.Lib.getD_mono_of_pairwise hsorted (by omega)
        (by rw [length_insertionSort]; omega)
  have hhigh : (0 :: v.insertionSort (· ≤ ·)).getD ((v.length + 1) / 2) 0 ≤
      (v.insertionSort (· ≤ ·)).getD (v.length / 2) 0 := by
    rw [show (v.length + 1) / 2 = (v.length - 1) / 2 + 1 by omega, hshift]
    exact Monero.Lib.getD_mono_of_pairwise hsorted (by omega) (by rw [length_insertionSort]; omega)
  omega

lemma median_zero_cons_le_cons (a : ℕ) (v : List ℕ) : median (0 :: v) ≤ median (a :: v) := by
  apply median_mono
  rw [insertionSort_zero_cons]
  exact Monero.Lib.forall₂_cons_orderedInsert (pairwise_insertionSort _ _) (Nat.zero_le a)
    fun b _ ↦ Nat.zero_le b

/-! ## The rolling median

`rolling_median_t` of `rolling_median.h`: a circular buffer `data` threaded
through two heaps that share one array around the median slot `0`.  The min
heap has the slots `1`, `2`, ... and the max heap the slots `-1`, `-2`, ...;
`pos` gives the slot of a buffer index and `heap` the buffer index in a slot. -/

/-- A table is a function of its index; an index outside the allocated range
is never read. -/
structure RollingMedian (α : Type*) where
  N : ℕ
  data : ℕ → α
  pos : ℕ → ℤ
  heap : ℤ → ℕ
  idx : ℕ
  minCt : ℕ
  maxCt : ℕ
  sz : ℕ

inductive Side where
  | min
  | max
  deriving DecidableEq, Repr

namespace Side

/-- The array index of the `i`-th slot away from the median. -/
def slot : Side → ℕ → ℤ
  | min, i => i
  | max, i => -i

def other : Side → Side
  | min => max
  | max => min

end Side

namespace RollingMedian

variable {α : Type*} [LinearOrder α]

variable (rm : RollingMedian α)

def mmless (i j : ℤ) : Bool :=
  rm.data (rm.heap i) < rm.data (rm.heap j)

def mmexchange (i j : ℤ) : RollingMedian α :=
  let t := rm.heap i
  let heap := update (update rm.heap i (rm.heap j)) j t
  let pos := update (update rm.pos (heap i) i) (heap j) j
  { rm with heap := heap, pos := pos }

/-- The Boolean says whether the two slots were exchanged. -/
def mmCmpExch (i j : ℤ) : RollingMedian α × Bool :=
  if rm.mmless i j then (rm.mmexchange i j, true) else (rm, false)

def count : Side → ℕ
  | .min => rm.minCt
  | .max => rm.maxCt

/-! ## The four sifting loops

The loops of the max heap are those of the min heap with the signs of the
slots and the operands of each comparison exchanged. -/

def sideLess : Side → ℕ → ℕ → Bool
  | .min, i, j => rm.mmless i j
  | .max, i, j => rm.mmless (-j) (-i)

def sideCmpExch : Side → ℕ → ℕ → RollingMedian α × Bool
  | .min, i, j => rm.mmCmpExch i j
  | .max, i, j => rm.mmCmpExch (-j) (-i)

/-- The loop of `minSortDown` and `maxSortDown` at the left child `i`. -/
def sortDownLoop (s : Side) : ℕ → RollingMedian α → ℕ → RollingMedian α
  | 0, rm, _ => rm
  | fuel + 1, rm, i =>
    if i ≤ rm.count s then
      let c := if i < rm.count s ∧ rm.sideLess s (i + 1) i then i + 1 else i
      let r := rm.sideCmpExch s c (c / 2)
      if r.2 then sortDownLoop s fuel r.1 (2 * c) else r.1
    else rm

/-- Every round at least doubles the slot, so `count + 1` rounds are enough. -/
def sortDown (s : Side) (rm : RollingMedian α) (i : ℕ) : RollingMedian α :=
  sortDownLoop s (rm.count s + 1) rm (2 * i)

def sortUpLoop (s : Side) : ℕ → RollingMedian α → ℕ → RollingMedian α × Bool
  | 0, rm, i => (rm, i = 0)
  | fuel + 1, rm, i =>
    if 0 < i then
      let r := rm.sideCmpExch s i (i / 2)
      if r.2 then sortUpLoop s fuel r.1 (i / 2) else (r.1, false)
    else (rm, true)

/-- The Boolean says whether the median changed. -/
def sortUp (s : Side) (rm : RollingMedian α) (i : ℕ) : RollingMedian α × Bool :=
  sortUpLoop s i rm i

def minSortDown (i : ℤ) : RollingMedian α := sortDown .min rm i.natAbs

def maxSortDown (i : ℤ) : RollingMedian α := sortDown .max rm i.natAbs

def minSortUp (i : ℤ) : RollingMedian α × Bool := sortUp .min rm i.natAbs

def maxSortUp (i : ℤ) : RollingMedian α × Bool := sortUp .max rm i.natAbs

/-! ## The public operations -/

/-- The initial fill pattern: median, max, min, max, ... -/
def fill (n : ℕ) : ℤ := ((n + 1) / 2 : ℕ) * (if n % 2 = 1 then -1 else 1)

def clearLoop : ℕ → RollingMedian α → RollingMedian α
  | 0, rm => rm
  | n + 1, rm => clearLoop n { rm with
        pos := update rm.pos n (fill n)
        heap := update rm.heap (fill n) n }

def clear : RollingMedian α :=
  clearLoop rm.N { rm with idx := 0, minCt := 0, maxCt := 0, sz := 0 }

/-- The constructor: the tables come from `malloc` with unknown contents. -/
def new (N : ℕ) (data : ℕ → α) (pos : ℕ → ℤ) (heap : ℤ → ℕ) : RollingMedian α :=
  clear { N := N, data := data, pos := pos, heap := heap
          idx := 0, minCt := 0, maxCt := 0, sz := 0 }

def size : ℕ := rm.sz

/-- The item goes to the buffer, before any heap is touched. -/
def store (v : α) : RollingMedian α :=
  { rm with
    data := update rm.data rm.idx v
    idx := (rm.idx + 1) % rm.N
    sz := min (rm.sz + 1) rm.N }

def insertMin (p : ℤ) : RollingMedian α :=
  let up := rm.minSortUp p
  if up.2 then
    let r := up.1.mmCmpExch 0 (-1)
    if r.2 then r.1.maxSortDown (-1) else r.1
  else up.1

def insertMax (p : ℤ) : RollingMedian α :=
  let up := rm.maxSortUp p
  if up.2 ∧ up.1.minCt ≠ 0 then
    let r := up.1.mmCmpExch 1 0
    if r.2 then r.1.minSortDown 1 else r.1
  else up.1

def insertMedian : RollingMedian α :=
  let rm₁ :=
    if rm.maxCt ≠ 0 then
      let up := rm.maxSortUp (-1)
      if up.2 then up.1.maxSortDown (-1) else up.1
    else rm
  if rm₁.minCt ≠ 0 then
    let up := rm₁.minSortUp 1
    if up.2 then up.1.minSortDown 1 else up.1
  else rm₁

def insert (v : α) : RollingMedian α :=
  let p := rm.pos rm.idx
  let old := rm.data rm.idx
  let rm := rm.store v
  if 0 < p then
    if rm.minCt < (rm.N - 1) / 2 then { rm with minCt := rm.minCt + 1 }.insertMin p
    else if old < v then rm.minSortDown p
    else rm.insertMin p
  else if p < 0 then
    if rm.maxCt < rm.N / 2 then { rm with maxCt := rm.maxCt + 1 }.insertMax p
    else if v < old then rm.maxSortDown p
    else rm.insertMax p
  else rm.insertMedian

def median [Add α] [Sub α] [Mul α] [Div α] [OfNat α 2] (rm : RollingMedian α) : α :=
  let v := rm.data (rm.heap 0)
  if rm.minCt < rm.maxCt then getMid v (rm.data (rm.heap (-1))) else v

end RollingMedian

end Monero.Epee
