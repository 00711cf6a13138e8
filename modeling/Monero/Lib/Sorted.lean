import Mathlib

/-!
# Rearranging and sorting lists

A list that is a rearrangement of `L ++ m :: U`, with `L` below `m` and `U`
above it, has `m` at place `L.length` once sorted.
-/

namespace Monero.Lib

open List

lemma perm_range_of_nodup {l : List ℕ} {n : ℕ} (hnodup : l.Nodup) (hlt : ∀ k ∈ l, k < n)
    (hlen : n ≤ l.length) : l.Perm (range n) := by
  have hsub : l ⊆ range n := fun k hk ↦ mem_range.mpr (hlt k hk)
  exact (subperm_of_subset hnodup hsub).perm_of_length_le (by simpa using hlen)

lemma dropWhile_lt_eq_filter {β : Type*} (key : β → ℕ) (bound : ℕ) {l : List β}
    (h : l.Pairwise fun a b ↦ key a ≤ key b) :
    (l.dropWhile fun a ↦ key a < bound) = l.filter fun a ↦ bound ≤ key a := by
  induction l with
  | nil => rfl
  | cons a l ih =>
    obtain ⟨habove, hrest⟩ := pairwise_cons.mp h
    by_cases ha : key a < bound
    · rw [dropWhile_cons_of_pos (by simpa using ha),
        filter_cons_of_neg (by simpa using ha), ih hrest]
    · rw [dropWhile_cons_of_neg (by simpa using ha)]
      refine (filter_eq_self.mpr fun b hb ↦ decide_eq_true ?_).symm
      rcases mem_cons.mp hb with rfl | hb
      · exact not_lt.mp ha
      · exact (not_lt.mp ha).trans (habove b hb)

variable {α : Type*} [LinearOrder α] {l : List α}

lemma insertionSort_eq_of_perm {l₁ l₂ : List α} (h : l₁.Perm l₂) :
    l₁.insertionSort (· ≤ ·) = l₂.insertionSort (· ≤ ·) := by
  have hperm : (l₁.insertionSort (· ≤ ·)).Perm (l₂.insertionSort (· ≤ ·)) := by
    calc
      (l₁.insertionSort (· ≤ ·)).Perm l₁ := perm_insertionSort _ l₁
      _ |>.Perm l₂ := h
      _ |>.Perm (l₂.insertionSort (· ≤ ·)) := (perm_insertionSort _ l₂).symm
  exact hperm.eq_of_pairwise' (pairwise_insertionSort _ _) (pairwise_insertionSort _ _)

lemma insertionSort_append {l₁ l₂ : List α} (h : ∀ a ∈ l₁, ∀ b ∈ l₂, a ≤ b) :
    (l₁ ++ l₂).insertionSort (· ≤ ·) =
      l₁.insertionSort (· ≤ ·) ++ l₂.insertionSort (· ≤ ·) := by
  have hperm : ((l₁ ++ l₂).insertionSort (· ≤ ·)).Perm
      (l₁.insertionSort (· ≤ ·) ++ l₂.insertionSort (· ≤ ·)) :=
    (perm_insertionSort _ _).trans
      ((perm_insertionSort _ l₁).symm.append (perm_insertionSort _ l₂).symm)
  refine hperm.eq_of_pairwise' (pairwise_insertionSort _ _) ?_
  refine pairwise_append.mpr ⟨pairwise_insertionSort _ _, pairwise_insertionSort _ _, ?_⟩
  intro a ha b hb
  exact h a ((mem_insertionSort _).mp ha) b ((mem_insertionSort _).mp hb)

lemma insertionSort_getElem?_middle {L U : List α} {m : α} (hl : l.Perm (L ++ m :: U))
    (hL : ∀ a ∈ L, a ≤ m) (hU : ∀ b ∈ U, m ≤ b) :
    (l.insertionSort (· ≤ ·))[L.length]? = some m := by
  have hsplit : ∀ a ∈ L, ∀ b ∈ m :: U, a ≤ b := by
    intro a ha b hb
    rcases mem_cons.mp hb with rfl | hb
    · exact hL a ha
    · exact (hL a ha).trans (hU b hb)
  rw [insertionSort_eq_of_perm hl, insertionSort_append hsplit,
    insertionSort_cons_of_forall_rel _ hU]
  simp

lemma forall₂_cons_orderedInsert {a c : α} (hsorted : l.Pairwise (· ≤ ·)) (hca : c ≤ a)
    (hcl : ∀ b ∈ l, c ≤ b) : Forall₂ (· ≤ ·) (c :: l) (l.orderedInsert (· ≤ ·) a) := by
  induction l generalizing c with
  | nil => exact .cons hca .nil
  | cons b l ih =>
    obtain ⟨hb, hl⟩ := pairwise_cons.mp hsorted
    rw [orderedInsert]
    split_ifs with hab
    · exact .cons hca (forall₂_refl _)
    · exact .cons (hcl b mem_cons_self) (ih hl (not_le.mp hab).le hb)

/-! ## Sets in ascending order -/

def sorted (m : Multiset α) : List α :=
  Quotient.lift (fun l : List α ↦ l.insertionSort (· ≤ ·)) (fun _ _ h ↦ insertionSort_eq_of_perm h)
    m

lemma sorted_coe (l : List α) : sorted (l : Multiset α) = l.insertionSort (· ≤ ·) := rfl

@[simp] lemma coe_sorted (m : Multiset α) : (sorted m : Multiset α) = m := by
  induction m using Quotient.inductionOn with
  | h l => exact Multiset.coe_eq_coe.mpr (perm_insertionSort (· ≤ ·) l)

lemma pairwise_sorted (m : Multiset α) : (sorted m).Pairwise (· ≤ ·) := by
  induction m using Quotient.inductionOn with
  | h l => exact pairwise_insertionSort _ l

@[simp] lemma mem_sorted {m : Multiset α} {a : α} : a ∈ sorted m ↔ a ∈ m := by
  rw [← Multiset.mem_coe, coe_sorted]

variable (s : Finset α)

def ascending : List α := sorted s.val

@[simp] lemma mem_ascending {s : Finset α} {a : α} : a ∈ ascending s ↔ a ∈ s := mem_sorted

lemma nodup_ascending : (ascending s).Nodup := by
  rw [← Multiset.coe_nodup, ascending, coe_sorted]
  exact s.nodup

lemma pairwise_ascending : (ascending s).Pairwise (· ≤ ·) := pairwise_sorted s.val

lemma sum_map_ascending {β : Type*} [AddCommMonoid β] (s : Finset α) (f : α → β) :
    ((ascending s).map f).sum = ∑ a ∈ s, f a := by
  rw [← Multiset.sum_coe, ← Multiset.map_coe, ascending, coe_sorted]
  rfl

@[simp] lemma length_ascending : (ascending s).length = s.card := by
  rw [← Multiset.coe_card, ascending, coe_sorted]
  rfl

@[simp] lemma toFinset_ascending : (ascending s).toFinset = s := by
  ext a
  rw [mem_toFinset, mem_ascending]

lemma insertionSort_eq_ascending (hl : l.Nodup) :
    l.insertionSort (· ≤ ·) = ascending l.toFinset := by
  rw [ascending, toFinset_val, dedup_eq_self.mpr hl, sorted_coe]

/-! ## Places of a list of numbers -/

lemma getD_le_of_forall₂ {u v : List ℕ} (h : Forall₂ (· ≤ ·) u v) (i : ℕ) :
    u.getD i 0 ≤ v.getD i 0 := by
  induction h generalizing i with
  | nil => exact le_rfl
  | cons hab _ ih =>
    cases i with
    | zero => exact hab
    | succ i => exact ih i

lemma getD_mono_of_pairwise {l : List ℕ} (h : l.Pairwise (· ≤ ·)) {i j : ℕ} (hij : i ≤ j)
    (hj : j < l.length) : l.getD i 0 ≤ l.getD j 0 := by
  rw [getD_eq_getElem _ _ hj, getD_eq_getElem _ _ (hij.trans_lt hj)]
  exact h.rel_get_of_le (a := ⟨i, hij.trans_lt hj⟩) (b := ⟨j, hj⟩) hij

/-! ## Sorting by a key -/

section Keys

variable {β κ : Type*} [DecidableEq κ] {key : β → κ} {keys : List κ} {l : List β}

lemma orderedInsert_append_of_rel {r : β → β → Prop} [DecidableRel r] {a : β} {l₁ l₂ : List β}
    (h₁ : ∀ b ∈ l₁, ¬r a b) (h₂ : ∀ b ∈ l₂, r a b) :
    (l₁ ++ l₂).orderedInsert r a = l₁ ++ a :: l₂ := by
  induction l₁ with
  | nil =>
    cases l₂ with
    | nil => rfl
    | cons b l₂ => exact orderedInsert_cons_of_le _ _ (h₂ b mem_cons_self)
  | cons b l₁ ih =>
    rw [cons_append, orderedInsert_cons, if_neg (h₁ b mem_cons_self),
      ih fun b' hb' ↦ h₁ b' (mem_cons_of_mem b hb'), cons_append]

/-- The items with the first key, then those with the second one, and so on. -/
def byKeys (key : β → κ) (keys : List κ) (l : List β) : List β :=
  keys.flatMap fun k ↦ l.filter fun b ↦ key b = k

lemma mem_byKeys {b : β} : b ∈ byKeys key keys l ↔ key b ∈ keys ∧ b ∈ l := by
  rw [byKeys, mem_flatMap]
  constructor
  · rintro ⟨k, hk, hb⟩
    obtain ⟨hmem, hkey⟩ := mem_filter.mp hb
    rw [of_decide_eq_true hkey]
    exact ⟨hk, hmem⟩
  · rintro ⟨hk, hb⟩
    exact ⟨key b, hk, mem_filter.mpr ⟨hb, decide_eq_true rfl⟩⟩

lemma byKeys_cons_of_notMem {a : β} (ha : key a ∉ keys) (l : List β) :
    byKeys key keys (a :: l) = byKeys key keys l := by
  refine flatMap_congr fun k hk ↦ filter_cons_of_neg ?_
  rw [decide_eq_true_iff]
  rintro rfl
  exact ha hk

lemma byKeys_eq_insertionSort (hkeys : keys.Nodup) (hl : ∀ b ∈ l, key b ∈ keys) :
    byKeys key keys l = l.insertionSort fun a b ↦ keys.idxOf (key a) ≤ keys.idxOf (key b) := by
  induction l with
  | nil => exact flatMap_eq_nil_iff.mpr fun _ _ ↦ rfl
  | cons a l ih =>
    obtain ⟨ha, hl⟩ := forall_mem_cons.mp hl
    rw [insertionSort_cons, ← ih hl]
    obtain ⟨before, after, hsplit⟩ := append_of_mem ha
    have hnot : key a ∉ before ∧ key a ∉ after := by
      rw [hsplit, nodup_middle, nodup_cons, mem_append, not_or] at hkeys
      exact hkeys.1
    have hindex : keys.idxOf (key a) = before.length := by
      rw [hsplit, idxOf_append_of_notMem hnot.1, idxOf_cons_self, Nat.add_zero]
    have hparts : ∀ l, byKeys key keys l =
        byKeys key before l ++ (l.filter (fun b ↦ key b = key a) ++ byKeys key after l) := by
      intro l
      rw [byKeys, hsplit, flatMap_append, flatMap_cons]
      rfl
    have hself : (a :: l).filter (fun b ↦ key b = key a) =
        a :: l.filter (fun b ↦ key b = key a) := filter_cons_of_pos (decide_eq_true rfl)
    rw [hparts (a :: l), hparts l, byKeys_cons_of_notMem hnot.1, byKeys_cons_of_notMem hnot.2,
      hself, cons_append]
    refine (orderedInsert_append_of_rel (fun b hb ↦ ?_) fun b hb ↦ ?_).symm
    · -- an earlier key
      obtain ⟨hb, -⟩ := mem_byKeys.mp hb
      rw [hindex, hsplit, idxOf_append_of_mem hb, not_le]
      exact idxOf_lt_length_of_mem hb
    · rcases mem_append.mp hb with hb | hb
      · rw [of_decide_eq_true (mem_filter.mp hb).2]
      · obtain ⟨hb, -⟩ := mem_byKeys.mp hb
        have hnotbefore : key b ∉ before := fun hbad ↦ by
          rw [hsplit, nodup_append] at hkeys
          exact hkeys.2.2 _ hbad _ (mem_cons_of_mem _ hb) rfl
        rw [hindex, hsplit, idxOf_append_of_notMem hnotbefore]
        exact Nat.le_add_right _ _

end Keys

end Monero.Lib
