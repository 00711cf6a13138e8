import Monero.Epee.RollingHeaps

/-!
# Inserting keeps the rolling median in order

The invariant `Holds` ties the state to the values inserted since the last
`clear`: value number `j` is at index `j % N` of the buffer, for the last `N`
values, and both heaps are ordered from the median outwards.
-/

namespace Monero.Epee.RollingMedian

open Monero.Lib.Heap List Function

variable {α : Type*}

/-! ## Clearing -/

lemma fill_injective : Function.Injective fill := by
  intro a b hab
  rcases fill_eq a with ⟨_, ha⟩ | ⟨_, ha⟩ <;> rcases fill_eq b with ⟨_, hb⟩ | ⟨_, hb⟩ <;>
    rw [ha, hb] at hab <;> omega

lemma clearLoop_fields (n : ℕ) (rm : RollingMedian α) :
    (clearLoop n rm).N = rm.N ∧ (clearLoop n rm).data = rm.data ∧ (clearLoop n rm).idx = rm.idx ∧
      (clearLoop n rm).minCt = rm.minCt ∧ (clearLoop n rm).maxCt = rm.maxCt ∧
      (clearLoop n rm).sz = rm.sz := by
  induction n generalizing rm with
  | zero => simp [clearLoop]
  | succ n ih =>
    rw [clearLoop]
    exact ih _

lemma clearLoop_pos (n : ℕ) (rm : RollingMedian α) (k : ℕ) :
    (clearLoop n rm).pos k = if k < n then fill k else rm.pos k := by
  induction n generalizing rm with
  | zero => simp [clearLoop]
  | succ n ih =>
    rw [clearLoop, ih]
    by_cases hk : k = n
    · simp [hk]
    · have hiff : k < n + 1 ↔ k < n := by omega
      simp [hk, hiff]

lemma clearLoop_heap (n : ℕ) (rm : RollingMedian α) :
    (∀ k < n, (clearLoop n rm).heap (fill k) = k) ∧
      ∀ i, (∀ k < n, fill k ≠ i) → (clearLoop n rm).heap i = rm.heap i := by
  induction n generalizing rm with
  | zero => simp [clearLoop]
  | succ n ih =>
    rw [clearLoop]
    obtain ⟨hin, hout⟩ := ih { rm with
      pos := update rm.pos n (fill n)
      heap := update rm.heap (fill n) n }
    refine ⟨?_, ?_⟩
    · intro k hk
      rcases Nat.lt_or_ge k n with hlt | hge
      · exact hin k hlt
      · obtain rfl : k = n := by omega
        rw [hout (fill k) fun j hj heq ↦ hj.ne (fill_injective heq)]
        simp
    · intro i hi
      rw [hout i fun k hk ↦ hi k (by omega)]
      exact update_of_ne (hi n (by omega)).symm _ _

lemma exists_fill {N : ℕ} (hN : 1 ≤ N) {i : ℤ} (hlow : -((N / 2 : ℕ) : ℤ) ≤ i)
    (hhigh : i ≤ ((N - 1) / 2 : ℕ)) : ∃ k < N, fill k = i := by
  rcases lt_or_ge i 0 with hneg | hpos
  · refine ⟨2 * i.natAbs - 1, by omega, ?_⟩
    rcases fill_eq (2 * i.natAbs - 1) with ⟨_, heq⟩ | ⟨_, heq⟩ <;> rw [heq] <;> omega
  · refine ⟨2 * i.natAbs, by omega, ?_⟩
    rcases fill_eq (2 * i.natAbs) with ⟨_, heq⟩ | ⟨_, heq⟩ <;> rw [heq] <;> omega

lemma clear_N (rm : RollingMedian α) : rm.clear.N = rm.N := (clearLoop_fields _ _).1

/-- The state in which `insert` starts to sift: the item is stored and the
count of the heap that grows is raised. -/
def prepared (rm : RollingMedian α) (v : α) : RollingMedian α := { rm.store v with
    minCt := (min (rm.sz + 1) rm.N - 1) / 2
    maxCt := min (rm.sz + 1) rm.N / 2 }

variable {rm : RollingMedian α} {xs : List α} {i : ℕ}

lemma Linked.prepared (h : rm.Linked) (v : α) : (rm.prepared v).Linked := by
  refine ⟨h.heap_pos, h.pos_heap, h.heap_lt, h.inRange_pos, ?_, min_le_right _ _, rfl, rfl⟩
  intro k hsz hk
  have hsz' : min (rm.sz + 1) rm.N ≤ k := hsz
  have hk' : k < rm.N := hk
  exact h.unfilled k (by omega) hk

lemma prepared_view (h : rm.Linked) (hidx : rm.idx < rm.N) (v : α) {s : Side}
    (hi : rm.InRange (s.slot i)) :
    (rm.prepared v).view s i = if s.slot i = rm.pos rm.idx then v else rm.view s i := by
  change update rm.data rm.idx v (rm.heap (s.slot i)) = _
  by_cases hp : s.slot i = rm.pos rm.idx
  · rw [if_pos hp, hp, h.heap_pos _ hidx, update_self]
  · rw [if_neg hp]
    refine update_of_ne ?_ _ _
    intro heq
    rw [← heq, h.pos_heap _ hi] at hp
    exact hp rfl

lemma prepared_sz (hN : 1 ≤ rm.N) (v : α) : 1 ≤ (rm.prepared v).sz := by
  change 1 ≤ min (rm.sz + 1) rm.N
  omega

variable [LinearOrder α]

structure Holds (rm : RollingMedian α) (xs : List α) : Prop where
  linked : rm.Linked
  ordered : rm.HeapsOrdered
  idx_eq : rm.idx = xs.length % rm.N
  sz_eq : rm.sz = min xs.length rm.N
  data_eq : ∀ j, xs.length ≤ j + rm.N → j < xs.length → xs[j]? = some (rm.data (j % rm.N))

lemma clear_holds (rm : RollingMedian α) (hN : 1 ≤ rm.N) : rm.clear.Holds [] := by
  obtain ⟨hN', _, hidx, hmin, hmax, hsz⟩ :=
    clearLoop_fields rm.N { rm with idx := 0, minCt := 0, maxCt := 0, sz := 0 }
  obtain ⟨hheap, _⟩ := clearLoop_heap rm.N { rm with idx := 0, minCt := 0, maxCt := 0, sz := 0 }
  have hpos : ∀ k < rm.N, rm.clear.pos k = fill k := by
    intro k hk
    rw [clear, clearLoop_pos, if_pos hk]
  change ∀ k < rm.N, rm.clear.heap (fill k) = k at hheap
  change rm.clear.N = rm.N at hN'
  change rm.clear.idx = 0 at hidx
  change rm.clear.minCt = 0 at hmin
  change rm.clear.maxCt = 0 at hmax
  change rm.clear.sz = 0 at hsz
  have hslot : ∀ i, rm.clear.InRange i → ∃ k < rm.N, fill k = i := by
    intro i hi
    rw [InRange, hN'] at hi
    exact exists_fill hN hi.1 hi.2
  have hlinked : rm.clear.Linked := by
    refine ⟨?_, ?_, ?_, ?_, ?_, by omega, by omega, by omega⟩
    · intro k hk
      rw [hN'] at hk
      rw [hpos k hk, hheap k hk]
    · intro i hi
      obtain ⟨k, hk, rfl⟩ := hslot i hi
      rw [hheap k hk, hpos k hk]
    · intro i hi
      obtain ⟨k, hk, rfl⟩ := hslot i hi
      rwa [hheap k hk, hN']
    · intro k hk
      rw [hN'] at hk
      rw [hpos k hk, InRange, hN']
      rcases fill_eq k with ⟨_, heq⟩ | ⟨_, heq⟩ <;> rw [heq] <;> omega
    · intro k _ hk
      rw [hN'] at hk
      exact hpos k hk
  refine ⟨hlinked, ?_, by simpa using hidx, by simpa using hsz, by simp⟩
  intro s j hj hjn
  have hcount : rm.clear.count s = 0 := by cases s <;> assumption
  omega

lemma insertMax_eq (rm : RollingMedian α) (p : ℤ) :
    rm.insertMax p = insertSide .max rm p.natAbs := by
  simp only [insertMax, insertSide, maxSortUp, settle, sideCmpExch, Side.other, count, minSortDown]
  rfl

lemma insertMin_eq (h : rm.Linked) (hsz : 1 ≤ rm.sz) (hi : 1 ≤ i) (hin : i ≤ rm.minCt) :
    rm.insertMin i = insertSide .min rm i := by
  have hcount : (sortUp .min rm i).1.maxCt = rm.maxCt :=
    (sortUpLoop_sifted .min i h hsz hin).1.maxCt_eq
  obtain ⟨hmin, hmax⟩ := h.counts_eq
  have hne : (sortUp .min rm i).1.count Side.min.other ≠ 0 := by
    change (sortUp .min rm i).1.maxCt ≠ 0
    omega
  simp only [insertMin, insertSide, minSortUp, Int.natAbs_natCast, ne_eq, hne, not_false_eq_true,
    and_true]
  rfl

/-! ## Inserting -/

section Step

variable (h : rm.Holds xs) (hN : 1 ≤ rm.N) (v : α)
include h

lemma Holds.pos_idx (hgrow : rm.sz < rm.N) : rm.pos rm.idx = fill rm.sz := by
  have hsz := h.sz_eq
  have hidx : rm.idx = rm.sz := by
    rw [h.idx_eq, Nat.mod_eq_of_lt (by omega)]
    omega
  rw [hidx]
  exact h.linked.unfilled _ le_rfl hgrow

variable {s : Side}

lemma Holds.grow_count (hgrow : rm.sz < rm.N) (hp : rm.pos rm.idx = s.slot i) (hi : 1 ≤ i) :
    i = rm.count s + 1 ∧ (rm.prepared v).count s = rm.count s + 1 ∧
      (rm.prepared v).count s.other = rm.count s.other := by
  have hfill := h.pos_idx hgrow
  rw [hp] at hfill
  obtain ⟨hmin, hmax⟩ := h.linked.counts_eq
  rcases fill_eq rm.sz with ⟨_, heq⟩ | ⟨_, heq⟩ <;> rw [heq] at hfill <;> cases s <;>
    simp only [Side.slot, Side.other, count, prepared] at * <;> omega

lemma Holds.full_count (hfull : rm.sz = rm.N) (s : Side) :
    (rm.prepared v).count s = rm.count s := by
  obtain ⟨hmin, hmax⟩ := h.linked.counts_eq
  cases s <;> simp only [count, prepared] <;> omega

include hN

lemma Holds.idx_lt : rm.idx < rm.N := by
  rw [h.idx_eq]
  exact Nat.mod_lt _ hN

lemma Holds.prepared_view_eq {t : Side} {j : ℕ} (hp : rm.pos rm.idx = s.slot i)
    (hj : j ≤ rm.count t) (hne : t.slot j ≠ s.slot i) :
    (rm.prepared v).view t j = rm.view t j := by
  rw [prepared_view h.linked (h.idx_lt hN) v (h.linked.inRange_slot hj), hp, if_neg hne]

lemma Holds.prepared_other (hp : rm.pos rm.idx = s.slot i) (hi : 1 ≤ i)
    (hcount : (rm.prepared v).count s.other = rm.count s.other) :
    Ordered s.other.le ((rm.prepared v).view s.other) ((rm.prepared v).count s.other) := by
  rw [hcount]
  refine (h.ordered s.other).congr fun j hj ↦ ?_
  refine h.prepared_view_eq hN v hp hj ?_
  rcases Nat.eq_zero_or_pos j with hzero | hpos
  · rw [hzero, Side.slot_zero, ← s.slot_zero, Ne, s.slot_inj]
    omega
  · exact s.slot_other_ne hpos

lemma Holds.grow_spec (hgrow : rm.sz < rm.N) (hp : rm.pos rm.idx = s.slot i) (hi : 1 ≤ i) :
    Restored (rm.prepared v) (insertSide s (rm.prepared v) i) := by
  obtain ⟨hcount, hs, hother⟩ := h.grow_count v hgrow hp hi
  refine insertSide_spec s (h.linked.prepared v) (prepared_sz hN v) hi (by omega) ?_
    (h.prepared_other hN v hp hi hother)
  rw [hs, hcount]
  refine (h.ordered s).upReady_succ fun j hj ↦ h.prepared_view_eq hN v hp hj ?_
  rw [Ne, s.slot_inj]
  omega

section

variable (hfull : rm.sz = rm.N) (hp : rm.pos rm.idx = s.slot i)

include hfull hp

lemma Holds.full_slot_le : i ≤ rm.count s := by
  have hrange := h.linked.inRange_pos _ (h.idx_lt hN)
  obtain ⟨hmin, hmax⟩ := h.linked.counts_eq
  rw [hp] at hrange
  cases s <;> simp only [InRange, Side.slot, count] at * <;> omega

lemma Holds.full_view : (rm.prepared v).view s i = v ∧ rm.view s i = rm.data rm.idx ∧
      ∀ j ≤ rm.count s, j ≠ i → (rm.prepared v).view s j = rm.view s j := by
  have hidx := h.idx_lt hN
  refine ⟨?_, ?_, ?_⟩
  · rw [prepared_view h.linked hidx v (h.linked.inRange_slot (h.full_slot_le hN hfull hp)), hp,
      if_pos rfl]
  · rw [view, ← hp, h.linked.heap_pos _ hidx]
  · intro j hj hji
    refine h.prepared_view_eq hN v hp hj ?_
    rwa [Ne, s.slot_inj]

lemma Holds.replace_up_spec (hi : 1 ≤ i) (hle : s.le v (rm.data rm.idx)) :
    Restored (rm.prepared v) (insertSide s (rm.prepared v) i) := by
  have hcount := h.full_count v hfull
  have hin := h.full_slot_le hN hfull hp
  obtain ⟨hnew, hold, hsame⟩ := h.full_view hN v hfull hp
  refine insertSide_spec s (h.linked.prepared v) (prepared_sz hN v) hi
    (by rw [hcount]; exact hin) ?_ (h.prepared_other hN v hp hi (hcount _))
  rw [hcount]
  refine (h.ordered s).upReady_update hi hin hsame ?_
  rw [hnew, hold]
  exact hle

lemma Holds.replace_down_spec (hi : 1 ≤ i) (hle : s.le (rm.data rm.idx) v) :
    Restored (rm.prepared v) (sortDown s (rm.prepared v) i) := by
  have hcount := h.full_count v hfull
  have hin := h.full_slot_le hN hfull hp
  obtain ⟨hnew, hold, hsame⟩ := h.full_view hN v hfull hp
  have hsift := sortDownLoop_sifted s ((rm.prepared v).count s + 1) (h.linked.prepared v)
    (prepared_sz hN v) (i := 2 * i) (by omega)
  have hready : DownReady s.le ((rm.prepared v).view s) (rm.count s) i := by
    refine (h.ordered s).downReady_update hi hin hsame ?_
    rw [hnew, hold]
    exact hle
  change Sifted s _ (sortDown s (rm.prepared v) i) _ at hsift
  refine ⟨hsift.toReshaped, heapsOrdered_of_side s ?_ ?_⟩
  · rw [hsift.view_eq, hsift.count_eq, hcount]
    exact siftDown_ordered _ hready hi (by omega)
  · have hbefore := h.prepared_other hN v hp hi (hcount _)
    rw [hsift.count_eq]
    refine hbefore.of_root (fun j hj _ ↦ hsift.other_eq j hj) fun hone ↦ ?_
    rw [view_zero _ s.other s, hsift.view_eq, siftDown_of_lt _ _ hi, view_zero _ s s.other]
    exact hbefore 1 le_rfl hone

end

lemma Holds.median_spec (hp : rm.pos rm.idx = 0)
    (hcount : ∀ s, (rm.prepared v).count s = rm.count s) :
    Restored (rm.prepared v) (rm.prepared v).insertMedian := by
  have hsame : ∀ s : Side, ∀ j, 1 ≤ j → j ≤ rm.count s →
      (rm.prepared v).view s j = rm.view s j := by
    intro s j hj hjn
    refine h.prepared_view_eq hN v (s := s) (i := 0) (by rw [hp, s.slot_zero]) hjn ?_
    rw [Ne, s.slot_inj]
    omega
  refine insertMedian_spec (h.linked.prepared v) (prepared_sz hN v) ?_ ?_
  · intro s j hj hjn
    rw [hcount] at hjn
    rw [hsame s j (by omega) hjn, hsame s (j / 2) (by omega) (by omega)]
    exact h.ordered s j (by omega) hjn
  · intro hmax hmin
    have hmax' : 1 ≤ rm.count .max := (hcount .max) ▸ hmax
    have hmin' : 1 ≤ rm.count .min := (hcount .min) ▸ hmin
    rw [hsame .max 1 le_rfl hmax', hsame .min 1 le_rfl hmin']
    have hlow : rm.view .max 1 ≤ rm.view .max 0 := h.ordered .max 1 le_rfl hmax'
    have hhigh : rm.view .min 0 ≤ rm.view .min 1 := h.ordered .min 1 le_rfl hmin'
    rw [view_zero _ .max .min] at hlow
    exact hlow.trans hhigh

/-! ## The three branches of `insert` -/

omit hN in
lemma Holds.store_eq (hfull : rm.sz = rm.N) : rm.store v = rm.prepared v := by
  obtain ⟨hmin, hmax⟩ := h.linked.counts_eq
  simp only [store, RollingMedian.prepared, mk.injEq, true_and, and_true]
  omega

lemma Holds.insert_max (hi : 1 ≤ i) (hp : rm.pos rm.idx = Side.max.slot i) :
    Restored (rm.prepared v) (rm.insert v) := by
  obtain ⟨hmin, hmax⟩ := h.linked.counts_eq
  have hpi : rm.pos rm.idx = -(i : ℤ) := hp
  have hneg : -(i : ℤ) < 0 := by omega
  rw [insert]
  simp only [hpi, not_lt_of_gt hneg, hneg, if_true, if_false, insertMax_eq, maxSortDown,
    Int.natAbs_neg, Int.natAbs_natCast]
  rcases h.linked.sz_le.lt_or_eq with hlt | hfull
  · -- the slots of the max heap are filled at the odd counts
    have hfill := h.pos_idx hlt
    have hodd : rm.sz % 2 = 1 := by
      rcases fill_eq rm.sz with ⟨hodd, _⟩ | ⟨_, heq⟩
      · exact hodd
      · rw [heq] at hfill
        omega
    have hprep : { rm.store v with maxCt := (rm.store v).maxCt + 1 } = rm.prepared v := by
      simp only [store, RollingMedian.prepared, mk.injEq, true_and, and_true]
      omega
    rw [if_pos (by change rm.maxCt < rm.N / 2; omega), hprep]
    exact h.grow_spec hN v hlt hp hi
  · rw [if_neg (by change ¬rm.maxCt < rm.N / 2; omega), h.store_eq v hfull]
    split_ifs with hlt
    · exact h.replace_down_spec hN v hfull hp hi hlt.le
    · exact h.replace_up_spec hN v hfull hp hi (not_lt.mp hlt)

lemma Holds.insert_min (hi : 1 ≤ i) (hp : rm.pos rm.idx = Side.min.slot i) :
    Restored (rm.prepared v) (rm.insert v) := by
  obtain ⟨hmin, hmax⟩ := h.linked.counts_eq
  have hpi : rm.pos rm.idx = (i : ℤ) := hp
  have hpos : 0 < (i : ℤ) := by omega
  have hside : i ≤ (rm.prepared v).minCt →
      (rm.prepared v).insertMin i = insertSide .min (rm.prepared v) i :=
    insertMin_eq (h.linked.prepared v) (prepared_sz hN v) hi
  rw [insert]
  simp only [hpi, hpos, if_true, minSortDown, Int.natAbs_natCast]
  rcases h.linked.sz_le.lt_or_eq with hlt | hfull
  · have hfill := h.pos_idx hlt
    have heven : rm.sz % 2 = 0 ∧ rm.sz = 2 * i := by
      rcases fill_eq rm.sz with ⟨_, heq⟩ | ⟨_, heq⟩ <;> rw [heq] at hfill <;> omega
    have hprep : { rm.store v with minCt := (rm.store v).minCt + 1 } = rm.prepared v := by
      simp only [store, RollingMedian.prepared, mk.injEq, true_and, and_true]
      omega
    obtain ⟨hcount, hs, _⟩ := h.grow_count v hlt hp hi
    rw [if_pos (by change rm.minCt < (rm.N - 1) / 2; omega), hprep,
      hside (hcount.trans hs.symm).le]
    exact h.grow_spec hN v hlt hp hi
  · have hin := h.full_slot_le hN hfull hp
    rw [if_neg (by change ¬rm.minCt < (rm.N - 1) / 2; omega), h.store_eq v hfull,
      hside (hin.trans (h.full_count v hfull .min).ge)]
    split_ifs with hlt
    · exact h.replace_down_spec hN v hfull hp hi hlt.le
    · exact h.replace_up_spec hN v hfull hp hi (not_lt.mp hlt)

lemma Holds.insert_median (hp : rm.pos rm.idx = 0) : Restored (rm.prepared v) (rm.insert v) := by
  obtain ⟨hmin, hmax⟩ := h.linked.counts_eq
  have hcounts : rm.minCt = (rm.prepared v).minCt ∧ rm.maxCt = (rm.prepared v).maxCt := by
    simp only [RollingMedian.prepared]
    rcases h.linked.sz_le.lt_or_eq with hlt | hfull
    · have hfill := h.pos_idx hlt
      rcases fill_eq rm.sz with ⟨_, heq⟩ | ⟨_, heq⟩ <;> rw [heq] at hfill <;> omega
    · omega
  have hprep : rm.store v = rm.prepared v := by
    simp only [store, RollingMedian.prepared, mk.injEq, true_and, and_true] at hcounts ⊢
    exact hcounts
  rw [insert]
  simp only [hp, lt_irrefl, if_false]
  rw [hprep]
  refine h.median_spec hN v hp fun s ↦ ?_
  cases s
  · exact hcounts.1.symm
  · exact hcounts.2.symm

lemma Holds.insert_spec : Restored (rm.prepared v) (rm.insert v) := by
  rcases lt_trichotomy (rm.pos rm.idx) 0 with hneg | hzero | hpos
  · refine h.insert_max hN v (i := (rm.pos rm.idx).natAbs) (by omega) ?_
    simp only [Side.slot]
    omega
  · exact h.insert_median hN v hzero
  · refine h.insert_min hN v (i := (rm.pos rm.idx).natAbs) (by omega) ?_
    simp only [Side.slot]
    omega

end Step

section

variable (h : rm.Holds xs) (hN : 1 ≤ rm.N)

include h hN

lemma insert_N (v : α) : (rm.insert v).N = rm.N :=
  (h.insert_spec hN v).1.N_eq

lemma Holds.insert (v : α) : (rm.insert v).Holds (xs ++ [v]) := by
  obtain ⟨hshape, hord⟩ := h.insert_spec hN v
  refine ⟨hshape.linked, hord, ?_, ?_, ?_⟩
  · rw [hshape.idx_eq, hshape.N_eq]
    change (rm.idx + 1) % rm.N = (xs ++ [v]).length % rm.N
    rw [h.idx_eq, length_append, length_singleton, Nat.mod_add_mod]
  · rw [hshape.sz_eq, hshape.N_eq, length_append, length_singleton]
    change min (rm.sz + 1) rm.N = min (xs.length + 1) rm.N
    rw [h.sz_eq]
    omega
  · intro j hlow hj
    rw [hshape.N_eq, length_append, length_singleton] at hlow
    rw [length_append, length_singleton] at hj
    have hlow' : xs.length + 1 ≤ j + rm.N := hlow
    rw [hshape.N_eq, hshape.data_eq]
    change (xs ++ [v])[j]? = some (update rm.data rm.idx v (j % rm.N))
    rw [h.idx_eq]
    rcases Nat.lt_or_ge j xs.length with hlt | hge
    · -- the last `N - 1` values before the new one keep their places in the buffer
      have hne : j % rm.N ≠ xs.length % rm.N := by
        intro heq
        have hdvd := (Nat.modEq_iff_dvd' hlt.le).mp heq
        exact absurd (Nat.le_of_dvd (by omega) hdvd) (by omega)
      rw [update_of_ne hne, getElem?_append_left hlt]
      exact h.data_eq j (by omega) hlt
    · obtain rfl : j = xs.length := by omega
      rw [update_self, getElem?_concat_length]

lemma Holds.foldl_insert (values : List α) :
    (values.foldl RollingMedian.insert rm).Holds (xs ++ values) ∧
      (values.foldl RollingMedian.insert rm).N = rm.N := by
  induction values generalizing rm xs with
  | nil => simpa using h
  | cons v values ih =>
    have hstep := insert_N h hN v
    obtain ⟨hholds, hN'⟩ := ih (h.insert hN v) (by rw [hstep]; exact hN)
    rw [append_assoc] at hholds
    exact ⟨hholds, hN'.trans hstep⟩

end

open Monero.Lib

variable {α : Type*}

/-! ## The median slot splits the window -/

/-- The slots in use, from the outermost of the max heap outwards from the
median, the median slot, and the min heap. -/
def slots (rm : RollingMedian α) : List ℤ :=
  (range rm.maxCt).map (fun i ↦ Side.max.slot (i + 1)) ++
    0 :: (range rm.minCt).map (fun i ↦ Side.min.slot (i + 1))

lemma slots_nodup (rm : RollingMedian α) : rm.slots.Nodup := by
  have hrange : ∀ s : Side, ∀ n, ((range n).map fun i ↦ s.slot (i + 1)).Nodup := by
    intro s n
    refine nodup_range.map fun i j hij ↦ ?_
    have := s.slot_inj.mp hij
    omega
  refine nodup_append.mpr ⟨hrange .max _, nodup_cons.mpr ⟨?_, hrange .min _⟩, ?_⟩
  · simp only [mem_map, mem_range, Side.slot]
    rintro ⟨i, _, hi⟩
    omega
  · intro a ha b hb
    simp only [mem_map, mem_range, mem_cons, Side.slot] at ha hb
    obtain ⟨i, _, rfl⟩ := ha
    rcases hb with rfl | ⟨j, _, rfl⟩ <;> omega

variable {rm : RollingMedian α} {xs : List α}

lemma mem_slots {i : ℤ} (hi : i ∈ rm.slots) : ∃ s : Side, ∃ j ≤ rm.count s, i = s.slot j := by
  simp only [slots, mem_append, mem_map, mem_range, mem_cons] at hi
  rcases hi with ⟨j, hj, rfl⟩ | rfl | ⟨j, hj, rfl⟩
  · exact ⟨.max, j + 1, hj, rfl⟩
  · exact ⟨.min, 0, Nat.zero_le _, rfl⟩
  · exact ⟨.min, j + 1, hj, rfl⟩

lemma Linked.heap_slots_perm (h : rm.Linked) (hsz : 1 ≤ rm.sz) :
    (rm.slots.map rm.heap).Perm (range rm.sz) := by
  refine perm_range_of_nodup ?_ ?_ ?_
  · refine rm.slots_nodup.map_on fun a ha b hb hab ↦ ?_
    obtain ⟨s, i, hi, rfl⟩ := mem_slots ha
    obtain ⟨t, j, hj, rfl⟩ := mem_slots hb
    rw [← h.pos_heap _ (h.inRange_slot hi), ← h.pos_heap _ (h.inRange_slot hj), hab]
  · intro k hk
    obtain ⟨i, hi, rfl⟩ := mem_map.mp hk
    obtain ⟨s, j, hj, rfl⟩ := mem_slots hi
    exact h.heap_slot_lt hsz hj
  · obtain ⟨hmin, hmax⟩ := h.counts_eq
    simp only [slots, length_map, length_append, length_cons, length_range]
    omega

variable [LinearOrder α]

section

variable (h : rm.Holds xs)

include h

lemma Holds.window_eq : xs.rtake rm.N =
      ((range rm.sz).map fun t ↦ (xs.length - rm.sz + t) % rm.N).map rm.data := by
  have hsz := h.sz_eq
  refine ext_getElem? fun t ↦ ?_
  rw [rtake, getElem?_drop, map_map, getElem?_map]
  rcases Nat.lt_or_ge t rm.sz with hlt | hge
  · rw [getElem?_range hlt, Option.map_some, comp_apply,
      show xs.length - rm.N = xs.length - rm.sz by omega]
    exact h.data_eq _ (by omega) (by omega)
  · rw [getElem?_eq_none (by omega), getElem?_eq_none (by simpa using hge)]
    rfl

lemma Holds.window_perm (hN : 1 ≤ rm.N) :
    (xs.rtake rm.N).Perm ((range rm.sz).map rm.data) := by
  have hsz := h.sz_eq
  rw [h.window_eq]
  refine (perm_range_of_nodup ?_ ?_ (by simp)).map _
  · refine nodup_range.map_on fun a ha b hb hab ↦ ?_
    have ha' := mem_range.mp ha
    have hb' := mem_range.mp hb
    have hmod : a ≡ b [MOD rm.N] := Nat.ModEq.add_left_cancel' _ hab
    exact hmod.eq_of_lt_of_lt (by omega) (by omega)
  · intro k hk
    obtain ⟨t, ht, rfl⟩ := mem_map.mp hk
    have ht' := mem_range.mp ht
    rcases Nat.lt_or_ge xs.length rm.N with hlt | hge
    · rw [Nat.mod_eq_of_lt (by omega)]
      omega
    · rw [hsz, min_eq_right hge]
      exact Nat.mod_lt _ hN

lemma Holds.split_perm (hN : 1 ≤ rm.N) (hxs : xs ≠ []) : (xs.rtake rm.N).Perm
      ((range rm.maxCt).map (fun i ↦ rm.view .max (i + 1)) ++
        rm.view .min 0 :: (range rm.minCt).map fun i ↦ rm.view .min (i + 1)) := by
  have hsz : 1 ≤ rm.sz := by
    have hlen := length_pos_iff.mpr hxs
    have := h.sz_eq
    omega
  have hslots := ((h.linked.heap_slots_perm hsz).map rm.data).symm
  refine (h.window_perm hN).trans (hslots.trans (Perm.of_eq ?_))
  simp [slots, view, comp_def]

lemma Holds.max_le (hi : i < rm.maxCt) :
    rm.view .max (i + 1) ≤ rm.view .max 1 ∧ rm.view .max 1 ≤ rm.view .min 0 := by
  refine ⟨(h.ordered .max).root (by omega) hi, ?_⟩
  rw [view_zero _ .min .max]
  exact h.ordered .max 1 le_rfl (by change 1 ≤ rm.maxCt; omega)

lemma Holds.le_min (hi : i < rm.minCt) : rm.view .min 0 ≤ rm.view .min (i + 1) := by
  have hroot : rm.view .min 0 ≤ rm.view .min 1 :=
    h.ordered .min 1 le_rfl (by change 1 ≤ rm.minCt; omega)
  exact hroot.trans ((h.ordered .min).root (by omega) hi)

lemma Holds.median_eq [AddCommMagma α] [Sub α] [Mul α] [Div α] [OfNat α 2] [Zero α]
    (hN : 1 ≤ rm.N) (hxs : xs ≠ []) : rm.median = Epee.median (xs.rtake rm.N) := by
  have hsplit := h.split_perm hN hxs
  obtain ⟨hmin, hmax⟩ := h.linked.counts_eq
  have hU : ∀ b ∈ (range rm.minCt).map (fun i ↦ rm.view .min (i + 1)), rm.view .min 0 ≤ b := by
    intro b hb
    obtain ⟨i, hi, rfl⟩ := mem_map.mp hb
    exact h.le_min (mem_range.mp hi)
  -- the max heap has one more item exactly when the count is even
  rcases Nat.lt_or_ge rm.minCt rm.maxCt with hlt | hge
  · obtain ⟨n, hn⟩ : ∃ n, rm.maxCt = n + 1 := ⟨rm.maxCt - 1, by omega⟩
    rw [hn, range_succ_eq_map, map_cons, map_map, cons_append] at hsplit
    have hperm := hsplit.trans perm_middle.symm
    rw [RollingMedian.median, if_pos hlt, getMid_comm]
    refine (median_of_split_even hperm ?_ ?_ hU ?_).symm
    · intro a ha
      obtain ⟨i, hi, rfl⟩ := mem_map.mp ha
      exact (h.max_le (by have := mem_range.mp hi; omega)).1
    · exact (h.max_le (i := 0) (by omega)).2
    · simp only [length_map, length_range]
      omega
  · rw [RollingMedian.median, if_neg (not_lt.mpr hge)]
    refine (median_of_split_odd hsplit ?_ hU ?_).symm
    · intro a ha
      obtain ⟨i, hi, rfl⟩ := mem_map.mp ha
      have hi' := h.max_le (mem_range.mp hi)
      exact hi'.1.trans hi'.2
    · simp only [length_map, length_range]
      omega

end

/-! ## Whole runs -/

inductive Op (α : Type*) where
  | insert (v : α)
  | clear

def step (rm : RollingMedian α) : Op α → RollingMedian α
  | .insert v => rm.insert v
  | .clear => rm.clear

def run (rm : RollingMedian α) (ops : List (Op α)) : RollingMedian α := ops.foldl step rm

/-- The values inserted since the last `clear`, from `xs` on. -/
def insertedFrom (xs : List α) : List (Op α) → List α
  | [] => xs
  | .insert v :: ops => insertedFrom (xs ++ [v]) ops
  | .clear :: ops => insertedFrom [] ops

def inserted (ops : List (Op α)) : List α := insertedFrom [] ops

lemma Holds.run (h : rm.Holds xs) (hN : 1 ≤ rm.N) (ops : List (Op α)) :
    (rm.run ops).Holds (insertedFrom xs ops) ∧ (rm.run ops).N = rm.N := by
  induction ops generalizing rm xs with
  | nil => exact ⟨h, rfl⟩
  | cons op ops ih =>
    cases op with
    | insert v =>
      have hstep := insert_N h hN v
      obtain ⟨hrun, hN'⟩ := ih (h.insert hN v) (by rw [hstep]; exact hN)
      exact ⟨hrun, hN'.trans hstep⟩
    | clear =>
      have hstep := clear_N rm
      obtain ⟨hrun, hN'⟩ := ih (clear_holds rm hN) (by rw [hstep]; exact hN)
      exact ⟨hrun, hN'.trans hstep⟩

end Monero.Epee.RollingMedian
