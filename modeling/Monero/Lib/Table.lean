import Mathlib

/-!
# Tables sorted by key

A table is a list of rows strictly increasing in the key.  A row is added at
the end, where its key has to be above all others, or at its place, where its
key has to be new; `Added` is what the two have in common.
-/

namespace Monero.Lib

open List
open Option (ext)

structure Table (K V : Type*) [LinearOrder K] where
  rows : List (K × V)
  sorted : rows.Pairwise fun r s ↦ r.1 < s.1

namespace Table

variable {K V : Type*} [LinearOrder K]

def empty : Table K V := ⟨[], List.Pairwise.nil⟩

variable (t : Table K V)

def count : ℕ := t.rows.length

def keys : List K := t.rows.map Prod.fst

def get? (k : K) : Option V := (t.rows.find? fun r ↦ r.1 = k).map Prod.snd

def last? : Option (K × V) := t.rows.getLast?

def erase (k : K) : Table K V := ⟨t.rows.filter fun r ↦ r.1 ≠ k, t.sorted.filter _⟩

def filter (t : Table K V) (p : V → Bool) : Table K V :=
  ⟨t.rows.filter fun r ↦ p r.2, t.sorted.filter _⟩

/-- `none` when the key is not above all keys of the table. -/
def append? (k : K) (v : V) : Option (Table K V) :=
  if h : ∀ r ∈ t.rows, r.1 < k then
    some ⟨t.rows ++ [(k, v)], by
      rw [pairwise_append]
      exact ⟨t.sorted, pairwise_singleton _ _, fun r hr s hs ↦ by
        rw [List.mem_singleton.mp hs]
        exact h r hr⟩⟩
  else none

def insertRow (k : K) (v : V) : List (K × V) → List (K × V)
  | [] => [(k, v)]
  | r :: rows => if k < r.1 then (k, v) :: r :: rows else r :: insertRow k v rows

variable {k : K} {v : V} {rows : List (K × V)} {t : Table K V}

lemma mem_insertRow {r : K × V} : r ∈ insertRow k v rows ↔ r = (k, v) ∨ r ∈ rows := by
  induction rows with
  | nil => simp [insertRow]
  | cons s rows ih =>
    rw [insertRow]
    split_ifs
    · simp
    · rw [mem_cons, ih, mem_cons]
      exact or_left_comm

lemma insertRow_sorted (v : V) (hsorted : rows.Pairwise fun r s ↦ r.1 < s.1)
    (hnew : ∀ r ∈ rows, r.1 ≠ k) : (insertRow k v rows).Pairwise fun r s ↦ r.1 < s.1 := by
  induction rows with
  | nil => exact pairwise_singleton _ _
  | cons s rows ih =>
    obtain ⟨habove, hrest⟩ := pairwise_cons.mp hsorted
    rw [insertRow]
    split_ifs with hlt
    · apply pairwise_cons.mpr
      refine ⟨fun r hr ↦ ?_, hsorted⟩
      rcases mem_cons.mp hr with rfl | hr
      · exact hlt
      · exact hlt.trans (habove r hr)
    · apply pairwise_cons.mpr
      refine ⟨fun r hr ↦ ?_, ih hrest fun r hr ↦ hnew r (mem_cons_of_mem s hr)⟩
      rcases mem_insertRow.mp hr with rfl | hr
      · exact lt_of_le_of_ne (not_lt.mp hlt) (hnew s mem_cons_self)
      · exact habove r hr

lemma insertRow_eq_append (v : V) (h : ∀ r ∈ rows, r.1 < k) :
    insertRow k v rows = rows ++ [(k, v)] := by
  induction rows with
  | nil => rfl
  | cons s rows ih =>
    have hs : ¬ k < s.1 := (h s mem_cons_self).not_gt
    rw [insertRow, if_neg hs, ih fun r hr ↦ h r (mem_cons_of_mem s hr), cons_append]

/-- `none` when the key is in the table. -/
def insert? (k : K) (v : V) : Option (Table K V) :=
  if h : ∀ r ∈ t.rows, r.1 ≠ k then some ⟨insertRow k v t.rows, insertRow_sorted v t.sorted h⟩
  else none

/-- The row of `k` replaced, or added where there is none. -/
def set (k : K) (v : V) : Table K V :=
  ⟨insertRow k v (t.erase k).rows, insertRow_sorted v (t.erase k).sorted fun _ hr ↦
    of_decide_eq_true (List.mem_filter.mp hr).2⟩

/-! ## Looking up -/

lemma get?_eq_some_iff : t.get? k = some v ↔ (k, v) ∈ t.rows := by
  obtain ⟨rows, hsorted⟩ := t
  simp only [get?]
  induction rows with
  | nil => simp
  | cons r rows ih =>
    obtain ⟨habove, hrest⟩ := pairwise_cons.mp hsorted
    rw [find?_cons]
    by_cases hk : r.1 = k
    · have hnot : (k, v) ∉ rows := fun hmem ↦ (habove _ hmem).ne hk
      simp only [hk, decide_true, Option.map_some, Option.some_inj, mem_cons, hnot, or_false]
      constructor
      · rintro rfl
        exact Prod.ext hk.symm rfl
      · rintro rfl
        rfl
    · have hne : (k, v) ≠ r := fun h ↦ hk (h ▸ rfl)
      simp only [hk, decide_false, mem_cons, hne, false_or]
      exact ih hrest

lemma get?_eq_none_iff : t.get? k = none ↔ ∀ r ∈ t.rows, r.1 ≠ k := by
  rw [Option.eq_none_iff_forall_ne_some]
  constructor
  · rintro h r hr rfl
    exact h r.2 (get?_eq_some_iff.mpr hr)
  · intro h v hv
    exact h _ (get?_eq_some_iff.mp hv) rfl

lemma ext_get {u : Table K V} (h : ∀ k, t.get? k = u.get? k) : t = u := by
  have hrows : ∀ r, r ∈ t.rows ↔ r ∈ u.rows := by
    rintro ⟨k, v⟩
    rw [← get?_eq_some_iff, ← get?_eq_some_iff, h]
  have hnodup : ∀ t : Table K V, t.rows.Nodup :=
    fun t ↦ t.sorted.imp fun h heq ↦ h.ne (congrArg Prod.fst heq)
  have hperm : t.rows.Perm u.rows := (perm_ext_iff_of_nodup (hnodup t) (hnodup u)).mpr hrows
  have heq : t.rows = u.rows :=
    hperm.eq_of_pairwise (fun r s _ _ hrs hsr ↦ absurd (hrs.trans hsr) (lt_irrefl _)) t.sorted
      u.sorted
  cases t
  cases u
  cases heq
  rfl

lemma get?_erase (t : Table K V) (k x : K) :
    (t.erase k).get? x = if x = k then none else t.get? x := by
  apply ext
  intro v
  rw [get?_eq_some_iff, erase]
  simp only [mem_filter, decide_eq_true_eq]
  split_ifs with hx
  · simp [hx]
  · rw [get?_eq_some_iff]
    exact and_iff_left hx

@[simp] lemma get?_empty (k : K) : (empty : Table K V).get? k = none := rfl

lemma get?_set (t : Table K V) (k : K) (v : V) (x : K) :
    (t.set k v).get? x = if x = k then some v else t.get? x := by
  apply ext
  intro w
  rw [get?_eq_some_iff, set, mem_insertRow, ← get?_eq_some_iff, get?_erase]
  split_ifs with hx
  · simp [hx, eq_comm]
  · simp [hx]

lemma map_get?_update {t t' : Table K V} {k : K} {o : Option V} {W : Type*}
    (h : ∀ x, t'.get? x = if x = k then o else t.get? x) (f : V → W) :
    (fun x ↦ (t'.get? x).map f) = Function.update (fun x ↦ (t.get? x).map f) k (o.map f) := by
  funext x
  rw [h, Function.update_apply, apply_ite (Option.map f)]

lemma mem_keys_iff : k ∈ t.keys ↔ (t.get? k).isSome := by
  rw [keys, mem_map, Option.isSome_iff_exists]
  constructor
  · rintro ⟨r, hr, rfl⟩
    exact ⟨r.2, get?_eq_some_iff.mpr hr⟩
  · rintro ⟨v, hv⟩
    exact ⟨(k, v), get?_eq_some_iff.mp hv, rfl⟩

lemma keys_sorted (t : Table K V) : t.keys.Pairwise (· < ·) := pairwise_map.mpr t.sorted

lemma keys_nodup (t : Table K V) : t.keys.Nodup := t.keys_sorted.imp ne_of_lt

lemma keys_eq_of_isSome {W : Type*} {u : Table K W}
    (h : ∀ k, (t.get? k).isSome ↔ (u.get? k).isSome) : t.keys = u.keys := by
  have hperm : t.keys.Perm u.keys := by
    rw [perm_ext_iff_of_nodup t.keys_nodup u.keys_nodup]
    intro k
    rw [mem_keys_iff, mem_keys_iff, h]
  exact hperm.eq_of_pairwise (fun k l _ _ hkl hlk ↦ absurd (hkl.trans hlk) (lt_irrefl k))
    t.keys_sorted u.keys_sorted

/-! ## Sums over the rows -/

def total (f : V → ℕ) (t : Table K V) : ℕ := (t.rows.map fun r ↦ f r.2).sum

lemma total_erase (f : V → ℕ) (h : t.get? k = some v) : t.total f = f v + (t.erase k).total f := by
  obtain ⟨rows, hsorted⟩ := t
  rw [get?_eq_some_iff] at h
  simp only [total, erase]
  induction rows with
  | nil => cases h
  | cons r rows ih =>
    obtain ⟨habove, hrest⟩ := pairwise_cons.mp hsorted
    rcases mem_cons.mp h with rfl | h
    · have hkept : rows.filter (fun r ↦ decide (r.1 ≠ k)) = rows := by
        apply filter_eq_self.mpr
        exact fun r hr ↦ decide_eq_true (habove r hr).ne'
      rw [filter_cons_of_neg (by simp), hkept]
      rfl
    · have hne : r.1 ≠ k := (habove _ h).ne
      rw [filter_cons_of_pos (by simpa using hne), map_cons, sum_cons, ih hrest h,
        map_cons, sum_cons]
      exact Nat.add_left_comm _ _ _

/-! ## Adding a row -/

/-- `t'` is `t` with one more row. -/
structure Added (t : Table K V) (k : K) (v : V) (t' : Table K V) : Prop where
  fresh : t.get? k = none
  get : ∀ x, t'.get? x = if x = k then some v else t.get? x

section Added

variable {t' : Table K V}

lemma append?_eq_some (h : t.append? k v = some t') :
    (∀ r ∈ t.rows, r.1 < k) ∧ t'.rows = t.rows ++ [(k, v)] := by
  rw [append?] at h
  split_ifs at h with habove
  cases h
  exact ⟨habove, rfl⟩

lemma append?_of_forall_lt (v : V) (h : ∀ r ∈ t.rows, r.1 < k) : ∃ t', t.append? k v = some t' :=
  ⟨_, dif_pos h⟩

lemma added_of_append (h : t.append? k v = some t') : t.Added k v t' := by
  obtain ⟨habove, hrows⟩ := append?_eq_some h
  have hfresh : t.get? k = none := get?_eq_none_iff.mpr fun r hr ↦ (habove r hr).ne
  refine ⟨hfresh, fun x ↦ ext fun w ↦ ?_⟩
  rw [get?_eq_some_iff, hrows, mem_append, mem_singleton, ← get?_eq_some_iff]
  split_ifs with hx
  · subst hx
    simp [hfresh, eq_comm]
  · simp [hx]

lemma added_of_insert (h : t.insert? k v = some t') : t.Added k v t' := by
  rw [insert?] at h
  split_ifs at h with hnew
  cases h
  have hfresh : t.get? k = none := get?_eq_none_iff.mpr hnew
  refine ⟨hfresh, fun x ↦ ext fun w ↦ ?_⟩
  rw [get?_eq_some_iff, mem_insertRow, ← get?_eq_some_iff]
  split_ifs with hx
  · subst hx
    simp [hfresh, eq_comm]
  · simp [hx]

section

variable (h : t.Added k v t')

include h

lemma Added.get_self : t'.get? k = some v := by
  rw [h.get, if_pos rfl]

lemma Added.get_of_some {x : K} {w : V} (hx : t.get? x = some w) : t'.get? x = some w := by
  rw [h.get, if_neg, hx]
  rintro rfl
  rw [h.fresh] at hx
  cases hx

lemma Added.erase_eq : t'.erase k = t := by
  apply ext_get
  intro x
  rw [get?_erase, h.get]
  split_ifs with hx
  · rw [hx, h.fresh]
  · rfl

lemma Added.total_eq (f : V → ℕ) : t'.total f = f v + t.total f := by
  rw [total_erase f h.get_self, h.erase_eq]

lemma Added.keys_perm : t'.keys.Perm (t.keys ++ [k]) := by
  have hnew : k ∉ t.keys := by simp [mem_keys_iff, h.fresh]
  refine .trans ?_ (perm_append_singleton k _).symm
  rw [perm_ext_iff_of_nodup t'.keys_nodup (nodup_cons.mpr ⟨hnew, t.keys_nodup⟩)]
  intro x
  rw [mem_keys_iff, h.get, mem_cons, mem_keys_iff]
  split_ifs <;> simp [*]

end

end Added

lemma erase_eq_self (h : t.get? k = none) : t.erase k = t := by
  apply ext_get
  intro x
  rw [get?_erase]
  split_ifs with hx
  · rw [hx, h]
  · rfl

lemma set_eq_self (h : t.get? k = some v) : t.set k v = t := by
  apply ext_get
  intro x
  rw [get?_set]
  split_ifs with hx
  · rw [hx, h]
  · rfl

lemma added_erase_set (t : Table K V) (k : K) (v : V) : (t.erase k).Added k v (t.set k v) := by
  constructor
  · rw [get?_erase, if_pos rfl]
  · intro x
    rw [get?_set, get?_erase]
    split_ifs <;> rfl

lemma insert?_erase (t : Table K V) (k : K) (v : V) :
    (t.erase k).insert? k v = some (t.set k v) := by
  have hnew : ∀ r ∈ (t.erase k).rows, r.1 ≠ k := fun r hr ↦
    of_decide_eq_true (mem_filter.mp hr).2
  rw [insert?, dif_pos hnew]
  rfl

lemma insert?_eq_none {w : V} (h : t.get? k = some w) : t.insert? k v = none := by
  rw [insert?, dif_neg]
  intro hnew
  rw [get?_eq_none_iff.mpr hnew] at h
  cases h

lemma insert?_of_none (v : V) (h : t.get? k = none) : t.insert? k v = some (t.set k v) := by
  rw [← insert?_erase, erase_eq_self h]

lemma count_erase_lt (h : t.get? k = some v) : (t.erase k).count < t.count := by
  apply length_filter_lt_length_iff_exists.mpr
  exact ⟨(k, v), get?_eq_some_iff.mp h, by simp⟩

lemma count_eq_keys_length (t : Table K V) : t.count = t.keys.length := by simp [count, keys]

/-! ## Tables without gaps -/

/-- The keys are the positions in the list `vs`. -/
def Lists {V : Type*} (t : Table ℕ V) (vs : List V) : Prop := t.rows = vs.zipIdx.map Prod.swap

namespace Lists

variable {V : Type*} {t t' : Table ℕ V} {vs : List V} {v : V}

lemma empty : (empty : Table ℕ V).Lists [] := rfl

section

variable (h : t.Lists vs)

include h

lemma count_eq : t.count = vs.length := by
  rw [count, h, length_map, length_zipIdx]

lemma keys_eq : t.keys = range t.count := by
  rw [h.count_eq, keys, h, map_map, range_eq_range']
  exact zipIdx_map_snd 0 vs

lemma values_eq : t.rows.map Prod.snd = vs := by
  rw [h, map_map]
  exact zipIdx_map_fst 0 vs

lemma get?_eq (i : ℕ) : t.get? i = vs[i]? := by
  apply ext
  intro v
  rw [get?_eq_some_iff, h, mem_map]
  constructor
  · rintro ⟨p, hp, heq⟩
    have hget := mem_zipIdx_iff_getElem?.mp hp
    cases heq
    exact hget
  · intro hget
    exact ⟨(v, i), mem_zipIdx_iff_getElem?.mpr hget, rfl⟩

lemma append {k : ℕ} (hk : k = vs.length) (happend : t.append? k v = some t') :
    t'.Lists (vs ++ [v]) := by
  rw [Lists, (append?_eq_some happend).2, h, hk, zipIdx_append, map_append]
  simp

lemma last?_eq : (t.last?.map fun r ↦ 1 + r.1).getD 0 = vs.length := by
  rw [last?, h]
  induction vs using reverseRecOn with
  | nil => rfl
  | append_singleton vs v _ =>
    rw [zipIdx_append, map_append, getLast?_append]
    simp [Nat.add_comm]

end

end Lists

end Table

end Monero.Lib
