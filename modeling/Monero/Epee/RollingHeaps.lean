import Monero.Epee.Median
import Monero.Lib.Heap

/-!
# The two heaps of the rolling median

The position table and the heap array are inverse to each other on the slots
`-(N / 2)`, ..., `(N - 1) / 2`.  Every sifting loop keeps that, and on the
values seen from the median outwards it is the sifting of `Monero.Lib.Heap`.
-/

namespace Monero.Epee

open Monero.Lib.Heap

variable {α : Type*}

namespace Side

@[simp] lemma slot_zero (s : Side) : s.slot 0 = 0 := by
  cases s <;> rfl

lemma slot_inj (s : Side) {i j : ℕ} : s.slot i = s.slot j ↔ i = j := by
  cases s <;> simp [slot]

lemma slot_other_ne (s : Side) {i k : ℕ} (hk : 1 ≤ k) : s.other.slot k ≠ s.slot i := by
  cases s <;> simp only [slot, other] <;> omega

variable [LinearOrder α]

def le : Side → α → α → Prop
  | min, a, b => a ≤ b
  | max, a, b => b ≤ a

instance (s : Side) : DecidableRel (s.le (α := α)) := fun a b ↦
  match s with
  | min => inferInstanceAs (Decidable (a ≤ b))
  | max => inferInstanceAs (Decidable (b ≤ a))

instance (s : Side) : IsTrans α s.le := by
  refine ⟨fun a b c hab hbc ↦ ?_⟩
  cases s
  · exact le_trans hab hbc
  · exact le_trans hbc hab

instance (s : Side) : Std.Total (s.le (α := α)) := by
  refine ⟨fun a b ↦ ?_⟩
  cases s
  · exact le_total a b
  · exact le_total b a

lemma le_other (s : Side) {a b : α} : s.other.le a b ↔ s.le b a := by
  cases s <;> rfl

end Side

namespace RollingMedian

def InRange (rm : RollingMedian α) (i : ℤ) : Prop :=
  -((rm.N / 2 : ℕ) : ℤ) ≤ i ∧ i ≤ ((rm.N - 1) / 2 : ℕ)

/-- The table of positions and the array of the heaps fit together, and the
unused part of the buffer has the positions of the fill pattern. -/
structure Linked (rm : RollingMedian α) : Prop where
  heap_pos : ∀ k, k < rm.N → rm.heap (rm.pos k) = k
  pos_heap : ∀ i, rm.InRange i → rm.pos (rm.heap i) = i
  heap_lt : ∀ i, rm.InRange i → rm.heap i < rm.N
  inRange_pos : ∀ k, k < rm.N → rm.InRange (rm.pos k)
  unfilled : ∀ k, rm.sz ≤ k → k < rm.N → rm.pos k = fill k
  sz_le : rm.sz ≤ rm.N
  minCt_eq : rm.minCt = (rm.sz - 1) / 2
  maxCt_eq : rm.maxCt = rm.sz / 2

def view (rm : RollingMedian α) (s : Side) (i : ℕ) : α := rm.data (rm.heap (s.slot i))

lemma view_zero (rm : RollingMedian α) (s t : Side) : rm.view s 0 = rm.view t 0 := by
  simp [view]

variable {rm : RollingMedian α} {s : Side} {i : ℕ}

lemma Linked.counts_eq (h : rm.Linked) : rm.minCt = (rm.sz - 1) / 2 ∧ rm.maxCt = rm.sz / 2 :=
  ⟨h.minCt_eq, h.maxCt_eq⟩

lemma Linked.inRange_slot (h : rm.Linked) (hi : i ≤ rm.count s) : rm.InRange (s.slot i) := by
  obtain ⟨hmin, hmax⟩ := h.counts_eq
  have hsz := h.sz_le
  cases s <;> simp only [InRange, Side.slot, count] at * <;> omega

lemma fill_eq (k : ℕ) :
    (k % 2 = 1 ∧ fill k = -((k + 1) / 2 : ℕ)) ∨ (k % 2 = 0 ∧ fill k = (k / 2 : ℕ)) := by
  unfold fill
  split_ifs with h
  · left
    omega
  · right
    refine ⟨by omega, ?_⟩
    rw [mul_one]
    omega

lemma Linked.heap_slot_lt (h : rm.Linked) (hsz : 1 ≤ rm.sz)
    (hi : i ≤ rm.count s) : rm.heap (s.slot i) < rm.sz := by
  have hrange := h.inRange_slot hi
  by_contra hge
  have hfill := h.unfilled _ (not_lt.mp hge) (h.heap_lt _ hrange)
  rw [h.pos_heap _ hrange] at hfill
  obtain ⟨hmin, hmax⟩ := h.counts_eq
  cases s <;> rcases fill_eq (rm.heap (Side.slot _ i)) with ⟨_, heq⟩ | ⟨_, heq⟩ <;>
    rw [heq] at hfill <;> simp only [Side.slot, count] at * <;> omega

/-! ## Exchanging two slots -/

lemma mmexchange_heap (rm : RollingMedian α) (i j k : ℤ) : (rm.mmexchange i j).heap k =
      if k = j then rm.heap i else if k = i then rm.heap j else rm.heap k := by
  simp [mmexchange, Function.update_apply]

/-- What the sifting loops leave alone. -/
structure Reshaped (rm rm' : RollingMedian α) : Prop where
  linked : rm'.Linked
  N_eq : rm'.N = rm.N
  data_eq : rm'.data = rm.data
  idx_eq : rm'.idx = rm.idx
  minCt_eq : rm'.minCt = rm.minCt
  maxCt_eq : rm'.maxCt = rm.maxCt
  sz_eq : rm'.sz = rm.sz

lemma Reshaped.refl (h : rm.Linked) : Reshaped rm rm := ⟨h, rfl, rfl, rfl, rfl, rfl, rfl⟩

lemma Reshaped.trans {rm₁ rm₂ rm₃ : RollingMedian α} (h : Reshaped rm₁ rm₂)
    (h' : Reshaped rm₂ rm₃) : Reshaped rm₁ rm₃ :=
  ⟨h'.linked, h'.N_eq.trans h.N_eq, h'.data_eq.trans h.data_eq, h'.idx_eq.trans h.idx_eq,
    h'.minCt_eq.trans h.minCt_eq, h'.maxCt_eq.trans h.maxCt_eq, h'.sz_eq.trans h.sz_eq⟩

lemma Reshaped.count_eq {rm' : RollingMedian α} (h : Reshaped rm rm') (s : Side) :
    rm'.count s = rm.count s := by
  cases s
  · exact h.minCt_eq
  · exact h.maxCt_eq

lemma Linked.mmexchange (h : rm.Linked) {i j : ℤ} (hij : i ≠ j)
    (hi : rm.InRange i) (hj : rm.InRange j) (hi' : rm.heap i < rm.sz) (hj' : rm.heap j < rm.sz) :
    Reshaped rm (rm.mmexchange i j) := by
  have hheap := mmexchange_heap rm i j
  have hpos : ∀ k, (rm.mmexchange i j).pos k =
      if k = rm.heap i then j else if k = rm.heap j then i else rm.pos k := fun k ↦ by
    simp [RollingMedian.mmexchange, Function.update_apply, if_neg hij]
  have hinj : ∀ a b, rm.InRange a → rm.InRange b → rm.heap a = rm.heap b → a = b := by
    intro a b ha hb hab
    rw [← h.pos_heap a ha, ← h.pos_heap b hb, hab]
  refine ⟨⟨?_, ?_, ?_, ?_, ?_, h.sz_le, h.minCt_eq, h.maxCt_eq⟩, rfl, rfl, rfl, rfl, rfl, rfl⟩
  · intro k hk
    have hk' := h.heap_pos k hk
    rw [hheap, hpos]
    grind
  · intro a ha
    have hai := hinj a i ha hi
    have haj := hinj a j ha hj
    have hne := hinj i j hi hj
    have hpa := h.pos_heap a ha
    rw [hheap, hpos]
    grind
  · intro a ha
    rw [hheap]
    have hlt := h.heap_lt
    split_ifs
    · exact hlt i hi
    · exact hlt j hj
    · exact hlt a ha
  · intro k hk
    rw [hpos]
    split_ifs
    · exact hj
    · exact hi
    · exact h.inRange_pos k hk
  · intro k hsz hk
    have hsz' : rm.sz ≤ k := hsz
    rw [hpos, if_neg (by omega), if_neg (by omega)]
    exact h.unfilled k hsz hk

def sideExchange (rm : RollingMedian α) : Side → ℕ → ℕ → RollingMedian α
  | .min, i, j => rm.mmexchange i j
  | .max, i, j => rm.mmexchange (-j) (-i)

lemma view_sideExchange (rm : RollingMedian α) (s : Side) (i j : ℕ) :
    (rm.sideExchange s i j).view s = swapAt (rm.view s) i j := by
  funext k
  cases s <;> simp only [sideExchange, view, mmexchange_heap, swapAt, Side.slot] <;>
    grind [mmexchange]

lemma view_other_sideExchange (rm : RollingMedian α) (s : Side) (i j : ℕ) {k : ℕ}
    (hk : 1 ≤ k) : (rm.sideExchange s i j).view s.other k = rm.view s.other k := by
  have hi := s.slot_other_ne (i := i) hk
  have hj := s.slot_other_ne (i := j) hk
  cases s <;> simp only [sideExchange, view, mmexchange_heap, Side.slot, Side.other] at * <;>
    grind [mmexchange]

lemma Linked.sideExchange (h : rm.Linked) (hsz : 1 ≤ rm.sz) {j : ℕ} (hij : i ≠ j)
    (hi : i ≤ rm.count s) (hj : j ≤ rm.count s) : Reshaped rm (rm.sideExchange s i j) := by
  have hi' := h.inRange_slot hi
  have hj' := h.inRange_slot hj
  have hi'' := h.heap_slot_lt hsz hi
  have hj'' := h.heap_slot_lt hsz hj
  cases s
  · exact h.mmexchange (by simpa using hij) hi' hj' hi'' hj''
  · exact h.mmexchange (by simpa using hij.symm) hj' hi' hj'' hi''

/-! ## The sifting loops -/

/-- One side was sifted: its values are `f`, and the other side kept its slots
beyond the median. -/
structure Sifted (s : Side) (rm rm' : RollingMedian α) (f : ℕ → α) : Prop
    extends Reshaped rm rm' where
  view_eq : rm'.view s = f
  other_eq : ∀ k, 1 ≤ k → rm'.view s.other k = rm.view s.other k

lemma Sifted.refl (h : rm.Linked) : Sifted s rm rm (rm.view s) :=
  ⟨Reshaped.refl h, rfl, fun _ _ ↦ rfl⟩

lemma Sifted.trans {rm₁ rm₂ rm₃ : RollingMedian α} {f g : ℕ → α}
    (h : Sifted s rm₁ rm₂ f) (h' : Sifted s rm₂ rm₃ g) : Sifted s rm₁ rm₃ g :=
  ⟨h.toReshaped.trans h'.toReshaped, h'.view_eq,
    fun k hk ↦ (h'.other_eq k hk).trans (h.other_eq k hk)⟩

lemma Linked.sifted_sideExchange (h : rm.Linked) (hsz : 1 ≤ rm.sz)
    {j : ℕ} (hij : i ≠ j) (hi : i ≤ rm.count s) (hj : j ≤ rm.count s) :
    Sifted s rm (rm.sideExchange s i j) (swapAt (rm.view s) i j) :=
  ⟨h.sideExchange hsz hij hi hj, rm.view_sideExchange s i j,
    fun _ hk ↦ rm.view_other_sideExchange s i j hk⟩

variable [LinearOrder α]

lemma sideLess_iff (rm : RollingMedian α) (s : Side) (i j : ℕ) :
    rm.sideLess s i j = true ↔ ¬s.le (rm.view s j) (rm.view s i) := by
  cases s <;> simp [sideLess, mmless, Side.le, view, Side.slot]

lemma sideCmpExch_eq (rm : RollingMedian α) (s : Side) (i j : ℕ) : rm.sideCmpExch s i j =
      if s.le (rm.view s j) (rm.view s i) then (rm, false) else (rm.sideExchange s i j, true) := by
  have hless := rm.sideLess_iff s i j
  cases s <;> simp only [sideCmpExch, sideLess, sideExchange, mmCmpExch] at * <;> grind

lemma sortDownLoop_sifted (s : Side) (fuel : ℕ) (h : rm.Linked) (hsz : 1 ≤ rm.sz) (hi : 1 ≤ i) :
    Sifted s rm (sortDownLoop s fuel rm i) (siftDown s.le (rm.count s) fuel (rm.view s) i) := by
  induction fuel generalizing rm i with
  | zero => exact Sifted.refl h
  | succ fuel ih =>
    have hchild : (if i < rm.count s ∧ rm.sideLess s (i + 1) i then i + 1 else i) =
        child s.le (rm.view s) (rm.count s) i := by
      simp [child, sideLess_iff]
    rw [sortDownLoop, siftDown, hchild]
    split_ifs with hin hle
    · simp only [sideCmpExch_eq, if_pos hle]
      exact Sifted.refl h
    · have hc : 1 ≤ child s.le (rm.view s) (rm.count s) i ∧
          child s.le (rm.view s) (rm.count s) i ≤ rm.count s := by
        rcases child_cases (r := s.le) (rm.view s) (rm.count s) i with hc | ⟨hc, _⟩ <;> omega
      simp only [sideCmpExch_eq, if_neg hle, if_true]
      have hstep := h.sifted_sideExchange hsz (s := s) (i := child s.le (rm.view s) (rm.count s) i)
        (j := child s.le (rm.view s) (rm.count s) i / 2) (by omega) hc.2 (by omega)
      have hrest := ih hstep.linked (by rw [hstep.sz_eq]; exact hsz)
        (i := 2 * child s.le (rm.view s) (rm.count s) i) (by omega)
      rw [hstep.count_eq, hstep.view_eq] at hrest
      exact hstep.trans hrest
    · exact Sifted.refl h

lemma sortUpLoop_sifted (s : Side) (fuel : ℕ) (h : rm.Linked)
    (hsz : 1 ≤ rm.sz) (hi : i ≤ rm.count s) :
    Sifted s rm (sortUpLoop s fuel rm i).1 (siftUp s.le fuel (rm.view s) i).1 ∧
      (sortUpLoop s fuel rm i).2 = (siftUp s.le fuel (rm.view s) i).2 := by
  induction fuel generalizing rm i with
  | zero => exact ⟨Sifted.refl h, rfl⟩
  | succ fuel ih =>
    rw [sortUpLoop, siftUp]
    rcases Nat.eq_zero_or_pos i with hzero | hpos
    · simp only [hzero, lt_irrefl, if_false, false_and, decide_true, and_true]
      exact Sifted.refl h
    · by_cases hle : s.le (rm.view s (i / 2)) (rm.view s i)
      · simp only [hpos, if_true, sideCmpExch_eq, hle, not_true_eq_false, and_false,
          if_false, Bool.false_eq_true]
        exact ⟨Sifted.refl h, by simp [hpos.ne']⟩
      · simp only [hpos, if_true, sideCmpExch_eq, hle, not_false_eq_true, and_true]
        have hstep := h.sifted_sideExchange hsz (s := s) (i := i) (j := i / 2) (by omega) hi
          (by omega)
        obtain ⟨hrest, htop⟩ := ih hstep.linked (by rw [hstep.sz_eq]; exact hsz)
          (i := i / 2) (by rw [hstep.count_eq]; omega)
        rw [hstep.view_eq] at hrest htop
        exact ⟨hstep.trans hrest, htop⟩

/-! ## Restoring both heaps -/

def HeapsOrdered (rm : RollingMedian α) : Prop := ∀ s : Side, Ordered s.le (rm.view s) (rm.count s)

/-- The items are the same, and the heaps are in order. -/
abbrev Restored (rm rm' : RollingMedian α) : Prop := Reshaped rm rm' ∧ rm'.HeapsOrdered

lemma heapsOrdered_of_side (s : Side) (h : Ordered s.le (rm.view s) (rm.count s))
    (h' : Ordered s.other.le (rm.view s.other) (rm.count s.other)) : rm.HeapsOrdered := by
  intro t
  cases s <;> cases t
  · exact h
  · exact h'
  · exact h'
  · exact h

/-- The root of a side is compared with the median and sifted down when they
were exchanged. -/
def settle (s : Side) (rm : RollingMedian α) : RollingMedian α :=
  let r := rm.sideCmpExch s 1 0
  if r.2 then sortDown s r.1 1 else r.1

lemma settle_spec (s : Side) (h : rm.Linked) (hsz : 1 ≤ rm.sz) (hcount : 1 ≤ rm.count s)
    (hord : ∀ j, 2 ≤ j → j ≤ rm.count s → s.le (rm.view s (j / 2)) (rm.view s j)) :
    ∃ f, Sifted s rm (settle s rm) f ∧ Ordered s.le f (rm.count s) ∧
      (f 0 = if s.le (rm.view s 0) (rm.view s 1) then rm.view s 0 else rm.view s 1) ∧
      s.le (rm.view s 1) (f 1) := by
  by_cases hle : s.le (rm.view s 0) (rm.view s 1)
  · refine ⟨rm.view s, ?_, ?_, (if_pos hle).symm, (Std.Total.total (r := s.le) _ _).elim id id⟩
    · simp only [settle, sideCmpExch_eq, if_pos hle, Bool.false_eq_true, if_false]
      exact Sifted.refl h
    · intro j hj hjn
      rcases Nat.lt_or_ge j 2 with hlt | hge
      · obtain rfl : j = 1 := by omega
        exact hle
      · exact hord j hge hjn
  · have hstep := h.sifted_sideExchange hsz (s := s) (i := 1) (j := 0) one_ne_zero hcount
      (Nat.zero_le _)
    have hdown := sortDownLoop_sifted s (rm.count s + 1) hstep.linked
      (by rw [hstep.sz_eq]; exact hsz) (i := 2 * 1) (by norm_num)
    rw [hstep.count_eq, hstep.view_eq] at hdown
    have hdone :=
      siftDown_ordered (rm.count s + 1) (downReady_swap_root hord hle) le_rfl (by omega)
    have hzero : siftDown s.le (rm.count s) (rm.count s + 1) (swapAt (rm.view s) 1 0) (2 * 1) 0 =
        rm.view s 1 := by
      rw [siftDown_of_lt _ _ one_pos, swapAt_right]
    refine ⟨_, ?_, hdone, ?_, ?_⟩
    · simp only [settle, sideCmpExch_eq, if_neg hle, if_true, sortDown, hstep.count_eq]
      exact hstep.trans hdown
    · rw [hzero, if_neg hle]
    · rw [← hzero]
      exact hdone 1 le_rfl hcount

/-- `insertMin` and `insertMax` as one function of the side. -/
def insertSide (s : Side) (rm : RollingMedian α) (i : ℕ) : RollingMedian α :=
  let up := sortUp s rm i
  if up.2 ∧ up.1.count s.other ≠ 0 then settle s.other up.1 else up.1

lemma insertSide_spec (s : Side) (h : rm.Linked) (hsz : 1 ≤ rm.sz) (hi : 1 ≤ i)
    (hin : i ≤ rm.count s) (hup : UpReady s.le (rm.view s) (rm.count s) i)
    (hother : Ordered s.other.le (rm.view s.other) (rm.count s.other)) :
    Restored rm (insertSide s rm i) := by
  -- the new item climbs; only if it reaches the median is the other heap concerned
  obtain ⟨hsift, hflag⟩ := sortUpLoop_sifted s i h hsz hin
  obtain ⟨hord, htop, hbot⟩ := siftUp_spec i hup hi hin le_rfl
  change Sifted s rm (sortUp s rm i).1 _ at hsift
  change (sortUp s rm i).2 = _ at hflag
  have hcount := hsift.count_eq
  rw [← hsift.view_eq, ← hcount s] at hord
  rw [← hflag, ← hsift.view_eq] at htop hbot
  have hother_of : rm.count s.other = 0 ∨
      s.other.le ((sortUp s rm i).1.view s 0) (rm.view s.other 1) →
      Ordered s.other.le ((sortUp s rm i).1.view s.other) ((sortUp s rm i).1.count s.other) := by
    intro hroot
    rw [hcount]
    refine hother.of_root (fun j hj _ ↦ hsift.other_eq j hj) fun hone ↦ ?_
    rw [view_zero _ s.other s]
    exact hroot.resolve_left (by omega)
  by_cases hcond : (sortUp s rm i).2 = true ∧ (sortUp s rm i).1.count s.other ≠ 0
  · have hone : 1 ≤ rm.count s.other := by
      rw [← hcount]
      exact Nat.one_le_iff_ne_zero.mpr hcond.2
    obtain ⟨hzero, hfirst⟩ := htop hcond.1
    obtain ⟨f, hset, hford, hf, _⟩ :=
      settle_spec s.other hsift.linked (by rw [hsift.sz_eq]; exact hsz)
      (by rw [hcount]; exact hone) (by
        intro j hj hjn
        rw [hcount] at hjn
        rw [hsift.other_eq j (by omega), hsift.other_eq (j / 2) (by omega)]
        exact hother j (by omega) hjn)
    have heq : insertSide s rm i = settle s.other (sortUp s rm i).1 := if_pos hcond
    rw [heq]
    refine ⟨hsift.toReshaped.trans hset.toReshaped, heapsOrdered_of_side s ?_ ?_⟩
    · have hss : s.other.other = s := by cases s <;> rfl
      have hsame : ∀ k, 1 ≤ k →
          (settle s.other (sortUp s rm i).1).view s k = (sortUp s rm i).1.view s k := by
        intro k hk
        have := hset.other_eq k hk
        rwa [hss] at this
      rw [hset.count_eq]
      refine hord.of_root (fun k hk _ ↦ hsame k hk) fun hn ↦ ?_
      rw [view_zero _ s s.other, hset.view_eq, hf]
      split_ifs
      · rw [view_zero _ s.other s]
        exact hord 1 le_rfl hn
      · -- the old median went to the root of `s`, and the root of the other heap takes its place
        rw [hfirst, hsift.other_eq 1 le_rfl, view_zero _ s s.other]
        exact (Side.le_other s).mp (hother 1 le_rfl hone)
    · rw [hset.view_eq, hset.count_eq]
      exact hford
  · have heq : insertSide s rm i = (sortUp s rm i).1 := if_neg hcond
    rw [heq]
    refine ⟨hsift.toReshaped, heapsOrdered_of_side s hord (hother_of ?_)⟩
    rcases Bool.eq_false_or_eq_true (sortUp s rm i).2 with htrue | hfalse
    · left
      rw [← hcount]
      exact not_not.mp fun hne ↦ hcond ⟨htrue, hne⟩
    · rcases Nat.eq_zero_or_pos (rm.count s.other) with hzero | hpos
      · exact .inl hzero
      · rw [hbot hfalse, view_zero _ s s.other]
        exact .inr (hother 1 le_rfl hpos)

lemma sortUp_one_sortDown (s : Side) (rm : RollingMedian α) :
    (if (sortUp s rm 1).2 then sortDown s (sortUp s rm 1).1 1 else (sortUp s rm 1).1) =
      settle s rm := by
  simp only [sortUp, sortUpLoop, settle, one_pos, if_true, show 1 / 2 = 0 from rfl]
  split_ifs <;> simp_all

lemma settle_max_spec (h : rm.Linked) (hsz : 1 ≤ rm.sz)
    (hord : ∀ j, 2 ≤ j → j ≤ rm.maxCt → rm.view .max j ≤ rm.view .max (j / 2))
    (hroots : 1 ≤ rm.maxCt → 1 ≤ rm.minCt → rm.view .max 1 ≤ rm.view .min 1) :
    ∃ rm₁, (rm₁ = if rm.maxCt ≠ 0 then settle .max rm else rm) ∧ Reshaped rm rm₁ ∧
      Ordered Side.max.le (rm₁.view .max) rm.maxCt ∧
      (∀ k, 1 ≤ k → rm₁.view .min k = rm.view .min k) ∧
      (1 ≤ rm.maxCt → 1 ≤ rm.minCt → rm₁.view .max 1 ≤ rm.view .min 1) := by
  rcases Nat.eq_zero_or_pos rm.maxCt with hzero | hpos
  · refine ⟨rm, by simp [hzero], Reshaped.refl h, ?_, fun _ _ ↦ rfl, fun hone ↦ by omega⟩
    intro j hj hjn
    omega
  · obtain ⟨f, hset, hford, _, hroot⟩ := settle_spec .max h hsz hpos hord
    refine ⟨settle .max rm, by rw [if_pos hpos.ne'], hset.toReshaped, ?_, hset.other_eq, ?_⟩
    · rw [hset.view_eq]
      exact hford
    · intro hone hmin
      rw [hset.view_eq]
      exact le_trans hroot (hroots hone hmin)

lemma insertMedian_spec (h : rm.Linked) (hsz : 1 ≤ rm.sz)
    (hord : ∀ s : Side, ∀ j, 2 ≤ j → j ≤ rm.count s → s.le (rm.view s (j / 2)) (rm.view s j))
    (hroots : 1 ≤ rm.maxCt → 1 ≤ rm.minCt → rm.view .max 1 ≤ rm.view .min 1) :
    Restored rm rm.insertMedian := by
  obtain ⟨rm₁, hrm₁, hshape, hmax, hmin, hroot⟩ := settle_max_spec h hsz (hord .max) hroots
  have heq : rm.insertMedian = if rm₁.minCt ≠ 0 then settle .min rm₁ else rm₁ := by
    rw [hrm₁, ← sortUp_one_sortDown .max rm]
    simp only [← sortUp_one_sortDown .min]
    rfl
  have hcount := hshape.minCt_eq
  rw [heq]
  rcases Nat.eq_zero_or_pos rm₁.minCt with hzero | hpos
  · rw [if_neg (by simp [hzero])]
    refine ⟨hshape, heapsOrdered_of_side .max ?_ ?_⟩
    · rw [hshape.count_eq]
      exact hmax
    · intro j hj hjn
      have hjn' : j ≤ rm₁.minCt := hjn
      omega
  · rw [if_pos hpos.ne']
    obtain ⟨f, hset, hford, hf, _⟩ := settle_spec .min hshape.linked
      (by rw [hshape.sz_eq]; exact hsz) hpos (by
        intro j hj hjn
        rw [hshape.count_eq] at hjn
        rw [hmin j (by omega), hmin (j / 2) (by omega)]
        exact hord .min j hj hjn)
    refine ⟨hshape.trans hset.toReshaped, heapsOrdered_of_side .min ?_ ?_⟩
    · rw [hset.view_eq, hset.count_eq]
      exact hford
    · rw [hset.count_eq, hshape.count_eq]
      refine hmax.of_root (fun k hk _ ↦ hset.other_eq k hk) fun hone ↦ ?_
      change rm₁.view .max 1 ≤ (settle .min rm₁).view .max 0
      rw [view_zero _ .max .min, hset.view_eq, hf]
      split_ifs
      · rw [view_zero _ .min .max]
        exact hmax 1 le_rfl hone
      · rw [hmin 1 le_rfl]
        exact hroot hone (by omega)

end RollingMedian

end Monero.Epee
