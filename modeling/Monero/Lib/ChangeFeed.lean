import Mathlib

/-!
# Sets with a change feed

A server keeps a set of items, each with the time at which it was last added
and a mark that hides it, and a log of removals with their times, from which
old entries may be dropped.  A client that knew the shown items at some instant
brings its copy up to date from the removals and the additions since.

`Step now` is one change at the time `now`.  Which removals are forgotten is
left open: `cut` is a time up to which the log may be incomplete, and the
server admits to it through `removedSince`.
-/

namespace Monero.Lib

open Function

structure Feed (ι : Type*) where
  entry : ι → Option (ℕ × Bool)
  log : List (ℕ × ι × Bool)
  removedSince : ℕ

namespace Feed

variable {ι : Type*} (f : Feed ι)

/-- The item is in the set and not hidden. -/
def Shown (i : ι) : Prop := ∃ t, f.entry i = some (t, false)

def shown : Set ι := { i | f.Shown i }

/-- Items shown that were added at the time `s` or later. -/
def addedFrom (s : ℕ) : Set ι := { i | ∃ t, f.entry i = some (t, false) ∧ s ≤ t }

def removedFrom (s : ℕ) : Set ι := { i | ∃ t, (t, i, false) ∈ f.log ∧ s ≤ t }

structure AddStep [DecidableEq ι] (now : ℕ) (f f' : Feed ι) (i : ι) (hidden : Bool) : Prop where
  stays : f.Shown i → hidden = false
  entry : f'.entry = update f.entry i (some (now, hidden))
  log : f'.log = f.log
  removedSince : f'.removedSince = f.removedSince

structure RemoveStep [DecidableEq ι] (now : ℕ) (f f' : Feed ι) (i : ι) (hidden : Bool)
    (cut : ℕ) : Prop where
  logged : f.Shown i → hidden = false
  entry : f'.entry = update f.entry i none
  kept : ∀ e ∈ (now, i, hidden) :: f.log, e ∈ f'.log ∨ e.1 ≤ cut
  old : ∀ e ∈ f'.log, e ∈ (now, i, hidden) :: f.log
  cut_le : ∀ e ∈ f'.log, cut ≤ e.1
  cut_le_now : cut ≤ now
  cut_le_since : cut ≤ f'.removedSince
  since : f'.removedSince = f.removedSince ∨ ∃ e ∈ (now, i, hidden) :: f.log, e.1 ≤ f'.removedSince

structure Cleared : Prop where
  entry : ∀ i, f.entry i = none
  log : f.log = []
  removedSince : f.removedSince = 0

inductive Step [DecidableEq ι] (now : ℕ) (f f' : Feed ι) : Prop
  | add (i : ι) (hidden : Bool) (h : AddStep now f f' i hidden)
  | remove (i : ι) (hidden : Bool) (cut : ℕ) (h : RemoveStep now f f' i hidden cut)
  | clear (h : f'.Cleared)

/-! ## Times -/

/-- Nothing recorded is later than `now`, and an item in the set was added no
earlier than it was last removed. -/
structure Ordered (now : ℕ) (f : Feed ι) : Prop where
  log_le : ∀ e ∈ f.log, e.1 ≤ now
  added_after : ∀ e ∈ f.log, ∀ t hidden, f.entry e.2.1 = some (t, hidden) → e.1 ≤ t

/-! ## What a client can rely on -/

/-- The log lacks no removal from `s` on other than those up to `cut`. -/
structure Complete (s now : ℕ) (V : Set ι) (f : Feed ι) (cut : ℕ) : Prop where
  gone : ∀ i ∈ V, ¬ f.Shown i → ∃ t, s ≤ t ∧ ((t, i, false) ∈ f.log ∨ t ≤ cut)
  cut_le : ∀ e ∈ f.log, cut ≤ e.1
  cut_le_now : cut ≤ now
  cut_le_since : cut ≤ f.removedSince

/-- The log was cleared after `s`. -/
structure Restarted (s : ℕ) (f : Feed ι) : Prop where
  log_ge : ∀ e ∈ f.log, s ≤ e.1
  since : f.removedSince = 0 ∨ s ≤ f.removedSince

/-- `V` are the items that were shown when the time was `s`. -/
structure Follows (s now : ℕ) (V : Set ι) (f : Feed ι) : Prop where
  ordered : f.Ordered now
  new : ∀ i t, f.entry i = some (t, false) → i ∈ V ∨ s ≤ t
  log : (∃ cut, f.Complete s now V cut) ∨ f.Restarted s

variable {s t now : ℕ} {V : Set ι} {f f' : Feed ι} {i : ι} {hidden : Bool} {cut : ℕ}

lemma Ordered.mono (h : f.Ordered t) (hle : t ≤ now) : f.Ordered now :=
  ⟨fun e he ↦ (h.log_le e he).trans hle, h.added_after⟩

lemma Ordered.follows (h : f.Ordered t) : f.Follows s t f.shown := by
  refine ⟨h, fun i t hi ↦ .inl ⟨t, hi⟩, .inl ⟨0, ?_⟩⟩
  exact ⟨fun i hi hnot ↦ absurd hi hnot, fun _ _ ↦ Nat.zero_le _, Nat.zero_le _, Nat.zero_le _⟩

lemma Cleared.ordered (h : f.Cleared) : f.Ordered now := by
  constructor <;> simp [h.log]

lemma Cleared.restarted (h : f.Cleared) : f.Restarted s := by
  constructor
  · simp [h.log]
  · exact .inl h.removedSince

lemma Complete.mono (h : f.Complete s t V cut) (hle : t ≤ now) : f.Complete s now V cut :=
  ⟨h.gone, h.cut_le, h.cut_le_now.trans hle, h.cut_le_since⟩

lemma Follows.mono (h : f.Follows s t V) (hle : t ≤ now) : f.Follows s now V :=
  ⟨h.ordered.mono hle, h.new, h.log.imp_left fun ⟨cut, hcut⟩ ↦ ⟨cut, hcut.mono hle⟩⟩

section Step

variable [DecidableEq ι]

lemma AddStep.ordered (h : AddStep now f f' i hidden) (hf : f.Ordered now) : f'.Ordered now := by
  constructor
  · rw [h.log]
    exact hf.log_le
  · rw [h.log, h.entry]
    intro e he t hid hentry
    by_cases hi : e.2.1 = i
    · rw [hi, update_self] at hentry
      cases hentry
      exact hf.log_le e he
    · rw [update_of_ne hi] at hentry
      exact hf.added_after e he t hid hentry

lemma RemoveStep.ordered (h : RemoveStep now f f' i hidden cut) (hf : f.Ordered now) :
    f'.Ordered now := by
  constructor
  · intro e he
    rcases List.mem_cons.mp (h.old e he) with rfl | he
    · exact le_rfl
    · exact hf.log_le e he
  · rw [h.entry]
    intro e he t hid hentry
    by_cases hi : e.2.1 = i
    · rw [hi, update_self] at hentry
      cases hentry
    · rw [update_of_ne hi] at hentry
      rcases List.mem_cons.mp (h.old e he) with rfl | he
      · exact absurd rfl hi
      · exact hf.added_after e he t hid hentry

lemma Step.ordered (h : Step now f f') (hf : f.Ordered now) : f'.Ordered now := by
  cases h with
  | add i hidden h => exact h.ordered hf
  | remove i hidden cut h => exact h.ordered hf
  | clear h => exact h.ordered

lemma AddStep.shown_of_shown (h : AddStep now f f' i hidden) {j : ι} (hj : f.Shown j) :
    f'.Shown j := by
  rw [Shown, h.entry]
  by_cases hji : j = i
  · subst hji
    exact ⟨now, by rw [update_self, h.stays hj]⟩
  · rw [update_of_ne hji]
    exact hj

lemma AddStep.complete (h : AddStep now f f' i hidden) (hf : f.Complete s now V cut) :
    f'.Complete s now V cut := by
  refine ⟨fun j hj hnot ↦ ?_, ?_, hf.cut_le_now, ?_⟩
  · rw [h.log]
    exact hf.gone j hj fun hshown ↦ hnot (h.shown_of_shown hshown)
  · rw [h.log]
    exact hf.cut_le
  · rw [h.removedSince]
    exact hf.cut_le_since

/-- What is dropped from the log is older than everything that stays, so the
later of the two cuts covers both what was missing and what is dropped. -/
theorem RemoveStep.complete {cut' : ℕ} (h : RemoveStep now f f' i hidden cut') (hs : s ≤ now)
    (hf : f.Complete s now V cut) : f'.Complete s now V (max cut cut') := by
  have hcut : ∀ e ∈ (now, i, hidden) :: f.log, cut ≤ e.1 := by
    intro e he
    rcases List.mem_cons.mp he with rfl | he
    · exact hf.cut_le_now
    · exact hf.cut_le e he
  have hlogged : ∀ t j, s ≤ t → (t, j, false) ∈ (now, i, hidden) :: f.log →
      ∃ t, s ≤ t ∧ ((t, j, false) ∈ f'.log ∨ t ≤ max cut cut') := by
    intro t j ht hmem
    refine ⟨t, ht, (h.kept _ hmem).imp_right fun hle ↦ ?_⟩
    exact hle.trans (le_max_right _ _)
  refine ⟨fun j hj hnot ↦ ?_, fun e he ↦ ?_, max_le hf.cut_le_now h.cut_le_now, ?_⟩
  · by_cases hshown : f.Shown j
    · by_cases hji : j = i
      · subst hji
        have hfalse : hidden = false := h.logged hshown
        subst hfalse
        exact hlogged now j hs List.mem_cons_self
      · refine absurd ?_ hnot
        rw [Shown, h.entry, update_of_ne hji]
        exact hshown
    · obtain ⟨t, ht, hmem | hle⟩ := hf.gone j hj hshown
      · exact hlogged t j ht (List.mem_cons_of_mem _ hmem)
      · exact ⟨t, ht, .inr (hle.trans (le_max_left _ _))⟩
  · exact max_le (hcut e (h.old e he)) (h.cut_le e he)
  · refine max_le ?_ h.cut_le_since
    rcases h.since with heq | ⟨e, he, hle⟩
    · rw [heq]
      exact hf.cut_le_since
    · exact (hcut e he).trans hle

lemma RemoveStep.restarted (h : RemoveStep now f f' i hidden cut) (hs : s ≤ now)
    (hf : f.Restarted s) : f'.Restarted s := by
  have hge : ∀ e ∈ (now, i, hidden) :: f.log, s ≤ e.1 := by
    intro e he
    rcases List.mem_cons.mp he with rfl | he
    · exact hs
    · exact hf.log_ge e he
  refine ⟨fun e he ↦ hge e (h.old e he), ?_⟩
  rcases h.since with heq | ⟨e, he, hle⟩
  · rw [heq]
    exact hf.since
  · exact .inr ((hge e he).trans hle)

lemma Follows.step (h : f.Follows s t V) (hle : t ≤ now) (hs : s ≤ now) (hstep : Step now f f') :
    f'.Follows s now V := by
  have h := h.mono hle
  refine ⟨hstep.ordered h.ordered, ?_, ?_⟩
  · intro j u hj
    cases hstep with
    | add i hidden hadd =>
      rw [hadd.entry] at hj
      by_cases hji : j = i
      · rw [hji, update_self] at hj
        cases hj
        exact .inr hs
      · rw [update_of_ne hji] at hj
        exact h.new j u hj
    | remove i hidden cut hremove =>
      rw [hremove.entry] at hj
      by_cases hji : j = i
      · rw [hji, update_self] at hj
        cases hj
      · rw [update_of_ne hji] at hj
        exact h.new j u hj
    | clear hclear =>
      rw [hclear.entry] at hj
      cases hj
  · cases hstep with
    | add i hidden hadd =>
      refine h.log.imp (fun ⟨cut, hcut⟩ ↦ ⟨cut, hadd.complete hcut⟩) fun hrestart ↦ ?_
      constructor
      · rw [hadd.log]
        exact hrestart.log_ge
      · rw [hadd.removedSince]
        exact hrestart.since
    | remove i hidden cut' hremove =>
      exact h.log.imp (fun ⟨cut, hcut⟩ ↦ ⟨_, hremove.complete hs hcut⟩) (hremove.restarted hs)
    | clear hclear => exact .inr hclear.restarted

end Step

/-- The client's copy after it has removed what was removed and then added what
was added since `s`. -/
theorem Follows.sync (h : f.Follows s t V) (hzero : f.removedSince ≠ 0)
    (hsince : f.removedSince < s) : (V \ f.removedFrom s) ∪ f.addedFrom s = f.shown := by
  have hcomplete : ∀ i ∈ V, ¬ f.Shown i → i ∈ f.removedFrom s := by
    intro i hi hnot
    rcases h.log with ⟨cut, hcut⟩ | hrestart
    · obtain ⟨t, ht, hmem | hle⟩ := hcut.gone i hi hnot
      · exact ⟨t, hmem, ht⟩
      · exact absurd (ht.trans (hle.trans hcut.cut_le_since)) hsince.not_ge
    · rcases hrestart.since with hz | hge
      · exact absurd hz hzero
      · exact absurd hge hsince.not_ge
  ext i
  constructor
  · rintro (⟨hi, hkept⟩ | ⟨t, ht, -⟩)
    · by_contra hnot
      exact hkept (hcomplete i hi hnot)
    · exact ⟨t, ht⟩
  · rintro ⟨t, ht⟩
    by_cases hst : s ≤ t
    · exact .inr ⟨t, ht, hst⟩
    · refine .inl ⟨(h.new i t ht).resolve_right hst, ?_⟩
      rintro ⟨u, hu, hsu⟩
      exact hst (hsu.trans (h.ordered.added_after _ hu t false ht))

end Feed

end Monero.Lib
