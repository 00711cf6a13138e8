import Mathlib

/-!
# Computations that may fail

Inversion of the steps of a computation in `Except`.
-/

namespace Monero.Lib

open List

universe u v

variable {ε α β : Type} {f : α → Except ε β} {l : List α} {p : Prop}

lemma bind_eq_ok {ε : Type u} {α β : Type v} {f : α → Except ε β} {x : Except ε α} {b : β} :
    x >>= f = .ok b ↔ ∃ a, x = .ok a ∧ f a = .ok b := by
  cases x with
  | error e => simp [bind, Except.bind]
  | ok a => simp [bind, Except.bind]

@[simp] lemma ok_bind (a : α) (f : α → Except ε β) : (Except.ok a : Except ε α) >>= f = f a := rfl

lemma exists_of_isOk {x : Except ε α} (h : x.isOk = true) : ∃ a, x = .ok a := by
  cases x with
  | error e => cases h
  | ok a => exact ⟨a, rfl⟩

lemma mapM_ok (h : ∀ a ∈ l, ∃ b, f a = .ok b) : ∃ bs, l.mapM f = .ok bs := by
  induction l with
  | nil => exact ⟨[], rfl⟩
  | cons a l ih =>
    obtain ⟨b, hb⟩ := h a mem_cons_self
    obtain ⟨bs, hbs⟩ := ih fun c hc ↦ h c (mem_cons_of_mem a hc)
    exact ⟨b :: bs, by rw [mapM_cons, hb, ok_bind, hbs, ok_bind]; rfl⟩

lemma mapM_eq_ok {g : α → β} (h : ∀ a ∈ l, f a = .ok (g a)) : l.mapM f = .ok (l.map g) := by
  induction l with
  | nil => rfl
  | cons a l ih =>
    rw [mapM_cons, h a mem_cons_self, ok_bind, ih fun b hb ↦ h b (mem_cons_of_mem a hb), ok_bind]
    rfl

lemma mapM_eq_some_iff {f : α → Option β} {r : List β} :
    l.mapM f = some r ↔ Forall₂ (fun a b ↦ f a = some b) l r := by
  induction l generalizing r with
  | nil => rw [mapM_nil, forall₂_nil_left_iff, Option.pure_def, Option.some_inj, eq_comm]
  | cons a l ih =>
    rw [mapM_cons, forall₂_cons_left_iff]
    constructor
    · intro h
      obtain ⟨b, hb, h⟩ := Option.bind_eq_some_iff.mp h
      obtain ⟨bs, hbs, h⟩ := Option.bind_eq_some_iff.mp h
      cases h
      exact ⟨b, bs, hb, ih.mp hbs, rfl⟩
    · rintro ⟨b, bs, hb, hbs, rfl⟩
      rw [hb, ih.mpr hbs]
      rfl

lemma forM_ok {f : α → Except ε Unit} (h : ∀ a ∈ l, f a = .ok ()) : l.forM f = .ok () := by
  induction l with
  | nil => rfl
  | cons a l ih =>
    rw [List.forM, h a mem_cons_self, ok_bind]
    exact ih fun b hb ↦ h b (mem_cons_of_mem a hb)

lemma foldlM_rel {R : β → β → Prop} (hrefl : ∀ b, R b b)
    (htrans : ∀ {a b c}, R a b → R b c → R a c) {f : β → α → Except ε β} {b b' : β}
    (hstep : ∀ a ∈ l, ∀ {x x'}, f x a = .ok x' → R x x') (h : l.foldlM f b = .ok b') : R b b' := by
  induction l generalizing b with
  | nil =>
    cases h
    exact hrefl _
  | cons a l ih =>
    rw [foldlM_cons] at h
    obtain ⟨x, hx, hrest⟩ := bind_eq_ok.mp h
    exact htrans (hstep a mem_cons_self hx) (ih (fun a ha ↦ hstep a (mem_cons_of_mem _ ha)) hrest)

/-- What each step appends to a list, a run appends in order. -/
lemma foldlM_appends {γ : Type} {P : β → List γ → Prop} {f : β → α → Except ε β} {g : α → List γ}
    (hstep : ∀ {a b b' ks}, P b ks → f b a = .ok b' → P b' (ks ++ g a)) {b b' : β} {ks : List γ}
    (hb : P b ks) (h : l.foldlM f b = .ok b') : P b' (ks ++ l.flatMap g) := by
  induction l generalizing b ks with
  | nil =>
    cases h
    simpa using hb
  | cons a l ih =>
    rw [foldlM_cons] at h
    obtain ⟨x, hx, hrest⟩ := bind_eq_ok.mp h
    rw [flatMap_cons, ← append_assoc]
    exact ih (hstep hb hx) hrest

lemma toOption_eq_some {ε α : Type*} {x : Except ε α} {a : α} :
    x.toOption = some a ↔ x = .ok a := by
  cases x <;> simp [Except.toOption]

lemma ite_error_eq_ok {ε α : Type*} {c : Prop} [Decidable c] {e : ε} {x : Except ε α} {r : α} :
    (if c then .error e else x) = .ok r ↔ ¬c ∧ x = .ok r := by
  by_cases h : c
  · simp [h]
  · simp [h]

/-! ## Checks that throw -/

def check {ε : Type} (p : Prop) [Decidable p] (message : ε) : Except ε Unit :=
  if p then .ok () else .error message

lemma check_of_pos [Decidable p] (h : p) (message : ε) : check p message = .ok () :=
  if_pos h

lemma check_bind [Decidable p] (h : p) (message : ε) (f : Unit → Except ε β) :
    check p message >>= f = f () := by
  rw [check_of_pos h, ok_bind]

lemma of_check_eq_ok [Decidable p] {message : ε} {u : Unit} (h : check p message = .ok u) : p := by
  unfold check at h
  split at h
  next hp => exact hp
  next => cases h

end Monero.Lib
