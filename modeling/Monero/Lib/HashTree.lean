import Mathlib

/-!
# Hash trees

Binary trees with values at the leaves, hashed bottom up by a function of two
values.  The statements about equal roots name the inputs of that function at
which the two evaluations meet.
-/

namespace Monero.Lib

open List

inductive HashTree (α : Type*) where
  | leaf (a : α)
  | node (l r : HashTree α)

/-- Two inputs, one from each list, that differ and have the same hash. -/
def Collide {α β : Type*} (hash : α → β) (inputs inputs' : List α) : Prop :=
  ∃ x ∈ inputs, ∃ y ∈ inputs', x ≠ y ∧ hash x = hash y

lemma Collide.mono {α β : Type*} {hash : α → β} {a b a' b' : List α} (h : Collide hash a b)
    (ha : a ⊆ a') (hb : b ⊆ b') : Collide hash a' b' := by
  obtain ⟨x, hx, y, hy, hne, heq⟩ := h
  exact ⟨x, ha hx, y, hb hy, hne, heq⟩

namespace HashTree

variable {α : Type*} (hash : α × α → α)

def root : HashTree α → α
  | leaf a => a
  | node l r => hash (l.root, r.root)

def leaves : HashTree α → List α
  | leaf a => [a]
  | node l r => l.leaves ++ r.leaves

def inputs : HashTree α → List (α × α)
  | leaf _ => []
  | node l r => l.inputs ++ r.inputs ++ [(l.root hash, r.root hash)]

inductive SameShape : HashTree α → HashTree α → Prop where
  | leaf (a b : α) : SameShape (.leaf a) (.leaf b)
  | node {l r l' r' : HashTree α} (hl : SameShape l l') (hr : SameShape r r') :
      SameShape (.node l r) (.node l' r')

/-- Trees of one shape with the same root have the same leaves, or the two
evaluations collide. -/
theorem SameShape.leaves_eq_or_collide {s t : HashTree α} (h : SameShape s t)
    (hroot : s.root hash = t.root hash) :
    s.leaves = t.leaves ∨ Collide hash (s.inputs hash) (t.inputs hash) := by
  induction h with
  | leaf a b => exact .inl (congrArg (fun x ↦ [x]) hroot)
  | @node l r l' r' hl hr ihl ihr =>
    by_cases hpair : (l.root hash, r.root hash) = (l'.root hash, r'.root hash)
    · obtain ⟨hleft, hright⟩ := Prod.mk.inj hpair
      rcases ihl hleft with hleaves | hcollide
      · rcases ihr hright with hleaves' | hcollide
        · exact .inl (congrArg₂ (· ++ ·) hleaves hleaves')
        · exact .inr (hcollide.mono (by simp [inputs]) (by simp [inputs]))
      · exact .inr (hcollide.mono (by simp [inputs]) (by simp [inputs]))
    · exact .inr ⟨_, by simp [inputs], _, by simp [inputs], hpair, hroot⟩

/-! ## Branches -/

/-- One step up: the sibling, and whether it is the left one. -/
def stepInput (a : α) (step : Bool × α) : α × α := if step.1 then (step.2, a) else (a, step.2)

def branchRoot (a : α) (steps : List (Bool × α)) : α :=
  steps.foldl (fun a step ↦ hash (stepInput a step)) a

def branchInputs : α → List (Bool × α) → List (α × α)
  | _, [] => []
  | a, step :: steps => stepInput a step :: branchInputs (hash (stepInput a step)) steps

lemma stepInput_injective {a b : α} {step step' : Bool × α} (hside : step.1 = step'.1)
    (h : stepInput a step = stepInput b step') : a = b := by
  rw [stepInput, stepInput, ← hside] at h
  split_ifs at h
  · exact (Prod.mk.inj h).2
  · exact (Prod.mk.inj h).1

lemma branchRoot_collide {steps steps' : List (Bool × α)}
    (hsides : steps.map Prod.fst = steps'.map Prod.fst) {a b : α} (hne : a ≠ b)
    (h : branchRoot hash a steps = branchRoot hash b steps') :
    Collide hash (branchInputs hash a steps) (branchInputs hash b steps') := by
  induction steps generalizing steps' a b with
  | nil =>
    cases steps' with
    | nil => exact absurd h hne
    | cons step' steps' => cases hsides
  | cons step steps ih =>
    cases steps' with
    | nil => cases hsides
    | cons step' steps' =>
      obtain ⟨hside, hsides⟩ := cons.inj hsides
      have hinput : stepInput a step ≠ stepInput b step' := fun h ↦
        hne (stepInput_injective hside h)
      by_cases hvalue : hash (stepInput a step) = hash (stepInput b step')
      · exact ⟨_, mem_cons_self, _, mem_cons_self, hinput, hvalue⟩
      · exact (ih hsides hvalue h).mono (subset_cons_self _ _) (subset_cons_self _ _)

/-- A leaf of the tree, with the steps from it to the root. -/
inductive Located : HashTree α → List (Bool × α) → α → Prop where
  | leaf (a : α) : Located (.leaf a) [] a
  | left {l r : HashTree α} {steps : List (Bool × α)} {a : α} (h : Located l steps a) :
      Located (.node l r) (steps ++ [(false, r.root hash)]) a
  | right {l r : HashTree α} {steps : List (Bool × α)} {a : α} (h : Located r steps a) :
      Located (.node l r) (steps ++ [(true, l.root hash)]) a

lemma branchRoot_append (a : α) (steps : List (Bool × α)) (step : Bool × α) :
    branchRoot hash a (steps ++ [step]) = hash (stepInput (branchRoot hash a steps) step) := by
  simp [branchRoot]

lemma Located.branchRoot_eq {t : HashTree α} {steps : List (Bool × α)} {a : α}
    (h : Located hash t steps a) : branchRoot hash a steps = t.root hash := by
  induction h with
  | leaf a => rfl
  | left h ih =>
    rw [branchRoot_append, ih]
    rfl
  | right h ih =>
    rw [branchRoot_append, ih]
    rfl

end HashTree

/-! ## Levels -/

/-- Neighbours combined two by two. -/
def pairUp {α : Type*} (op : α → α → α) : List α → List α
  | [] => []
  | [_] => []
  | a :: b :: l => op a b :: pairUp op l

section PairUp

variable {α β : Type*} {op : α → α → α} {l : List α} {op' : β → β → β}

lemma pairUp_rel {R : α → β → Prop} (hop : ∀ {a b a' b'}, R a a' → R b b' → R (op a b) (op' a' b'))
    {l' : List β} (h : Forall₂ R l l') : Forall₂ R (pairUp op l) (pairUp op' l') := by
  induction l using pairUp.induct generalizing l' with
  | case1 =>
    cases h
    exact .nil
  | case2 a =>
    obtain ⟨a', l', ha, hl, rfl⟩ := forall₂_cons_left_iff.mp h
    cases hl
    exact .nil
  | case3 a b l ih =>
    obtain ⟨a', _, ha, hrest, rfl⟩ := forall₂_cons_left_iff.mp h
    obtain ⟨b', l', hb, hl, rfl⟩ := forall₂_cons_left_iff.mp hrest
    exact .cons (hop ha hb) (ih hl)

lemma pairUp_append_flatten {l : List (List α)} {n : ℕ} (h : l.length = 2 * n) :
    (pairUp (· ++ ·) l).flatten = l.flatten := by
  induction l using pairUp.induct generalizing n with
  | case1 => rfl
  | case2 a =>
    rw [length_singleton] at h
    omega
  | case3 a b l ih =>
    have hrest : l.length = 2 * (n - 1) := by
      rw [length_cons, length_cons] at h
      omega
    simp [pairUp, ih hrest]

lemma length_pairUp (op : α → α → α) (l : List α) : (pairUp op l).length = l.length / 2 := by
  induction l using pairUp.induct with
  | case1 => simp [pairUp]
  | case2 a => simp [pairUp]
  | case3 a b l ih =>
    simp only [pairUp, length_cons, ih]
    omega

lemma length_pairUp_iterate (op : α → α → α) (m : ℕ) {n : ℕ} (h : l.length = 2 ^ m * n) :
    ((pairUp op)^[m] l).length = n := by
  induction m generalizing l with
  | zero => simpa using h
  | succ m ih =>
    rw [Function.iterate_succ_apply]
    apply ih
    rw [length_pairUp, h, Nat.pow_succ, Nat.mul_right_comm, Nat.mul_div_cancel _ two_pos]

lemma pairUp_getElem? {m : ℕ} {a b : α} (ha : l[2 * m]? = some a) (hb : l[2 * m + 1]? = some b) :
    (pairUp op l)[m]? = some (op a b) := by
  induction l using pairUp.induct generalizing m with
  | case1 => cases ha
  | case2 x => simp at hb
  | case3 x y l ih =>
    cases m with
    | zero =>
      cases ha
      cases hb
      rfl
    | succ m => exact ih ha hb

lemma map_pairUp (f : α → β) (hf : ∀ a b, f (op a b) = op' (f a) (f b)) (l : List α) :
    (pairUp op l).map f = pairUp op' (l.map f) := by
  induction l using pairUp.induct with
  | case1 => rfl
  | case2 a => rfl
  | case3 a b l ih => simp only [pairUp, map_cons, hf, ih]

end PairUp

end Monero.Lib
