import Monero.Lib.Result

/-!
# Applying a permutation in place

`apply_permutation` of `apply_permutation.h` follows the permutation cycle by cycle and
makes each place that it leaves a fixed point.  Within a cycle the vector of indices is
no permutation: two places have the first index of the cycle.
-/

namespace Monero.Common

open Equiv List

/-! ## The functions -/

variable {α S : Type}

/-- The loop along the cycle of `i`, for a closure that swaps two places of some state.  There
is no result if it runs out of fuel. -/
def followCycle (swap : ℕ → ℕ → S → S) (i : ℕ) : ℕ → ℕ → List ℕ × S → Option (List ℕ × S)
  | 0, _, _ => none
  | fuel + 1, current, (permutation, s) =>
    let next := permutation.getD current 0
    let permutation := permutation.set current current
    if i = next then some (permutation, s)
    else followCycle swap i fuel next (permutation, swap current next s)

/-- The error, if there is one, and the state that is left. -/
def applyPermutationWith (swap : ℕ → ℕ → S → S) (fuel : ℕ) (permutation : List ℕ) (s : S) :
    Option (Option String × S) :=
  if ∀ n < permutation.length, n ∈ permutation then
    ((range permutation.length).foldlM (fun x i ↦ followCycle swap i fuel i x)
      (permutation, s)).map fun x ↦ (none, x.2)
  else some (some "Bad permutation", s)

def swapEntries (i₀ i₁ : ℕ) (v : List α) : List α :=
  match v[i₀]?, v[i₁]? with
  | some a, some b => (v.set i₀ b).set i₁ a
  | _, _ => v

def applyPermutation (fuel : ℕ) (permutation : List ℕ) (v : List α) :
    Option (Option String × List α) :=
  if permutation.length ≠ v.length then some (some "Mismatched vector sizes", v)
  else applyPermutationWith swapEntries fuel permutation v

/-! ## The loop -/

variable {n : ℕ} {swap : ℕ → ℕ → S → S} {p : List ℕ} {s : S} {σ : Perm (Fin n)} {i current : Fin n}

def Entries (σ : Perm (Fin n)) (p : List ℕ) : Prop := ∀ k : Fin n, p[(k : ℕ)]? = some (σ k).1

/-- What is left to do is `σ`.  In the cycle of `i` the place that is to get the entry at
`current` still has the index `i`. -/
structure Follows (i current : Fin n) (σ : Perm (Fin n)) (p : List ℕ) : Prop where
  entry : ∀ k : Fin n, p[(k : ℕ)]? = some (if σ k = current then i else σ k : Fin n).1
  start : current = i ∨ σ i = i

section

variable (h : Follows i current σ p)

include h

lemma Follows.set (k : Fin n) : (p.set current current)[(k : ℕ)]? =
    some (if k = current then current else if σ k = current then i else σ k : Fin n).1 := by
  obtain ⟨hlt, -⟩ := List.getElem?_eq_some_iff.mp (h.entry current)
  rw [getElem?_set, h.entry]
  split_ifs <;> simp_all [Fin.ext_iff]

lemma Follows.stop (hstop : σ current = current) :
    Entries σ (p.set current current) ∧ σ i = i := by
  refine ⟨fun k ↦ ?_, ?_⟩
  · have hinj : σ k = σ current → k = current := fun heq ↦ σ.injective heq
    rw [h.set]
    grind
  · rcases h.start with rfl | hi
    · exact hstop
    · exact hi

lemma Follows.step (hgo : σ current ≠ current) :
    i ≠ σ current ∧ Follows i (σ current) (Equiv.swap current (σ current) * σ)
      (p.set current current) := by
  have hinj (k : Fin n) : σ k = σ current → k = current := fun heq ↦ σ.injective heq
  have hstart := h.start
  refine ⟨?_, fun k ↦ ?_, .inr ?_⟩
  · grind
  · rw [h.set, Perm.mul_apply, swap_apply_def]
    grind
  · rw [Perm.mul_apply, swap_apply_def]
    grind

end

/-- What a swap keeps is kept by a whole run, if it refers to the permutation that is left. -/
def Keeps (swap : ℕ → ℕ → S → S) (I : Perm (Fin n) → S → Prop) : Prop :=
  ∀ σ s x, I σ s → σ x ≠ x → I (Equiv.swap x (σ x) * σ) (swap x (σ x) s)

variable {I : Perm (Fin n) → S → Prop} {fuel : ℕ}

lemma followCycle_spec (hI : Keeps swap I) (h : Follows i current σ p) (hs : I σ s)
    (hfuel : σ.support.card < fuel) :
    ∃ σ' p' s', followCycle swap i fuel current (p, s) = some (p', s') ∧ I σ' s' ∧
      Entries σ' p' ∧ σ' i = i ∧ σ'.support ⊆ σ.support := by
  induction fuel generalizing current σ p s with
  | zero => omega
  | succ fuel ih =>
    have hnext : p.getD current 0 = (if σ current = current then i else σ current : Fin n) := by
      rw [getD_eq_getElem?_getD, h.entry, Option.getD_some]
    simp only [followCycle, hnext]
    by_cases hstop : σ current = current
    · rw [if_pos hstop, if_pos rfl]
      exact ⟨σ, _, s, rfl, hs, (h.stop hstop).1, (h.stop hstop).2, subset_rfl⟩
    · obtain ⟨hne, hfollows⟩ := h.step hstop
      rw [if_neg hstop, if_neg (Fin.val_ne_of_ne hne)]
      obtain ⟨σ', p', s', hrun, hs', hentry, hi, hsub⟩ := ih hfollows (hI σ s _ hs hstop)
        (by have := Perm.card_support_swap_mul hstop; omega)
      refine ⟨σ', p', s', hrun, hs', hentry, hi, fun x hx ↦ ?_⟩
      exact (Perm.mem_support_swap_mul_imp_mem_support_ne (hsub hx)).1

lemma foldlM_followCycle (hI : Keeps swap I) {m : ℕ} (hm : m ≤ n) (hfuel : n < fuel)
    (hentry : Entries σ p) (hs : I σ s) :
    ∃ σ' p' s', (range m).foldlM (fun x i ↦ followCycle swap i fuel i x) (p, s) = some (p', s') ∧
      I σ' s' ∧ Entries σ' p' ∧ ∀ k : Fin n, k < m → σ' k = k := by
  induction m with
  | zero => exact ⟨σ, p, s, rfl, hs, hentry, fun k hk ↦ absurd hk (by omega)⟩
  | succ m ih =>
    obtain ⟨σ₁, p₁, s₁, hrun, hs₁, hentry₁, hfixed⟩ := ih (by omega)
    have hfollows : Follows ⟨m, hm⟩ ⟨m, hm⟩ σ₁ p₁ := by
      refine ⟨fun k ↦ ?_, .inl rfl⟩
      rw [hentry₁]
      split
      next hk => rw [hk]
      next => rfl
    have hcard : σ₁.support.card < fuel :=
      (Finset.card_le_univ _).trans_lt (by rwa [Fintype.card_fin])
    obtain ⟨σ₂, p₂, s₂, hcycle, hs₂, hentry₂, hm₂, hsub⟩ :=
      followCycle_spec hI hfollows hs₁ hcard
    refine ⟨σ₂, p₂, s₂, ?_, hs₂, hentry₂, fun k hk ↦ ?_⟩
    · rw [range_succ, foldlM_append, hrun]
      simpa using hcycle
    · rcases Nat.lt_succ_iff_lt_or_eq.mp hk with hk | hk
      · by_contra hmoved
        exact Perm.mem_support.mp (hsub (Perm.mem_support.mpr hmoved)) (hfixed k hk)
      · rwa [show k = ⟨m, hm⟩ from Fin.ext hk]

/-! ## The whole permutation -/

lemma check_iff : (∀ m < p.length, m ∈ p) ↔ p.Perm (range p.length) := by
  constructor
  · intro h
    have hsub := nodup_range.subperm fun m hm ↦ h m (mem_range.mp hm)
    exact (hsub.perm_of_length_le (by rw [length_range])).symm
  · intro h m hm
    exact h.mem_iff.mpr (mem_range.mpr hm)

lemma exists_entries (h : p.Perm (range p.length)) : ∃ σ : Perm (Fin p.length), Entries σ p := by
  let f : Fin p.length → Fin p.length :=
    fun k ↦ ⟨p.get k, mem_range.mp (h.mem_iff.mp (get_mem p k))⟩
  have hinj : f.Injective := fun k l hkl ↦
    nodup_iff_injective_get.mp (h.nodup_iff.mpr nodup_range) (Fin.mk.inj hkl)
  exact ⟨.ofBijective f (Finite.injective_iff_bijective.mp hinj), fun k ↦ getElem?_eq_getElem k.2⟩

lemma applyPermutationWith_spec (h : p.Perm (range p.length)) (hfuel : p.length < fuel)
    {I : Perm (Fin p.length) → S → Prop} (hI : Keeps swap I)
    (hs : ∀ σ : Perm (Fin p.length), Entries σ p → I σ s) :
    ∃ s', applyPermutationWith swap fuel p s = some (none, s') ∧ I 1 s' := by
  obtain ⟨σ, hσ⟩ := exists_entries h
  obtain ⟨σ', p', s', hrun, hs', -, hfixed⟩ := foldlM_followCycle hI le_rfl hfuel hσ (hs σ hσ)
  obtain rfl : σ' = 1 := Perm.ext fun k ↦ hfixed k k.2
  rw [applyPermutationWith, if_pos (check_iff.mpr h), hrun]
  exact ⟨s', rfl, hs'⟩

lemma length_swapEntries (v : List α) (i₀ i₁ : ℕ) : (swapEntries i₀ i₁ v).length = v.length := by
  rw [swapEntries]
  split
  next => rw [length_set, length_set]
  next => rfl

lemma getElem?_swapEntries {v : List α} (hv : v.length = n) (x z y : Fin n) :
    (swapEntries x z v)[(Equiv.swap x z y : Fin n).1]? = v[(y : ℕ)]? := by
  have hget (k : Fin n) : v[(k : ℕ)]? = some (v.get (k.cast hv.symm)) :=
    List.getElem?_eq_getElem (hv.symm ▸ k.2)
  have hlt (k : Fin n) : (k : ℕ) < v.length := hv.symm ▸ k.2
  simp only [swapEntries, hget, getElem?_set, length_set, hlt, if_true, Equiv.swap_apply_def]
  split_ifs with hx hz <;> simp_all [Fin.ext_iff]

/-- Read through the permutation that is left, the entries are where they belong. -/
def Arranged (p : List ℕ) (v : List α) (σ : Perm (Fin p.length)) (u : List α) : Prop :=
  u.length = p.length ∧ ∀ k : Fin p.length, u[(σ k).1]? = p[(k : ℕ)]?.bind fun k ↦ v[k]?

lemma swapEntries_keeps (v : List α) : Keeps swapEntries (Arranged p v) := by
  rintro σ u x ⟨hu, hall⟩ -
  refine ⟨(length_swapEntries _ _ _).trans hu, fun k ↦ ?_⟩
  rw [Perm.mul_apply, getElem?_swapEntries hu, hall]

/-- No permutation moves one place only, so the last swap settles two. -/
def SwapsLeft (σ : Perm (Fin n)) (count : ℕ) : Prop := count + (σ.support.card - 1) ≤ n - 1

lemma count_keeps : Keeps (fun _ _ count ↦ count + 1) (@SwapsLeft n) := by
  intro σ count x hcount hx
  have hless := Perm.card_support_swap_mul hx
  have htwo := @Perm.two_le_card_support_of_ne_one _ _ _ σ (by rintro rfl; exact hx rfl)
  simp only [SwapsLeft] at hcount ⊢
  omega

/-- The swaps are counted with a closure that counts them. -/
theorem applyPermutation_realises (p : List ℕ) (v : List α) (hlength : p.length = v.length) :
    (p.Perm (range p.length) → ∀ fuel > p.length, ∃ w swaps,
      applyPermutation fuel p v = some (none, w) ∧ (∀ i : ℕ, w[i]? = p[i]?.bind fun k ↦ v[k]?) ∧
      applyPermutationWith (fun _ _ count ↦ count + 1) fuel p 0 = some (none, swaps) ∧
      swaps ≤ p.length - 1) ∧
    (¬p.Perm (range p.length) → ∀ fuel,
      applyPermutation fuel p v = some (some "Bad permutation", v)) := by
  have heq (fuel : ℕ) : applyPermutation fuel p v = applyPermutationWith swapEntries fuel p v :=
    if_neg (not_not.mpr hlength)
  simp only [heq]
  refine ⟨fun h fuel hfuel ↦ ?_, fun h fuel ↦ if_neg (check_iff.not.mpr h)⟩
  obtain ⟨w, hw, hlen, hall⟩ := applyPermutationWith_spec h hfuel (swapEntries_keeps v)
    fun σ hσ ↦ ⟨hlength.symm, fun k ↦ by rw [hσ]; rfl⟩
  obtain ⟨swaps, hswaps, hle⟩ :=
    applyPermutationWith_spec h hfuel count_keeps (s := 0) fun σ _ ↦ by
    have hcard := Finset.card_le_univ σ.support
    rw [Fintype.card_fin] at hcard
    rw [SwapsLeft]
    omega
  refine ⟨w, swaps, hw, fun i ↦ ?_, hswaps, le_of_add_le_left hle⟩
  by_cases hi : i < p.length
  · exact hall ⟨i, hi⟩
  · rw [getElem?_eq_none (by omega), getElem?_eq_none (by omega)]
    rfl

theorem applyPermutation_realises_three :
    applyPermutation 4 [1, 2, 0] ["a", "b", "c"] = some (none, ["b", "c", "a"]) ∧
      applyPermutationWith (fun _ _ count ↦ count + 1) 4 [1, 2, 0] 0 = some (none, 2) ∧
      applyPermutation 4 [1, 1, 0] ["a", "b", "c"] =
        some (some "Bad permutation", ["a", "b", "c"]) := by
  refine ⟨by decide, by decide, ?_⟩
  exact (applyPermutation_realises [1, 1, 0] ["a", "b", "c"] rfl).2 (by decide) 4

end Monero.Common
