import Mathlib

/-!
# Groups of members

The groups of `n` members out of a finite set: how many there are with one
member, or with one and without another, and when a set of members meets them
all.
-/

namespace Monero.Lib

open Finset Fintype

def groups (ι : Type*) [Fintype ι] (n : ℕ) : Finset (Finset ι) := powersetCard n univ

@[simp] lemma mem_groups {ι : Type*} [Fintype ι] {n : ℕ} {S : Finset ι} :
    S ∈ groups ι n ↔ S.card = n := by
  simp [groups, mem_powersetCard]

lemma card_image_insert {ι : Type*} [DecidableEq ι] {U : Finset ι} {s : ι} (hs : s ∉ U) (n : ℕ) :
    ((powersetCard n U).image (insert s)).card = U.card.choose n := by
  have hinj : Set.InjOn (insert s) (powersetCard n U : Set (Finset ι)) := by
    intro S hS S' hS' heq
    have hnot : ∀ S'' ∈ (powersetCard n U : Set (Finset ι)), s ∉ S'' := fun S'' hS'' h ↦
      hs ((mem_powersetCard.mp (mem_coe.mp hS'')).1 h)
    rw [← erase_insert (hnot S hS), heq, erase_insert (hnot S' hS')]
  rw [card_image_of_injOn hinj, card_powersetCard]

variable {ι : Type*} [Fintype ι] [DecidableEq ι] {n : ℕ} {S : Finset ι} {i : ι}

def groupsWith (i : ι) (n : ℕ) : Finset (Finset ι) := (groups ι n).filter (i ∈ ·)

def groupsWithout (i : ι) (n : ℕ) : Finset (Finset ι) := (groups ι n).filter (i ∉ ·)

@[simp] lemma mem_groupsWith : S ∈ groupsWith i n ↔ S.card = n ∧ i ∈ S := by
  simp [groupsWith]

@[simp] lemma mem_groupsWithout : S ∈ groupsWithout i n ↔ S.card = n ∧ i ∉ S := by
  simp [groupsWithout]

/-! ## Counting -/

lemma image_insert_powersetCard {U : Finset ι} {s : ι} (hs : s ∉ U) (n : ℕ) :
    (powersetCard n U).image (insert s) =
      (groups ι (n + 1)).filter fun S ↦ s ∈ S ∧ S.erase s ⊆ U := by
  ext S
  rw [mem_image, mem_filter, mem_groups]
  constructor
  · rintro ⟨S', hS', rfl⟩
    obtain ⟨hsub, hcard⟩ := mem_powersetCard.mp hS'
    have hnot : s ∉ S' := fun h ↦ hs (hsub h)
    refine ⟨by rw [card_insert_of_notMem hnot, hcard], mem_insert_self s S', ?_⟩
    rwa [erase_insert hnot]
  · rintro ⟨hcard, hmem, hsub⟩
    refine ⟨S.erase s, mem_powersetCard.mpr ⟨hsub, ?_⟩, insert_erase hmem⟩
    rw [card_erase_of_mem hmem, hcard, Nat.add_sub_cancel]

lemma card_groupsWith (i : ι) (n : ℕ) :
    (groupsWith i (n + 1)).card = (card ι - 1).choose n := by
  have himage := image_insert_powersetCard (notMem_erase i univ) n
  have heq : groupsWith i (n + 1) =
      (groups ι (n + 1)).filter fun S ↦ i ∈ S ∧ S.erase i ⊆ univ.erase i := by
    ext S
    simp [erase_subset_erase]
  rw [heq, ← himage, card_image_insert (notMem_erase i univ), card_erase_of_mem (mem_univ i),
    card_univ]

lemma card_groupsWith_without {s : ι} (hne : s ≠ i) (n : ℕ) :
    ((groupsWith s (n + 1)).filter (i ∉ ·)).card = (card ι - 2).choose n := by
  have himage := image_insert_powersetCard (notMem_erase s (univ.erase i)) n
  have heq : (groupsWith s (n + 1)).filter (i ∉ ·) =
      (groups ι (n + 1)).filter fun S ↦ s ∈ S ∧ S.erase s ⊆ (univ.erase i).erase s := by
    ext S
    rw [mem_filter, mem_filter, mem_groupsWith, mem_groups, and_assoc]
    refine and_congr_right fun _ ↦ and_congr_right fun hs ↦ ?_
    constructor
    · intro hi x hx
      obtain ⟨hxs, hxS⟩ := mem_erase.mp hx
      exact mem_erase.mpr ⟨hxs, mem_erase.mpr ⟨fun h ↦ hi (h ▸ hxS), mem_univ x⟩⟩
    · intro hsub hi
      have hmem := hsub (mem_erase.mpr ⟨hne.symm, hi⟩)
      exact notMem_erase i univ (mem_of_mem_erase hmem)
  have hcard : ((univ.erase i).erase s : Finset ι).card = card ι - 2 := by
    calc
      ((univ.erase i).erase s).card = (univ.erase i).card - 1 :=
        card_erase_of_mem (mem_erase.mpr ⟨hne, mem_univ s⟩)
      _ = card ι - 1 - 1 := by rw [card_erase_of_mem (mem_univ i), card_univ]
      _ = card ι - 2 := Nat.sub_sub _ _ _
  rw [heq, ← himage, card_image_insert (notMem_erase s _), hcard]

/-! ## Meeting the groups -/

lemma exists_mem_of_card_le {T : Finset ι} (hT : i ∉ T) (hcard : card ι ≤ T.card + n)
    (hS : S ∈ groupsWithout i n) : ∃ s ∈ T, s ∈ S := by
  obtain ⟨hSn, hiS⟩ := mem_groupsWithout.mp hS
  by_contra hnone
  have hdisj : Disjoint T S := disjoint_left.mpr fun s hs hs' ↦ hnone ⟨s, hs, hs'⟩
  have hsub : T ∪ S ⊆ univ.erase i := by
    intro x hx
    refine mem_erase.mpr ⟨?_, mem_univ x⟩
    rintro rfl
    exact (mem_union.mp hx).elim hT hiS
  have hle := card_le_card hsub
  have hpos := Fintype.card_pos_iff.mpr ⟨i⟩
  rw [card_union_of_disjoint hdisj, card_erase_of_mem (mem_univ i), card_univ, hSn] at hle
  omega

lemma exists_group_without {s : ι} (hne : s ≠ i) (hn : n + 2 ≤ card ι) :
    ∃ S ∈ groupsWithout i (n + 1), s ∈ S := by
  have hpos : 0 < ((groupsWith s (n + 1)).filter (i ∉ ·)).card := by
    rw [card_groupsWith_without hne]
    exact Nat.choose_pos (by omega)
  obtain ⟨S, hS⟩ := card_pos.mp hpos
  obtain ⟨hwith, hi⟩ := mem_filter.mp hS
  obtain ⟨hcard, hs⟩ := mem_groupsWith.mp hwith
  exact ⟨S, mem_groupsWithout.mpr ⟨hcard, hi⟩, hs⟩

lemma groupsWith_succ (i : ι) (n : ℕ) :
    groupsWith i (n + 1) = (groupsWithout i n).image (insert i) := by
  ext S
  rw [mem_groupsWith, mem_image]
  constructor
  · rintro ⟨hcard, hi⟩
    refine ⟨S.erase i, mem_groupsWithout.mpr ⟨?_, notMem_erase i S⟩, insert_erase hi⟩
    rw [card_erase_of_mem hi, hcard, Nat.add_sub_cancel]
  · rintro ⟨S', hS', rfl⟩
    obtain ⟨hcard, hi⟩ := mem_groupsWithout.mp hS'
    exact ⟨by rw [card_insert_of_notMem hi, hcard], mem_insert_self i S'⟩

end Monero.Lib
