import Mathlib

/-!
# The chain history handshake

`get_short_chain_history` lists the hashes of some blocks of a chain, from the
top down with growing gaps, and `find_blockchain_supplement` looks for the first
of them in another chain.
-/

namespace Monero.Blockchain

open List
open Option (map_some)

/-! ## The functions -/

/-- The heights at which the loop reads a hash, and `genesis_included`. -/
def shortHistoryLoop (sz : ℕ) : ℕ → ℕ → ℕ → ℕ → List ℕ × Bool → List ℕ × Bool
  | 0, _, _, _, found => found
  | fuel + 1, i, currentMultiplier, currentBackOffset, (heights, genesisIncluded) =>
    if currentBackOffset < sz then
      let height := sz - currentBackOffset
      let found := (heights ++ [height], if height = 0 then true else genesisIncluded)
      if i < 10 then shortHistoryLoop sz fuel (i + 1) currentMultiplier (currentBackOffset + 1)
        found
      else shortHistoryLoop sz fuel (i + 1) (currentMultiplier * 2)
        (currentBackOffset + currentMultiplier * 2) found
    else (heights, genesisIncluded)

def shortHistoryHeights (sz : ℕ) : List ℕ :=
  let (heights, genesisIncluded) := shortHistoryLoop sz sz 0 1 1 ([], false)
  if genesisIncluded then heights else heights ++ [0]

section

variable {H : Type*} [DecidableEq H]

def getShortChainHistory (hashes : List H) : Option (List H × ℕ) :=
  let sz := hashes.length
  if sz = 0 then some ([], 0)
  else ((shortHistoryHeights sz).mapM fun height ↦ hashes[height]?).map (·, sz)

def blockExists (hashes : List H) (h : H) : Option ℕ :=
  if h ∈ hashes then some (hashes.idxOf h) else none

/-- The value of `starter_offset`; `none` is the return value `false`. -/
def findBlockchainSupplement (hashes qblockIds : List H) : Option ℕ :=
  match qblockIds.getLast?, hashes[0]? with
  | some last, some genHash =>
    if last ≠ genHash then none else qblockIds.findSome? (blockExists hashes)
  | _, _ => none

end

/-! ## The heights of the history -/

/-- `current_back_offset` in round `i`. -/
def backOffset (i : ℕ) : ℕ := if i < 10 then i + 1 else 9 + 2 ^ (i - 9)

lemma backOffset_succ (i : ℕ) :
    backOffset (i + 1) = backOffset i + if i < 10 then 1 else 2 ^ (i - 10) * 2 := by
  rcases lt_trichotomy i 9 with hlt | rfl | hgt
  · simp [backOffset, if_pos (show i + 1 < 10 by omega), if_pos (show i < 10 by omega)]
  · rfl
  · simp only [backOffset, if_neg (show ¬i + 1 < 10 by omega), if_neg (show ¬i < 10 by omega)]
    obtain ⟨k, rfl⟩ := Nat.exists_eq_add_of_le' hgt
    simp only [show k + (9 + 1) + 1 - 9 = k + 2 by omega, show k + (9 + 1) - 9 = k + 1 by omega,
      show k + (9 + 1) - 10 = k by omega, Nat.pow_succ]
    omega

lemma backOffset_strictMono : StrictMono backOffset := by
  refine strictMono_nat_of_lt_succ fun i ↦ ?_
  have hpos : 0 < 2 ^ (i - 10) := Nat.two_pow_pos _
  rw [backOffset_succ]
  split_ifs <;> omega

lemma backOffset_pos (i : ℕ) : 0 < backOffset i :=
  Nat.zero_lt_one.trans_le (backOffset_strictMono.monotone i.zero_le)

lemma shortHistoryLoop_spec {sz fuel i : ℕ} (hfuel : sz ≤ backOffset i + fuel) (heights : List ℕ) :
    ∃ n, shortHistoryLoop sz fuel i (2 ^ (i - 10)) (backOffset i) (heights, false) =
        (heights ++ (range' i n).map (sz - backOffset ·), false) ∧
      (∀ k, i ≤ k → k < i + n → backOffset k < sz) ∧ sz ≤ backOffset (i + n) := by
  induction fuel generalizing i heights with
  | zero => exact ⟨0, by simp [shortHistoryLoop], by omega, hfuel⟩
  | succ fuel ih =>
    by_cases hlt : backOffset i < sz
    · have hnext : backOffset i < backOffset (i + 1) := backOffset_strictMono (Nat.lt_succ_self i)
      obtain ⟨n, hloop, hbelow, habove⟩ :=
        ih (i := i + 1) (by omega) (heights ++ [sz - backOffset i])
      refine ⟨n + 1, ?_, ?_, by rwa [Nat.add_comm n 1, ← Nat.add_assoc]⟩
      · have hheight : ¬sz - backOffset i = 0 := by omega
        rw [append_assoc, singleton_append, backOffset_succ] at hloop
        rw [shortHistoryLoop, if_pos hlt]
        simp only [if_neg hheight, range'_succ, map_cons]
        split_ifs at hloop ⊢ with hi
        · rwa [show i + 1 - 10 = i - 10 by omega] at hloop
        · rwa [show i + 1 - 10 = i - 10 + 1 by omega, Nat.pow_succ] at hloop
      · intro k hik hk
        rcases hik.eq_or_lt with rfl | hik
        · exact hlt
        · exact hbelow k hik (by omega)
    · refine ⟨0, ?_, by omega, not_lt.mp hlt⟩
      rw [shortHistoryLoop, if_neg hlt]
      simp

lemma shortHistoryHeights_spec (sz : ℕ) :
    ∃ n, shortHistoryHeights sz = (range n).map (sz - backOffset ·) ++ [0] ∧
      ∀ k, k < n ↔ backOffset k < sz := by
  obtain ⟨n, hloop, hbelow, habove⟩ := shortHistoryLoop_spec (i := 0) (Nat.le_add_left sz _) []
  refine ⟨n, ?_, fun k ↦ ⟨fun hk ↦ hbelow k k.zero_le (by omega), fun hk ↦ ?_⟩⟩
  · rw [nil_append, ← range_eq_range'] at hloop
    rw [shortHistoryHeights, show shortHistoryLoop sz sz 0 1 1 ([], false) = _ from hloop]
    rfl
  · rw [Nat.zero_add] at habove
    exact backOffset_strictMono.lt_iff_lt.mp (hk.trans_le habove)

lemma mem_shortHistoryHeights {sz height : ℕ} :
    height ∈ shortHistoryHeights sz ↔ height = 0 ∨ ∃ k, height + backOffset k = sz := by
  obtain ⟨n, heq, hn⟩ := shortHistoryHeights_spec sz
  rw [heq, mem_append, mem_map, mem_singleton, or_comm]
  constructor
  · rintro (hzero | ⟨k, hk, rfl⟩)
    · exact .inl hzero
    · have hlt := (hn k).mp (mem_range.mp hk)
      exact .inr ⟨k, by omega⟩
  · rintro (hzero | ⟨k, hk⟩)
    · exact .inl hzero
    · by_cases hzero : height = 0
      · exact .inl hzero
      · exact .inr ⟨k, mem_range.mpr ((hn k).mpr (by omega)), by omega⟩

lemma shortHistoryHeights_head? {sz : ℕ} (hsz : 0 < sz) :
    (shortHistoryHeights sz).head? = some (sz - 1) := by
  obtain ⟨n, heq, hn⟩ := shortHistoryHeights_spec sz
  cases n with
  | zero =>
    have hone : ¬backOffset 0 < sz := fun h ↦ absurd ((hn 0).mpr h) (lt_irrefl 0)
    obtain rfl : sz = 1 := by
      change ¬1 < sz at hone
      omega
    rw [heq]
    rfl
  | succ n =>
    rw [heq, range_succ_eq_map]
    rfl

lemma shortHistoryHeights_getLast? (sz : ℕ) : (shortHistoryHeights sz).getLast? = some 0 := by
  obtain ⟨n, heq, -⟩ := shortHistoryHeights_spec sz
  rw [heq, getLast?_concat]

lemma shortHistoryHeights_decreasing (sz : ℕ) : (shortHistoryHeights sz).Pairwise (· > ·) := by
  obtain ⟨n, heq, hn⟩ := shortHistoryHeights_spec sz
  rw [heq, pairwise_append]
  refine ⟨?_, pairwise_singleton _ _, ?_⟩
  · rw [pairwise_map]
    refine pairwise_lt_range.imp_of_mem fun {k l} _ hl hkl ↦ ?_
    have hlt := (hn l).mp (mem_range.mp hl)
    have hoffsets := backOffset_strictMono hkl
    omega
  · intro height hheight bottom hbottom
    obtain ⟨k, hk, rfl⟩ := mem_map.mp hheight
    rw [mem_singleton.mp hbottom]
    exact Nat.sub_pos_of_lt ((hn k).mp (mem_range.mp hk))

lemma length_shortHistoryHeights_le (sz : ℕ) :
    (shortHistoryHeights sz).length ≤ 12 + Nat.log 2 (sz - 1) := by
  obtain ⟨n, heq, hn⟩ := shortHistoryHeights_spec sz
  rw [heq, length_append, length_map, length_range, length_singleton]
  by_cases hfew : n ≤ 11
  · omega
  · obtain ⟨k, rfl⟩ := Nat.exists_eq_add_of_le' (not_le.mp hfew)
    have hlast := (hn (k + 11)).mp (by omega)
    simp only [backOffset, if_neg (show ¬k + 11 < 10 by omega),
      show k + 11 - 9 = k + 2 by omega] at hlast
    have hlog : k + 2 ≤ Nat.log 2 (sz - 1) := Nat.le_log_of_pow_le one_lt_two (by omega)
    omega

/-- The height next below `L` that is in the history is at most as far from `L`
as `L` is from the top. -/
theorem shortHistoryHeights_gap {sz L D g : ℕ} (hsz : sz = L + 1 + D)
    (hg : IsGreatest {height | height ∈ shortHistoryHeights sz ∧ height ≤ L} g) :
    (D ≤ 10 → g = L) ∧ (10 < D → L - g < D) := by
  constructor
  · intro hD
    refine le_antisymm hg.1.2 (hg.2 ⟨mem_shortHistoryHeights.mpr (.inr ⟨D, ?_⟩), le_rfl⟩)
    rcases hD.lt_or_eq with hlt | rfl
    · rw [backOffset, if_pos hlt]
      omega
    · change L + 11 = sz
      omega
  · intro hD
    -- the first offset that reaches down to `L`
    have hex : ∃ k, D + 1 ≤ backOffset k := ⟨D + 1, backOffset_strictMono.le_apply⟩
    obtain ⟨k, hk⟩ : ∃ k, Nat.find hex = k + 11 := by
      refine Nat.exists_eq_add_of_le' (le_of_not_gt fun hlt ↦ ?_)
      have hsmall := backOffset_strictMono.monotone (Nat.le_of_lt_succ hlt)
      have hreach := Nat.find_spec hex
      change _ ≤ 11 at hsmall
      omega
    have hreach : D + 1 ≤ backOffset (k + 11) := by
      have hspec := Nat.find_spec hex
      rwa [hk] at hspec
    have hshort : backOffset (k + 10) < D + 1 := by
      refine not_le.mp fun hle ↦ ?_
      have hmin := Nat.find_min' hex hle
      omega
    have hvalue : backOffset (k + 10) = 9 + 2 ^ (k + 1) := by
      rw [backOffset, if_neg (by omega), show k + 10 - 9 = k + 1 by omega]
    have hnext : backOffset (k + 11) = backOffset (k + 10) + 2 ^ (k + 1) := by
      rw [backOffset_succ, if_neg (by omega), show k + 10 - 10 = k by omega, Nat.pow_succ]
    have hnear : sz - backOffset (k + 11) ≤ g := by
      refine hg.2 ⟨mem_shortHistoryHeights.mpr ?_, by omega⟩
      by_cases hfits : backOffset (k + 11) < sz
      · exact .inr ⟨k + 11, by omega⟩
      · exact .inl (by omega)
    omega

/-! ## Two chains -/

section

variable {B H : Type*} [DecidableEq H] {id prevId : B → H} {chain : List B}

/-- Every block names its predecessor, and no hash occurs twice. -/
structure IsMainChain (id prevId : B → H) (chain : List B) : Prop where
  linked : chain.IsChain fun a b ↦ prevId b = id a
  nodup : (chain.map id).Nodup

omit [DecidableEq H] in
lemma IsMainChain.prevId_eq (hchain : IsMainChain id prevId chain) {h : ℕ}
    (hh : h + 1 < chain.length) : prevId chain[h + 1] = id chain[h] :=
  isChain_iff_getElem.mp hchain.linked h hh

omit [DecidableEq H] in
lemma IsMainChain.height_eq (hchain : IsMainChain id prevId chain) {h h' : ℕ} {a b : B}
    (ha : chain[h]? = some a) (hb : chain[h']? = some b) (hid : id a = id b) : h = h' := by
  have hlt : h < (chain.map id).length := by
    rw [length_map]
    exact (List.getElem?_eq_some_iff.mp ha).1
  refine (getElem?_inj hlt hchain.nodup).mp ?_
  rw [getElem?_map, getElem?_map, ha, hb, map_some, map_some, hid]

variable {c₁ c₂ : List B} {genesis : B} {heights : List ℕ}

section

variable (h₁ : IsMainChain id prevId c₁) (h₂ : IsMainChain id prevId c₂)
  (hgen₁ : c₁[0]? = some genesis) (hgen₂ : c₂[0]? = some genesis)
  (hinj : ∀ a ∈ c₁, ∀ b ∈ c₂, id a = id b → a = b)

include h₁ h₂ hgen₁ hgen₂ hinj

omit [DecidableEq H] in
lemma common_below {h h' : ℕ} {b : B} (hb₁ : c₁[h]? = some b) (hb₂ : c₂[h']? = some b) :
    h' = h ∧ ∀ k ≤ h, c₁[k]? = c₂[k]? := by
  induction h generalizing h' b with
  | zero =>
    cases hgen₁.symm.trans hb₁
    obtain rfl : h' = 0 := h₂.height_eq hb₂ hgen₂ rfl
    refine ⟨rfl, fun k hk ↦ ?_⟩
    rw [Nat.le_zero.mp hk, hgen₁, hgen₂]
  | succ h ih =>
    cases h' with
    | zero =>
      cases hgen₂.symm.trans hb₂
      exact absurd (h₁.height_eq hb₁ hgen₁ rfl) (Nat.succ_ne_zero h)
    | succ h' =>
      have hlt₁ : h + 1 < c₁.length := (List.getElem?_eq_some_iff.mp hb₁).1
      have hlt₂ : h' + 1 < c₂.length := (List.getElem?_eq_some_iff.mp hb₂).1
      have ha₁ : c₁[h]? = some c₁[h] := getElem?_eq_getElem (by omega)
      have ha₂ : c₂[h']? = some c₂[h'] := getElem?_eq_getElem (by omega)
      have hparent : id c₁[h] = id c₂[h'] := by
        rw [← h₁.prevId_eq hlt₁, ← h₂.prevId_eq hlt₂, (List.getElem?_eq_some_iff.mp hb₁).2,
          (List.getElem?_eq_some_iff.mp hb₂).2]
      have heq := hinj _ (mem_of_getElem? ha₁) _ (mem_of_getElem? ha₂) hparent
      obtain ⟨rfl, hbelow⟩ := ih ha₁ (ha₂.trans (congrArg some heq.symm))
      refine ⟨rfl, fun k hk ↦ ?_⟩
      rcases hk.lt_or_eq with hlt | rfl
      · exact hbelow k (Nat.le_of_lt_succ hlt)
      · rw [hb₁, hb₂]

/-- Up to the last common block, and only there, a block of the first chain is
found in the second, at its own height. -/
theorem blockExists_eq {L : ℕ} (hL : IsGreatest {h | ∃ b, c₁[h]? = some b ∧ b ∈ c₂} L) {h : ℕ}
    {b : B} (hb : c₁[h]? = some b) :
    blockExists (c₂.map id) (id b) = if h ≤ L then some h else none := by
  obtain ⟨⟨c, hc₁, hc⟩, hmax⟩ := hL
  obtain ⟨h', hc₂⟩ := mem_iff_getElem?.mp hc
  by_cases hle : h ≤ L
  · have hb₂ : c₂[h]? = some b := by
      rw [← (common_below h₁ h₂ hgen₁ hgen₂ hinj hc₁ hc₂).2 h hle, hb]
    have hmem : id b ∈ c₂.map id := mem_map_of_mem (mem_of_getElem? hb₂)
    have hindex : (c₂.map id).idxOf (id b) = h := by
      have hfound := getElem?_idxOf hmem
      rw [getElem?_map] at hfound
      obtain ⟨a, ha, hid⟩ := Option.map_eq_some_iff.mp hfound
      exact h₂.height_eq ha hb₂ hid
    rw [blockExists, if_pos hmem, if_pos hle, hindex]
  · have hnot : id b ∉ c₂.map id := by
      intro hmem
      obtain ⟨a, ha, hid⟩ := mem_map.mp hmem
      obtain rfl := hinj b (mem_of_getElem? hb) a ha hid.symm
      exact hle (hmax ⟨b, hb, ha⟩)
    rw [blockExists, if_neg hnot, if_neg hle]

end

omit [DecidableEq H] in
lemma mapM_getElem? {hashes : List H} (h : ∀ x ∈ heights, x < hashes.length) :
    ∃ ids, (heights.mapM fun x ↦ hashes[x]?) = some ids ∧
      ids.map some = heights.map fun x ↦ hashes[x]? := by
  induction heights with
  | nil => exact ⟨[], rfl, rfl⟩
  | cons x heights ih =>
    obtain ⟨ids, hids, hmap⟩ := ih fun y hy ↦ h y (mem_cons_of_mem x hy)
    have hlt : x < hashes.length := h x mem_cons_self
    have hx : hashes[x]? = some hashes[x] := getElem?_eq_getElem hlt
    refine ⟨hashes[x] :: ids, ?_, ?_⟩
    · rw [mapM_cons, hx, hids]
      rfl
    · rw [map_cons, map_cons, hmap, hx]

lemma findSome?_isGreatest (h : heights.Pairwise (· > ·)) {L : ℕ} {f : ℕ → Option ℕ}
    (hf : ∀ x ∈ heights, f x = if x ≤ L then some x else none) (hex : ∃ x ∈ heights, x ≤ L) :
    ∃ g, heights.findSome? f = some g ∧ IsGreatest {x | x ∈ heights ∧ x ≤ L} g := by
  induction heights with
  | nil => simp at hex
  | cons y heights ih =>
    obtain ⟨hy, hrest⟩ := pairwise_cons.mp h
    have hfy := hf y mem_cons_self
    by_cases hle : y ≤ L
    · refine ⟨y, by simp [hfy, hle], ⟨mem_cons_self, hle⟩, fun x hx ↦ ?_⟩
      rcases mem_cons.mp hx.1 with rfl | hx'
      · exact le_rfl
      · exact (hy x hx').le
    · obtain ⟨x, hx, hxL⟩ := hex
      have hx' : x ∈ heights := (mem_cons.mp hx).resolve_left (by rintro rfl; exact hle hxL)
      obtain ⟨g, hg, hmem, hmax⟩ := ih hrest (fun z hz ↦ hf z (mem_cons_of_mem y hz)) ⟨x, hx', hxL⟩
      refine ⟨g, by simp [hfy, hle, hg], ⟨mem_cons_of_mem y hmem.1, hmem.2⟩, fun z hz ↦ ?_⟩
      refine hmax ⟨(mem_cons.mp hz.1).resolve_left ?_, hz.2⟩
      rintro rfl
      exact hle hz.2

/-- The history of one chain, looked up in another, leads to the highest of its
blocks that both have. -/
theorem chainHistory_finds_common (h₁ : IsMainChain id prevId c₁) (h₂ : IsMainChain id prevId c₂)
    (hgen₁ : c₁[0]? = some genesis) (hgen₂ : c₂[0]? = some genesis)
    (hinj : ∀ a ∈ c₁, ∀ b ∈ c₂, id a = id b → a = b) {L : ℕ}
    (hL : IsGreatest {h | ∃ b, c₁[h]? = some b ∧ b ∈ c₂} L) :
    ∃ (heights : List ℕ) (ids : List H) (starterOffset : ℕ),
      getShortChainHistory (c₁.map id) = some (ids, c₁.length) ∧
      (ids.map some = heights.map fun h ↦ c₁[h]?.map id) ∧
      heights.head? = some (c₁.length - 1) ∧ heights.getLast? = some 0 ∧
      heights.Pairwise (· > ·) ∧ heights.length ≤ 12 + Nat.log 2 (c₁.length - 1) ∧
      findBlockchainSupplement (c₂.map id) ids = some starterOffset ∧
      IsGreatest {h | h ∈ heights ∧ h ≤ L} starterOffset ∧
      ∀ D, c₁.length = L + 1 + D →
        (D ≤ 10 → starterOffset = L) ∧ (10 < D → L - starterOffset < D) := by
  have hpos : 0 < c₁.length := (List.getElem?_eq_some_iff.mp hgen₁).1
  have hbelow : ∀ h ∈ shortHistoryHeights c₁.length, h < (c₁.map id).length := by
    intro h hh
    rw [length_map]
    rcases mem_shortHistoryHeights.mp hh with rfl | ⟨k, hk⟩
    · exact hpos
    · have hone := backOffset_pos k
      omega
  obtain ⟨ids, hids, hmap⟩ := mapM_getElem? hbelow
  -- the search over the hashes is one over the heights
  have hsearch : ∀ h ∈ shortHistoryHeights c₁.length,
      (c₁.map id)[h]?.bind (blockExists (c₂.map id)) = if h ≤ L then some h else none := by
    intro h hh
    have hlt : h < c₁.length := (hbelow h hh).trans_eq (length_map id)
    have hb : c₁[h]? = some c₁[h] := getElem?_eq_getElem hlt
    rw [getElem?_map, hb, map_some, Option.bind_some,
      blockExists_eq h₁ h₂ hgen₁ hgen₂ hinj hL hb]
  obtain ⟨g, hg, hgreatest⟩ :=
    findSome?_isGreatest (shortHistoryHeights_decreasing c₁.length) hsearch
    ⟨0, mem_shortHistoryHeights.mpr (.inl rfl), L.zero_le⟩
  refine ⟨_, ids, g, ?_, ?_, shortHistoryHeights_head? hpos, shortHistoryHeights_getLast? _,
    shortHistoryHeights_decreasing _, length_shortHistoryHeights_le _, ?_, hgreatest,
    fun D hD ↦ shortHistoryHeights_gap hD hgreatest⟩
  · simp only [getShortChainHistory, length_map]
    rw [if_neg hpos.ne', hids]
    rfl
  · rw [hmap]
    simp
  · have hlast : ids.getLast? = some (id genesis) := by
      have hsome := congrArg getLast? hmap
      rw [getLast?_map, getLast?_map, shortHistoryHeights_getLast?, map_some,
        getElem?_map, hgen₁] at hsome
      obtain ⟨last, hlast, heq⟩ := Option.map_eq_some_iff.mp hsome
      rw [hlast, heq, map_some]
    have hfirst : (c₂.map id)[0]? = some (id genesis) := by
      rw [getElem?_map, hgen₂, map_some]
    rw [findBlockchainSupplement, hlast, hfirst]
    simp only [ne_eq, not_true_eq_false, if_false]
    have hids' : ids.findSome? (blockExists (c₂.map id)) =
        (ids.map some).findSome? fun o ↦ o.bind (blockExists (c₂.map id)) := by
      rw [findSome?_map]
      rfl
    rw [hids', hmap, findSome?_map]
    exact hg

end

def longChain : List (ℕ × ℕ) := (range 20).map fun n ↦ (n + 1, n)

def shortFork : List (ℕ × ℕ) := [(1, 0), (2, 1), (3, 2), (103, 3), (104, 103)]

theorem chainHistory_finds_common_fork :
    IsGreatest {h | ∃ b, longChain[h]? = some b ∧ b ∈ shortFork} 2 ∧
      ∃ (ids : List ℕ) (starterOffset : ℕ),
        getShortChainHistory (longChain.map Prod.fst) = some (ids, 20) ∧
        findBlockchainSupplement (shortFork.map Prod.fst) ids = some starterOffset ∧
        2 - starterOffset < 17 := by
  have hcommon : IsGreatest {h | ∃ b, longChain[h]? = some b ∧ b ∈ shortFork} 2 := by
    refine ⟨⟨(3, 2), by decide, by decide⟩, ?_⟩
    rintro h ⟨b, hb, hfork⟩
    have hlt : h < 20 := (List.getElem?_eq_some_iff.mp hb).1
    by_contra hgt
    interval_cases h <;> cases hb <;> exact absurd hfork (by decide)
  have hlong : IsMainChain Prod.fst Prod.snd longChain := ⟨by decide, by decide⟩
  have hshort : IsMainChain Prod.fst Prod.snd shortFork := ⟨by decide, by decide⟩
  obtain ⟨_, ids, starterOffset, hids, -, -, -, -, -, hfound, -, hgap⟩ :=
    chainHistory_finds_common hlong hshort rfl rfl (by decide) hcommon
  exact ⟨hcommon, ids, starterOffset, hids, hfound, (hgap 17 rfl).2 (by decide)⟩

end Monero.Blockchain
