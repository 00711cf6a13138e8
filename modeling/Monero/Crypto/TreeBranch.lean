import Monero.Crypto.TreeHash

/-!
# Branches of the tree

What `tree_branch` writes is the way from the leaf to the root in the tree that
`tree_hash` hashes: the loops keep the position of the subtree that holds the
leaf in the level that they write.
-/

namespace Monero.Crypto

open Lib Lib.HashTree List Bool

/-! ## Paths as numbers -/

/-- The sides from the leaf up, pushed one after the other. -/
def pathOf (sides : List Bool) : ℕ := sides.foldl (fun path side ↦ pushBit path side.toNat) 0

lemma pathOf_append (sides : List Bool) (side : Bool) :
    pathOf (sides ++ [side]) = pushBit (pathOf sides) side.toNat := by
  simp [pathOf]

variable {sides : List Bool}

lemma pathOf_lt (h : sides.length ≤ 32) : pathOf sides < 2 ^ sides.length := by
  induction sides using reverseRecOn with
  | nil => decide
  | append_singleton sides side ih =>
    rw [length_append, length_singleton] at h ⊢
    have hlt := ih (by omega)
    have hside : side.toNat ≤ 1 := toNat_le side
    rw [pathOf_append, pushBit, Nat.pow_succ]
    exact (Nat.mod_le _ _).trans_lt (by omega)

lemma pushBit_pathOf (h : sides.length < 32) (side : Bool) :
    pushBit (pathOf sides) side.toNat = pathOf sides * 2 + side.toNat := by
  have hlt := pathOf_lt h.le
  have hside : side.toNat ≤ 1 := toNat_le side
  have hpow : 2 ^ sides.length * 2 ≤ 2 ^ 32 := by
    rw [← Nat.pow_succ]
    exact Nat.pow_le_pow_right two_pos h
  exact Nat.mod_eq_of_lt (by omega)

lemma pathBit_pathOf (h : sides.length ≤ 32) {d : ℕ} (hd : d < sides.length) :
    pathBit (pathOf sides) sides.length d = sides[d] := by
  induction sides using reverseRecOn with
  | nil => cases hd
  | append_singleton sides side ih =>
    rw [length_append, length_singleton] at h hd
    have hpath := pushBit_pathOf (by omega : sides.length < 32) side
    have hside : side.toNat ≤ 1 := toNat_le side
    simp only [pathBit, length_append, length_singleton, pathOf_append, hpath]
    by_cases hlast : d < sides.length
    · rw [getElem_append_left hlast, ← ih (by omega) hlast, pathBit]
      have hexp : sides.length + 1 - d - 1 = sides.length - d - 1 + 1 := by omega
      have hhalf : (pathOf sides * 2 + side.toNat) / 2 = pathOf sides := by omega
      rw [hexp, Nat.pow_succ', ← Nat.div_div_eq_div_mul, hhalf]
    · obtain rfl : d = sides.length := by omega
      cases side <;> simp

/-! ## The rounds, from the position of the leaf -/

section

variable {α : Type*} [Inhabited α] (hash : α × α → α) (source : List α → List α)

lemma visit_toPosition (l : List α) (i j : ℕ) (s : BranchState α) :
    (s.visit l i j).toPosition = s.toPosition.visit i j := by
  rw [BranchState.visit, Position.visit]
  split_ifs <;> rfl

lemma branchRound_toPosition (n i j : ℕ) (s : BranchState α) :
    (branchRound hash source n i j s).toPosition = pathRound n i j s.toPosition := by
  induction n generalizing i j s with
  | zero => rfl
  | succ n ih => rw [branchRound, ih, pathRound, visit_toPosition]

lemma branchRounds_toPosition (fuel cnt : ℕ) (s : BranchState α) :
    (branchRounds hash fuel cnt s).toPosition = pathRounds fuel cnt s.toPosition := by
  induction fuel generalizing cnt s with
  | zero => rfl
  | succ fuel ih =>
    rw [branchRounds, pathRounds]
    split_ifs
    · rw [ih, branchRound_toPosition]
    · rfl

variable {i n m d : ℕ} {s : BranchState α} {ts : List (HashTree α)} {a : α} {rest hashes : List α}

lemma branchRound_below {j : ℕ} (h : s.idx < i) :
    branchRound hash source n i j s = { s with ints := hashRound hash source n i j s.ints } := by
  induction n generalizing i j s with
  | zero => rfl
  | succ n ih =>
    have hvisit : s.visit (source s.ints) i j = s := if_neg (by omega)
    rw [branchRound, hvisit, ih (by simp only; omega)]
    rfl

lemma branchRound_at {j path : ℕ} (hm : m < n) (hj : j ≤ i) (side : Bool) (ints branch : List α) :
    branchRound hash source n i j ⟨⟨i + 2 * m + side.toNat, path⟩, ints, branch⟩ =
      ⟨⟨j + m, pushBit path side.toNat⟩, hashRound hash source n i j ints,
        branch ++ [(source (hashRound hash source m i j ints)).getD
          (i + 2 * m + (!side).toNat) default]⟩ := by
  induction n generalizing i j m ints with
  | zero => cases hm
  | succ n ih =>
    rw [branchRound]
    cases m with
    | zero =>
      rw [branchRound_below]
      · cases side <;> simp [BranchState.visit, Position.visit, hashRound]
      · cases side <;> simp [BranchState.visit, Position.visit] <;> omega
    | succ m =>
      have hside : side.toNat ≤ 1 := toNat_le side
      have hvisit : BranchState.visit (source ints) i j
          ⟨⟨i + 2 * (m + 1) + side.toNat, path⟩, ints, branch⟩ =
            ⟨⟨i + 2 + 2 * m + side.toNat, path⟩, ints, branch⟩ := by
        rw [show i + 2 * (m + 1) = i + 2 + 2 * m by ring]
        exact if_neg (by simp only; omega)
      rw [hvisit, ih (by omega) (by omega), show j + 1 + m = j + (m + 1) by ring,
        show i + 2 + 2 * m = i + 2 * (m + 1) by ring]
      rfl

/-! ## The subtree that holds the leaf -/

/-- The subtree at the position holds the leaf `a`, at most `d` levels down, and
the branch and the path lead up to its root. -/
def Tracks (ts : List (HashTree α)) (a : α) (d : ℕ) (s : BranchState α) : Prop :=
  ∃ t steps, ts[s.idx]? = some t ∧ Located hash t steps a ∧ steps.length ≤ d ∧
    s.branch = steps.map Prod.snd ∧ s.path = pathOf (steps.map Prod.fst)

variable {hash source}

omit [Inhabited α] in
lemma Tracks.mono {d' : ℕ} (h : Tracks hash ts a d s) (hd : d ≤ d') : Tracks hash ts a d' s := by
  obtain ⟨t, steps, ht, hlocated, hsteps, hbranch⟩ := h
  exact ⟨t, steps, ht, hlocated, hsteps.trans hd, hbranch⟩

lemma Tracks.round (source : List α → List α) (front : List (HashTree α))
    (hfront : front.length = i) (hts : ts.length = 2 * n)
    (hreads : ∀ m < n, ∀ side : Bool, ∀ t, ts[2 * m + side.toNat]? = some t →
      (source (hashRound hash source m i i s.ints)).getD (i + 2 * m + side.toNat) default =
        t.root hash) (h : Tracks hash (front ++ ts) a d s) :
    Tracks hash (front ++ pairUp .node ts) a (d + 1) (branchRound hash source n i i s) := by
  obtain ⟨t, steps, ht, hlocated, hsteps, hbranch, hpath⟩ := h
  by_cases hbelow : s.idx < i
  · rw [branchRound_below hash source hbelow]
    rw [getElem?_append_left (hbelow.trans_eq hfront.symm)] at ht
    refine ⟨t, steps, ?_, hlocated, by omega, hbranch, hpath⟩
    rwa [getElem?_append_left (hbelow.trans_eq hfront.symm)]
  · obtain ⟨⟨idx, path⟩, ints, branch⟩ := s
    obtain ⟨m, side, rfl⟩ : ∃ m, ∃ side : Bool, idx = i + 2 * m + side.toNat := by
      refine ⟨(idx - i) / 2, decide ((idx - i) % 2 = 1), ?_⟩
      simp only at hbelow
      by_cases hodd : (idx - i) % 2 = 1
      · simp only [hodd, decide_true, toNat_true]
        omega
      · simp only [hodd, decide_false, toNat_false]
        omega
    have ht' : ts[2 * m + side.toNat]? = some t := by
      rw [getElem?_append_right (by simp only; omega), hfront] at ht
      rwa [show i + 2 * m + side.toNat - i = 2 * m + side.toNat by omega] at ht
    have hm : m < n := by
      have hlt := (List.getElem?_eq_some_iff.mp ht').1
      omega
    have hother : 2 * m + (!side).toNat < ts.length := by
      have hle := toNat_le (!side)
      omega
    have hsibling : ts[2 * m + (!side).toNat]? = some ts[2 * m + (!side).toNat] :=
      getElem?_eq_getElem hother
    rw [branchRound_at hash source hm le_rfl side, hreads m hm _ _ hsibling]
    generalize ts[2 * m + (!side).toNat] = t' at hsibling
    -- the parent, in the order of the two sides
    have hparent : ∀ {l r : HashTree α}, ts[2 * m]? = some l → ts[2 * m + 1]? = some r →
        (front ++ pairUp .node ts)[i + m]? = some (.node l r) := by
      intro l r hl hr
      rw [getElem?_append_right (by omega), show i + m - front.length = m by omega]
      exact pairUp_getElem? hl hr
    simp only at hbranch hpath
    cases side with
    | false =>
      refine ⟨_, _, hparent ht' hsibling, .left hlocated, by simpa using hsteps, ?_, ?_⟩
      · simp [hbranch]
      · simp [hpath, pathOf_append]
    | true =>
      refine ⟨_, _, hparent hsibling ht', .right hlocated, by simpa using hsteps, ?_, ?_⟩
      · simp [hbranch]
      · simp [hpath, pathOf_append]

/-- The rounds in place have not yet written what they read. -/
theorem hashRound_id_reads {level : List α} (rest : List α) {c : ℕ}
    (h : 2 * m + c < level.length) :
    (hashRound hash id m 0 0 (level ++ rest)).getD (2 * m + c) default = level[2 * m + c] := by
  have hpending : (level.take (2 * m)).length = 2 * m := length_take_of_le (by omega)
  obtain ⟨gap, hgap, hround⟩ := hashRound_id hash (level.drop (2 * m) ++ rest) length_nil
    length_nil hpending
  have hsplit : level ++ rest =
      [] ++ ([] ++ (level.take (2 * m) ++ (level.drop (2 * m) ++ rest))) := by
    rw [nil_append, nil_append, ← append_assoc, take_append_drop]
  have hwritten : (nextLevel hash (level.take (2 * m))).length = m := by
    rw [length_pairUp, hpending, Nat.mul_div_cancel_left m two_pos]
  rw [hsplit, hround, nil_append, ← append_assoc, ← append_assoc,
    getD_append _ _ _ _ (by simp [hwritten, hgap]; omega),
    getD_append_right _ _ _ _ (by simp [hwritten, hgap]; omega)]
  have hindex : 2 * m + c - (nextLevel hash (level.take (2 * m)) ++ gap).length = c := by
    rw [length_append, hwritten, hgap]
    omega
  rw [hindex, getD_eq_getElem _ _ (by rw [length_drop]; omega), getElem_drop]

lemma Tracks.round_id (hts : ts.length = 2 * n) (hints : s.ints = ts.map (root hash) ++ rest)
    (h : Tracks hash ts a d s) :
    Tracks hash (pairUp .node ts) a (d + 1) (branchRound hash id n 0 0 s) := by
  refine Tracks.round id [] rfl hts ?_ h
  intro m hm side t ht
  obtain ⟨hlt, rfl⟩ := List.getElem?_eq_some_iff.mp ht
  rw [hints, id_eq, Nat.zero_add]
  rw [hashRound_id_reads rest (by simpa using hlt), getElem_map]

lemma branchRound_ints (n i j : ℕ) (s : BranchState α) :
    (branchRound hash source n i j s).ints = hashRound hash source n i j s.ints := by
  induction n generalizing i j s with
  | zero => rfl
  | succ n ih => rw [branchRound, ih, hashRound]

omit [Inhabited α] in
lemma map_root_pairUp (ts : List (HashTree α)) :
    (pairUp .node ts).map (root hash) = nextLevel hash (ts.map (root hash)) :=
  map_pairUp (root hash) (fun _ _ ↦ rfl) ts

lemma Tracks.rounds {fuel : ℕ} (hts : ts.length = 2 ^ (m + 1)) (hfuel : m ≤ fuel)
    (hints : s.ints = ts.map (root hash) ++ rest) (h : Tracks hash ts a d s) :
    Tracks hash ((pairUp .node)^[m] ts) a (d + m) (branchRounds hash fuel (2 ^ (m + 1)) s) ∧
      ∃ rest', (branchRounds hash fuel (2 ^ (m + 1)) s).ints =
        ((pairUp .node)^[m] ts).map (root hash) ++ rest' := by
  induction m generalizing fuel d ts s rest with
  | zero =>
    have hstop : branchRounds hash fuel (2 ^ (0 + 1)) s = s := by
      cases fuel with
      | zero => rfl
      | succ fuel => exact if_neg (lt_irrefl 2)
    rw [hstop]
    exact ⟨h, rest, hints⟩
  | succ m ih =>
    obtain ⟨fuel, rfl⟩ := Nat.exists_eq_add_of_le' (Nat.one_le_of_lt hfuel)
    obtain ⟨hlarge, hhalf⟩ := two_pow_halves m
    have hdouble : ts.length = 2 * 2 ^ (m + 1) := by rw [hts, Nat.pow_succ, mul_comm]
    have hnext : (pairUp .node ts).length = 2 ^ (m + 1) := by rw [length_pairUp, hts, hhalf]
    obtain ⟨gap, -, hround⟩ := hashRound_id hash rest length_nil length_nil
      ((length_map (root hash)).trans hdouble)
    have hints' : (branchRound hash id (2 ^ (m + 1)) 0 0 s).ints =
        (pairUp .node ts).map (root hash) ++ (gap ++ rest) := by
      rw [branchRound_ints, hints, map_root_pairUp]
      exact hround
    rw [branchRounds, if_pos hlarge, hhalf, Function.iterate_succ_apply,
      show d + (m + 1) = d + 1 + m by ring]
    exact ih hnext (Nat.le_of_succ_le_succ hfuel) hints' (h.round_id hdouble hints)

lemma tracks_firstRound (h : 3 ≤ hashes.length) {idx : ℕ} (hidx : idx < hashes.length) :
    let cnt := treeHashCnt hashes.length
    let first := 2 * cnt - hashes.length
    Tracks hash (firstLevel (fun p ↦ .node p.1 p.2) (hashes.map .leaf)) hashes[idx] 1
      (branchRound hash (fun _ ↦ hashes) (cnt - first) first first
        ⟨⟨idx, 0⟩, startInts hashes cnt, []⟩) := by
  intro cnt first
  obtain ⟨k, hcnt, hlow, hhigh⟩ := treeHashCnt_spec h
  have hcnt' : cnt = 2 ^ (k + 1) := hcnt
  have hdouble : 2 ^ (k + 2) = 2 * 2 ^ (k + 1) := by rw [Nat.pow_succ]; ring
  have hfirst : ((hashes.map HashTree.leaf).take first).length = first :=
    length_take_of_le (by rw [length_map]; omega)
  have hdrop : ((hashes.map HashTree.leaf).drop first).length = 2 * (cnt - first) := by
    rw [length_drop, length_map]
    omega
  have hstart : Tracks hash
      ((hashes.map HashTree.leaf).take first ++ (hashes.map HashTree.leaf).drop first)
      hashes[idx] 0 ⟨⟨idx, 0⟩, startInts hashes cnt, []⟩ := by
    rw [take_append_drop]
    exact ⟨_, [], by simp [hidx], .leaf _, le_rfl, rfl, rfl⟩
  have hround := hstart.round (fun _ ↦ hashes) _ hfirst hdrop ?_
  · simpa [firstLevel] using hround
  · intro m hm side t ht
    rw [getElem?_drop, getElem?_map] at ht
    obtain ⟨x, hx, rfl⟩ := Option.map_eq_some_iff.mp ht
    rw [Nat.add_assoc, getD_eq_getElem?_getD, hx]
    rfl

/-- The last step is one more round, of which the buffer is not needed. -/
theorem Tracks.visit {t t' : HashTree α} (hints : s.ints = [t, t'].map (root hash) ++ rest)
    (h : Tracks hash [t, t'] a d s) : Tracks hash [.node t t'] a (d + 1) (s.visit s.ints 0 0) := by
  exact h.round_id (n := 1) rfl hints

omit [Inhabited α] in
lemma map_root_firstLevel (hashes : List α) :
    (firstLevel (fun p ↦ .node p.1 p.2) (hashes.map .leaf)).map (root hash) =
      firstLevel hash hashes := by
  have hleaf : hashes.map (root hash ∘ .leaf) = hashes := map_id hashes
  simp only [firstLevel, length_map, map_append]
  rw [map_root_pairUp, map_take, map_drop, map_map, hleaf]

lemma tracks_merkleTree (hash : α × α → α) (h : 3 ≤ hashes.length)
    (hcount : hashes.length ≤ 2 ^ 28) {idx : ℕ} (hidx : idx < hashes.length) :
    let cnt := treeHashCnt hashes.length
    let first := 2 * cnt - hashes.length
    let s := branchRounds hash cnt cnt (branchRound hash (fun _ ↦ hashes) (cnt - first) first first
      ⟨⟨idx, 0⟩, startInts hashes cnt, []⟩)
    Tracks hash [merkleTree hashes] hashes[idx] 28 (s.visit s.ints 0 0) := by
  intro cnt first s
  obtain ⟨k, hcnt, hlow, hhigh⟩ := treeHashCnt_spec h
  have hk : k + 1 < 28 := (Nat.pow_lt_pow_iff_right one_lt_two).mp (hlow.trans_le hcount)
  have hlength : (hashes.map HashTree.leaf).length = hashes.length := length_map _
  have hlevel : (firstLevel (fun p ↦ .node p.1 p.2) (hashes.map HashTree.leaf)).length =
      2 ^ (k + 1) :=
    length_firstLevel _ (hlength ▸ hcnt) (hlength ▸ hlow) (hlength ▸ hhigh)
  have hints : (branchRound hash (fun _ ↦ hashes) (cnt - first) first first
      ⟨⟨idx, 0⟩, startInts hashes cnt, []⟩).ints =
        (firstLevel (fun p ↦ .node p.1 p.2) (hashes.map .leaf)).map (root hash) ++ [] := by
    rw [branchRound_ints, map_root_firstLevel, append_nil]
    exact firstRound_spec hash h
  obtain ⟨htracks, rest, hrounds⟩ := (tracks_firstRound h hidx).rounds hlevel
    (Nat.lt_two_pow_self.le.trans (Nat.pow_le_pow_right two_pos k.le_succ)) hints
  obtain ⟨t, t', hpair⟩ := length_eq_two.mp
    (length_pairUp_iterate HashTree.node k (hlevel.trans (Nat.pow_succ 2 k)))
  rw [hpair, ← hcnt] at htracks hrounds
  have hroot : [HashTree.node t t'] = [merkleTree hashes] := by
    have htree :=
      treeHash_spec (fun p : HashTree α × HashTree α ↦ .node p.1 p.2) (hlength ▸ h)
        (hlength ▸ hcnt)
    rw [Function.iterate_succ_apply'] at htree
    exact (congrArg (pairUp .node) hpair).symm.trans htree
  rw [← hroot]
  exact (htracks.visit hrounds).mono (by omega)

lemma treeBranch_spec [DecidableEq α] (ha : a ∈ hashes) (hcount : hashes.length ≤ 2 ^ 28) :
    ∃ steps, Located hash (merkleTree hashes) steps a ∧ steps.length ≤ 28 ∧
      treeBranch hash hashes a = some (steps.map Prod.snd, pathOf (steps.map Prod.fst)) ∧
      treePath hashes.length (hashes.idxOf a) = some (pathOf (steps.map Prod.fst)) := by
  have hidx : hashes.idxOf a < hashes.length := idxOf_lt_length_of_mem ha
  match hashes with
  | [] => cases ha
  | [b] =>
    obtain rfl : a = b := mem_singleton.mp ha
    exact ⟨[], .leaf a, by simp, by simp [treeBranch, pathOf], rfl⟩
  | [b, c] =>
    by_cases hab : b = a
    · subst hab
      refine ⟨[(false, c)], .left (.leaf b), by simp, ?_, ?_⟩
      · simp [treeBranch, pathOf, pushBit]
      · simp [treePath, pathOf, pushBit]
    · obtain rfl : a = c := by simpa [Ne.symm hab] using ha
      refine ⟨[(true, b)], .right (.leaf a), by simp, ?_, ?_⟩
      · simp [treeBranch, pathOf, pushBit, hab]
      · simp [treePath, pathOf, pushBit, hab]
  | b :: c :: e :: hashes =>
    have hmany : 3 ≤ (b :: c :: e :: hashes).length := by simp
    generalize b :: c :: e :: hashes = hashes at *
    have htracks := tracks_merkleTree hash hmany hcount hidx
    rw [getElem_idxOf hidx] at htracks
    obtain ⟨t, steps, ht, hlocated, hsteps, hbranch, hpath⟩ := htracks
    obtain rfl : t = merkleTree hashes := mem_singleton.mp (mem_of_getElem? ht)
    have hcounts : ¬hashes.length = 0 ∧ ¬hashes.length = 1 ∧ ¬hashes.length = 2 := by omega
    refine ⟨steps, hlocated, hsteps, ?_, ?_⟩
    · simp only [treeBranch, if_neg hcounts.1, if_neg hcounts.2.1, if_neg hcounts.2.2,
        if_neg hidx.ne]
      rw [hbranch, hpath]
    · simp only [treePath, if_neg hcounts.1, if_neg hcounts.2.1, if_neg hcounts.2.2]
      rw [← hpath, visit_toPosition, branchRounds_toPosition, branchRound_toPosition]

/-! ## Following a branch -/

/-- The steps that `tree_branch_hash` reads off the branch and the path. -/
def pathSteps (branch : List α) (depth path d n : ℕ) : List (Bool × α) :=
  (range' d n).map fun d ↦ (pathBit path depth d, branch.getD d default)

lemma treeBranchHashFrom_eq (branch : List α) (depth path n d : ℕ) (a : α) :
    treeBranchHashFrom hash branch depth path n d a =
      branchRoot hash a (pathSteps branch depth path d n) := by
  induction n generalizing d a with
  | zero => rfl
  | succ n ih =>
    rw [treeBranchHashFrom, ih]
    rfl

lemma treeBranchInputsFrom_eq (branch : List α) (depth path n d : ℕ) (a : α) :
    treeBranchInputsFrom hash branch depth path n d a =
      branchInputs hash a (pathSteps branch depth path d n) := by
  induction n generalizing d a with
  | zero => rfl
  | succ n ih =>
    rw [treeBranchInputsFrom, ih]
    rfl

lemma pathSteps_eq {steps : List (Bool × α)} (h : steps.length ≤ 32) :
    pathSteps (steps.map Prod.snd) steps.length (pathOf (steps.map Prod.fst)) 0 steps.length =
      steps := by
  refine ext_getElem (by simp [pathSteps]) fun d _ hd ↦ ?_
  have hbit := pathBit_pathOf (show (steps.map Prod.fst).length ≤ 32 by simpa using h)
    (show d < (steps.map Prod.fst).length by simpa using hd)
  simp only [length_map, getElem_map] at hbit
  simp only [pathSteps, getElem_map, getElem_range', Nat.zero_add, Nat.one_mul, hbit]
  rw [getD_eq_getElem _ _ (by simpa using hd), getElem_map]

end

def treeBranchHashInputs (cnFastHash : List UInt8 → Hash) (h : Hash) (branch : List Hash)
    (depth path : ℕ) : List (List UInt8) :=
  (treeBranchInputsFrom (hashPair cnFastHash) branch depth path depth 0 h).map hashBytes

/-- The branch of a leaf leads to the root, and no other value does with the same
path unless the hash function collides. -/
theorem treeBranch_exact (cnFastHash : List UInt8 → Hash) {hashes : List Hash} {h : Hash}
    (hcount : hashes.length ≤ 2 ^ 28) (hmem : h ∈ hashes) :
    ∃ branch path, treeBranch (hashPair cnFastHash) hashes h = some (branch, path) ∧
      treePath hashes.length (hashes.idxOf h) = some path ∧
      treeBranchHash (hashPair cnFastHash) h branch branch.length path =
        treeHash (hashPair cnFastHash) hashes ∧
      isBranchInTree (hashPair cnFastHash) h (treeHash (hashPair cnFastHash) hashes) branch
        branch.length path = true ∧
      ∀ g ≠ h, ∀ branch' : List Hash, branch'.length = branch.length →
        isBranchInTree (hashPair cnFastHash) g (treeHash (hashPair cnFastHash) hashes) branch'
          branch'.length path = true →
        Collide cnFastHash (treeBranchHashInputs cnFastHash h branch branch.length path)
          (treeBranchHashInputs cnFastHash g branch' branch'.length path) := by
  obtain ⟨steps, hlocated, hsteps, hbranch, hpath⟩ := treeBranch_spec hmem hcount
  have hroot : treeBranchHash (hashPair cnFastHash) h (steps.map Prod.snd)
      (steps.map Prod.snd).length (pathOf (steps.map Prod.fst)) =
        treeHash (hashPair cnFastHash) hashes := by
    rw [treeBranchHash, treeBranchHashFrom_eq, length_map, pathSteps_eq (by omega),
      hlocated.branchRoot_eq, root_merkleTree _ (ne_nil_of_mem hmem)]
  have haccept := decide_eq_true hroot
  refine ⟨_, _, hbranch, hpath, hroot, haccept, ?_⟩
  intro g hg branch' hlength hg'
  rw [hlength] at hg' ⊢
  refine collide_map_hashBytes ?_
  simp only [isBranchInTree, treeBranchHash, decide_eq_true_eq, treeBranchHashFrom_eq]
    at haccept hg'
  rw [treeBranchInputsFrom_eq, treeBranchInputsFrom_eq]
  refine branchRoot_collide _ ?_ hg.symm (haccept.trans hg'.symm)
  simp only [pathSteps, map_map]
  rfl

/-- The first byte of each of two hashes, the rest zero. -/
def shortHash (bytes : List UInt8) : Hash :=
  bytes.getD 0 0 ::ᵥ bytes.getD 32 0 ::ᵥ List.Vector.replicate 30 0

def threeHashes : List Hash := [1, 2, 3].map fun b ↦ List.Vector.replicate 32 b

theorem treeBranch_exact_three :
    threeHashes.length ≤ 2 ^ 28 ∧ List.Vector.replicate 32 2 ∈ threeHashes ∧
      ∃ branch path, treeBranch (hashPair shortHash) threeHashes (List.Vector.replicate 32 2) =
          some (branch, path) ∧
        isBranchInTree (hashPair shortHash) (List.Vector.replicate 32 2)
          (treeHash (hashPair shortHash) threeHashes) branch branch.length path = true := by
  have hcount : threeHashes.length ≤ 2 ^ 28 := by decide
  have hmem : List.Vector.replicate 32 2 ∈ threeHashes := by decide
  obtain ⟨branch, path, hbranch, -, -, haccept, -⟩ := treeBranch_exact shortHash hcount hmem
  exact ⟨hcount, hmem, branch, path, hbranch, haccept⟩

end Monero.Crypto
