import Monero.Lib.HashTree

/-!
# The tree hash

`tree_hash`, `tree_path` and `tree_branch` of `tree-hash.c`, with their loops
over the buffer `ints` as they stand.  A value is hashed with its neighbour by
`hash`; the buffer is allocated with zeroes, which are the default value here.
-/

namespace Monero.Crypto

open Lib Lib.HashTree List

/-! ## The functions -/

/-- `while (pow < count) pow <<= 1` -/
def powFrom (count : ℕ) : ℕ → ℕ → ℕ
  | 0, pow => pow
  | fuel + 1, pow => if pow < count then powFrom count fuel (pow * 2) else pow

def treeHashCnt (count : ℕ) : ℕ := powFrom count count 2 / 2

section

variable {α : Type*} [Inhabited α] (hash : α × α → α)

def pairAt (hashes : List α) (i : ℕ) : α × α :=
  (hashes.getD i default, hashes.getD (i + 1) default)

/-- A loop over `i += 2, ++j` that writes to `ints[j]`.  It reads the hashes
that were passed in, or the buffer itself. -/
def hashRound (source : List α → List α) : ℕ → ℕ → ℕ → List α → List α
  | 0, _, _, ints => ints
  | n + 1, i, j, ints =>
    hashRound source n (i + 2) (j + 1) (ints.set j (hash (pairAt (source ints) i)))

/-- `while (cnt > 2)` -/
def hashRounds : ℕ → ℕ → List α → List α
  | 0, _, ints => ints
  | fuel + 1, cnt, ints =>
    if 2 < cnt then hashRounds fuel (cnt / 2) (hashRound hash id (cnt / 2) 0 0 ints) else ints

/-- `memcpy` of the hashes that the first round leaves alone to a new buffer. -/
def startInts (hashes : List α) (cnt : ℕ) : List α :=
  hashes.take (2 * cnt - hashes.length) ++
    replicate (cnt - (2 * cnt - hashes.length)) default

def treeHash (hashes : List α) : α :=
  let count := hashes.length
  if count = 1 then hashes.getD 0 default
  else if count = 2 then hash (pairAt hashes 0)
  else
    let cnt := treeHashCnt count
    let first := 2 * cnt - count
    let ints := hashRound hash (fun _ ↦ hashes) (cnt - first) first first (startInts hashes cnt)
    hash (pairAt (hashRounds hash cnt cnt ints) 0)

/-! ### Paths -/

/-- `*path = (*path << 1) | bit`, a number of 32 bits -/
def pushBit (path bit : ℕ) : ℕ := (path * 2 + bit) % 2 ^ 32

structure Position where
  idx : ℕ
  path : ℕ
  deriving DecidableEq, Repr

def Position.visit (i j : ℕ) (s : Position) : Position :=
  if s.idx = i ∨ s.idx = i + 1 then ⟨j, pushBit s.path (if s.idx = i then 0 else 1)⟩ else s

def pathRound : ℕ → ℕ → ℕ → Position → Position
  | 0, _, _, s => s
  | n + 1, i, j, s => pathRound n (i + 2) (j + 1) (s.visit i j)

def pathRounds : ℕ → ℕ → Position → Position
  | 0, _, s => s
  | fuel + 1, cnt, s =>
    if 2 < cnt then pathRounds fuel (cnt / 2) (pathRound (cnt / 2) 0 0 s) else s

def treePath (count idx : ℕ) : Option ℕ :=
  if count = 0 then none
  else if count = 1 then some 0
  else if count = 2 then some (if idx = 0 then 0 else 1)
  else
    let cnt := treeHashCnt count
    let first := 2 * cnt - count
    let s := pathRounds cnt cnt (pathRound (cnt - first) first first ⟨idx, 0⟩)
    some (s.visit 0 0).path

/-! ### Branches -/

structure BranchState (α : Type*) extends Position where
  ints : List α
  branch : List α

def BranchState.visit (source : List α) (i j : ℕ) (s : BranchState α) : BranchState α :=
  if s.idx = i ∨ s.idx = i + 1 then
    { s with
      toPosition := s.toPosition.visit i j
      branch := s.branch ++ [source.getD (if s.idx = i then i + 1 else i) default] }
  else s

def branchRound (source : List α → List α) : ℕ → ℕ → ℕ → BranchState α → BranchState α
  | 0, _, _, s => s
  | n + 1, i, j, s =>
    branchRound source n (i + 2) (j + 1) { s.visit (source s.ints) i j with
        ints := s.ints.set j (hash (pairAt (source s.ints) i)) }

def branchRounds : ℕ → ℕ → BranchState α → BranchState α
  | 0, _, s => s
  | fuel + 1, cnt, s =>
    if 2 < cnt then branchRounds fuel (cnt / 2) (branchRound hash id (cnt / 2) 0 0 s) else s

/-- The branch and the path; `none` is the return value `false`. -/
def treeBranch [DecidableEq α] (hashes : List α) (h : α) : Option (List α × ℕ) :=
  let count := hashes.length
  let idx := hashes.idxOf h
  if count = 0 then none
  else if idx = count then none
  else if count = 1 then some ([], 0)
  else if count = 2 then
    some ([hashes.getD (if idx = 0 then 1 else 0) default], if idx = 0 then 0 else 1)
  else
    let cnt := treeHashCnt count
    let first := 2 * cnt - count
    let s := branchRounds hash cnt cnt (branchRound hash (fun _ ↦ hashes) (cnt - first) first first
      ⟨⟨idx, 0⟩, startInts hashes cnt, []⟩)
    let s := s.visit s.ints 0 0
    some (s.branch, s.path)

/-- `(path >> (depth - d - 1)) & 1` -/
def pathBit (path depth d : ℕ) : Bool := path / 2 ^ (depth - d - 1) % 2 = 1

/-- The buffer that is hashed in round `d`. -/
def branchBuffer (branch : List α) (depth path d : ℕ) (partialHash : α) : α × α :=
  stepInput partialHash (pathBit path depth d, branch.getD d default)

def treeBranchHashFrom (branch : List α) (depth path : ℕ) : ℕ → ℕ → α → α
  | 0, _, partialHash => partialHash
  | n + 1, d, partialHash =>
    treeBranchHashFrom branch depth path n (d + 1)
      (hash (branchBuffer branch depth path d partialHash))

def treeBranchInputsFrom (branch : List α) (depth path : ℕ) : ℕ → ℕ → α → List (α × α)
  | 0, _, _ => []
  | n + 1, d, partialHash =>
    branchBuffer branch depth path d partialHash :: treeBranchInputsFrom branch depth path n
      (d + 1)
        (hash (branchBuffer branch depth path d partialHash))

def treeBranchHash (h : α) (branch : List α) (depth path : ℕ) : α :=
  treeBranchHashFrom hash branch depth path depth 0 h

def isBranchInTree [DecidableEq α] (h root : α) (branch : List α) (depth path : ℕ) : Bool :=
  treeBranchHash hash h branch depth path = root

end

/-! ### Hashes -/

abbrev Hash := List.Vector UInt8 32

/-- Two hashes in a row, as `cn_fast_hash` is given them. -/
def hashBytes (p : Hash × Hash) : List UInt8 := p.1.toList ++ p.2.toList

lemma hashBytes_injective : Function.Injective hashBytes := by
  intro p p' h
  obtain ⟨hfst, hsnd⟩ := append_inj h (by simp)
  exact Prod.ext (Vector.toList_injective hfst) (Vector.toList_injective hsnd)

/-- `cn_fast_hash(hashes[i], 64, …)` -/
def hashPair (cnFastHash : List UInt8 → Hash) (p : Hash × Hash) : Hash := cnFastHash (hashBytes p)

lemma collide_map_hashBytes {cnFastHash : List UInt8 → Hash} {inputs inputs' : List (Hash × Hash)}
    (h : Collide (hashPair cnFastHash) inputs inputs') :
    Collide cnFastHash (inputs.map hashBytes) (inputs'.map hashBytes) := by
  obtain ⟨x, hx, y, hy, hne, heq⟩ := h
  exact ⟨_, mem_map_of_mem hx, _, mem_map_of_mem hy, hashBytes_injective.ne hne, heq⟩

/-! ## The power of two below the count -/

lemma powFrom_spec {count m fuel : ℕ} (hlow : 2 ^ m < count) (hfuel : count ≤ 2 ^ (m + 1 + fuel)) :
    ∃ k, powFrom count fuel (2 ^ (m + 1)) = 2 ^ (k + 1) ∧ 2 ^ k < count ∧ count ≤ 2 ^ (k + 1) := by
  induction fuel generalizing m with
  | zero => exact ⟨m, rfl, hlow, hfuel⟩
  | succ fuel ih =>
    rw [powFrom]
    split_ifs with hlt
    · rw [← Nat.pow_succ]
      exact ih hlt (hfuel.trans_eq (by congr 1; omega))
    · exact ⟨m, rfl, hlow, not_lt.mp hlt⟩

lemma treeHashCnt_spec {count : ℕ} (h : 3 ≤ count) :
    ∃ k, treeHashCnt count = 2 ^ (k + 1) ∧ 2 ^ (k + 1) < count ∧ count ≤ 2 ^ (k + 2) := by
  have hfuel : count ≤ 2 ^ (0 + 1 + count) := by
    calc count ≤ 2 ^ count := Nat.lt_two_pow_self.le
      _ ≤ 2 ^ (0 + 1 + count) := Nat.pow_le_pow_right two_pos (by omega)
  obtain ⟨k, hpow, hlow, hhigh⟩ := powFrom_spec (m := 0) (by omega : 2 ^ 0 < count) hfuel
  cases k with
  | zero => omega
  | succ k =>
    refine ⟨k, ?_, hlow, hhigh⟩
    rw [treeHashCnt, show (2 : ℕ) = 2 ^ (0 + 1) from rfl, hpow, Nat.pow_succ]
    simp

/-! ## What the loops write -/

section

variable {α : Type*} [Inhabited α] (hash : α × α → α) {hashes front : List α}

abbrev nextLevel (l : List α) : List α := pairUp (fun a b ↦ hash (a, b)) l

lemma pairAt_append {i : ℕ} (hi : front.length = i) (a b : α) (rest : List α) :
    pairAt (front ++ a :: b :: rest) i = (a, b) := by
  subst hi
  simp [pairAt]

omit [Inhabited α] in
lemma set_append {j : ℕ} (hj : front.length = j) (x y : α) (rest : List α) :
    (front ++ x :: rest).set j y = front ++ y :: rest := by
  subst hj
  simp

lemma hashRound_const {pending done slots : List α} (tail rest : List α) {n i j : ℕ}
    (hi : front.length = i) (hj : done.length = j) (hpending : pending.length = 2 * n)
    (hslots : slots.length = n) :
    hashRound hash (fun _ ↦ front ++ (pending ++ tail)) n i j (done ++ (slots ++ rest)) =
      done ++ (nextLevel hash pending ++ rest) := by
  induction n generalizing front pending done slots i j with
  | zero =>
    rw [eq_nil_of_length_eq_zero hpending, eq_nil_of_length_eq_zero hslots]
    rfl
  | succ n ih =>
    match pending, hpending, slots, hslots with
    | a :: b :: pending, hpending, slot :: slots, hslots =>
      simp only [hashRound]
      rw [cons_append, cons_append, cons_append, pairAt_append hi, set_append hj]
      have hstep : hashRound hash (fun _ ↦ front ++ [a, b] ++ (pending ++ tail)) n (i + 2) (j + 1)
          (done ++ [hash (a, b)] ++ (slots ++ rest)) =
            done ++ [hash (a, b)] ++ (nextLevel hash pending ++ rest) :=
        ih (by simp [hi]) (by simp [hj]) (by simpa [Nat.mul_add] using hpending)
          (by simpa using hslots)
      simpa [pairUp] using hstep

/-- In place: what is read lies at or above what has been written. -/
theorem hashRound_id {done gap pending : List α} (rest : List α) {n j : ℕ}
    (hdone : done.length = j) (hgap : gap.length = j) (hpending : pending.length = 2 * n) :
    ∃ gap', gap'.length = j + n ∧
      hashRound hash id n (2 * j) j (done ++ (gap ++ (pending ++ rest))) =
        done ++ nextLevel hash pending ++ (gap' ++ rest) := by
  induction n generalizing done gap pending j with
  | zero =>
    refine ⟨gap, hgap, ?_⟩
    rw [eq_nil_of_length_eq_zero hpending]
    simp [hashRound, pairUp]
  | succ n ih =>
    obtain ⟨a, pending, rfl⟩ := exists_cons_of_length_eq_add_one hpending
    obtain ⟨b, pending, rfl⟩ := exists_cons_of_length_eq_add_one (Nat.succ_inj.mp hpending)
    -- the first value of the gap, or of the pair itself, is overwritten
    obtain ⟨x, gap₁, hx⟩ : ∃ x gap₁, gap ++ [a, b] = x :: gap₁ :=
      exists_cons_of_ne_nil (by simp)
    have hlength : gap₁.length = j + 1 := by
      have hboth := congrArg length hx
      simp only [length_append, length_cons, length_nil, hgap] at hboth
      omega
    have hread : pairAt (done ++ (gap ++ (a :: b :: pending ++ rest))) (2 * j) = (a, b) := by
      rw [← append_assoc, cons_append, cons_append]
      exact pairAt_append (by simp [hdone, hgap, two_mul]) a b _
    have hwrite : (done ++ (gap ++ (a :: b :: pending ++ rest))).set j (hash (a, b)) =
        done ++ [hash (a, b)] ++ (gap₁ ++ (pending ++ rest)) := by
      have hsplit : gap ++ (a :: b :: pending ++ rest) = x :: (gap₁ ++ (pending ++ rest)) := by
        rw [show gap ++ (a :: b :: pending ++ rest) = gap ++ [a, b] ++ (pending ++ rest) by simp,
          hx, cons_append]
      rw [hsplit, set_append hdone]
      simp
    have hdone' : (done ++ [hash (a, b)]).length = j + 1 := by simp [hdone]
    have hpending' : pending.length = 2 * n := by simpa [Nat.mul_add] using hpending
    obtain ⟨gap', hgap', hround⟩ := ih hdone' hlength hpending'
    refine ⟨gap', by omega, ?_⟩
    rw [hashRound, id_eq, hread, hwrite]
    rw [show 2 * (j + 1) = 2 * j + 2 by ring] at hround
    rw [hround]
    simp [pairUp]

lemma two_pow_halves (m : ℕ) : 2 < 2 ^ (m + 1 + 1) ∧ 2 ^ (m + 1 + 1) / 2 = 2 ^ (m + 1) := by
  have hpos : 0 < 2 ^ m := Nat.two_pow_pos m
  rw [Nat.pow_succ, Nat.pow_succ]
  omega

lemma hashRounds_spec {m fuel : ℕ} {level : List α} (hlevel : level.length = 2 ^ (m + 1))
    (hfuel : m ≤ fuel) (rest : List α) :
    ∃ rest', hashRounds hash fuel (2 ^ (m + 1)) (level ++ rest) =
      (nextLevel hash)^[m] level ++ rest' := by
  induction m generalizing fuel level rest with
  | zero =>
    refine ⟨rest, ?_⟩
    cases fuel with
    | zero => rfl
    | succ fuel => exact if_neg (lt_irrefl 2)
  | succ m ih =>
    obtain ⟨fuel, rfl⟩ := Nat.exists_eq_add_of_le' (Nat.one_le_of_lt hfuel)
    obtain ⟨hlarge, hhalf⟩ := two_pow_halves m
    have hdouble : level.length = 2 * 2 ^ (m + 1) := by rw [hlevel, Nat.pow_succ, mul_comm]
    obtain ⟨gap, -, hround⟩ := hashRound_id hash rest length_nil length_nil hdouble
    have hnext : (nextLevel hash level).length = 2 ^ (m + 1) := by
      rw [length_pairUp, hlevel, hhalf]
    obtain ⟨rest', hrounds⟩ := ih hnext (Nat.le_of_succ_le_succ hfuel) (gap ++ rest)
    refine ⟨rest', ?_⟩
    rw [hashRounds, if_pos hlarge, hhalf, Function.iterate_succ_apply, ← hrounds]
    exact congrArg _ hround

/-- The values after the first round, which hashes only those in front of which
there are enough. -/
def firstLevel (hashes : List α) : List α :=
  let first := 2 * treeHashCnt hashes.length - hashes.length
  hashes.take first ++ nextLevel hash (hashes.drop first)

lemma firstRound_spec (h : 3 ≤ hashes.length) :
    let cnt := treeHashCnt hashes.length
    let first := 2 * cnt - hashes.length
    hashRound hash (fun _ ↦ hashes) (cnt - first) first first (startInts hashes cnt) =
      firstLevel hash hashes := by
  intro cnt first
  obtain ⟨k, hcnt, hlow, hhigh⟩ := treeHashCnt_spec h
  have hcnt' : cnt = 2 ^ (k + 1) := hcnt
  have hdouble : 2 ^ (k + 2) = 2 * 2 ^ (k + 1) := by rw [Nat.pow_succ]; ring
  have hfirst : first ≤ hashes.length := by omega
  have hpending : (hashes.drop first).length = 2 * (cnt - first) := by
    rw [length_drop]
    omega
  have htake : (hashes.take first).length = first := length_take_of_le hfirst
  have hslots : (replicate (cnt - first) (default : α)).length = cnt - first := length_replicate
  have hround := hashRound_const hash [] [] htake htake hpending hslots
  rw [append_nil, append_nil, append_nil, take_append_drop] at hround
  exact hround

omit [Inhabited α] in
lemma length_firstLevel {k : ℕ} (hcnt : treeHashCnt hashes.length = 2 ^ (k + 1))
    (hlow : 2 ^ (k + 1) < hashes.length) (hhigh : hashes.length ≤ 2 ^ (k + 2)) :
    (firstLevel hash hashes).length = 2 ^ (k + 1) := by
  have hdouble : 2 ^ (k + 2) = 2 * 2 ^ (k + 1) := by rw [Nat.pow_succ]; ring
  simp only [firstLevel, hcnt, length_append, length_take, length_pairUp, length_drop]
  omega

lemma treeHash_spec {k : ℕ} (h : 3 ≤ hashes.length)
    (hcnt : treeHashCnt hashes.length = 2 ^ (k + 1))
    : (nextLevel hash)^[k + 1] (firstLevel hash hashes) = [treeHash hash hashes] := by
  obtain ⟨k', hcnt', hlow, hhigh⟩ := treeHashCnt_spec h
  obtain rfl : k' = k := Nat.succ_inj.mp (Nat.pow_right_injective le_rfl (hcnt'.symm.trans hcnt))
  have hlevel := length_firstLevel hash hcnt hlow hhigh
  obtain ⟨rest, hrounds⟩ := hashRounds_spec hash hlevel
    (Nat.lt_two_pow_self.le.trans (Nat.pow_le_pow_right two_pos k'.le_succ)) []
  obtain ⟨a, b, hpair⟩ := length_eq_two.mp
    (length_pairUp_iterate (fun a b ↦ hash (a, b)) k' (hlevel.trans (Nat.pow_succ 2 k')))
  have hcount : ¬hashes.length = 1 ∧ ¬hashes.length = 2 := by omega
  rw [Function.iterate_succ_apply', hpair, treeHash, if_neg hcount.1, if_neg hcount.2]
  simp only [firstRound_spec hash h]
  rw [append_nil, hpair, ← hcnt] at hrounds
  rw [hrounds]
  rfl

end

/-! ## The tree

Run with the constructor of trees in place of the hash function, the code
builds the tree that it hashes. -/

section

variable {α β : Type*} [Inhabited α] [Inhabited β] {hash : α × α → α} {hash' : β × β → β}
  {l : List (List α)}

lemma treeHash_rel {R : α → β → Prop}
    (hhash : ∀ {a b a' b'}, R a a' → R b b' → R (hash (a, b)) (hash' (a', b'))) {l : List α}
    {l' : List β} (h : Forall₂ R l l') (hne : l ≠ []) :
    R (treeHash hash l) (treeHash hash' l') := by
  have hlength : l.length = l'.length := h.length_eq
  have hlevels : ∀ m {l : List α} {l' : List β}, Forall₂ R l l' →
      Forall₂ R ((nextLevel hash)^[m] l) ((nextLevel hash')^[m] l') := by
    intro m
    induction m with
    | zero => exact fun h ↦ h
    | succ m ih => exact fun h ↦ ih (pairUp_rel hhash h)
  match l, l', h with
  | [], _, _ => exact absurd rfl hne
  | [a], [a'], .cons ha .nil => exact ha
  | [a, b], [a', b'], .cons ha (.cons hb .nil) => exact hhash ha hb
  | a :: b :: c :: l, a' :: b' :: c' :: l', h =>
    have hmany : 3 ≤ (a :: b :: c :: l).length := by simp
    obtain ⟨k, hcnt, -⟩ := treeHashCnt_spec hmany
    have hfirst : Forall₂ R (firstLevel hash (a :: b :: c :: l))
        (firstLevel hash' (a' :: b' :: c' :: l')) := by
      simp only [firstLevel, ← hlength]
      exact rel_append (forall₂_take _ h) (pairUp_rel hhash (forall₂_drop _ h))
    have htop := hlevels (k + 1) hfirst
    rw [treeHash_spec hash hmany hcnt,
      treeHash_spec hash' (hlength ▸ hmany) (hlength ▸ hcnt)] at htop
    cases htop with
    | cons hrel _ => exact hrel

instance : Inhabited (HashTree α) := ⟨.leaf default⟩

def merkleTree (hashes : List α) : HashTree α :=
  treeHash (fun p ↦ .node p.1 p.2) (hashes.map .leaf)

lemma root_merkleTree (hash : α × α → α) {hashes : List α} (hne : hashes ≠ []) :
    (merkleTree hashes).root hash = treeHash hash hashes := by
  refine treeHash_rel (R := fun (t : HashTree α) a ↦ t.root hash = a) ?_ ?_ (by simpa using hne)
  · rintro a b _ _ rfl rfl
    rfl
  · exact forall₂_map_left_iff.mpr (forall₂_same.mpr fun _ _ ↦ rfl)

omit [Inhabited α] in
lemma flatten_pairUp_iterate (m : ℕ) {n : ℕ} (h : l.length = 2 ^ m * n) :
    ((pairUp (· ++ ·))^[m] l).flatten = l.flatten := by
  induction m generalizing l with
  | zero => rfl
  | succ m ih =>
    have hdouble : l.length = 2 * (2 ^ m * n) := by rw [h, Nat.pow_succ]; ring
    rw [Function.iterate_succ_apply, ih, pairUp_append_flatten hdouble]
    rw [length_pairUp, hdouble, Nat.mul_div_cancel_left _ two_pos]

omit [Inhabited α] in
lemma flatten_firstLevel (h : 3 ≤ l.length) :
    (firstLevel (fun p ↦ p.1 ++ p.2) l).flatten = l.flatten := by
  obtain ⟨k, hcnt, hlow, hhigh⟩ := treeHashCnt_spec h
  have hdouble : 2 ^ (k + 2) = 2 * 2 ^ (k + 1) := by rw [Nat.pow_succ]; ring
  have hdrop : (l.drop (2 * treeHashCnt l.length - l.length)).length =
      2 * (l.length - treeHashCnt l.length) := by
    rw [length_drop]
    omega
  simp only [firstLevel]
  rw [flatten_append, pairUp_append_flatten hdrop, ← flatten_append, take_append_drop]

omit [Inhabited α] in
lemma treeHash_append (hne : l ≠ []) : treeHash (fun p ↦ p.1 ++ p.2) l = l.flatten := by
  match l with
  | [] => exact absurd rfl hne
  | [a] => exact flatten_singleton.symm
  | [a, b] => exact (congrArg (a ++ ·) flatten_singleton).symm
  | a :: b :: c :: l =>
    have hmany : 3 ≤ (a :: b :: c :: l).length := by simp
    obtain ⟨k, hcnt, hlow, hhigh⟩ := treeHashCnt_spec hmany
    have hlevel := length_firstLevel (fun p ↦ p.1 ++ p.2) hcnt hlow hhigh
    have hroot := treeHash_spec (fun p ↦ p.1 ++ p.2) hmany hcnt
    rw [← flatten_firstLevel hmany,
      ← flatten_pairUp_iterate (k + 1) (hlevel.trans (Nat.mul_one _).symm)]
    exact flatten_singleton.symm.trans (congrArg flatten hroot.symm)

lemma leaves_merkleTree {hashes : List α} (hne : hashes ≠ []) :
    (merkleTree hashes).leaves = hashes := by
  have hrel : (merkleTree hashes).leaves =
      treeHash (fun p ↦ p.1 ++ p.2) (hashes.map fun a ↦ [a]) := by
    refine treeHash_rel (R := fun (t : HashTree α) l ↦ t.leaves = l) ?_ ?_ (by simpa using hne)
    · rintro a b _ _ rfl rfl
      rfl
    · refine forall₂_map_left_iff.mpr (forall₂_map_right_iff.mpr ?_)
      exact forall₂_same.mpr fun _ _ ↦ rfl
  rw [hrel, treeHash_append (by simpa using hne), ← flatMap_def, flatMap_singleton']

lemma sameShape_merkleTree {l l' : List α} (hlength : l.length = l'.length) (hne : l ≠ []) :
    SameShape (merkleTree l) (merkleTree l') := by
  refine treeHash_rel (R := SameShape) .node ?_ (by simpa using hne)
  refine forall₂_map_left_iff.mpr (forall₂_map_right_iff.mpr ?_)
  exact forall₂_iff_get.mpr ⟨hlength, fun _ _ _ ↦ .leaf _ _⟩

lemma eq_or_collide_of_treeHash_eq (hash : α × α → α) {l l' : List α}
    (hlength : l.length = l'.length) (hne : l ≠ []) (h : treeHash hash l = treeHash hash l') :
    l = l' ∨ Collide hash ((merkleTree l).inputs hash) ((merkleTree l').inputs hash) := by
  have hne' : l' ≠ [] := by
    rintro rfl
    exact hne (eq_nil_of_length_eq_zero hlength)
  rw [← root_merkleTree hash hne, ← root_merkleTree hash hne'] at h
  rcases (sameShape_merkleTree hlength hne).leaves_eq_or_collide hash h with heq | hcollide
  · rw [leaves_merkleTree hne, leaves_merkleTree hne'] at heq
    exact .inl heq
  · exact .inr hcollide

end

end Monero.Crypto
