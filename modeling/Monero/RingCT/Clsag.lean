import Monero.Lib.Result
import Monero.Lib.RingLoop

/-!
# CLSAG signatures

`CLSAG_Gen` and `verRctCLSAGSimple` of `rctSigs.cpp`, and that a signature made with
the keys of one ring member is accepted.  Scalars are a field acting on the group
of points, and the hash functions are arbitrary.
-/

namespace Monero.RingCT

open Monero.Lib List

/-! ## What is hashed -/

inductive HashDomain where
  | clsagAgg0
  | clsagAgg1
  | clsagRound
  | clsagRoundMultisig
  deriving DecidableEq

/-- One of the 32-byte strings a hash is taken of. -/
inductive HashItem (F P M : Type) where
  | domain (d : HashDomain)
  | key (K : P)
  | scalar (k : F)
  | message (m : M)
  | int (n : ℕ)
  deriving DecidableEq

structure ClsagCrypto (F P M : Type) where
  G : P
  hashToP3 : P → P
  hashToScalar : List (HashItem F P M) → F

structure Clsag (F P : Type) where
  s : List F
  c1 : F
  I : P
  D : P
  deriving DecidableEq

structure CtKey (P : Type) where
  dest : P
  mask : P
  deriving DecidableEq

structure CtSecret (F : Type) where
  dest : F
  mask : F

variable {F P M : Type} [Field F] [AddCommGroup P] [Module F P]

def ringItems (ring : List (CtKey P)) : List (HashItem F P M) :=
  ring.map (fun k ↦ HashItem.key k.dest) ++ ring.map (fun k ↦ HashItem.key k.mask)

def muParams (domain : HashDomain) (ring : List (CtKey P)) (I D offset : P) :
    List (HashItem F P M) :=
  [[.domain domain], ringItems ring, [.key I, .key D, .key offset]].flatten

def roundParams (ring : List (CtKey P)) (offset : P) (message : M) (L R : P) :
    List (HashItem F P M) :=
  [[.domain .clsagRound], ringItems ring, [.key offset, .message message, .key L, .key R]].flatten

/-- What stays the same in all rounds; `D` is the auxiliary key image itself, the signature has an
eighth of it. -/
structure Rounds (F P M : Type) where
  ring : List (CtKey P)
  offset : P
  message : M
  I : P
  D : P
  muP : F
  muC : F

variable (c : ClsagCrypto F P M)

def Rounds.make (ring : List (CtKey P)) (offset : P) (message : M)
    (I D : P) (sigD : P) : Rounds F P M where
  ring := ring
  offset := offset
  message := message
  I := I
  D := D
  muP := c.hashToScalar (muParams .clsagAgg0 ring I sigD offset)
  muC := c.hashToScalar (muParams .clsagAgg1 ring I sigD offset)

namespace Rounds

def challenge (r : Rounds F P M) (L R : P) : F :=
  c.hashToScalar (roundParams r.ring r.offset r.message L R)

/-- One round: from the challenge of a ring member to the next. -/
def next (r : Rounds F P M) (K C : P) (s challenge : F) : F :=
  let cp := r.muP * challenge
  let cc := r.muC * challenge
  r.challenge c (s • c.G + cp • K + cc • C) (s • c.hashToP3 K + cp • r.I + cc • r.D)

end Rounds

/-! ## Signing -/

structure GenState (F : Type) where
  challenge : F
  c1 : F
  s : List F

/-- A turn of the loop over the decoys; `skGen i` is what is drawn for member `i`. -/
def genBody (r : Rounds F P M) (C : List P) (skGen : ℕ → F) (i : ℕ)
    (st : GenState F) : GenState F :=
  let challenge := r.next c ((r.ring.map CtKey.dest).getD i 0) (C.getD i 0) (skGen i) st.challenge
  { challenge := challenge
    c1 := if (i + 1) % r.ring.length = 0 then challenge else st.c1
    s := st.s.set i (skGen i) }

abbrev invEight (F : Type) [Field F] : F := 8⁻¹

/-- `ring` has the keys `P` with the commitments `C_nonzero`; `a` is the nonce. -/
def clsagGen (message : M) (ring : List (CtKey P)) (p : F) (C : List P)
    (z : F) (offset : P) (l : ℕ) (a : F) (skGen : ℕ → F) : Except String (Clsag F P) := do
  let n := ring.length
  check (n = C.length) "Signing and commitment key vector sizes must match!"
  check (l < n) "Signing index out of range!"
  let H := c.hashToP3 ((ring.map CtKey.dest).getD l 0)
  let I := p • H
  let D := z • H
  let sigD := invEight F • D
  let r := Rounds.make c ring offset message I D sigD
  let challenge := r.challenge c (a • c.G) (a • H)
  let start := (l + 1) % n
  let st := (ringLoop n l (genBody c r C skGen) n start
    ⟨challenge, if start = 0 then challenge else 0, replicate n 0⟩).2
  let sl := a - st.challenge * (r.muC * z + r.muP * p)
  return ⟨st.s.set l sl, st.c1, I, sigD⟩

/-- `inSk` opens the real member, `cOut` is the mask of the pseudo output `Cout`. -/
def proveRctCLSAGSimple (message : M) (pubs : List (CtKey P))
    (inSk : CtSecret F) (cOut : F) (Cout : P) (index : ℕ) (a : F) (skGen : ℕ → F) :
    Except String (Clsag F P) := do
  check (pubs ≠ []) "Empty pubs"
  clsagGen c message pubs inSk.dest (pubs.map fun k ↦ k.mask - Cout) (inSk.mask - cOut) Cout
    index a skGen

/-! ## Verifying -/

variable [DecidableEq F] [DecidableEq P] {offset : P} {l : ℕ} {sig : Clsag F P}

def verLoop (next : CtKey P → F → F → F) : List (CtKey P × F) → F → Option F
  | [], challenge => some challenge
  | (pub, s) :: rest, challenge =>
    if next pub s challenge = 0 then none else verLoop next rest (next pub s challenge)

/-- The scalars are reduced and the points are on the curve by their types. -/
def verRctCLSAGSimple (message : M) (sig : Clsag F P) (pubs : List (CtKey P)) (offset : P) :
    Bool :=
  if pubs.length < 1 then false
  else if pubs.length ≠ sig.s.length then false
  else if sig.I = 0 then false
  else if (8 : F) • sig.D = 0 then false
  else
    let r := Rounds.make c pubs offset message sig.I ((8 : F) • sig.D) sig.D
    match verLoop (fun pub s ↦ r.next c pub.dest (pub.mask - offset) s)
      (pubs.zip sig.s) sig.c1 with
    | none => false
    | some challenge => challenge - sig.c1 = 0

def walk {F P : Type} (next : CtKey P → F → F → F) : List (CtKey P × F) → F → List F
  | [], _ => []
  | (pub, s) :: rest, challenge => next pub s challenge :: walk next rest (next pub s challenge)

def challenges {F P M : Type} [Field F] [AddCommGroup P] [Module F P] (c : ClsagCrypto F P M)
    (message : M) (sig : Clsag F P) (pubs : List (CtKey P)) (offset : P) : List F :=
  let r := Rounds.make c pubs offset message sig.I ((8 : F) • sig.D) sig.D
  walk (fun pub s ↦ r.next c pub.dest (pub.mask - offset) s) (pubs.zip sig.s) sig.c1

/-! ## The verifier's walk -/

omit [AddCommGroup P] [Module F P] [DecidableEq P] in
lemma verLoop_eq_some (next : CtKey P → F → F → F) {l : List (CtKey P × F)} {challenge : F}
    (h : 0 ∉ walk next l challenge) :
    verLoop next l challenge = some (l.foldl (fun ch x ↦ next x.1 x.2 ch) challenge) := by
  induction l generalizing challenge with
  | nil => rfl
  | cons x l ih =>
    obtain ⟨hne, hrest⟩ := not_or.mp (mt mem_cons.mpr h)
    rw [verLoop, if_neg (Ne.symm hne), ih hrest, foldl_cons]

omit [DecidableEq F] [DecidableEq P] in
def verStep (c : ClsagCrypto F P M) (r : Rounds F P M) (s : List F) (i : ℕ) (challenge : F) : F :=
  r.next c (r.ring.getD i ⟨0, 0⟩).dest ((r.ring.getD i ⟨0, 0⟩).mask - r.offset) (s.getD i 0)
    challenge

lemma verRctCLSAGSimple_of_closes {c : ClsagCrypto F P M} {message : M} {pubs : List (CtKey P)}
    (hne : 1 ≤ pubs.length) (hlength : pubs.length = sig.s.length) (hI : sig.I ≠ 0)
    (hD : (8 : F) • sig.D ≠ 0)
    (hclose : foldFrom (verStep c (Rounds.make c pubs offset message sig.I ((8 : F) • sig.D) sig.D)
      sig.s) 0 pubs.length sig.c1 = sig.c1) (hzero : 0 ∉ challenges c message sig pubs offset) :
    verRctCLSAGSimple c message sig pubs offset = true := by
  have hzip : (pubs.zip sig.s).length = pubs.length := by
    rw [length_zip, ← hlength, min_self]
  have hwalk := verLoop_eq_some _ hzero
  rw [foldl_eq_foldFrom _ (⟨0, 0⟩, 0), hzip] at hwalk
  have hstep : foldFrom (fun i ↦ (Rounds.make c pubs offset message sig.I ((8 : F) • sig.D)
      sig.D).next c ((pubs.zip sig.s).getD i (⟨0, 0⟩, 0)).1.dest
        (((pubs.zip sig.s).getD i (⟨0, 0⟩, 0)).1.mask - offset)
        ((pubs.zip sig.s).getD i (⟨0, 0⟩, 0)).2) 0 pubs.length sig.c1 = sig.c1 := by
    refine (foldFrom_congr (fun i _ hi ↦ ?_) sig.c1).trans hclose
    have hpair : (pubs.zip sig.s).getD i (⟨0, 0⟩, 0) = (pubs.getD i ⟨0, 0⟩, sig.s.getD i 0) := by
      rw [getD_eq_getElem _ _ (by omega), getElem_zip, getD_eq_getElem _ _ (by omega),
        getD_eq_getElem _ _ (by omega)]
    funext challenge
    rw [hpair]
    rfl
  rw [hstep] at hwalk
  rw [verRctCLSAGSimple, if_neg (by omega), if_neg (not_not.mpr hlength), if_neg hI, if_neg hD]
  simp [hwalk]

/-! ## The signer's loop -/

section Gen

variable (c : ClsagCrypto F P M) (r : Rounds F P M) (C : List P) (skGen : ℕ → F)

omit [DecidableEq F] [DecidableEq P] in
def genStep (i : ℕ) (challenge : F) : F :=
  r.next c ((r.ring.map CtKey.dest).getD i 0) (C.getD i 0) (skGen i) challenge

omit [DecidableEq F] [DecidableEq P]

lemma challenge_foldFrom (i k : ℕ) (st : GenState F) :
    (foldFrom (genBody c r C skGen) i k st).challenge =
      foldFrom (genStep c r C skGen) i k st.challenge := by
  induction k generalizing i st with
  | zero => rfl
  | succ k ih => rw [foldFrom_succ, ih, foldFrom_succ]; rfl

lemma s_foldFrom (i k : ℕ) (st : GenState F) : (foldFrom (genBody c r C skGen) i k st).s =
      foldFrom (fun i s ↦ s.set i (skGen i)) i k st.s := by
  induction k generalizing i st with
  | zero => rfl
  | succ k ih => rw [foldFrom_succ, ih, foldFrom_succ]; rfl

lemma c1_foldFrom_of_lt {i k : ℕ} (hik : i + k < r.ring.length) (st : GenState F) :
    (foldFrom (genBody c r C skGen) i k st).c1 = st.c1 := by
  induction k generalizing i st with
  | zero => rfl
  | succ k ih =>
    have hmod : (i + 1) % r.ring.length ≠ 0 := by
      rw [Nat.mod_eq_of_lt (by omega)]
      omega
    rw [foldFrom_succ, ih (by omega), genBody, if_neg hmod]

lemma c1_foldFrom_of_eq {i k : ℕ} (hik : i + (k + 1) = r.ring.length) (st : GenState F) :
    (foldFrom (genBody c r C skGen) i (k + 1) st).c1 =
      foldFrom (genStep c r C skGen) i (k + 1) st.challenge := by
  induction k generalizing i st with
  | zero =>
    have hmod : (i + 1) % r.ring.length = 0 := by
      rw [← hik, Nat.zero_add, Nat.mod_self]
    rw [foldFrom_succ, foldFrom_zero, genBody, if_pos hmod]
    rfl
  | succ k ih => rw [foldFrom_succ, ih (by omega), foldFrom_succ _ i]; rfl

/-- What the loop leaves: the challenge for member 0, the one for the real member, and the
responses of the decoys. -/
theorem ringLoop_genBody (hl : l < r.ring.length) (v : F) :
    ∃ st : GenState F, ringLoop r.ring.length l (genBody c r C skGen) r.ring.length
        ((l + 1) % r.ring.length) ⟨v, if (l + 1) % r.ring.length = 0 then v else 0,
          replicate r.ring.length 0⟩ = (l, st) ∧
      st.c1 = foldFrom (genStep c r C skGen) (l + 1) (r.ring.length - 1 - l) v ∧
      st.challenge = foldFrom (genStep c r C skGen) 0 l st.c1 ∧ st.s.length = r.ring.length ∧
      ∀ j, j ≠ l → j < r.ring.length → st.s[j]? = some (skGen j) := by
  rw [ringLoop_around hl]
  refine ⟨_, rfl, ?_⟩
  generalize hst : (⟨v, if (l + 1) % r.ring.length = 0 then v else 0,
    replicate r.ring.length 0⟩ : GenState F) = st₀
  have hv : st₀.challenge = v := by rw [← hst]
  have hs : st₀.s = replicate r.ring.length 0 := by rw [← hst]
  have habove : (foldFrom (genBody c r C skGen) (l + 1) (r.ring.length - 1 - l) st₀).c1 =
      foldFrom (genStep c r C skGen) (l + 1) (r.ring.length - 1 - l) v := by
    rcases eq_or_lt_of_le (Nat.succ_le_of_lt hl) with hlast | hlt
    · have hmod : (l + 1) % r.ring.length = 0 := by
        rw [show l + 1 = r.ring.length from hlast, Nat.mod_self]
      rw [show r.ring.length - 1 - l = 0 by omega, foldFrom_zero, foldFrom_zero, ← hst]
      exact if_pos hmod
    · rw [show r.ring.length - 1 - l = r.ring.length - l - 2 + 1 by omega,
        c1_foldFrom_of_eq c r C skGen (by omega), hv]
  refine ⟨?_, ?_, ?_, ?_⟩
  · rw [c1_foldFrom_of_lt c r C skGen (by omega), habove]
  · rw [challenge_foldFrom, challenge_foldFrom, hv, c1_foldFrom_of_lt c r C skGen (by omega),
      habove]
  · rw [s_foldFrom, s_foldFrom, length_foldFrom_set, length_foldFrom_set, hs, length_replicate]
  · intro j hj hjn
    rw [s_foldFrom, s_foldFrom, getElem?_foldFrom_set, length_foldFrom_set, getElem?_foldFrom_set,
      hs, length_replicate]
    by_cases hjl : j < l
    · rw [if_pos ⟨Nat.zero_le j, by omega, hjn⟩]
    · rw [if_neg (by omega), if_pos ⟨by omega, by omega, hjn⟩]

end Gen

/-! ## Completeness -/

variable {c : ClsagCrypto F P M} {ring : List (CtKey P)} {r : Rounds F P M}

omit [DecidableEq F] [DecidableEq P] in
/-- The response of the signer makes the round of the real member end in its first challenge. -/
theorem next_of_response {p z a : F} {H : P} (hH : c.hashToP3 (p • c.G) = H) (hI : r.I = p • H)
    (hD : r.D = z • H) (challenge : F) :
    r.next c (p • c.G) (z • c.G) (a - challenge * (r.muC * z + r.muP * p)) challenge =
      r.challenge c (a • c.G) (a • H) := by
  have hL : (a - challenge * (r.muC * z + r.muP * p)) • c.G + (r.muP * challenge) • p • c.G +
      (r.muC * challenge) • z • c.G = a • c.G := by
    module
  have hR : (a - challenge * (r.muC * z + r.muP * p)) • H + (r.muP * challenge) • p • H +
      (r.muC * challenge) • z • H = a • H := by
    module
  rw [Rounds.next, hH, hI, hD]
  simp [hL, hR]

/-- A signature is accepted if the response of member `l` is that of its owner with the nonce `a`,
whatever the other responses are. -/
theorem verRctCLSAGSimple_of_response {message : M} {p z a : F} {H : P} {s : List F}
    {c1 challenge : F} (h8 : (8 : F) ≠ 0) (hreal : ring[l]? = some ⟨p • c.G, z • c.G + offset⟩)
    (hH : c.hashToP3 (p • c.G) = H)
    (hr : Rounds.make c ring offset message (p • H) (z • H) (invEight F • z • H) = r)
    (hlength : s.length = ring.length)
    (hc1 : foldFrom (verStep c r s) (l + 1) (ring.length - 1 - l)
      (r.challenge c (a • c.G) (a • H)) = c1) (hch : foldFrom (verStep c r s) 0 l c1 = challenge)
    (hI : p • H ≠ 0) (hD : z • H ≠ 0)
    (hsig : sig =
      ⟨s.set l (a - challenge * (r.muC * z + r.muP * p)), c1, p • H, invEight F • z • H⟩)
    (hzero : 0 ∉ challenges c message sig ring offset) :
    verRctCLSAGSimple c message sig ring offset = true := by
  obtain ⟨hl, hget⟩ := List.getElem?_eq_some_iff.mp hreal
  have hring : r.ring = ring := by rw [← hr]; rfl
  have hoffset : r.offset = offset := by rw [← hr]; rfl
  have hrI : r.I = p • H := by rw [← hr]; rfl
  have hrD : r.D = z • H := by rw [← hr]; rfl
  have hD8 : (8 : F) • invEight F • z • H = z • H := by
    rw [smul_smul, mul_inv_cancel₀ h8, one_smul]
  subst hsig
  refine verRctCLSAGSimple_of_closes (by omega) ?_ hI (by rwa [hD8]) ?_ hzero
  · rw [length_set, hlength]
  · show foldFrom (verStep c (Rounds.make c ring offset message (p • H)
      ((8 : F) • invEight F • z • H) (invEight F • z • H)) _) 0 ring.length c1 = c1
    rw [hD8, hr]
    -- Away from member `l` the steps do not see its response.
    have hsame : ∀ j, j ≠ l → verStep c r
        (s.set l (a - challenge * (r.muC * z + r.muP * p))) j = verStep c r s j := by
      intro j hj
      have hget : (s.set l (a - challenge * (r.muC * z + r.muP * p))).getD j 0 = s.getD j 0 := by
        rw [getD_eq_getElem?_getD, getElem?_set_ne (Ne.symm hj), getD_eq_getElem?_getD]
      funext ch
      rw [verStep, verStep, hget]
    refine foldFrom_closes hl (v := r.challenge c (a • c.G) (a • H)) ?_ ?_
    · rw [← hc1]
      exact foldFrom_congr (fun j hj _ ↦ hsame j (by omega)) _
    · have hbelow := foldFrom_congr (fun j _ hj ↦ hsame j (by omega)) c1 (k := l) (i := 0)
      have hresponse : (s.set l (a - challenge * (r.muC * z + r.muP * p))).getD l 0 =
          a - challenge * (r.muC * z + r.muP * p) := by
        rw [getD_eq_getElem _ _ (by rw [length_set, hlength]; exact hl), getElem_set_self]
      rw [hbelow, hch, verStep, hresponse, hring, hoffset, getD_eq_getElem _ _ hl, hget,
        add_sub_cancel_right]
      exact next_of_response hH hrI hrD challenge

lemma verRctCLSAGSimple_clsagGen {p z : F} (message : M) (a : F) (skGen : ℕ → F) (h8 : (8 : F) ≠ 0)
    (hreal : ring[l]? = some ⟨p • c.G, z • c.G + offset⟩) (hI : p • c.hashToP3 (p • c.G) ≠ 0)
    (hz : z ≠ 0) :
    ∃ sig, clsagGen c message ring p (ring.map fun k ↦ k.mask - offset) z offset l a skGen =
        .ok sig ∧ (0 ∉ challenges c message sig ring offset →
          verRctCLSAGSimple c message sig ring offset = true) := by
  obtain ⟨hl, hget⟩ := List.getElem?_eq_some_iff.mp hreal
  have hdest : (ring.map CtKey.dest).getD l 0 = p • c.G := by
    rw [getD_eq_getElem _ _ (by simpa using hl), getElem_map, hget]
  generalize hH : c.hashToP3 (p • c.G) = H at hI
  have hHne : H ≠ 0 := fun h ↦ hI (by rw [h, smul_zero])
  generalize hr : Rounds.make c ring offset message (p • H) (z • H) (invEight F • z • H) = r
  have hring : r.ring = ring := by rw [← hr]; rfl
  have hoffset : r.offset = offset := by rw [← hr]; rfl
  obtain ⟨st, hloop, hc1, hch, hslength, hs⟩ := ringLoop_genBody c r
    (ring.map fun k ↦ k.mask - offset) skGen (hring.symm ▸ hl) (r.challenge c (a • c.G) (a • H))
  rw [hring] at hloop hc1 hslength hs
  -- The verifier repeats the signer's steps.
  have hsame : ∀ j, j ≠ l → j < ring.length → verStep c r st.s j =
      genStep c r (ring.map fun k ↦ k.mask - offset) skGen j := by
    intro j hj hjn
    have hresponse : st.s.getD j 0 = skGen j := by
      rw [getD_eq_getElem?_getD, hs j hj hjn]
      rfl
    funext challenge
    rw [verStep, genStep, hresponse, hring, hoffset, getD_eq_getElem _ _ hjn,
      getD_eq_getElem _ _ (by simpa using hjn), getD_eq_getElem _ _ (by simpa using hjn),
      getElem_map, getElem_map]
  refine ⟨⟨st.s.set l (a - st.challenge * (r.muC * z + r.muP * p)), st.c1, p • H,
    invEight F • z • H⟩, ?_, ?_⟩
  · rw [clsagGen, check_bind (length_map _).symm, check_bind hl]
    simp only [hdest, hH, hr, hloop]
    rfl
  · refine verRctCLSAGSimple_of_response h8 hreal hH hr hslength ?_ ?_ hI
      (smul_ne_zero hz hHne) rfl
    · rw [hc1]
      exact foldFrom_congr (fun j hj hjn ↦ hsame j (by omega) (by omega)) _
    · rw [hch]
      exact foldFrom_congr (fun j _ hjn ↦ hsame j (by omega) (by omega)) _

end Monero.RingCT
