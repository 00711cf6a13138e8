import Monero.Database.Distribution

/-!
# The cache of output distributions

`RpcHandler::get_output_distribution` keeps its last answer for amount zero,
with the hash of the block it ends at and of the block ten below.  An answer
whose last block is still on the chain is extended; otherwise its last ten
entries are dropped if the block ten below is still there.
-/

namespace Monero.Rpc

open Lib List
open Database (DbError Db BlockInfo OutputDistribution)

/-! ## Model -/

structure Request where
  amount : ℕ
  fromHeight : ℕ
  toHeight : ℕ
  cumulative : Bool

/-- The static variable `d`. -/
structure Cache (H : Type) where
  cachedDistribution : List ℕ
  cachedFrom : ℕ
  cachedTo : ℕ
  cachedStartHeight : ℕ
  cachedBase : ℕ
  cachedM10Hash : H
  cachedTopHash : H
  cached : Bool

/-- The functions that a request is served with: the distribution and the
hashes of the chain, and its height. -/
structure View (H : Type) where
  f : ℕ → ℕ → ℕ → Except DbError (Option OutputDistribution)
  getHash : ℕ → H
  blockchainHeight : ℕ

def sub64 (a b : ℕ) : ℕ := (a + 2 ^ 64 - b % 2 ^ 64) % 2 ^ 64

def differences (base : ℕ) : List ℕ → List ℕ
  | [] => []
  | a :: l => sub64 a base :: differences a l

def processDistribution (cumulative : Bool) (a : OutputDistribution) : OutputDistribution :=
  if cumulative then a else { a with distribution := differences a.base a.distribution }

/-- The last `resize` before an answer is kept and returned. -/
def cut (r : Request) (a : OutputDistribution) : OutputDistribution :=
  let offset := max r.fromHeight a.startHeight
  if (0 < r.toHeight ∧ r.fromHeight ≤ r.toHeight) ∧
      offset ≤ r.toHeight ∧ r.toHeight - offset + 1 < a.distribution.length then
    { a with distribution := a.distribution.take (r.toHeight - offset + 1) }
  else a

section

variable {H : Type} [DecidableEq H] (null : H)

def Cache.empty : Cache H := ⟨[], 0, 0, 0, 0, null, null, false⟩

variable (d : Cache H)

/-- The cache ten blocks shorter, before its entries are dropped. -/
def Cache.stepBack (hash10 : H) : Cache H :=
  { d with cachedTo := d.cachedTo - 10, cachedTopHash := hash10, cachedM10Hash := null }

def Cache.dropTen : Cache H :=
  { d with cachedDistribution := d.cachedDistribution.take (d.cachedDistribution.length - 10) }

variable (v : View H) (r : Request)

def Cache.store (a : OutputDistribution) : Cache H :=
  if r.amount = 0 then
    { cachedDistribution := a.distribution
      cachedFrom := r.fromHeight
      cachedTo := r.toHeight
      cachedStartHeight := a.startHeight
      cachedBase := a.base
      cachedM10Hash := if 10 ≤ r.toHeight then v.getHash (r.toHeight - 10) else null
      cachedTopHash := v.getHash r.toHeight
      cached := true }
  else d

variable (answer : Except DbError (Option OutputDistribution))

/-- What is done with the answer of `f`, which may be `false` or an exception. -/
def finish : Except DbError (Option OutputDistribution) × Cache H :=
  match answer with
  | .error e => (.error e, d)
  | .ok none => (.ok none, d)
  | .ok (some a) =>
    (.ok (some (processDistribution r.cumulative (cut r a))), d.store null v r (cut r a))

def Cache.extend (a : OutputDistribution) : OutputDistribution :=
  ⟨d.cachedStartHeight, d.cachedDistribution ++ a.distribution, d.cachedBase⟩

def topHash : H :=
  if d.cachedTo < v.blockchainHeight then v.getHash d.cachedTo else null

/-- Whether the cache is about the same range start. -/
def Cache.Matches : Prop := d.cached = true ∧ r.amount = 0 ∧ d.cachedFrom = r.fromHeight

instance (d : Cache H) (r : Request) :
    Decidable (d.Matches r) := inferInstanceAs (Decidable (_ ∧ _))

/-- Whether the cache can be shortened by ten blocks for the request.  The
source subtracts without a sign; a range that was cached does not end below its
start. -/
def Cache.CanStepBack : Prop :=
  d.Matches r ∧ d.cachedFrom + 10 ≤ d.cachedTo ∧ d.cachedTo - 10 < r.toHeight ∧
    v.getHash (d.cachedTo - 10) = d.cachedM10Hash

instance (d : Cache H) (v : View H) (r : Request) : Decidable (d.CanStepBack v r) :=
  inferInstanceAs (Decidable (_ ∧ _))

def getOutputDistribution (d : Cache H) : Except DbError (Option OutputDistribution) × Cache H :=
  let top := topHash null d v
  if d.Matches r ∧ d.cachedTo = r.toHeight ∧ d.cachedTopHash = top then
    (.ok (some (processDistribution r.cumulative
      ⟨d.cachedStartHeight, d.cachedDistribution, d.cachedBase⟩)), d)
  else if d.Matches r ∧ d.cachedTo < r.toHeight ∧ top = d.cachedTopHash then
    finish null d v r ((v.f r.amount (d.cachedTo + 1) r.toHeight).map (Option.map d.extend))
  else if d.CanStepBack v r then
    let back := d.stepBack null (v.getHash (d.cachedTo - 10))
    if d.cachedDistribution.length < 10 then (.ok none, back)
    else
      finish null back.dropTen v r
        ((v.f r.amount (back.cachedTo + 1) r.toHeight).map (Option.map back.dropTen.extend))
  else finish null d v r (v.f r.amount r.fromHeight r.toHeight)

/-- The answer of `f`, cut to the requested range and differenced. -/
def direct : Except DbError (Option OutputDistribution) :=
  (v.f r.amount r.fromHeight r.toHeight).map
    (Option.map fun a ↦ processDistribution r.cumulative (cut r a))

/-- The answers to a sequence of requests, each with the chain of its time. -/
def serve : List (View H × Request) → Cache H → List (Except DbError (Option OutputDistribution))
  | [], _ => []
  | p :: requests, d =>
    let answer := getOutputDistribution null p.1 p.2 d
    answer.1 :: serve requests answer.2

omit [DecidableEq H] in
lemma finish_fst : (finish null d v r answer).1 =
      answer.map (Option.map fun a ↦ processDistribution r.cumulative (cut r a)) := by
  rcases answer with e | (_ | a) <;> rfl

lemma getOutputDistribution_empty :
    (getOutputDistribution null v r (.empty null)).1 = direct v r := by
  have hmatches : ¬ (Cache.empty null).Matches r := fun h ↦ Bool.false_ne_true h.1
  rw [getOutputDistribution, if_neg fun h ↦ hmatches h.1, if_neg fun h ↦ hmatches h.1,
    if_neg fun h ↦ hmatches h.1, finish_fst]
  rfl

end

/-! ## Answers for amount zero -/

/-- The answer for amount zero on a chain with the counters `count`, when RingCT
starts at height `first`. -/
def rctAnswer (first : ℕ) (count : ℕ → ℕ) (fromHeight toHeight : ℕ) : OutputDistribution :=
  let start := max fromHeight first
  ⟨start, (range' start (toHeight + 1 - start)).map count,
    if start = 0 then 0 else count (start - 1)⟩

section Answer

variable {first fromHeight toHeight cachedTo : ℕ} {count count' : ℕ → ℕ}

lemma rctAnswer_congr (hfrom : fromHeight ≤ toHeight + 1) (hfirst : first ≤ toHeight + 1)
    (h : ∀ k ≤ toHeight, count k = count' k) :
    rctAnswer first count fromHeight toHeight = rctAnswer first count' fromHeight toHeight := by
  have hstart : max fromHeight first ≤ toHeight + 1 := max_le hfrom hfirst
  simp only [rctAnswer, OutputDistribution.mk.injEq, true_and]
  constructor
  · apply map_congr_left
    intro k hk
    have hbounds := mem_range'_1.mp hk
    exact h k (by omega)
  · split_ifs
    · rfl
    · exact h _ (by omega)

lemma cut_rctAnswer {r : Request} (hle : r.fromHeight ≤ r.toHeight) (hfirst : first ≤ r.toHeight) :
    cut r (rctAnswer first count r.fromHeight r.toHeight) =
      rctAnswer first count r.fromHeight r.toHeight := by
  have hstart : max r.fromHeight first ≤ r.toHeight := max_le hle hfirst
  rw [cut, if_neg]
  simp only [rctAnswer, length_map, length_range']
  rintro ⟨-, -, hlt⟩
  rw [max_eq_right (le_max_left _ _)] at hlt
  omega

end Answer

/-! ## The cache is about some chain -/

section Valid

variable {H : Type} {first : ℕ}

/-- A chain answers requests for amount zero from its counters once RingCT has
started, and not at all before. -/
structure View.Reads (v : View H) (first : ℕ) (count : ℕ → ℕ) : Prop where
  answers : ∀ fromHeight toHeight, fromHeight ≤ toHeight → toHeight < v.blockchainHeight →
    first ≤ toHeight → v.f 0 fromHeight toHeight =
      .ok (some (rctAnswer first count fromHeight toHeight))
  early : ∀ fromHeight toHeight, fromHeight ≤ toHeight → toHeight < v.blockchainHeight →
    v.blockchainHeight ≤ first ∨ toHeight + 1 < first →
      ∀ a, v.f 0 fromHeight toHeight ≠ .ok (some a)

/-- The requests that leave a sound cache behind: one for amount zero that is
answered ends neither right below the start of RingCT, nor, if it is longer than
ten blocks, within nine blocks above it. -/
def Request.Safe (r : Request) (first blockchainHeight : ℕ) : Prop :=
  r.amount ≠ 0 ∨ blockchainHeight ≤ first ∨ r.toHeight + 1 < first ∨
    (first ≤ r.toHeight ∧ (r.fromHeight + 10 ≤ r.toHeight → first + 9 ≤ r.toHeight))

/-- The cache holds an answer that the chain `v` gives. -/
structure Cache.Holds (d : Cache H) (first : ℕ) (v : View H) (count : ℕ → ℕ) : Prop where
  le : d.cachedFrom ≤ d.cachedTo
  lt : d.cachedTo < v.blockchainHeight
  first_le : first ≤ d.cachedTo
  ten : d.cachedFrom + 10 ≤ d.cachedTo → first + 9 ≤ d.cachedTo
  topHash : d.cachedTopHash = v.getHash d.cachedTo
  m10Hash : 10 ≤ d.cachedTo → d.cachedM10Hash = v.getHash (d.cachedTo - 10)
  answer : (⟨d.cachedStartHeight, d.cachedDistribution, d.cachedBase⟩ : OutputDistribution) =
    rctAnswer first count d.cachedFrom d.cachedTo

/-- Equal hashes at a height mean equal counters up to it. -/
def Agree (v v' : View H) (count count' : ℕ → ℕ) : Prop :=
  ∀ h < v.blockchainHeight, h < v'.blockchainHeight → v.getHash h = v'.getHash h →
    ∀ k ≤ h, count k = count' k

variable {v v₀ : View H} {count count₀ : ℕ → ℕ} {r : Request} {d : Cache H} {null : H}

/-- The answer of the chain for the heights above a cached answer that the
chain agrees with. -/
theorem extend_eq (hv : v.Reads first count) (hlt : r.toHeight < v.blockchainHeight)
    (hzero : r.amount = 0) (hmatch : d.cachedFrom = r.fromHeight)
    (hbelow : d.cachedTo < r.toHeight)
    (hfrom : d.cachedFrom ≤ d.cachedTo + 1) (hfirst : first ≤ d.cachedTo + 1)
    (hanswer : (⟨d.cachedStartHeight, d.cachedDistribution, d.cachedBase⟩ : OutputDistribution) =
      rctAnswer first count d.cachedFrom d.cachedTo) :
    (v.f r.amount (d.cachedTo + 1) r.toHeight).map (Option.map d.extend) =
      .ok (some (rctAnswer first count r.fromHeight r.toHeight)) := by
  rw [hzero, hv.answers (d.cachedTo + 1) r.toHeight hbelow hlt (by omega)]
  obtain ⟨hstart, hdistribution, hbase⟩ := OutputDistribution.mk.injEq .. ▸ hanswer
  simp only [Except.map, Option.map_some, Cache.extend, hstart, hdistribution, hbase]
  have happend : (range' (max d.cachedFrom first)
      (d.cachedTo + 1 - max d.cachedFrom first)).map count ++
        (rctAnswer first count (d.cachedTo + 1) r.toHeight).distribution =
      (rctAnswer first count d.cachedFrom r.toHeight).distribution := by
    have hle : max d.cachedFrom first ≤ d.cachedTo + 1 := max_le hfrom hfirst
    have hnext : d.cachedTo + 1 =
        max d.cachedFrom first + (d.cachedTo + 1 - max d.cachedFrom first) := by omega
    simp only [rctAnswer]
    rw [max_eq_left hfirst, ← map_append]
    nth_rewrite 2 [hnext]
    rw [range'_append_1]
    congr 2
    omega
  rw [happend, ← hmatch]
  rfl

variable [DecidableEq H]

/-- The answer is the one without a cache, and the cache that is left is about the chain of
the request, unless it was not touched. -/
abbrev Answered (first : ℕ) (v : View H) (count : ℕ → ℕ) (r : Request) (d : Cache H)
    (x : Except DbError (Option OutputDistribution) × Cache H) : Prop :=
  x.1 = direct v r ∧ (x.2 = d ∨ x.2.Holds first v count)

section Step

variable (hv : v.Reads first count) (hr : r.fromHeight ≤ r.toHeight)
  (hlt : r.toHeight < v.blockchainHeight) (hd : d.cached = true → d.Holds first v₀ count₀)
  (hagree : Agree v v₀ count count₀)

include hv hr hlt hd hagree

lemma getOutputDistribution_started (hzero : r.amount = 0) (hfirst : first ≤ r.toHeight)
    (hten : r.fromHeight + 10 ≤ r.toHeight → first + 9 ≤ r.toHeight) :
    Answered first v count r d (getOutputDistribution null v r d) := by
  have hdirect : direct v r = .ok (some (processDistribution r.cumulative
      (rctAnswer first count r.fromHeight r.toHeight))) := by
    rw [direct, hzero, hv.answers _ _ hr hlt hfirst]
    simp [Except.map, cut_rctAnswer hr hfirst]
  have hfinish : ∀ (d' : Cache H) answer,
      answer = .ok (some (rctAnswer first count r.fromHeight r.toHeight)) →
        Answered first v count r d (finish null d' v r answer) := by
    intro d' answer hanswer
    rw [hanswer, finish, cut_rctAnswer hr hfirst, Answered, hdirect, Cache.store, if_pos hzero]
    exact ⟨rfl, .inr ⟨hr, hlt, hfirst, hten, rfl, fun h ↦ if_pos h, rfl⟩⟩
  -- the cached answer is the one of this chain as far as its hash is on the chain
  have hcached : ∀ h ≤ d.cachedTo, d.cached = true → h < v.blockchainHeight →
      v.getHash h = v₀.getHash h → ∀ fromHeight ≤ h + 1, first ≤ h + 1 →
        rctAnswer first count₀ fromHeight h = rctAnswer first count fromHeight h := by
    intro h hle hc hheight hhash fromHeight hfrom hfirst
    exact rctAnswer_congr hfrom hfirst
      fun k hk ↦ (hagree h hheight (hle.trans_lt (hd hc).lt) hhash k hk).symm
  unfold getOutputDistribution
  simp only
  split_ifs with hhit hextend hback hshort
  · obtain ⟨⟨hc, -, hfrom⟩, hto, htop⟩ := hhit
    have hholds := hd hc
    rw [topHash, if_pos (hto ▸ hlt), hholds.topHash] at htop
    rw [hholds.answer, hcached _ le_rfl hc (hto ▸ hlt) htop.symm _ (by omega) (by omega), hfrom,
      hto]
    exact ⟨hdirect.symm, .inl rfl⟩
  · obtain ⟨⟨hc, -, hfrom⟩, hto, htop⟩ := hextend
    have hholds := hd hc
    rw [topHash, if_pos (hto.trans hlt), hholds.topHash] at htop
    have hle := hholds.le
    have hfirst' := hholds.first_le
    apply hfinish
    apply extend_eq hv hlt hzero hfrom hto (by omega) (by omega)
    rw [hholds.answer]
    exact hcached _ le_rfl hc (hto.trans hlt) htop _ (by omega) (by omega)
  · -- ten blocks further back there are at least ten entries
    obtain ⟨⟨hc, -, -⟩, hlong, -, -⟩ := hback
    have hholds := hd hc
    have hdistribution := congrArg (fun a ↦ a.distribution.length) hholds.answer
    simp only [rctAnswer, length_map, length_range'] at hdistribution
    have hten' := hholds.ten hlong
    omega
  · obtain ⟨⟨hc, -, hfrom⟩, hlong, hto, hhash⟩ := hback
    have hholds := hd hc
    have hten' := hholds.ten hlong
    rw [hholds.m10Hash (by omega)] at hhash
    have hstart : max d.cachedFrom first + 9 ≤ d.cachedTo := by omega
    have hback : rctAnswer first count₀ d.cachedFrom (d.cachedTo - 10) =
        rctAnswer first count d.cachedFrom (d.cachedTo - 10) :=
      hcached _ (Nat.sub_le _ _) hc (hto.trans hlt) hhash _ (by omega) (by omega)
    apply hfinish
    refine extend_eq (d := (d.stepBack null (v.getHash (d.cachedTo - 10))).dropTen) hv hlt hzero
      hfrom hto ?_ ?_ ?_
    · change d.cachedFrom ≤ d.cachedTo - 10 + 1
      omega
    · change first ≤ d.cachedTo - 10 + 1
      omega
    · change (⟨d.cachedStartHeight, d.cachedDistribution.take (d.cachedDistribution.length - 10),
        d.cachedBase⟩ : OutputDistribution) = rctAnswer first count d.cachedFrom (d.cachedTo - 10)
      obtain ⟨hstartHeight, hdistribution, hbase⟩ := OutputDistribution.mk.injEq .. ▸ hholds.answer
      have htake : d.cachedDistribution.take (d.cachedDistribution.length - 10) =
          (rctAnswer first count₀ d.cachedFrom (d.cachedTo - 10)).distribution := by
        have hsplit : d.cachedTo + 1 - max d.cachedFrom first =
            (d.cachedTo - 10 + 1 - max d.cachedFrom first) + 10 := by omega
        simp only [hdistribution, rctAnswer, length_map, length_range']
        rw [← map_take, hsplit, Nat.add_sub_cancel, ← range'_append_1, take_left' length_range']
      rw [← hback, hstartHeight, hbase, htake]
      rfl
  · apply hfinish
    rw [hzero, hv.answers _ _ hr hlt hfirst]

lemma getOutputDistribution_step (hsafe : r.Safe first v.blockchainHeight) :
    Answered first v count r d (getOutputDistribution null v r d) := by
  by_cases hstarted : r.amount = 0 ∧ first ≤ r.toHeight
  · have hten : r.fromHeight + 10 ≤ r.toHeight → first + 9 ≤ r.toHeight := by
      rcases hsafe with h | h | h | h
      · exact absurd hstarted.1 h
      · exact absurd (hstarted.2.trans_lt hlt) (Nat.not_lt.mpr h)
      · exact absurd hstarted.2 (by omega)
      · exact h.2
    exact getOutputDistribution_started hv hr hlt hd hagree hstarted.1 hstarted.2 hten
  · -- the cache is about a later range, if about this amount at all
    have hnone : ∀ a, r.amount = 0 → v.f r.amount r.fromHeight r.toHeight ≠ .ok (some a) := by
      intro a hzero
      rw [hzero]
      apply hv.early _ _ hr hlt
      rcases hsafe with h | h | h | h
      · exact absurd hzero h
      · exact .inl h
      · exact .inr h
      · exact absurd ⟨hzero, h.1⟩ hstarted
    have hstale : d.Matches r → first ≤ d.cachedTo ∧ r.toHeight < first ∧
        (d.cachedFrom + 10 ≤ d.cachedTo → first + 9 ≤ d.cachedTo) := by
      rintro ⟨hc, hzero, -⟩
      have hholds := hd hc
      exact ⟨hholds.first_le, Nat.lt_of_not_le fun h ↦ hstarted ⟨hzero, h⟩, hholds.ten⟩
    unfold getOutputDistribution
    simp only
    rw [if_neg, if_neg, if_neg]
    · refine ⟨finish_fst null d v r _, .inl ?_⟩
      rcases hf : v.f r.amount r.fromHeight r.toHeight with e | (_ | a)
      · rfl
      · rfl
      · exact if_neg fun hzero ↦ hnone a hzero hf
    · rintro ⟨hmatches, hlong, hto, -⟩
      have := hstale hmatches
      omega
    · rintro ⟨hmatches, hto, -⟩
      have := hstale hmatches
      omega
    · rintro ⟨hmatches, hto, -⟩
      have := hstale hmatches
      omega

end Step

lemma serve_eq_direct {ι : Type} (view : ι → View H) (counts : ι → ℕ → ℕ)
    {all requests : List (ι × Request)} (hreads : ∀ p ∈ all, (view p.1).Reads first (counts p.1))
    (hdomain : ∀ p ∈ all,
      p.2.fromHeight ≤ p.2.toHeight ∧ p.2.toHeight < (view p.1).blockchainHeight)
    (hsafe : ∀ p ∈ all, p.2.Safe first (view p.1).blockchainHeight)
    (hagree : ∀ p ∈ all, ∀ q ∈ all, Agree (view p.1) (view q.1) (counts p.1) (counts q.1))
    (hsub : ∀ p ∈ requests, p ∈ all)
    (hd : d.cached = true → ∃ p ∈ all, d.Holds first (view p.1) (counts p.1)) :
    serve null (requests.map fun p ↦ (view p.1, p.2)) d =
      requests.map fun p ↦ direct (view p.1) p.2 := by
  induction requests generalizing d with
  | nil => rfl
  | cons p requests ih =>
    have hp := hsub p mem_cons_self
    obtain ⟨q, hq, hholds⟩ :
        ∃ q ∈ all, d.cached = true → d.Holds first (view q.1) (counts q.1) := by
      by_cases hc : d.cached = true
      · obtain ⟨q, hq, hholds⟩ := hd hc
        exact ⟨q, hq, fun _ ↦ hholds⟩
      · exact ⟨p, hp, fun h ↦ absurd h hc⟩
    have hstep : Answered first _ _ _ d (getOutputDistribution null (view p.1) p.2 d) :=
      getOutputDistribution_step (hreads p hp) (hdomain p hp).1 (hdomain p hp).2 hholds
        (hagree p hp q hq) (hsafe p hp)
    rw [map_cons, serve, map_cons, hstep.1,
      ih (fun q hq ↦ hsub q (mem_cons_of_mem _ hq))]
    intro hc
    rcases hstep.2 with heq | hholds
    · rw [heq] at hc ⊢
      exact hd hc
    · exact ⟨p, hp, hholds⟩

end Valid

/-! ## The cache over the database -/

section Database

variable {H K PK C : Type} [LinearOrder H] [LinearOrder K]

/-- The functions that the server passes, for a chain in the database. -/
def dbView (null : H) (fakechain : Bool) (hf : HardFork) (db : Db H K PK C) : View H where
  f := Database.getOutputDistribution fakechain hf db
  getHash h := ((db.blockInfo.get? h).map BlockInfo.hash).getD null
  blockchainHeight := db.height

def rctStart (fakechain : Bool) (hf : HardFork) : ℕ :=
  if fakechain then 0 else hf.getEarliestIdealHeightForVersion 4

def cumRctAt (db : Db H K PK C) (h : ℕ) : ℕ := ((db.blockInfo.get? h).map BlockInfo.cumRct).getD 0

/-- Chains are equal up to a height at which they have the same block hash. -/
def SameUpTo (db db' : Db H K PK C) : Prop := ∀ h < db.height, h < db'.height →
    (db.blockInfo.get? h).map BlockInfo.hash = (db'.blockInfo.get? h).map BlockInfo.hash →
      ∀ k ≤ h, db.blockInfo.get? k = db'.blockInfo.get? k

variable {null : H} {fakechain : Bool} {hf : HardFork}

lemma distributionStart_zero (fromHeight : ℕ) :
    Database.distributionStart fakechain hf 0 fromHeight =
      max fromHeight (rctStart fakechain hf) := by
  unfold Database.distributionStart rctStart
  cases fakechain with
  | true =>
    simp only [not_true_eq_false, and_false, if_false, if_true, Nat.max_zero]
    split_ifs with h
    · rfl
    · exact (Nat.eq_zero_of_not_pos h).symm
  | false =>
    simp only [Bool.false_eq_true, not_false_eq_true, and_self, if_true, if_false]
    split_ifs with h
    · exact (max_eq_left h.le).symm
    · exact (max_eq_right (Nat.not_lt.mp h)).symm

lemma dbView_reads {db : Db H K PK C} (hrows : ∀ h < db.height, (db.blockInfo.get? h).isSome) :
    (dbView null fakechain hf db).Reads (rctStart fakechain hf) (cumRctAt db) := by
  constructor
  · intro fromHeight toHeight hle hlt hfirst
    apply Database.getOutputDistribution_zero_eq _ hle hlt (distributionStart_zero _).symm
      (max_le hle hfirst)
    intro h hh
    obtain ⟨info, hinfo⟩ := Option.isSome_iff_exists.mp (hrows h hh)
    simp [cumRctAt, hinfo]
  · intro fromHeight toHeight hle hlt hearly a
    change Database.getOutputDistribution fakechain hf db 0 fromHeight toHeight ≠ _
    change toHeight < db.height at hlt
    change db.height ≤ _ ∨ _ at hearly
    simp only [Database.getOutputDistribution, distributionStart_zero]
    have hstart : rctStart fakechain hf ≤ max fromHeight (rctStart fakechain hf) :=
      le_max_right _ _
    rcases hearly with hheight | hbelow
    · rw [if_neg (by omega), if_neg (by omega), if_pos (.inl (hheight.trans hstart))]
      simp
    · rw [if_neg (by omega), if_neg (by omega)]
      split
      · simp
      · rw [if_pos trivial, if_pos (hbelow.trans_le hstart)]
        simp

/-- The answers to a sequence of requests are those without a cache: what `f`
says of the chain at the time, cut to the range and differenced. -/
theorem distribution_cache_transparent {requests : List (Db H K PK C × Request)}
    (hrows : ∀ p ∈ requests, ∀ h < p.1.height, (p.1.blockInfo.get? h).isSome)
    (hsame : ∀ p ∈ requests, ∀ q ∈ requests, SameUpTo p.1 q.1)
    (hdomain : ∀ p ∈ requests, p.2.fromHeight ≤ p.2.toHeight ∧ p.2.toHeight < p.1.height)
    (hsafe : ∀ p ∈ requests, p.2.Safe (rctStart fakechain hf) p.1.height) :
    serve null (requests.map fun p ↦ (dbView null fakechain hf p.1, p.2)) (.empty null) =
        requests.map (fun p ↦
          (getOutputDistribution null (dbView null fakechain hf p.1) p.2 (.empty null)).1) ∧
      ∀ p ∈ requests,
        (getOutputDistribution null (dbView null fakechain hf p.1) p.2 (.empty null)).1 =
          direct (dbView null fakechain hf p.1) p.2 := by
  refine ⟨?_, fun p _ ↦ getOutputDistribution_empty null _ _⟩
  simp only [getOutputDistribution_empty]
  apply serve_eq_direct (dbView null fakechain hf) cumRctAt (fun p hp ↦ dbView_reads (hrows p hp))
    hdomain hsafe
    _ (fun p hp ↦ hp) (fun h ↦ absurd h Bool.false_ne_true)
  intro p hp q hq height hlt hlt' hhash k hk
  obtain ⟨info, hinfo⟩ := Option.isSome_iff_exists.mp (hrows p hp height hlt)
  obtain ⟨info', hinfo'⟩ := Option.isSome_iff_exists.mp (hrows q hq height hlt')
  have heq : info.hash = info'.hash := by simpa [dbView, hinfo, hinfo'] using hhash
  rw [cumRctAt, cumRctAt, hsame p hp q hq height hlt hlt' (by simp [hinfo, hinfo', heq]) k hk]

end Database

/-! ## Chains of hashes and counters -/

abbrev ChainDb := Db ℕ ℕ ℕ ℕ

/-- Rows with the positions in the list as keys. -/
def tableOf {V : Type} (values : List V) : Table ℕ V :=
  values.zipIdx.foldl (fun t p ↦ (t.append? p.2 p.1).getD t) .empty

def chainDb (blocks : List (ℕ × ℕ)) : ChainDb := { (.empty : ChainDb) with
    blocks := tableOf (blocks.map fun _ ↦ [])
    blockInfo := tableOf (blocks.map fun p ↦ ⟨0, 0, 0, 0, 0, 0, p.1, p.2, 0⟩) }

def startAtFive : HardFork := ⟨0, 1, [⟨1, 0, 0, 0⟩, ⟨4, 5, 0, 0⟩], [], fun _ ↦ 0, 0⟩

def longChain : ChainDb :=
  chainDb [(1, 0), (2, 0), (3, 0), (4, 0), (5, 0), (6, 1), (7, 2), (8, 3), (9, 4), (10, 5),
    (11, 6), (12, 7), (13, 8), (14, 9), (15, 10)]

def forkedChain : ChainDb :=
  chainDb [(1, 0), (2, 0), (3, 0), (4, 0), (5, 0), (6, 1), (7, 2), (8, 3), (9, 4), (10, 5),
    (11, 6), (112, 8), (113, 10), (114, 12), (115, 14), (116, 16)]

instance {K PK C : Type} [LinearOrder K] (db db' : Db ℕ K PK C) : Decidable (SameUpTo db db') :=
  inferInstanceAs (Decidable (∀ h < _, _ → _ → ∀ k ≤ h, _))

def reorganizedRequests : List (ChainDb × Request) :=
  [(longChain, ⟨0, 0, 14, true⟩), (forkedChain, ⟨0, 0, 15, false⟩)]

theorem distribution_cache_transparent_reorganized :
    serve 0 (reorganizedRequests.map fun p ↦ (dbView 0 false startAtFive p.1, p.2)) (.empty 0) =
      reorganizedRequests.map fun p ↦
        (getOutputDistribution 0 (dbView 0 false startAtFive p.1) p.2 (.empty 0)).1 := by
  refine (distribution_cache_transparent ?_ ?_ ?_ ?_).1
  · decide +kernel
  · decide +kernel
  · decide +kernel
  · intro p hp
    rcases mem_pair.mp hp with rfl | rfl
    · exact .inr (.inr (.inr (by decide +kernel)))
    · exact .inr (.inr (.inr (by decide +kernel)))

/-! ## Requests around the start of RingCT -/

def replacedChain : ChainDb :=
  chainDb [(1, 0), (2, 0), (3, 0), (104, 0), (105, 0), (106, 2), (107, 4), (108, 6), (109, 8),
    (110, 10), (111, 12), (112, 14), (113, 16)]

/-- With fewer than ten entries in the cache, a reorganisation loses the answer
of one request, and what it leaves in the cache is returned to the next one: the
entries of the chain that is gone. -/
theorem short_cache_diverges :
    SameUpTo longChain replacedChain ∧ SameUpTo replacedChain longChain ∧
    (serve 0 [(dbView 0 false startAtFive longChain, ⟨0, 0, 12, true⟩),
        (dbView 0 false startAtFive replacedChain, ⟨0, 0, 12, true⟩),
        (dbView 0 false startAtFive replacedChain, ⟨0, 0, 12, true⟩)] (.empty 0)).map
          (fun a ↦ a.toOption.map (Option.map OutputDistribution.distribution)) =
      [some (some [1, 2, 3, 4, 5, 6, 7, 8]), some none,
        some (some [1, 2, 3, 4, 5, 6, 7, 8])] ∧
    (direct (dbView 0 false startAtFive replacedChain) ⟨0, 0, 12, true⟩).toOption.map
        (Option.map OutputDistribution.distribution) =
      some (some [2, 4, 6, 8, 10, 12, 14, 16]) := by
  decide +kernel

end Monero.Rpc
