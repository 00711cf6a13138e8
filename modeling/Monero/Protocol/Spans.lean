import Monero.Database.Stripes
import Monero.Protocol.BlockQueue

/-!
# Gaps and reservations

The first height that no span covers, `get_next_needed_height`, and what
`reserve_span` leaves in the queue.  A reservation is lost if another span has the
same start height.
-/

namespace Monero.Protocol

open Lib Database List Function

namespace BlockQueue

variable {H B U : Type*}

/-! ## The first gap -/

/-- The loop over the spans, with 64-bit heights. -/
def coveredUntil (blockchainHeight : ℕ) : List (ℕ × Span H B U) → ℕ → ℕ
  | [], covered => covered
  | (start, s) :: spans, covered =>
    let spanEnd := (start + s.nblocks + (2 ^ 64 - 1)) % 2 ^ 64
    if spanEnd < blockchainHeight then coveredUntil blockchainHeight spans covered
    else if covered < start then covered
    else coveredUntil blockchainHeight spans (max covered ((start + s.nblocks) % 2 ^ 64))

variable (q : BlockQueue H B U)

def getNextNeededHeight (blockchainHeight : ℕ) : ℕ :=
  if q.blocks.rows.isEmpty then blockchainHeight
  else coveredUntil blockchainHeight q.blocks.rows blockchainHeight

def Covers (p : ℕ × Span H B U) (height : ℕ) : Prop := p.1 ≤ height ∧ height < p.1 + p.2.nblocks

variable {start n stripe logStripes covered : ℕ} {q : BlockQueue H B U} {r : Reservation H}

lemma coveredUntil_cons {s : Span H B U} (spans : List (ℕ × Span H B U)) (hpos : 0 < s.nblocks)
    (hfits : start + s.nblocks < 2 ^ 64) :
    coveredUntil n ((start, s) :: spans) covered =
      if start + s.nblocks ≤ n then coveredUntil n spans covered
      else if covered < start then covered
      else coveredUntil n spans (max covered (start + s.nblocks)) := by
  have hend : (start + s.nblocks + (2 ^ 64 - 1)) % 2 ^ 64 = start + s.nblocks - 1 := by omega
  simp only [coveredUntil, hend, Nat.mod_eq_of_lt hfits]
  exact if_congr (by omega) rfl rfl

/-- From where the cover ends so far the loop goes on to the first height that the spans do not
cover. -/
theorem coveredUntil_spec {spans : List (ℕ × Span H B U)}
    (hsorted : spans.Pairwise fun p p' ↦ p.1 < p'.1) (hpos : ∀ p ∈ spans, 0 < p.2.nblocks)
    (hfits : ∀ p ∈ spans, p.1 + p.2.nblocks < 2 ^ 64) (hn : n ≤ covered) :
    covered ≤ coveredUntil n spans covered ∧
      (∀ x, covered ≤ x → x < coveredUntil n spans covered → ∃ p ∈ spans, Covers p x) ∧
      ∀ p ∈ spans, ¬Covers p (coveredUntil n spans covered) := by
  induction spans generalizing covered with
  | nil =>
    exact ⟨le_rfl, fun x hle hlt ↦ absurd hlt (not_lt.mpr hle), fun p hp ↦ by cases hp⟩
  | cons p spans ih =>
    obtain ⟨start, s⟩ := p
    obtain ⟨hfirst, hsorted⟩ := pairwise_cons.mp hsorted
    have ih := fun {c : ℕ} (hc : n ≤ c) ↦ ih hsorted (fun p hp ↦ hpos p (mem_cons_of_mem _ hp))
      (fun p hp ↦ hfits p (mem_cons_of_mem _ hp)) hc
    have hposs : 0 < s.nblocks := hpos _ mem_cons_self
    rw [coveredUntil_cons spans hposs (hfits _ mem_cons_self)]
    split_ifs with hbelow hgap
    · -- a span below the chain covers nothing from there on
      obtain ⟨hle, hcovered, hfree⟩ := ih hn
      refine ⟨hle, fun x hx hlt ↦ ?_, fun p hp ↦ ?_⟩
      · obtain ⟨p, hp, hc⟩ := hcovered x hx hlt
        exact ⟨p, mem_cons_of_mem _ hp, hc⟩
      · rcases mem_cons.mp hp with rfl | hp
        · rintro ⟨-, hlt⟩
          dsimp only at hlt
          omega
        · exact hfree p hp
    · -- all further spans start later still
      refine ⟨le_rfl, fun x hle hlt ↦ absurd hlt (not_lt.mpr hle), fun p hp hc ↦ ?_⟩
      rcases mem_cons.mp hp with rfl | hp
      · exact absurd hc.1 (not_le.mpr hgap)
      · exact absurd hc.1 (not_le.mpr (hgap.trans (hfirst p hp)))
    · obtain ⟨hle, hcovered, hfree⟩ := ih (hn.trans (le_max_left covered (start + s.nblocks)))
      refine ⟨(le_max_left _ _).trans hle, fun x hx hlt ↦ ?_, fun p hp ↦ ?_⟩
      · rcases Nat.lt_or_ge x (max covered (start + s.nblocks)) with hin | hout
        · refine ⟨(start, s), mem_cons_self, (not_lt.mp hgap).trans hx, ?_⟩
          rcases lt_max_iff.mp hin with h | h
          · exact absurd h (not_lt.mpr hx)
          · exact h
        · obtain ⟨p, hp, hc⟩ := hcovered x hout hlt
          exact ⟨p, mem_cons_of_mem _ hp, hc⟩
      · rcases mem_cons.mp hp with rfl | hp
        · rintro ⟨-, hlt⟩
          exact absurd ((le_max_right covered (start + s.nblocks)).trans hle) (not_le.mpr hlt)
        · exact hfree p hp

/-- The next height to ask for is the first one from the height of the chain on that no span
covers. -/
theorem isLeast_getNextNeededHeight (hpos : ∀ p ∈ q.blocks.rows, 0 < p.2.nblocks)
    (hfits : ∀ p ∈ q.blocks.rows, p.1 + p.2.nblocks < 2 ^ 64) (n : ℕ) :
    IsLeast {x | n ≤ x ∧ ∀ p ∈ q.blocks.rows, ¬Covers p x} (q.getNextNeededHeight n) := by
  have heq : q.getNextNeededHeight n = coveredUntil n q.blocks.rows n := by
    rw [getNextNeededHeight]
    split_ifs with hempty
    · rw [isEmpty_iff.mp hempty, coveredUntil]
    · rfl
  obtain ⟨hle, hcovered, hfree⟩ := coveredUntil_spec q.blocks.sorted hpos hfits (le_refl n)
  rw [heq]
  refine ⟨⟨hle, hfree⟩, fun x hx ↦ ?_⟩
  by_contra hlt
  obtain ⟨p, hp, hc⟩ := hcovered x hx.1 (not_le.mp hlt)
  exact hx.2 p hp hc

/-- Spans from 3, 4, 5 and 20 on: the second is nested in the first, and the third reaches
further. -/
def nestedSpans : BlockQueue Unit Unit ℕ where
  blocks := ⟨[(3, ⟨[], [], 1, 6⟩), (4, ⟨[], [], 2, 1⟩), (5, ⟨[], [], 3, 10⟩),
    (20, ⟨[], [], 4, 2⟩)], by decide⟩
  requestedHashes := ∅
  haveBlocks := fun _ ↦ none

theorem isLeast_getNextNeededHeight_nested :
    IsLeast {x | 4 ≤ x ∧ ∀ p ∈ nestedSpans.blocks.rows, ¬Covers p x}
      (nestedSpans.getNextNeededHeight 4) :=
  isLeast_getNextNeededHeight (by decide) (by decide) 4

example : nestedSpans.getNextNeededHeight 4 = 15 := by decide

/-! ## The span that is chosen -/

variable [DecidableEq H]

lemma skipRequested_eq (l : List (H × ℕ)) (height : ℕ) :
    ∃ k ≤ l.length, q.skipRequested l height = (l.drop k, height + k) ∧
      (∀ i < k, ∀ p, l[i]? = some p → q.requested p.1 = true) ∧
      ∀ p, l[k]? = some p → ¬q.requested p.1 = true := by
  induction l generalizing height with
  | nil => exact ⟨0, le_rfl, rfl, fun i hi ↦ absurd hi (Nat.not_lt_zero i), fun p hp ↦ by cases hp⟩
  | cons p l ih =>
    by_cases hp : q.requested p.1 = true
    · obtain ⟨k, hk, heq, hall, hend⟩ := ih (height + 1)
      refine ⟨k + 1, Nat.succ_le_succ hk, ?_, fun i hi x hx ↦ ?_, hend⟩
      · rw [skipRequested, if_pos hp, heq, drop_succ_cons, Nat.add_right_comm, Nat.add_assoc]
      · cases i with
        | zero =>
          cases hx
          exact hp
        | succ i => exact hall i (Nat.lt_of_succ_lt_succ hi) x hx
    · refine ⟨0, Nat.zero_le _, ?_, fun i hi ↦ absurd hi (Nat.not_lt_zero i), fun x hx ↦ ?_⟩
      · rw [skipRequested, if_neg hp]
        rfl
      · cases hx
        exact hp

end BlockQueue

/-! ### What there is to ask for -/

namespace Reservation

variable {H : Type*} (r : Reservation H)

def firstHeight : ℕ := r.lastBlockHeight - r.blockHashes.length + 1

/-- The peer has the block at a height, in full unless pruned blocks do. -/
def Has (height : ℕ) : Prop :=
  r.syncPrunedBlocks = true ∨ hasUnprunedBlock height r.blockchainHeight r.pruningSeed = true

/-- A span that starts at a height can go on at another one: the peer has its block, and with
pruned blocks, full data are needed for both or for neither. -/
def GoesOn (start height : ℕ) : Prop :=
  r.Has height ∧ (r.syncPrunedBlocks = true →
    hasUnprunedBlock height r.blockchainHeight r.localPruningSeed =
      hasUnprunedBlock start r.blockchainHeight r.localPruningSeed)

instance decidableHas : DecidablePred r.Has := fun _ ↦ instDecidableOr

instance decidableGoesOn (start : ℕ) : DecidablePred (r.GoesOn start) := fun _ ↦ instDecidableAnd

/-- The hashes of the list from a height on, as long as the span goes on. -/
def hashesFrom (start : ℕ) : List H :=
  ((((r.blockHashes.drop (start - r.firstHeight)).take r.maxBlocks).zipIdx start).takeWhile
    fun p ↦ r.GoesOn start p.2).map fun p ↦ p.1.1

end Reservation

namespace BlockQueue

variable {H B U : Type*} [DecidableEq H] {start n stripe logStripes : ℕ} {q : BlockQueue H B U}
  {r : Reservation H}

/-- The first height of the list whose block was not asked for and which the peer has. -/
def firstWanted (q : BlockQueue H B U) (r : Reservation H) : ℕ := r.firstHeight +
  (r.blockHashes.zipIdx r.firstHeight).findIdx fun p ↦ ¬q.requested p.1.1 = true ∧ r.Has p.2

omit [DecidableEq H] in
lemma stops_iff {height : ℕ} (hhas : r.Has height) : (r.syncPrunedBlocks = true ∧
    decide (r.syncPrunedBlocks = true ∧
        ¬hasUnprunedBlock start r.blockchainHeight r.localPruningSeed = true) =
      hasUnprunedBlock height r.blockchainHeight r.localPruningSeed) ↔ ¬r.GoesOn start height := by
  rw [Reservation.GoesOn, and_iff_right hhas]
  generalize hasUnprunedBlock start r.blockchainHeight r.localPruningSeed = first
  generalize hasUnprunedBlock height r.blockchainHeight r.localPruningSeed = here
  cases r.syncPrunedBlocks <;> cases first <;> cases here <;> decide

omit [DecidableEq H] in
lemma collectHashes_eq (l : List (H × ℕ)) (height spanLength : ℕ) :
    collectHashes r (r.syncPrunedBlocks ∧
        ¬hasUnprunedBlock start r.blockchainHeight r.localPruningSeed) l height spanLength =
      (((l.take (r.maxBlocks - spanLength)).zipIdx height).takeWhile
        fun p ↦ r.GoesOn start p.2).map fun p ↦ p.1.1 := by
  induction l generalizing height spanLength with
  | nil => simp [collectHashes]
  | cons p l ih =>
    rw [collectHashes]
    rcases Nat.lt_or_ge spanLength r.maxBlocks with hlt | hge
    · have hroom : r.maxBlocks - spanLength = r.maxBlocks - (spanLength + 1) + 1 := by omega
      rw [hroom, take_succ_cons, zipIdx_cons, takeWhile_cons, ih]
      by_cases hhas : r.Has height
      · rw [if_pos ⟨hlt, hhas⟩]
        by_cases hgo : r.GoesOn start height
        · rw [if_neg ((stops_iff hhas).not_left.mpr hgo)]
          simp [hgo]
        · rw [if_pos ((stops_iff hhas).mpr hgo)]
          simp [hgo]
      · rw [if_neg fun h ↦ hhas h.2]
        simp [Reservation.GoesOn, hhas]
    · rw [if_neg fun h ↦ absurd h.1 (not_lt.mpr hge), Nat.sub_eq_zero_of_le hge]
      rfl

structure Chosen (q : BlockQueue H B U) (r : Reservation H) (start : ℕ) (hashes : List H) :
    Prop where
  after : r.firstHeight ≤ start
  hashes_eq : hashes = r.hashesFrom start
  skipped : ∀ i < start - r.firstHeight, ∀ p, r.blockHashes[i]? = some p →
    q.requested p.1 = true ∨ ¬r.Has (r.firstHeight + i)
  unrequested : ∀ p, r.blockHashes[start - r.firstHeight]? = some p → ¬q.requested p.1 = true

lemma pruned_of_lt_next {seed blockchainHeight x : ℕ}
    (hseed : makePruningSeed stripe logStripes = .ok seed) (hx : start ≤ x)
    (hlt : x < getNextUnprunedBlockHeight start blockchainHeight seed % 2 ^ 32) :
    hasUnprunedBlock x blockchainHeight seed = false := by
  have hmod : getNextUnprunedBlockHeight start blockchainHeight seed % 2 ^ 32 ≤
      getNextUnprunedBlockHeight start blockchainHeight seed := Nat.mod_le _ _
  by_cases hstart : start ≤ cryptonoteMaxBlockNumber + 1
  · by_cases hheight : blockchainHeight ≤ cryptonoteMaxBlockNumber + 1
    · rw [Bool.eq_false_iff]
      intro hkept
      have hleast := (isLeast_getNextUnprunedBlockHeight hseed hstart hheight).2 ⟨hx, hkept⟩
      omega
    · rw [getNextUnprunedBlockHeight, if_neg (by omega), if_pos (by omega)] at hlt hmod
      omega
  · rw [getNextUnprunedBlockHeight, if_pos (by omega)] at hlt hmod
    omega

def stripeStart (r : Reservation H) (start : ℕ) : ℕ :=
  if r.syncPrunedBlocks then start
  else if start < getNextUnprunedBlockHeight start r.blockchainHeight r.pruningSeed % 2 ^ 32 ∧
      getNextUnprunedBlockHeight start r.blockchainHeight r.pruningSeed % 2 ^ 32 <
        start + cryptonotePruningStripeSize then
    getNextUnprunedBlockHeight start r.blockchainHeight r.pruningSeed % 2 ^ 32
  else start

section

variable (hseed : makePruningSeed stripe logStripes = .ok r.pruningSeed)

include hseed

omit [DecidableEq H] in
lemma stripeStart_spec (start : ℕ) :
    start ≤ stripeStart r start ∧ ∀ x, start ≤ x → x < stripeStart r start → ¬r.Has x := by
  rw [stripeStart]
  split_ifs with hsync hnext
  · exact ⟨le_rfl, fun x hx hlt ↦ absurd hlt (not_lt.mpr hx)⟩
  · refine ⟨hnext.1.le, fun x hx hlt ↦ not_or.mpr ⟨hsync, ?_⟩⟩
    exact Bool.eq_false_iff.mp (pruned_of_lt_next hseed hx hlt)
  · exact ⟨le_rfl, fun x hx hlt ↦ absurd hlt (not_lt.mpr hx)⟩

lemma chooseSpan_eq_some {hashes : List H} (h : q.chooseSpan r = some (start, hashes)) :
    q.Chosen r start hashes := by
  unfold chooseSpan at h
  obtain ⟨-, h⟩ := Option.ite_none_left_eq_some.mp h
  obtain ⟨-, h⟩ := Option.ite_none_left_eq_some.mp h
  obtain ⟨k, hk, hskip, hrequested, -⟩ := q.skipRequested_eq r.blockHashes r.firstHeight
  rw [← Reservation.firstHeight] at h
  simp only [hskip] at h
  rw [← stripeStart] at h
  obtain ⟨hle, hpruned⟩ := stripeStart_spec hseed (r.firstHeight + k)
  generalize stripeStart r (r.firstHeight + k) = second at h hle hpruned
  obtain ⟨hroom, h⟩ := Option.ite_none_left_eq_some.mp h
  obtain ⟨j, hj, hskip', hrequested', hend⟩ :=
    q.skipRequested_eq (r.blockHashes.drop (second - r.firstHeight)) second
  rw [hskip'] at h
  obtain ⟨hstart, hhashes⟩ := Prod.mk.inj (Option.some.inj h)
  dsimp only at hstart hhashes
  subst hstart
  have hoffset : second + j - r.firstHeight = second - r.firstHeight + j := by omega
  refine ⟨by omega, ?_, fun i hi p hp ↦ ?_, fun p hp ↦ hend p ?_⟩
  · rw [Reservation.hashesFrom, hoffset, ← drop_drop, ← hhashes]
    exact collectHashes_eq _ _ _
  · rw [hoffset] at hi
    -- asked for before the step, pruned, or asked for after it
    rcases Nat.lt_or_ge i k with hik | hik
    · exact .inl (hrequested i hik p hp)
    rcases Nat.lt_or_ge (r.firstHeight + i) second with hsecond | hsecond
    · exact .inr (hpruned _ (by omega) hsecond)
    · refine .inl (hrequested' (i - (second - r.firstHeight)) (by omega) p ?_)
      rw [getElem?_drop, Nat.add_sub_cancel' (by omega), hp]
  · rw [getElem?_drop, ← hoffset, hp]

end

lemma Chosen.take_eq {hashes : List H} (h : q.Chosen r start hashes) : hashes =
    ((r.blockHashes.drop (start - r.firstHeight)).take hashes.length).map Prod.fst := by
  have hlisted : hashes <+: (r.blockHashes.drop (start - r.firstHeight)).map Prod.fst := by
    rw [h.hashes_eq, Reservation.hashesFrom]
    refine (IsPrefix.map _ <| takeWhile_prefix _).trans ?_
    rw [← comp_def Prod.fst, ← map_map, zipIdx_map_fst]
    exact IsPrefix.map _ <| take_prefix _ _
  rw [map_take]
  exact prefix_iff_eq_take.mp hlisted

/-- A span that is not empty starts at the first block to ask for. -/
lemma Chosen.start_eq {hashes : List H} (h : q.Chosen r start hashes) (hne : hashes ≠ []) :
    start = q.firstWanted r := by
  rw [h.hashes_eq, Reservation.hashesFrom] at hne
  obtain ⟨i, hi⟩ : ∃ i, start = r.firstHeight + i := ⟨_, (Nat.add_sub_cancel' h.after).symm⟩
  obtain ⟨hafter, -, hskipped, hunrequested⟩ := h
  rw [hi, Nat.add_sub_cancel_left] at hskipped hunrequested hne
  have hlt : i < r.blockHashes.length := by
    by_contra hge
    rw [drop_eq_nil_of_le (not_lt.mp hge)] at hne
    simp at hne
  rw [hi, firstWanted, Nat.add_left_cancel_iff, eq_comm, findIdx_eq (by simpa using hlt)]
  simp only [getElem_zipIdx, decide_eq_true_eq, decide_eq_false_iff_not, not_and]
  refine ⟨⟨hunrequested _ (List.getElem?_eq_getElem hlt), ?_⟩, fun j hj hnot ↦ ?_⟩
  · by_contra hhas
    rw [drop_eq_getElem_cons hlt] at hne
    cases hmax : r.maxBlocks with
    | zero => simp [hmax] at hne
    | succ m => simp [hmax, Reservation.GoesOn, hhas] at hne
  · exact (hskipped j hj _ (List.getElem?_eq_getElem (hj.trans hlt))).resolve_left hnot

/-! ## A reservation is recorded -/

variable [DecidableEq U]

lemma reserveSpan_eq {connectionId : U}
    (h : (q.reserveSpan connectionId r).1 = (start, n)) (hn : 0 < n) :
    ∃ hashes, q.chooseSpan r = some (start, hashes) ∧ hashes.length = n ∧
      (q.reserveSpan connectionId r).2 =
        (q.insertSpan start ⟨[], [], connectionId, n⟩).setSpanHashes start connectionId
          hashes := by
  rw [reserveSpan] at h ⊢
  cases hchoose : q.chooseSpan r with
  | none =>
    rw [hchoose] at h
    cases h
    exact absurd hn (lt_irrefl 0)
  | some p =>
    rw [hchoose] at h
    obtain ⟨k, hashes⟩ := p
    dsimp only at h ⊢
    by_cases hlen : hashes.length = 0
    · rw [dif_pos hlen] at h
      cases h
      exact absurd hn (lt_irrefl 0)
    · rw [dif_neg hlen] at h ⊢
      cases h
      exact ⟨hashes, rfl, rfl, rfl⟩

/-- The queue has a span of the connection with the hashes of the list from its start on, every
block of the list before it was asked for or is pruned, and all other spans are as they were. -/
structure Recorded (q q' : BlockQueue H B U) (connectionId : U) (r : Reservation H) (start n : ℕ) :
    Prop where
  span : ∃ s, q'.blocks.get? start = some s ∧ s.connectionId = connectionId ∧ s.nblocks = n ∧
    s.hashes.length = n ∧
      s.hashes = ((r.blockHashes.drop (start - r.firstHeight)).take n).map Prod.fst
  after : r.firstHeight ≤ start
  skipped : ∀ i < start - r.firstHeight, ∀ p, r.blockHashes[i]? = some p →
    q.requested p.1 = true ∨
      hasUnprunedBlock (r.firstHeight + i) r.blockchainHeight r.pruningSeed = false
  others : ∀ k ≠ start, q'.blocks.get? k = q.blocks.get? k

/-- The span at a height after a reservation there, and all others. -/
lemma get?_reserved {connectionId : U} (hashes : List H) (k : ℕ) :
    ((q.insertSpan start ⟨[], [], connectionId, hashes.length⟩).setSpanHashes start connectionId
        hashes).blocks.get? k =
      if k = start then
        match q.blocks.get? start with
        | none => some ⟨hashes, [], connectionId, hashes.length⟩
        | some s => some (if s.connectionId = connectionId then { s with hashes } else s)
      else q.blocks.get? k := by
  cases hget : q.blocks.get? start with
  | none =>
    have hs : (q.insertSpan start ⟨[], [], connectionId, hashes.length⟩).blocks.get? start =
        some ⟨[], [], connectionId, hashes.length⟩ := by
      rw [insertSpan_of_none hget, Table.get?_set, if_pos rfl]
    rw [setSpanHashes_eq hs, Table.get?_set]
    split_ifs with hk
    · rfl
    · rw [insertSpan_of_none hget, Table.get?_set, if_neg hk]
  | some s =>
    rw [insertSpan_of_some hget]
    by_cases hid : s.connectionId = connectionId
    · subst hid
      simp only [setSpanHashes_eq hget, Table.get?_set, if_pos]
    · rw [setSpanHashes, hget]
      simp only [if_neg hid]
      split_ifs with hk
      · rw [hk, hget]
      · rfl

end BlockQueue

end Monero.Protocol
