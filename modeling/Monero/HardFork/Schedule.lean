import Monero.HardFork.Model

/-!
# Fork schedules and the fork index

A schedule built by `add_fork` has strictly increasing versions and heights.
The loops that look a fork up by its version, or walk the index of the fork in
force up and down, are determined by that order.
-/

namespace Monero.HardFork

open Lib List

/-- Hard fork objects made by the constructor and by successful calls of
`add_fork`.  The constructor does not initialise the vote counts. -/
inductive Built (windowSize : ℕ) (originalVersion : UInt8) : HardFork → Prop
  | new (lastVersions : UInt8 → UInt32) :
      Built windowSize originalVersion ⟨windowSize, originalVersion, [], [], lastVersions, 0⟩
  | addFork {hf hf' : HardFork} (f : Fork) (h : Built windowSize originalVersion hf)
      (hadd : hf.addFork f = some hf') : Built windowSize originalVersion hf'

/-- The order `add_fork` keeps between an earlier and a later fork. -/
def Fork.Before (f g : Fork) : Prop :=
  f.version < g.version ∧ f.height < g.height ∧ f.time < g.time

lemma Fork.Before.trans {f g k : Fork} (h₁ : f.Before g) (h₂ : g.Before k) : f.Before k :=
  ⟨UInt8.lt_trans h₁.1 h₂.1, h₁.2.1.trans h₂.2.1, h₁.2.2.trans h₂.2.2⟩

lemma addFork_eq_some_iff {hf hf' : HardFork} {f : Fork} : hf.addFork f = some hf' ↔
      f.version ≠ 0 ∧ (hf.heights ≠ [] → (hf.heights.getLastD default).Before f) ∧
        f.threshold ≤ 100 ∧ { hf with heights := hf.heights ++ [f] } = hf' := by
  unfold addFork
  split_ifs with hzero horder hthreshold
  · simp [hzero]
  · simp only [false_iff]
    rintro ⟨-, hbefore, -⟩
    obtain ⟨hv, hh, ht⟩ := hbefore horder.1
    rcases horder.2 with h | h | h
    · exact UInt8.not_lt.mpr h hv
    · omega
    · omega
  · simp only [false_iff]
    rintro ⟨-, -, h, -⟩
    exact UInt8.not_lt.mpr h hthreshold
  · simp only [Option.some.injEq]
    refine ⟨fun h ↦ ⟨hzero, fun hne ↦ ?_, UInt8.not_lt.mp hthreshold, h⟩, fun h ↦ h.2.2.2⟩
    have hall := not_and.mp horder hne
    rw [not_or, not_or, UInt8.not_le, not_le, not_le] at hall
    exact hall

lemma Built.windowSize_eq {w : ℕ} {v : UInt8} {hf : HardFork} (h : Built w v hf) :
    hf.windowSize = w := by
  induction h with
  | new => rfl
  | addFork _ _ hadd ih =>
    obtain ⟨-, -, -, rfl⟩ := addFork_eq_some_iff.mp hadd
    exact ih

lemma Built.originalVersion_eq {w : ℕ} {v : UInt8} {hf : HardFork} (h : Built w v hf) :
    hf.originalVersion = v := by
  induction h with
  | new => rfl
  | addFork _ _ hadd ih =>
    obtain ⟨-, -, -, rfl⟩ := addFork_eq_some_iff.mp hadd
    exact ih

lemma Built.pairwise {w : ℕ} {v : UInt8} {hf : HardFork} (h : Built w v hf) :
    hf.heights.Pairwise Fork.Before := by
  induction h with
  | new => exact Pairwise.nil
  | @addFork hf hf' f _ hadd ih =>
    obtain ⟨-, hlast, -, rfl⟩ := addFork_eq_some_iff.mp hadd
    refine pairwise_append.mpr ⟨ih, pairwise_singleton _ _, ?_⟩
    intro g hg k hk
    obtain rfl := mem_singleton.mp hk
    have hne : hf.heights ≠ [] := ne_nil_of_mem hg
    have hbefore := hlast hne
    rw [getLastD_eq_getLast?, getLast?_eq_some_getLast hne] at hbefore
    rw [← dropLast_append_getLast hne, pairwise_append] at ih
    rw [← dropLast_append_getLast hne, mem_append, mem_singleton] at hg
    rcases hg with hg | rfl
    · exact (ih.2.2 g hg _ (mem_singleton_self _)).trans hbefore
    · exact hbefore

lemma forkAt_before {hf : HardFork} (hord : hf.heights.Pairwise Fork.Before) {i j : ℕ}
    (hij : i < j) (hj : j < hf.heights.length) : (hf.forkAt i).Before (hf.forkAt j) := by
  have hi : i < hf.heights.length := hij.trans hj
  unfold forkAt
  rw [getD_eq_getElem _ _ hi, getD_eq_getElem _ _ hj]
  exact pairwise_iff_getElem.mp hord i j hi hj hij

/-! ## Walks over the fork index -/

variable (hf : HardFork) (height n : ℕ)

lemma findForkIndex_eq (hord : hf.heights.Pairwise Fork.Before) {j : ℕ}
    (hj : j < hf.heights.length) (fuel n : ℕ) (hn : n ≤ j) (hfuel : j ≤ n + fuel) :
    hf.findForkIndex (hf.forkAt j).version fuel n = j := by
  induction fuel generalizing n with
  | zero =>
    simp only [findForkIndex]
    omega
  | succ fuel ih =>
    rcases hn.lt_or_eq with hlt | rfl
    · have hne : (hf.forkAt n).version ≠ (hf.forkAt j).version :=
        UInt8.ne_of_lt (forkAt_before hord hlt hj).1
      rw [findForkIndex, if_pos ⟨by omega, hne⟩]
      exact ih (n + 1) hlt (by omega)
    · simp [findForkIndex]

lemma lowerForkIndex_eq (hord : hf.heights.Pairwise Fork.Before) {j n : ℕ} (hjn : j ≤ n)
    (hn : n < hf.heights.length) : hf.lowerForkIndex (hf.forkAt j).version n = j := by
  induction n with
  | zero =>
    simp only [lowerForkIndex]
    omega
  | succ n ih =>
    rcases hjn.lt_or_eq with hlt | rfl
    · have hbefore := forkAt_before hord hlt hn
      rw [lowerForkIndex, if_pos hbefore.1]
      exact ih (by omega) (by omega)
    · rw [lowerForkIndex, if_neg (UInt8.lt_irrefl _)]

lemma scheduledForkIndex_congr (hf hf' : HardFork) (h : hf.heights = hf'.heights)
    (height n : ℕ) : hf.scheduledForkIndex height n = hf'.scheduledForkIndex height n := by
  induction n with
  | zero => rfl
  | succ n ih => rw [scheduledForkIndex, scheduledForkIndex, ih, forkAt, forkAt, h]

lemma scheduledForkIndex_le : hf.scheduledForkIndex height n ≤ n := by
  induction n with
  | zero => simp [scheduledForkIndex]
  | succ n ih =>
    rw [scheduledForkIndex]
    split_ifs
    · exact le_refl _
    · omega

/-! ## Voting -/

/-- The vote a block casts, clamped to the last scheduled version. -/
def vote (hf : HardFork) (b : BlockVersions) : UInt8 := hf.getEffectiveVersion (getBlockVote b)

lemma votedForkIndexFrom_lt (votes : UInt32) : hf.votedForkIndexFrom height n votes < n ∨
      hf.votedForkIndexFrom height n votes = hf.currentForkIndex := by
  induction n generalizing votes with
  | zero => exact .inr rfl
  | succ n ih =>
    rw [votedForkIndexFrom]
    split_ifs
    · exact .inl n.lt_succ_self
    · exact (ih _).imp_left fun h ↦ by omega

lemma raiseForkIndex_eq (height : ℕ) : hf.raiseForkIndex height =
      { hf with currentForkIndex := (hf.raiseForkIndex height).currentForkIndex } := by
  unfold raiseForkIndex
  simp only
  split_ifs <;> rfl

lemma le_raiseForkIndex (height : ℕ) :
    hf.currentForkIndex ≤ (hf.raiseForkIndex height).currentForkIndex := by
  unfold raiseForkIndex
  simp only
  split_ifs with h
  · exact h.le
  · exact le_refl _

lemma raiseForkIndex_lt (height : ℕ) (h : hf.currentForkIndex < hf.heights.length) :
    (hf.raiseForkIndex height).currentForkIndex < hf.heights.length := by
  unfold raiseForkIndex
  simp only
  split_ifs
  · have hmod := Nat.mod_le (hf.getVotedForkIndex height) 256
    rcases votedForkIndexFrom_lt hf height hf.heights.length 0 with hlt | heq
    · exact hmod.trans_lt hlt
    · calc
        hf.getVotedForkIndex height % 256 ≤ hf.getVotedForkIndex height := hmod
        _ = hf.currentForkIndex := heq
        _ < hf.heights.length := h
  · exact h

lemma evict_tally {w : ℕ} (hw : 1 ≤ w) (vs : List UInt8) :
    evict w vs (tally vs) = (vs.rtake (w - 1), tally (vs.rtake (w - 1))) := by
  induction vs with
  | nil => simp [evict]
  | cons v vs ih =>
    rw [evict]
    split_ifs with hlen
    · have hdrop : (v :: vs).rtake (w - 1) = vs.rtake (w - 1) := by
        have hle : w - 1 ≤ vs.length := by simpa using hlen
        simpa using rtake_append_of_le [v] hle
      rw [unbump_tally_cons, ih, hdrop]
    · rw [rtake_eq_self (by omega)]

lemma readVotes_eq (blocks : List BlockVersions) : hf.readVotes blocks = { hf with
        versions := hf.versions ++ blocks.map hf.vote
        lastVersions := (blocks.map hf.vote).foldl bump hf.lastVersions } := by
  induction blocks generalizing hf with
  | nil => simp [readVotes]
  | cons b blocks ih =>
    have hstep : hf.readVotes (b :: blocks) = (hf.pushVote (hf.vote b)).readVotes blocks := rfl
    have hvote : (hf.pushVote (hf.vote b)).vote = hf.vote := rfl
    rw [hstep, ih, hvote]
    simp [pushVote]

end Monero.HardFork
