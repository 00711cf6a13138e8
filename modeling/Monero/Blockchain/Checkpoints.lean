import Monero.Blockchain.Reorganize

/-!
# Enforcing checkpoints

`check_against_checkpoints` compares the main chain with a table of checkpoints
and rolls it back to below the first that fails.  The height of the chain is read
once, before the loop, so that later checkpoints are looked up in blocks that the
rollback has removed.
-/

namespace Monero.Blockchain

open List Option ReorgEnv

variable {K P H D : Type*} [DecidableEq H]

namespace ReorgEnv

variable (env : ReorgEnv K P H D)

/-- `none` is the exception for a height without a block. -/
def getBlockHashFromHeight (chain : StoredChain K P H) (height : ℕ) : Option H :=
  if height < chain.length then some (env.hash (chain.take (height + 1))) else none

def checkPoint (points : List (ℕ × H)) (enforce : Bool) (blockchainHeight : ℕ)
    (s : ReorgState K P H D) (pt : ℕ × H) : Option (ReorgState K P H D) :=
  if blockchainHeight ≤ pt.1 then some s
  else
    (env.getBlockHashFromHeight s.chain pt.1).bind fun id ↦
      if checkBlock points pt.1 id then some s
      else if enforce then
        -- an unsigned number
        (env.rollbackBlockchainSwitching s [] ((pt.1 + 2 ^ 64 - 2) % 2 ^ 64)).map Prod.snd
      else some s

/-- `none` is an exception. -/
def checkAgainstCheckpoints (points : List (ℕ × H)) (enforce : Bool) (s : ReorgState K P H D) :
    Option (ReorgState K P H D) :=
  points.foldlM (env.checkPoint points enforce s.chain.length) s

end ReorgEnv

def PointsSorted (points : List (ℕ × H)) : Prop := points.Pairwise fun p q ↦ p.1 < q.1

def Matches (env : ReorgEnv K P H D) (chain : StoredChain K P H) (p : ℕ × H) : Prop :=
  env.hash (chain.take (p.1 + 1)) = p.2

instance (env : ReorgEnv K P H D) (chain : StoredChain K P H) (p : ℕ × H) :
    Decidable (Matches env chain p) :=
  inferInstanceAs (Decidable (_ = _))

variable {env : ReorgEnv K P H D} {node : Node K P H D} {s : ReorgState K P H D}
  {rollbackHeight : ℕ}

lemma checkBlock_of_mem {points : List (ℕ × H)} (hsorted : PointsSorted points) {p : ℕ × H}
    (hp : p ∈ points) (id : H) : checkBlock points p.1 id = true ↔ id = p.2 := by
  have hfind : (points.find? fun q ↦ q.1 = p.1) = some p := by
    induction points with
    | nil => cases hp
    | cons q points ih =>
      obtain ⟨hq, hrest⟩ := pairwise_cons.mp hsorted
      rcases mem_cons.mp hp with rfl | hp
      · simp
      · rw [find?_cons_of_neg (by simpa using (hq p hp).ne)]
        exact ih hrest hp
  rw [checkBlock, hfind, decide_eq_true_iff, eq_comm]

/-! ## Rolling back -/

omit [DecidableEq H] in
lemma popBlockFromBlockchain_isSome (env : ReorgEnv K P H D) (h : 2 ≤ node.chain.length) :
    ∃ popped, env.popBlockFromBlockchain node = some popped := by
  obtain ⟨rows, row, hrows⟩ := (eq_nil_or_concat' node.chain).resolve_left
    (ne_nil_of_length_pos (by omega))
  simp only [popBlockFromBlockchain, if_neg (by omega : ¬node.chain.length ≤ 1)]
  rw [show node.chain.getLast? = some row by rw [hrows, getLast?_concat]]
  exact ⟨_, rfl⟩

omit [DecidableEq H] in
lemma popToHeight_isSome {fuel : ℕ} (hpos : 1 ≤ rollbackHeight)
    (hheight : rollbackHeight ≤ node.chain.length)
    (hfuel : node.chain.length < rollbackHeight + fuel) :
    ∃ node', env.popToHeight rollbackHeight fuel node = some node' := by
  induction fuel generalizing node with
  | zero => omega
  | succ fuel ih =>
    rw [popToHeight]
    split_ifs with heq
    · exact ⟨node, rfl⟩
    · have htwo : 2 ≤ node.chain.length := by omega
      obtain ⟨⟨popped, b⟩, hpop⟩ := popBlockFromBlockchain_isSome env htwo
      obtain ⟨row, hchain, -⟩ := popBlockFromBlockchain_eq_some hpop
      rw [hchain, length_append, length_singleton] at hheight hfuel heq
      rw [hpop]
      exact ih (by simp only; omega) (by simp only; omega)

omit [DecidableEq H] in
lemma popToHeight_zero {fuel : ℕ} (hne : node.chain ≠ []) :
    env.popToHeight 0 fuel node = none := by
  induction fuel generalizing node with
  | zero => rfl
  | succ fuel ih =>
    rw [popToHeight, if_neg (by simpa using hne)]
    cases hpop : env.popBlockFromBlockchain node with
    | none => rfl
    | some popped =>
      obtain ⟨row, hchain, -⟩ := popBlockFromBlockchain_eq_some hpop
      refine ih fun hnil ↦ ?_
      -- a chain of one block throws
      rw [popBlockFromBlockchain, hchain, hnil] at hpop
      cases hpop

lemma updateWeightLimit_isSome (hwindow : 0 < env.longTermBlockWeightsWindow)
    (hne : node.chain ≠ []) : ∃ node', env.updateWeightLimit node = some node' := by
  obtain ⟨weights, hweights⟩ : ∃ weights, node.weights.updateNextCumulativeWeightLimit env.hash
      env.longTermBlockWeightsWindow = some weights :=
    WeightState.updateNextCumulativeWeightLimit_isSome hwindow hne
  exact ⟨_, Option.map_eq_some_iff.mpr ⟨weights, hweights, rfl⟩⟩

lemma rollbackBlockchainSwitching_nil (hwindow : 0 < env.longTermBlockWeightsWindow)
    (hpos : 1 ≤ rollbackHeight) (hheight : rollbackHeight ≤ s.chain.length) :
    ∃ s', env.rollbackBlockchainSwitching s [] rollbackHeight = some (true, s') ∧
      s'.chain = s.chain.take rollbackHeight := by
  have hfuel : s.chain.length < rollbackHeight + (s.chain.length + 1) := by omega
  obtain ⟨popped, hpop⟩ : ∃ popped, env.popToHeight rollbackHeight (s.chain.length + 1) s.node =
      some popped := popToHeight_isSome hpos hheight hfuel
  obtain ⟨hlength, rows, hrows⟩ := popToHeight_eq_some hpop
  obtain ⟨node, hupdate⟩ := updateWeightLimit_isSome hwindow
    (ne_nil_of_length_pos (by omega : 0 < popped.chain.length))
  have hnode : node.chain = s.chain.take rollbackHeight := by
    rw [updateWeightLimit_chain hupdate, show s.chain = popped.chain ++ rows from hrows,
      take_left' hlength]
  rw [rollbackBlockchainSwitching, if_neg (not_lt.mpr hheight), hpop, bind_some,
    hupdate, map_some]
  exact ⟨_, rfl, hnode⟩

lemma rollbackBlockchainSwitching_zero (hne : s.chain ≠ []) :
    env.rollbackBlockchainSwitching s [] 0 = none := by
  rw [rollbackBlockchainSwitching, if_neg (Nat.not_lt_zero _), popToHeight_zero hne]
  rfl

/-! ## The loop -/

variable {points l : List (ℕ × H)} {s : ReorgState K P H D} {p : ℕ × H} {height : ℕ}

omit [DecidableEq H] in
lemma getBlockHashFromHeight_eq (hp : p.1 < s.chain.length) :
    env.getBlockHashFromHeight s.chain p.1 = some (env.hash (s.chain.take (p.1 + 1))) := if_pos hp

lemma checkPoint_pass (hsorted : PointsSorted points) (hp : p ∈ points)
    (h : p.1 < height → p.1 < s.chain.length ∧ Matches env s.chain p) :
    env.checkPoint points true height s p = some s := by
  rw [checkPoint]
  by_cases habove : height ≤ p.1
  · rw [if_pos habove]
  · obtain ⟨hlt, hmatches⟩ := h (not_le.mp habove)
    rw [if_neg habove, getBlockHashFromHeight_eq hlt, bind_some,
      if_pos ((checkBlock_of_mem hsorted hp _).mpr hmatches)]

lemma checkPoint_fail (hsorted : PointsSorted points) (hp : p ∈ points) (hbound : p.1 < 2 ^ 64)
    (htwo : 2 ≤ p.1) (hheight : p.1 < height) (hlt : p.1 < s.chain.length)
    (h : ¬Matches env s.chain p) :
    env.checkPoint points true height s p =
      (env.rollbackBlockchainSwitching s [] (p.1 - 2)).map Prod.snd := by
  have hcheck : ¬checkBlock points p.1 (env.hash (s.chain.take (p.1 + 1))) = true := fun hcheck ↦
    h ((checkBlock_of_mem hsorted hp _).mp hcheck)
  have hunsigned : (p.1 + 2 ^ 64 - 2) % 2 ^ 64 = p.1 - 2 := by omega
  rw [checkPoint, if_neg (not_le.mpr hheight), getBlockHashFromHeight_eq hlt,
    bind_some, if_neg hcheck, if_pos rfl, hunsigned]

lemma checkPoint_throws (hheight : p.1 < height) (h : s.chain.length ≤ p.1) :
    env.checkPoint points true height s p = none := by
  rw [checkPoint, if_neg (not_le.mpr hheight), getBlockHashFromHeight,
    if_neg (not_lt.mpr h)]
  rfl

lemma checkPoints_pass (hsorted : PointsSorted points) (hl : ∀ q ∈ l, q ∈ points)
    (h : ∀ q ∈ l, q.1 < height → q.1 < s.chain.length ∧ Matches env s.chain q) :
    l.foldlM (env.checkPoint points true height) s = some s := by
  induction l with
  | nil => rfl
  | cons q l ih =>
    rw [foldlM_cons, checkPoint_pass hsorted (hl q mem_cons_self) (h q mem_cons_self)]
    exact ih (fun r hr ↦ hl r (mem_cons_of_mem q hr)) fun r hr ↦ h r (mem_cons_of_mem q hr)

omit [DecidableEq H] in
lemma exists_first_mismatch (hex : ∃ q ∈ points, q.1 < s.chain.length ∧ ¬Matches env s.chain q) :
    ∃ before p after, points = before ++ p :: after ∧
      (∀ q ∈ before, q.1 < s.chain.length → Matches env s.chain q) ∧
      p.1 < s.chain.length ∧ ¬Matches env s.chain p := by
  induction points with
  | nil => simp at hex
  | cons q points ih =>
    by_cases hq : q.1 < s.chain.length ∧ ¬Matches env s.chain q
    · exact ⟨[], q, points, rfl, by simp, hq⟩
    · obtain ⟨r, hr, hmismatch⟩ := hex
      have hr' : r ∈ points := (mem_cons.mp hr).resolve_left (by rintro rfl; exact hq hmismatch)
      obtain ⟨before, p, after, rfl, hbefore, hp⟩ := ih ⟨r, hr', hmismatch⟩
      refine ⟨q :: before, p, after, rfl, fun t ht hlt ↦ ?_, hp⟩
      rcases mem_cons.mp ht with rfl | ht
      · exact not_not.mp fun hnot ↦ hq ⟨hlt, hnot⟩
      · exact hbefore t ht hlt

lemma checkPoints_throw (hsorted : PointsSorted l) (hex : ∃ q ∈ l, q.1 < height)
    (h : ∀ q ∈ l, s.chain.length ≤ q.1) :
    l.foldlM (env.checkPoint points true height) s = none := by
  cases l with
  | nil => simp at hex
  | cons r l =>
    obtain ⟨q, hq, hheight⟩ := hex
    have hr : r.1 < height := by
      rcases mem_cons.mp hq with rfl | hq
      · exact hheight
      · exact ((pairwise_cons.mp hsorted).1 q hq).trans hheight
    rw [foldlM_cons, checkPoint_throws hr (h r mem_cons_self)]
    rfl

/-- After the rollback for `p`: the loop ends if nothing of the table lies
between `p` and the old height. -/
theorem checkPoints_after (hwindow : 0 < env.longTermBlockWeightsWindow)
    (hsorted : PointsSorted points) {after : List (ℕ × H)} (hmem : ∀ q ∈ after, q ∈ points)
    (hafter : PointsSorted after) (habove : ∀ q ∈ after, p.1 < q.1) (htwo : 2 ≤ p.1)
    (hlt : p.1 < s.chain.length) :
    (3 ≤ p.1 ∧ (∀ q ∈ after, s.chain.length ≤ q.1) ∧
      ∃ s', ((env.rollbackBlockchainSwitching s [] (p.1 - 2)).map Prod.snd).bind (fun s' ↦
        after.foldlM (env.checkPoint points true s.chain.length) s') = some s' ∧
          s'.chain = s.chain.take (p.1 - 2)) ∨
    (¬(3 ≤ p.1 ∧ ∀ q ∈ after, s.chain.length ≤ q.1) ∧
      ((env.rollbackBlockchainSwitching s [] (p.1 - 2)).map Prod.snd).bind (fun s' ↦
        after.foldlM (env.checkPoint points true s.chain.length) s') = none) := by
  by_cases hthree : 3 ≤ p.1
  · have hpos : 1 ≤ p.1 - 2 := by omega
    have hle : p.1 - 2 ≤ s.chain.length := by omega
    obtain ⟨s', hrollback, hchain⟩ := rollbackBlockchainSwitching_nil hwindow hpos hle
    have hlength : s'.chain.length = p.1 - 2 := by
      rw [hchain, length_take]
      omega
    rw [hrollback]
    by_cases hlater : ∀ q ∈ after, s.chain.length ≤ q.1
    · refine .inl ⟨hthree, hlater, s', ?_, hchain⟩
      exact checkPoints_pass hsorted hmem fun q hq hlt' ↦ absurd (hlater q hq) (not_le.mpr hlt')
    · refine .inr ⟨fun h ↦ hlater h.2, ?_⟩
      refine checkPoints_throw hafter (by simpa using hlater) fun q hq ↦ ?_
      have hq' := habove q hq
      change s'.chain.length ≤ q.1
      omega
  · have hzero : p.1 - 2 = 0 := by omega
    refine .inr ⟨fun h ↦ hthree h.1, ?_⟩
    rw [hzero, rollbackBlockchainSwitching_zero (ne_nil_of_length_pos (by omega))]
    rfl

/-- Enforcing a table of checkpoints completes with a chain that conforms to
them, and leaves one that conforms already alone, exactly when a checkpoint that
fails is the last one below the height of the chain and lies above height 2. -/
theorem checkpoints_enforced_iff (env : ReorgEnv K P H D)
    (hwindow : 0 < env.longTermBlockWeightsWindow) {points : List (ℕ × H)}
    (hsorted : PointsSorted points) (hheights : ∀ p ∈ points, 2 ≤ p.1 ∧ p.1 < 2 ^ 64)
    (s : ReorgState K P H D) :
    (∃ s', env.checkAgainstCheckpoints points true s = some s' ∧
      (∀ p ∈ points, p.1 < s'.chain.length → Matches env s'.chain p) ∧
      ((∀ p ∈ points, p.1 < s.chain.length → Matches env s.chain p) → s' = s)) ↔
    ∀ p ∈ points, p.1 < s.chain.length → ¬Matches env s.chain p →
      3 ≤ p.1 ∧ ∀ q ∈ points, q.1 < s.chain.length → q.1 ≤ p.1 := by
  by_cases hall : ∀ p ∈ points, p.1 < s.chain.length → Matches env s.chain p
  · have hpass : env.checkAgainstCheckpoints points true s = some s :=
      checkPoints_pass hsorted (fun _ hq ↦ hq) fun q hq hlt ↦ ⟨hlt, hall q hq hlt⟩
    exact ⟨fun _ p hp hlt hnot ↦ absurd (hall p hp hlt) hnot,
      fun _ ↦ ⟨s, hpass, hall, fun _ ↦ rfl⟩⟩
  · obtain ⟨before, p, after, rfl, hbefore, hlt, hmismatch⟩ :=
      exists_first_mismatch (by simpa using hall)
    have hmem : p ∈ before ++ p :: after := by simp
    obtain ⟨htwo, hbound⟩ := hheights p hmem
    obtain ⟨-, hsorted', hbelow⟩ := pairwise_append.mp hsorted
    obtain ⟨habove, hafter⟩ := pairwise_cons.mp hsorted'
    rw [checkAgainstCheckpoints, foldlM_append,
      checkPoints_pass hsorted (fun q hq ↦ mem_append_left _ hq) fun q hq hlt ↦
        ⟨hlt, hbefore q hq hlt⟩, bind_eq_bind, bind_some, foldlM_cons,
      checkPoint_fail hsorted hmem hbound htwo hlt hlt hmismatch, bind_eq_bind]
    rcases checkPoints_after hwindow hsorted (fun q hq ↦ by simp [hq]) hafter habove htwo hlt with
      ⟨hthree, hlater, s', hdone, hchain⟩ | ⟨hnot, hthrows⟩
    · refine ⟨fun _ r hr hr' hmismatch' ↦ ?_, fun _ ↦ ⟨s', hdone, fun q hq hlt' ↦ ?_, fun h ↦ ?_⟩⟩
      · rcases mem_append.mp hr with hr | hr
        · exact absurd (hbefore r hr hr') hmismatch'
        rcases mem_cons.mp hr with rfl | hr
        · refine ⟨hthree, fun q hq hlt' ↦ ?_⟩
          rcases mem_append.mp hq with hq | hq
          · exact (hbelow q hq r mem_cons_self).le
          rcases mem_cons.mp hq with rfl | hq
          · exact le_rfl
          · exact absurd (hlater q hq) (not_le.mpr hlt')
        · exact absurd (hlater r hr) (not_le.mpr hr')
      · rw [hchain, length_take] at hlt'
        rcases mem_append.mp hq with hq | hq
        · have hkept := hbefore q hq (by omega)
          rw [Matches, hchain, take_take, min_eq_left (by omega)]
          exact hkept
        rcases mem_cons.mp hq with rfl | hq
        · omega
        · have hq' := habove q hq
          omega
      · exact absurd (h p hmem hlt) hmismatch
    · rw [hthrows]
      refine ⟨fun ⟨_, hnone, _⟩ ↦ (nomatch hnone), fun h ↦ absurd ?_ hnot⟩
      obtain ⟨hthree, hlast⟩ := h p hmem hlt hmismatch
      refine ⟨hthree, fun q hq ↦ not_lt.mp fun hlt' ↦ ?_⟩
      exact absurd (hlast q (by simp [hq]) hlt') (not_le.mpr (habove q hq))

/-- A chain of five blocks, whose hashes are 9, 10, 30, 31 and 51. -/
def longState : ReorgState Unit Unit ℕ Unit :=
  ⟨minedNode (timedChain ++ [timedRow 4 51 31 9]) fun _ ↦ none, 0⟩

theorem checkpoints_enforced_last :
    ∃ s', timestampEnv.checkAgainstCheckpoints [(2, 30), (4, 52)] true longState = some s' ∧
      ∀ p ∈ [(2, 30), (4, 52)], p.1 < s'.chain.length → Matches timestampEnv s'.chain p := by
  have hsorted : PointsSorted [(2, 30), (4, 52)] := by simp [PointsSorted]
  obtain ⟨s', hdone, hconforms, -⟩ := (checkpoints_enforced_iff timestampEnv (by decide) hsorted
    (by decide) longState).mpr (by decide +kernel)
  exact ⟨s', hdone, hconforms⟩

/-- The checkpoint at height 3 fails and rolls the chain back to one block; the
one at height 4, which is not in the chain any more, is then looked up. -/
theorem checkpoints_stale_height :
    longState.chain.length = 5 ∧ ¬Matches timestampEnv longState.chain (3, 32) ∧
      timestampEnv.checkAgainstCheckpoints [(3, 32), (4, 51)] true longState = none :=
  ⟨rfl, by decide, Option.isNone_iff_eq_none.mp (by decide +kernel)⟩

end Monero.Blockchain
