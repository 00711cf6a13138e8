import Monero.Blockchain.MainChain
import Monero.Lib.Result

/-!
# Transactions that a failed block gives back

The loop over the transactions of a block keeps track of what it has taken out
of the pool, on every way out of it.  All failing exits but one hand exactly
those transactions back; a block with pruned transactions and no known weight
keeps them.
-/

namespace Monero.Blockchain

open List

variable {K P H D : Type*} {env : Env K P H D} {pool : Pool K P H D} {ids : List H}
  {s : TxLoop K P H D}

def poolTxids (pool : Pool K P H D) : Set H := {id | pool id ≠ none}

/-- What the loop over `ids` has taken from `pool`: the two vectors match, the entries
marked as from the pool are the ones taken, and nothing else has changed. -/
structure TxLoop.Tracks (pool : Pool K P H D) (ids : List H) (s : TxLoop K P H D) : Prop where
  length_eq : s.txsMeta.length = s.txs.length
  taken_eq : (s.txsMeta.filter TxMeta.inMempool).map TxMeta.txid = s.taken
  taken_mem : ∀ id ∈ s.taken, id ∈ ids ∧ id ∈ poolTxids pool
  mem_pool_iff : ∀ id, id ∈ poolTxids s.pool ↔ id ∈ poolTxids pool ∧ id ∉ s.taken

def TxLoop.after : Except (TxLoopExit × TxLoop K P H D) (TxLoop K P H D) → TxLoop K P H D
  | .error e => e.2
  | .ok s => s

/-- `add_tx` puts the transaction in the pool and removes no other. -/
def Env.AddTxSucceeds (env : Env K P H D) : Prop :=
  ∀ pool call, ∃ pool', env.addTx pool call = some pool' ∧
    poolTxids pool' = insert call.txid (poolTxids pool)

/-! ## Handing back -/

lemma returnedTxs_txids (h : s.Tracks pool ids) (hfVersion : UInt8) :
    (Env.returnedTxs hfVersion s).map AddTxCall.txid = s.taken := by
  have hmeta : (s.txs.zip s.txsMeta).map Prod.snd = s.txsMeta := map_snd_zip h.length_eq.le
  have hcalls : ∀ l : List ((Transaction K P × D) × TxMeta H),
      (l.filterMap (Env.addTxCall hfVersion)).map AddTxCall.txid =
        ((l.map Prod.snd).filter TxMeta.inMempool).map TxMeta.txid := by
    intro l
    induction l with
    | nil => rfl
    | cons a l ih =>
      cases hin : a.2.inMempool with
      | false => simpa [Env.addTxCall, hin] using ih
      | true => simpa [Env.addTxCall, hin] using ih
  rw [Env.returnedTxs, if_neg (not_not.mpr h.length_eq), hcalls, hmeta, h.taken_eq]

lemma mem_poolTxids_foldl_tryAddTx (hadd : env.AddTxSucceeds)
    (calls : List (AddTxCall K P H D)) (pool : Pool K P H D) (id : H) :
    id ∈ poolTxids (calls.foldl env.tryAddTx pool) ↔
      id ∈ poolTxids pool ∨ id ∈ calls.map AddTxCall.txid := by
  induction calls generalizing pool with
  | nil => simp
  | cons call calls ih =>
    obtain ⟨pool', hpool', htxids⟩ := hadd pool call
    rw [foldl_cons, ih, Env.tryAddTx, hpool', Option.getD_some, htxids, Set.mem_insert_iff,
      map_cons, mem_cons]
    tauto

lemma poolTxids_returnTxsToPool (hadd : env.AddTxSucceeds) (h : s.Tracks pool ids)
    (hfVersion : UInt8) :
    poolTxids (env.returnTxsToPool hfVersion s) = poolTxids pool := by
  ext id
  rw [Env.returnTxsToPool, mem_poolTxids_foldl_tryAddTx hadd, returnedTxs_txids h, h.mem_pool_iff]
  have hmem := h.taken_mem id
  tauto

/-! ## The loop -/

lemma TxLoop.Tracks.poolTxids_eq_iff (h : s.Tracks pool ids) :
    poolTxids s.pool = poolTxids pool ↔ s.taken = [] := by
  constructor
  · intro heq
    refine eq_nil_iff_forall_not_mem.mpr fun id hid ↦ ?_
    have hmem : id ∈ poolTxids s.pool := by
      rw [heq]
      exact (h.taken_mem id hid).2
    exact ((h.mem_pool_iff id).mp hmem).2 hid
  · intro hnil
    ext id
    rw [h.mem_pool_iff, hnil]
    simp

variable [DecidableEq H] {fastCheck : Bool}

lemma takeTx_eq_some {pool' : Pool K P H D} {id : H} {entry : PoolTx K P H D}
    {tx : Transaction K P} (h : env.takeTx pool id = some (entry, tx, pool')) :
    pool id = some entry ∧ env.parsePoolTx entry = some tx ∧
      pool' = Function.update pool id none := by
  unfold Env.takeTx at h
  split at h
  next => cases h
  next entry' hentry =>
    split at h
    next => cases h
    next tx' hparsed =>
      split_ifs at h
      cases h
      exact ⟨hentry, hparsed, rfl⟩

lemma mem_poolTxids_update_none (pool : Pool K P H D) (id id' : H) :
    id' ∈ poolTxids (Function.update pool id none) ↔ id' ∈ poolTxids pool ∧ id' ≠ id := by
  by_cases h : id' = id
  · simp [poolTxids, h]
  · simp [poolTxids, h]

/-- A transaction that a round finds is added to the variables, which the next round gets unless
its inputs are wrong. -/
structure TxLoop.Pushed (s : TxLoop K P H D) (tx : Transaction K P × D) (txMeta : TxMeta H)
    (fee : ℕ) (r : Except (TxLoopExit × TxLoop K P H D) (TxLoop K P H D)) : Prop where
  pool_eq : (after r).pool = s.pool
  taken_eq : (after r).taken = s.taken
  txs_eq : (after r).txs = s.txs ++ [tx]
  txsMeta_eq : (after r).txsMeta = s.txsMeta ++ [txMeta]
  feeSummary_eq : ∀ s', r = .ok s' → s'.feeSummary = addAmount s.feeSummary fee

omit [DecidableEq H] in
lemma acceptTx_pushed (env : Env K P H D) (chain : StoredChain K P H) (hfVersion : UInt8)
    (fastCheck : Bool) (s : TxLoop K P H D) (id : H) (inMempool : Bool) (tx : Transaction K P)
    (blob : D) (weight fee : ℕ) (verificationId : H) (pruned : Bool) :
    s.Pushed (tx, blob) ⟨id, weight, inMempool, verificationId⟩ fee (env.acceptTx chain hfVersion
      fastCheck s id inMempool tx blob weight fee verificationId pruned) := by
  simp only [Env.acceptTx]
  cases !fastCheck && !env.checkTxInputs chain hfVersion tx verificationId with
  | true => exact ⟨rfl, rfl, rfl, rfl, fun _ h ↦ by cases h⟩
  | false => exact ⟨rfl, rfl, rfl, rfl, fun _ h ↦ by cases h; rfl⟩

section Round

variable {nullHash : H} {chain : StoredChain K P H} {hfVersion : UInt8} {fastCheck : Bool} {id : H}
  {r : Except (TxLoopExit × TxLoop K P H D) (TxLoop K P H D)}
  (hr : env.takeBlockTx nullHash chain hfVersion fastCheck s id = r)

include hr

lemma takeBlockTx_cases :
    (∃ exit, r = .error (exit, s)) ∨
    (∃ entry tx txMeta, env.takeTx s.pool id = some (entry, tx, Function.update s.pool id none) ∧
      txMeta.txid = id ∧ txMeta.inMempool = true ∧
      { s with pool := Function.update s.pool id none, taken := s.taken ++ [id] }.Pushed
        (tx, entry.blob) txMeta entry.fee r) ∨
    ∃ tx txMeta, env.takeTx s.pool id = none ∧ txMeta.inMempool = false ∧
      s.Pushed tx txMeta (getTxFee tx.1) r := by
  subst hr
  rw [Env.takeBlockTx]
  split_ifs
  · exact .inl ⟨_, rfl⟩
  cases htake : env.takeTx s.pool id with
  | some taken =>
    obtain ⟨entry, tx, pool'⟩ := taken
    obtain ⟨-, -, rfl⟩ := takeTx_eq_some htake
    exact .inr (.inl ⟨entry, tx, _, rfl, rfl, rfl, acceptTx_pushed ..⟩)
  | none =>
    cases hextra : s.supplement.lookup id with
    | none => exact .inl ⟨_, rfl⟩
    | some extra =>
      obtain ⟨hpool, htaken, htxs, hmeta, hfee⟩ := acceptTx_pushed env chain hfVersion fastCheck
        { s with supplement := s.supplement.filter fun extra ↦ extra.1 ≠ id } id false extra.1
        extra.2 (if extra.1.pruned then env.getPrunedTransactionWeight extra.1
          else env.getTransactionWeightOfBlob extra.1 extra.2) (getTxFee extra.1) nullHash
        extra.1.pruned
      exact .inr (.inr ⟨extra, _, rfl, rfl, hpool, htaken, htxs, hmeta, hfee⟩)

lemma takeBlockTx_tracks (hid : id ∈ ids) (h : s.Tracks pool ids) :
    (TxLoop.after r).Tracks pool ids := by
  rcases takeBlockTx_cases hr with
    ⟨exit, rfl⟩ | ⟨entry, tx, txMeta, htake, heq, hin, hpushed⟩ | ⟨tx, txMeta, -, hin, hpushed⟩
  · exact h
  · have hold := (h.mem_pool_iff id).mp (by simp [poolTxids, (takeTx_eq_some htake).1])
    refine ⟨?_, ?_, ?_, ?_⟩
    · simp [hpushed.txs_eq, hpushed.txsMeta_eq, h.length_eq]
    · simp [hpushed.txsMeta_eq, hpushed.taken_eq, hin, heq, h.taken_eq]
    · rw [hpushed.taken_eq]
      simp only [mem_append, mem_singleton]
      rintro id' (hmem | rfl)
      · exact h.taken_mem id' hmem
      · exact ⟨hid, hold.1⟩
    · intro id'
      rw [hpushed.pool_eq, hpushed.taken_eq, mem_poolTxids_update_none, h.mem_pool_iff, mem_append,
        mem_singleton]
      tauto
  · refine ⟨?_, ?_, hpushed.taken_eq ▸ h.taken_mem, ?_⟩
    · simp [hpushed.txs_eq, hpushed.txsMeta_eq, h.length_eq]
    · simp [hpushed.txsMeta_eq, hpushed.taken_eq, hin, h.taken_eq]
    · rw [hpushed.pool_eq, hpushed.taken_eq]
      exact h.mem_pool_iff

lemma takeBlockTx_taken {s' : TxLoop K P H D} (hok : r = .ok s') :
    (s'.taken = [] ↔ s.taken = [] ∧ env.takeTx s.pool id = none) ∧
      (env.takeTx s.pool id = none → s'.pool = s.pool) := by
  subst hok
  rcases takeBlockTx_cases hr with
    ⟨exit, hexit⟩ | ⟨entry, tx, txMeta, htake, -, -, hpushed⟩ | ⟨tx, txMeta, htake, -, hpushed⟩
  · cases hexit
  · have htaken : s'.taken = s.taken ++ [id] := hpushed.taken_eq
    simp [htaken, htake]
  · have htaken : s'.taken = s.taken := hpushed.taken_eq
    simp only [htaken, htake, and_true, true_imp_iff, true_and]
    exact hpushed.pool_eq

end Round

section Loop

variable {nullHash : H} {chain : StoredChain K P H} {hfVersion : UInt8}

/-- The whole loop: an error ends it, and the variables stay as the failing
round left them. -/
theorem foldlM_takeBlockTx_tracks {left : List H} (hleft : left ⊆ ids) (h : s.Tracks pool ids) :
    (TxLoop.after (left.foldlM (env.takeBlockTx nullHash chain hfVersion fastCheck) s)).Tracks pool
      ids := by
  induction left generalizing s with
  | nil => exact h
  | cons id left ih =>
    obtain ⟨hid, hrest⟩ := cons_subset.mp hleft
    rw [foldlM_cons]
    cases hstep : env.takeBlockTx nullHash chain hfVersion fastCheck s id with
    | error e => exact takeBlockTx_tracks hstep hid h
    | ok s' => exact ih hrest (takeBlockTx_tracks hstep hid h)

/-- Nothing is taken exactly when no transaction could be taken from the pool at first. -/
lemma foldlM_takeBlockTx_taken {s' : TxLoop K P H D}
    (h : ids.foldlM (env.takeBlockTx nullHash chain hfVersion fastCheck) s = .ok s') :
    s'.taken = [] ↔ s.taken = [] ∧ ∀ id ∈ ids, env.takeTx s.pool id = none := by
  induction ids generalizing s with
  | nil =>
    cases h
    simp
  | cons id ids ih =>
    rw [foldlM_cons, Lib.bind_eq_ok] at h
    obtain ⟨s₁, hfirst, hrest⟩ := h
    obtain ⟨htaken, hpool⟩ := takeBlockTx_taken hfirst rfl
    rw [ih hrest, htaken, forall_mem_cons, and_assoc]
    exact and_congr_right fun _ ↦ and_congr_right fun hnone ↦ by rw [hpool hnone]

end Loop

lemma takeBlockTxs_tracks (env : Env K P H D) (nullHash : H) (node : Node K P H D)
    (b : Block K P H) (supplement : Supplement K P H D) (fastCheck : Bool) :
    (TxLoop.after (env.takeBlockTxs nullHash node b supplement fastCheck)).Tracks node.pool
      b.body.txHashes := by
  refine foldlM_takeBlockTx_tracks (Subset.refl _) ⟨rfl, rfl, ?_, ?_⟩
  · simp [Env.startLoop]
  · simp [Env.startLoop]

/-! ## The exits -/

/-- The loop ends well with the variables `s`, some transaction is pruned, and
no weight is known for the block. -/
def Env.PrunedWithoutWeight (env : Env K P H D) (nullHash : H) (now : ℕ) (node : Node K P H D)
    (b : Block K P H) (id : H) (supplement : Supplement K P H D) (s : TxLoop K P H D) : Prop :=
  ∃ fastCheck difficulty, env.precheck now node b id supplement = .ok (fastCheck, difficulty) ∧
    env.takeBlockTxs nullHash node b supplement fastCheck = .ok s ∧ 0 < s.nPruned ∧
      env.knownWeight node.chain.length = 0

section

variable {nullHash : H} {now difficulty : ℕ} {node : Node K P H D} {b : Block K P H} {id : H}
  {supplement : Supplement K P H D}

lemma prunedWithoutWeight_iff
    (hpre : env.precheck now node b id supplement = .ok (fastCheck, difficulty)) :
    env.PrunedWithoutWeight nullHash now node b id supplement s ↔
      env.takeBlockTxs nullHash node b supplement fastCheck = .ok s ∧ 0 < s.nPruned ∧
        env.knownWeight node.chain.length = 0 := by
  constructor
  · rintro ⟨fastCheck', difficulty', hpre', h⟩
    cases hpre.symm.trans hpre'
    exact h
  · exact fun h ↦ ⟨fastCheck, difficulty, hpre, h⟩

section

variable (h : env.PrunedWithoutWeight nullHash now node b id supplement s)

include h

lemma prunedWithoutWeight_tracks : s.Tracks node.pool b.body.txHashes := by
  obtain ⟨fastCheck, difficulty, -, hloop, -⟩ := h
  have htracks := takeBlockTxs_tracks env nullHash node b supplement fastCheck
  rwa [hloop] at htracks

lemma prunedWithoutWeight_taken :
    s.taken = [] ↔ ∀ txid ∈ b.body.txHashes, env.takeTx node.pool txid = none := by
  obtain ⟨fastCheck, difficulty, -, hloop, -⟩ := h
  rw [foldlM_takeBlockTx_taken hloop]
  exact and_iff_right rfl

end

lemma not_prunedWithoutWeight
    (hpre : env.precheck now node b id supplement = .ok (fastCheck, difficulty))
    (hloop : env.takeBlockTxs nullHash node b supplement fastCheck = .ok s)
    (hpruned : ¬(0 < s.nPruned ∧ env.knownWeight node.chain.length = 0)) (s' : TxLoop K P H D) :
    ¬env.PrunedWithoutWeight nullHash now node b id supplement s' := by
  intro hs'
  obtain ⟨hend, hpruned'⟩ := (prunedWithoutWeight_iff hpre).mp hs'
  cases hloop.symm.trans hend
  exact hpruned hpruned'

section Outcome

variable {outcome : BlockOutcome K P H D}
  (hout : env.handleBlockToMainChain nullHash now node b id supplement = outcome)

include hout

lemma handleBlockToMainChain_success (h : outcome.returnValue = true) :
    outcome.returned = [] ∧ ∃ s : TxLoop K P H D, s.Tracks node.pool b.body.txHashes ∧
      outcome.taken = s.taken := by
  subst hout
  obtain ⟨fastCheck, difficulty, s, -, hloop, hfinish⟩ := handleBlockToMainChain_eq_added h
  have htracks := takeBlockTxs_tracks env nullHash node b supplement fastCheck
  rw [hloop] at htracks
  rw [hfinish] at h ⊢
  obtain ⟨-, _, _, _, _, -, -, houtcome⟩ := finishBlock_eq_added h
  rw [houtcome]
  exact ⟨rfl, s, htracks, rfl⟩

/-- The failing exits: the one for pruned transactions without a known weight
keeps what was taken, all others hand it back. -/
theorem handleBlockToMainChain_exits (hfail : outcome.returnValue = false) :
    (∃ s, env.PrunedWithoutWeight nullHash now node b id supplement s ∧
      outcome = ⟨false, { node with pool := s.pool }, {}, s.taken, [], 0, s.feeSummary⟩) ∨
    (∀ s, ¬env.PrunedWithoutWeight nullHash now node b id supplement s) ∧
      ((∃ bvc, outcome = ⟨false, node, bvc, [], [], 0, 0⟩) ∨
        ∃ s invalidBlocks bvc, s.Tracks node.pool b.body.txHashes ∧
          outcome = env.reject { node with invalidBlocks := invalidBlocks } s bvc) := by
  subst hout
  cases hpre : env.precheck now node b id supplement with
  | error bvc =>
    refine .inr ⟨?_, .inl ?_⟩
    · rintro s ⟨fastCheck, difficulty, hok, -⟩
      rw [hpre] at hok
      cases hok
    · exact ⟨bvc, by simp [Env.handleBlockToMainChain, hpre]⟩
  | ok pre =>
    obtain ⟨fastCheck, difficulty⟩ := pre
    have htracks := takeBlockTxs_tracks env nullHash node b supplement fastCheck
    cases hloop : env.takeBlockTxs nullHash node b supplement fastCheck with
    | error e =>
      obtain ⟨exit, s⟩ := e
      rw [hloop] at htracks
      refine .inr ⟨?_, .inr ⟨s, ?_⟩⟩
      · intro s' hs'
        cases hloop.symm.trans ((prunedWithoutWeight_iff hpre).mp hs').1
      · cases exit
        all_goals
          exact ⟨_, _, htracks, by simp [Env.handleBlockToMainChain, hpre, hloop]; rfl⟩
    | ok s =>
      rw [hloop] at htracks
      have houtcome : env.handleBlockToMainChain nullHash now node b id supplement =
          env.finishBlock node b s difficulty := by
        simp [Env.handleBlockToMainChain, hpre, hloop]
      by_cases hpruned : 0 < s.nPruned ∧ env.knownWeight node.chain.length = 0
      · refine .inl ⟨s, ⟨fastCheck, difficulty, hpre, hloop, hpruned⟩, ?_⟩
        rw [houtcome]
        simp [Env.finishBlock, if_pos hpruned]
      · rw [houtcome] at hfail ⊢
        have hreject : ∃ bvc, env.finishBlock node b s difficulty = env.reject node s bvc := by
          simp only [Env.finishBlock, if_neg hpruned] at hfail ⊢
          split at hfail
          · exact ⟨_, rfl⟩
          · split at hfail
            · exact ⟨_, rfl⟩
            · cases hfail
        obtain ⟨bvc, hreject⟩ := hreject
        exact .inr ⟨not_prunedWithoutWeight hpre hloop hpruned,
          .inr ⟨s, node.invalidBlocks, bvc, htracks, hreject⟩⟩

/-- Only transactions of the block that are in the pool are taken, and only
what was taken is handed back. -/
lemma handleBlockToMainChain_takes :
    (∀ txid ∈ outcome.taken, txid ∈ b.body.txHashes ∧ txid ∈ poolTxids node.pool) ∧
      (outcome.taken = [] → outcome.returned = []) := by
  cases hvalue : outcome.returnValue with
  | true =>
    obtain ⟨hreturned, s, htracks, htaken⟩ := handleBlockToMainChain_success hout hvalue
    rw [htaken, hreturned]
    exact ⟨htracks.taken_mem, fun _ ↦ rfl⟩
  | false =>
    rcases handleBlockToMainChain_exits hout hvalue with
      ⟨s, hpruned, rfl⟩ | ⟨-, ⟨bvc, rfl⟩ | ⟨s, invalidBlocks, bvc, htracks, rfl⟩⟩
    · have htracks := prunedWithoutWeight_tracks hpruned
      exact ⟨htracks.taken_mem, fun _ ↦ rfl⟩
    · exact ⟨by simp, fun _ ↦ rfl⟩
    · refine ⟨htracks.taken_mem, fun hnil ↦ ?_⟩
      exact map_eq_nil_iff.mp ((returnedTxs_txids htracks _).trans hnil)

end Outcome

end

/-- When `handle_block_to_main_chain` returns `false`, every transaction it
took from the pool is handed back to `add_tx`, and the pool holds the same
txids again if these calls succeed, exactly when the call does not get to the
end of the loop with pruned transactions, no known weight, and a transaction
that can be taken from the pool. -/
theorem handleBlockToMainChain_returns_iff (env : Env K P H D) (nullHash : H) (now : ℕ)
    (node : Node K P H D) (b : Block K P H) (id : H) (supplement : Supplement K P H D)
    (hfail : (env.handleBlockToMainChain nullHash now node b id supplement).returnValue = false) :
    ((∀ txid ∈ (env.handleBlockToMainChain nullHash now node b id supplement).taken,
        txid ∈ (env.handleBlockToMainChain nullHash now node b id supplement).returned.map
          AddTxCall.txid) ↔
      ((∃ s, env.PrunedWithoutWeight nullHash now node b id supplement s) →
        ∀ txid ∈ b.body.txHashes, env.takeTx node.pool txid = none)) ∧
    (env.AddTxSucceeds →
      (poolTxids (env.handleBlockToMainChain nullHash now node b id supplement).node.pool =
          poolTxids node.pool ↔
        ((∃ s, env.PrunedWithoutWeight nullHash now node b id supplement s) →
          ∀ txid ∈ b.body.txHashes, env.takeTx node.pool txid = none))) := by
  rcases handleBlockToMainChain_exits rfl hfail with ⟨s, hexit, houtcome⟩ | ⟨hnone, hother⟩
  · have hcondition : ((∃ s, env.PrunedWithoutWeight nullHash now node b id supplement s) →
        ∀ txid ∈ b.body.txHashes, env.takeTx node.pool txid = none) ↔ s.taken = [] := by
      rw [prunedWithoutWeight_taken hexit]
      exact ⟨fun h ↦ h ⟨s, hexit⟩, fun h _ ↦ h⟩
    rw [houtcome, hcondition]
    refine ⟨?_, fun _ ↦ (prunedWithoutWeight_tracks hexit).poolTxids_eq_iff⟩
    simp [eq_nil_iff_forall_not_mem]
  · have hcondition : (∃ s, env.PrunedWithoutWeight nullHash now node b id supplement s) →
        ∀ txid ∈ b.body.txHashes, env.takeTx node.pool txid = none :=
      fun ⟨s, hs⟩ ↦ absurd hs (hnone s)
    rcases hother with ⟨bvc, houtcome⟩ | ⟨s, invalidBlocks, bvc, htracks, houtcome⟩
    · rw [houtcome]
      exact ⟨iff_of_true (by simp) hcondition, fun _ ↦ iff_of_true rfl hcondition⟩
    · rw [houtcome]
      refine ⟨iff_of_true ?_ hcondition, fun hadd ↦ iff_of_true ?_ hcondition⟩
      · exact fun _ h ↦ (returnedTxs_txids htracks _).symm ▸ h
      · exact poolTxids_returnTxsToPool hadd htracks _

lemma addTxSucceeds_trustingEnv (blocksHashCheck : List (Option ℕ × ℕ)) :
    (trustingEnv blocksHashCheck).AddTxSucceeds := by
  intro pool call
  refine ⟨_, rfl, ?_⟩
  ext id
  by_cases h : id = call.txid
  · simp [poolTxids, h]
  · simp [poolTxids, h]

theorem handleBlockToMainChain_returns_missing :
    poolTxids ((trustingEnv []).handleBlockToMainChain 0 0 (minedNode [minedRow 0 0] (onePool 0))
      (secondBlock 0 [7, 8]) 2 []).node.pool = poolTxids (onePool 0) := by
  refine ((handleBlockToMainChain_returns_iff (trustingEnv []) 0 0
    (minedNode [minedRow 0 0] (onePool 0))
    (secondBlock 0 [7, 8]) 2 [] (by decide)).2 (addTxSucceeds_trustingEnv [])).mpr ?_
  rintro ⟨s, fastCheck, difficulty, -, hloop, -⟩
  cases fastCheck with
  | false => cases hloop
  | true => cases hloop

/-- The hash of the block is known beforehand but its weight is not, the first
transaction is in the pool, and the second one comes pruned with the block. -/
theorem handleBlockToMainChain_loses_taken :
    let outcome := (trustingEnv [(none, 0), (some 2, 0)]).handleBlockToMainChain 0 0
      (minedNode [minedRow 0 0] (onePool 0)) (secondBlock 0 [7, 8]) 2 [(8, poolTx true, ())]
    outcome.returnValue = false ∧ outcome.taken = [7] ∧
      outcome.returned.map AddTxCall.txid = [] ∧ 7 ∈ poolTxids (onePool 0) ∧
        7 ∉ poolTxids outcome.node.pool := by
  refine ⟨by decide, by decide, by decide, by simp [poolTxids, onePool], ?_⟩
  exact fun h ↦ h rfl

end Monero.Blockchain
