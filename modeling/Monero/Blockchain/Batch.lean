import Monero.Blockchain.PoolReturn
import Monero.HardFork.Replay
import Monero.Pool.Index

/-!
# Batches of blocks

Blocks that come together are added in one transaction of the database.
`cleanup_handle_incoming_blocks` ends it; after an exception in `add_block` it
aborts it, which undoes the rows of the database and nothing that is kept in
memory.

The pool is the one with its table and its index.  What block handling does to
it is the list of its calls of the pool.
-/

namespace Monero.Blockchain

open HardFork Monero.Lib Monero.Epee List

/-- The state that block handling changes.  The blocks, the hard fork versions
and the pool table are in the database.  A blob is the transaction itself. -/
structure BatchNode (K P H R : Type*) [LinearOrder K] [LinearOrder H] where
  weights : WeightState (BlockBody K P H) H
  hardFork : HardFork
  hardForkDb : Db
  pool : Pool.TxMemoryPool K P H R
  invalidBlocks : List H
  batchSuccess : Bool

/-- A block with what came with it, and what the chain answers to the pool
while the block is handled. -/
structure BlockCall (K P H : Type*) where
  now : ℕ
  block : Block K P H
  id : H
  supplement : Supplement K P H (Transaction K P)
  view : Pool.View K P H

variable {K P H D R : Type*}

/-- Whether `add_block` throws, which is where `m_batch_success` is reset. -/
def Env.addBlockFails [DecidableEq H] (env : Env K P H D) (nullHash : H) (now : ℕ)
    (node : Node K P H D) (b : Block K P H) (id : H) (supplement : Supplement K P H D) : Bool :=
  match env.precheck now node b id supplement with
  | .error _ => false
  | .ok (fastCheck, difficulty) =>
    match env.takeBlockTxs nullHash node b supplement fastCheck with
    | .error _ => false
    | .ok s =>
      let height := node.chain.length
      let blockWeight := if 0 < s.nPruned then env.knownWeight height
        else s.cumulativeBlockWeight
      if 0 < s.nPruned ∧ env.knownWeight height = 0 then false
      else
        match validateMinerTransaction node.weights b.body.minerTx blockWeight s.feeSummary
            (getBlockAlreadyGeneratedCoins node.chain (height - 1))
            node.hardFork.getCurrentVersion with
        | none => false
        | some (baseReward, _) =>
          (env.addBlock node b s blockWeight difficulty baseReward).isNone

variable [LinearOrder K] [LinearOrder H] [LinearOrder R]

namespace BatchNode

variable (env : Env K P H (Transaction K P)) (poolEnv : Pool.Env K P H R) (nullHash : H)
  (s : BatchNode K P H R)

/-- The node with the pool as block handling reads it.  The ids of earlier
input verifications, which only spare a second one, are left out. -/
def node : Node K P H (Transaction K P) where
  weights := s.weights
  hardFork := s.hardFork
  hardForkDb := s.hardForkDb
  pool := fun id ↦ (s.pool.txpool.get? id).map fun row ↦
    ⟨row.tx, s.pool.parsedTxCache.get? id, row.info.weight, row.info.fee, nullHash,
      row.info.pruned, Pool.matchesCategory row.info.relayMethod .legacy⟩
  invalidBlocks := s.invalidBlocks

variable (call : BlockCall K P H)

def outcome : BlockOutcome K P H (Transaction K P) :=
  env.handleBlockToMainChain nullHash call.now (s.node nullHash) call.block call.id call.supplement

/-- The calls of the pool in their order: what is taken, what is handed back,
and what follows when the block was added. -/
def poolOperations : List (Pool.Operation K P H) :=
  let out := s.outcome env nullHash call
  let hfVersion := s.hardFork.getCurrentVersion
  let newHfVersion := out.node.hardFork.getCurrentVersion
  out.taken.map .takeTx ++
    ((out.returned.map fun c ↦ .addTx call.view c.tx .block true hfVersion hfVersion) ++
      if out.returnValue then
        .onBlockchainInc :: if newHfVersion ≠ hfVersion ∧ 0 < s.weights.chain.length then
          [.validate call.view newHfVersion] else []
      else [])

def handleBlock : BatchNode K P H R :=
  let out := s.outcome env nullHash call
  { weights := out.node.weights
    hardFork := out.node.hardFork
    hardForkDb := out.node.hardForkDb
    pool := Pool.run poolEnv (s.poolOperations env nullHash call) s.pool
    invalidBlocks := out.node.invalidBlocks
    batchSuccess := s.batchSuccess && !env.addBlockFails nullHash call.now (s.node nullHash)
      call.block call.id call.supplement }

def handleBlocks (calls : List (BlockCall K P H)) : BatchNode K P H R :=
  calls.foldl (handleBlock env poolEnv nullHash) s

/-- `prepare_handle_incoming_blocks`, as far as the batch is concerned. -/
def batchStart : BatchNode K P H R := { s with batchSuccess := true }

/-- The rows of the database are again those at the start of the batch. -/
def batchAbort (start : BatchNode K P H R) : BatchNode K P H R := { s with
    weights := { s.weights with chain := start.weights.chain }
    hardForkDb := start.hardForkDb
    pool := { s.pool with txpool := start.pool.txpool } }

def cleanupHandleIncomingBlocks (start : BatchNode K P H R) : BatchNode K P H R :=
  if s.batchSuccess then s else s.batchAbort start

end BatchNode

/-- The memory is in step with the database: the hard fork object is the one a
rescan finds, and the index of the pool has the ids of its table. -/
structure InStep (s : BatchNode K P H R) : Prop where
  hardFork : s.hardFork.Rescanned s.hardForkDb
  sorted : ∀ id, id ∈ s.pool.sortedIds ↔ id ∈ s.pool.txpool.keys
  added : ∀ id, id ∈ s.pool.addedTxsById.keys ↔ id ∈ s.pool.txpool.keys

/-! ## Batches without a trace -/

/-- No transaction of the batch is in the pool, its blocks cast the vote that fills the
whole window, and at none of its heights a fork is due. -/
structure Traceless (s : BatchNode K P H R) (calls : List (BlockCall K P H)) : Prop where
  pool : ∀ call ∈ calls, ∀ id ∈ call.block.body.txHashes, id ∉ s.pool.txpool.keys
  votes : ∀ call ∈ calls, s.hardFork.versions =
    replicate s.hardFork.windowSize (s.hardFork.vote call.block.versions)
  forks : ∀ height, s.hardForkDb.height < height →
    height ≤ s.hardForkDb.height + calls.length →
      s.hardFork.getVotedForkIndex height ≤ s.hardFork.currentForkIndex

/-- What blocks without a trace leave as it was. -/
structure Keeps (n : ℕ) (s s' : BatchNode K P H R) : Prop where
  hardFork : s'.hardFork = s.hardFork
  pool : ∃ cache, s'.pool = { s.pool with parsedTxCache := cache }
  height_ge : s.hardForkDb.height ≤ s'.hardForkDb.height
  height_le : s'.hardForkDb.height ≤ s.hardForkDb.height + n

variable (env : Env K P H (Transaction K P)) (poolEnv : Pool.Env K P H R) (nullHash : H)
  {s : BatchNode K P H R} {call : BlockCall K P H} {calls : List (BlockCall K P H)}

omit [LinearOrder R] in
lemma outcome_taken_eq_nil (h : ∀ id ∈ call.block.body.txHashes, id ∉ s.pool.txpool.keys) :
    (s.outcome env nullHash call).taken = [] := by
  refine eq_nil_iff_forall_not_mem.mpr fun id hid ↦ ?_
  obtain ⟨hmem, hpool⟩ := (handleBlockToMainChain_takes rfl).1 id hid
  refine h id hmem (Table.mem_keys_iff.mpr ?_)
  simpa [poolTxids, BatchNode.node, Option.isSome_iff_ne_none] using hpool

omit [LinearOrder R] in
lemma outcome_hardFork_of_false {env : Env K P H (Transaction K P)} {nullHash : H}
    (hvalue : (s.outcome env nullHash call).returnValue = false) :
    (s.outcome env nullHash call).node.hardFork = s.hardFork ∧
      (s.outcome env nullHash call).node.hardForkDb = s.hardForkDb := by
  rcases handleBlockToMainChain_exits rfl hvalue with
    ⟨loop, -, hout⟩ | ⟨-, ⟨bvc, hout⟩ | ⟨loop, invalidBlocks, bvc, -, hout⟩⟩
  all_goals
    rw [BatchNode.outcome, hout]
    exact ⟨rfl, rfl⟩

/-- One block. -/
lemma handleBlock_keeps (hw : 1 ≤ s.hardFork.windowSize) (h : Traceless s (call :: calls)) :
    Keeps 1 s (s.handleBlock env poolEnv nullHash call) := by
  have hhardFork : (s.outcome env nullHash call).node.hardFork = s.hardFork ∧
      s.hardForkDb.height ≤ (s.outcome env nullHash call).node.hardForkDb.height ∧
      (s.outcome env nullHash call).node.hardForkDb.height ≤ s.hardForkDb.height + 1 := by
    cases hvalue : (s.outcome env nullHash call).returnValue with
    | false =>
      obtain ⟨hhardFork, hdb⟩ := outcome_hardFork_of_false hvalue
      rw [hdb]
      exact ⟨hhardFork, le_rfl, Nat.le_succ _⟩
    | true =>
      obtain ⟨hcheck, loop, blockWeight, hadd⟩ := handleBlockToMainChain_added hvalue
      obtain ⟨hsame, hheight⟩ := addBlock_unanimous hw (h.votes call mem_cons_self)
        (h.forks _ (Nat.lt_succ_self _) (by simp)) (addBlock_hardFork hcheck hadd)
      exact ⟨hsame, (Nat.le_succ _).trans hheight.ge, hheight.le⟩
  have hnil := outcome_taken_eq_nil env nullHash (h.pool call mem_cons_self)
  have hreturned : (s.outcome env nullHash call).returned = [] :=
    (handleBlockToMainChain_takes rfl).2 hnil
  refine ⟨hhardFork.1, ?_, hhardFork.2.1, hhardFork.2.2⟩
  simp only [BatchNode.handleBlock, BatchNode.poolOperations, hnil, hreturned, hhardFork.1, ne_eq,
    not_true_eq_false, false_and, if_false, map_nil, nil_append]
  split_ifs
  · exact ⟨_, rfl⟩
  · exact ⟨_, rfl⟩

/-- All blocks of a batch. -/
theorem handleBlocks_keeps (hw : 1 ≤ s.hardFork.windowSize) (h : Traceless s calls) :
    Keeps calls.length s (s.handleBlocks env poolEnv nullHash calls) := by
  induction calls generalizing s with
  | nil => exact ⟨rfl, ⟨_, rfl⟩, le_rfl, le_rfl⟩
  | cons call calls ih =>
    obtain ⟨hhardFork, ⟨cache, hpool⟩, hge, hle⟩ := handleBlock_keeps env poolEnv nullHash hw h
    have hrest : Traceless (s.handleBlock env poolEnv nullHash call) calls := by
      refine ⟨fun c hc ↦ ?_, fun c hc ↦ ?_, fun height hlow hhigh ↦ ?_⟩
      · rw [hpool]
        exact h.pool c (mem_cons_of_mem _ hc)
      · rw [hhardFork]
        exact h.votes c (mem_cons_of_mem _ hc)
      · rw [hhardFork]
        exact h.forks height (by omega) (by rw [length_cons]; omega)
    obtain ⟨hhardFork', ⟨cache', hpool'⟩, hge', hle'⟩ := ih (hhardFork.symm ▸ hw) hrest
    refine ⟨hhardFork'.trans hhardFork, ⟨cache', ?_⟩, hge.trans hge', ?_⟩
    · rw [hpool] at hpool'
      exact hpool'
    · rw [length_cons]
      exact hle'.trans (by omega)

/-- An aborted batch leaves the memory in step with the database if it was so before and
the batch leaves no trace. -/
theorem batch_abort_in_step (env : Env K P H (Transaction K P)) (poolEnv : Pool.Env K P H R)
    (nullHash : H) {s : BatchNode K P H R} (hs : InStep s) (hw : 1 ≤ s.hardFork.windowSize)
    {calls : List (BlockCall K P H)} (htraceless : Traceless s calls)
    (hfail : (s.batchStart.handleBlocks env poolEnv nullHash calls).batchSuccess = false) :
    InStep ((s.batchStart.handleBlocks env poolEnv nullHash calls).cleanupHandleIncomingBlocks
      s) := by
  have hstart : Traceless s.batchStart calls :=
    ⟨htraceless.pool, htraceless.votes, htraceless.forks⟩
  obtain ⟨hhardFork, ⟨cache, hpool⟩, -, -⟩ :=
    handleBlocks_keeps env poolEnv nullHash (s := s.batchStart) hw hstart
  rw [BatchNode.cleanupHandleIncomingBlocks, hfail, if_neg Bool.false_ne_true]
  refine ⟨?_, ?_, ?_⟩
  · rw [BatchNode.batchAbort, hhardFork]
    exact hs.hardFork
  · rw [BatchNode.batchAbort, hpool]
    exact hs.sorted
  · rw [BatchNode.batchAbort, hpool]
    exact hs.added

/-! ## Two batches -/

def failingEnv (height : ℕ) : Env ℕ Unit ℕ (Transaction ℕ Unit) where
  hash := length
  longTermBlockWeightsWindow := 1
  checkpoints := []
  blocksHashCheck := replicate 3 (none, 1)
  getTransactionHash := Pool.trustingEnv.getTransactionHash
  getTransactionWeight := fun _ ↦ 1
  getTransactionWeightOfBlob := fun _ _ ↦ 1
  getPrunedTransactionWeight := fun _ ↦ 1
  parseTx := fun _ tx ↦ some tx
  getPrunedTx := fun _ _ ↦ none
  checkProofOfWork := fun _ _ _ ↦ true
  checkAlternativeProofOfWork := fun _ _ _ _ _ ↦ true
  verNonInputConsensus := fun _ _ ↦ true
  checkTxInputs := fun _ _ _ _ ↦ true
  removeTxpoolTxThrows := fun _ ↦ false
  addBlockThrows := fun chain _ _ ↦ chain.length = height
  addTx := fun _ _ ↦ none
  validatePool := fun pool _ ↦ pool

def coinbase (height reward : ℕ) : Transaction ℕ Unit :=
  ⟨1, height + 60, [.gen height], [⟨reward, .toKey⟩], [], .null, [], 0, false⟩

/-- All coins are generated, so that each block adds the final subsidy. -/
def batchRow (height : ℕ) : Row (BlockBody ℕ Unit ℕ) :=
  ⟨⟨height, coinbase height 0, []⟩, ⟨1, 1⟩, 0, 1, 1, height + 1, 2 ^ 64 - 1⟩

def batchCall (height fee : ℕ) (txHashes : List ℕ) : BlockCall ℕ Unit ℕ :=
  ⟨0, ⟨⟨1, 1⟩, 0, ⟨height, coinbase height (300000000000 + fee), txHashes⟩⟩, height + 1, [],
    Pool.trustingView⟩

def batchOperations : List (Pool.Operation ℕ Unit ℕ) :=
  [.init 0, .addTx Pool.trustingView (Pool.spendingTx 7 1) .fluff false 16 0]

def batchNode (windowSize : ℕ) : BatchNode ℕ Unit ℕ ℕ where
  weights := WeightState.start 0 [batchRow 0] 1
    (RollingMedian.new 1 (fun _ ↦ 0) (fun _ ↦ 0) fun _ ↦ 0)
  hardFork := { oneFork 1 with windowSize := windowSize }.init ⟨[⟨1, 1⟩], fun _ ↦ 1⟩
  hardForkDb := ⟨[⟨1, 1⟩], fun _ ↦ 1⟩
  pool := Pool.run Pool.trustingEnv batchOperations (Pool.TxMemoryPool.new Table.empty)
  invalidBlocks := []
  batchSuccess := true

/-- The first block has the transaction of the pool and is added, the second
one is where the database throws. -/
theorem batch_abort_out_of_step : let s := batchNode 2
    let batch := s.batchStart.handleBlocks (failingEnv 2) Pool.trustingEnv 0
      [batchCall 1 7 [7], batchCall 2 0 []]
    let after := batch.cleanupHandleIncomingBlocks s
    (s.hardFork.Rescanned s.hardForkDb ∧ s.pool.sortedIds = s.pool.txpool.keys) ∧
      batch.batchSuccess = false ∧ after.hardForkDb.blocks = [⟨1, 1⟩] ∧
      after.hardFork.versions = [1, 1] ∧ (after.hardFork.init after.hardForkDb).versions = [1] ∧
      after.pool.txpool.keys = [7] ∧ after.pool.sortedIds = [] := by
  refine ⟨⟨⟨rfl, rfl, rfl⟩, ?_⟩, ?_⟩
  · decide +kernel
  · decide +kernel

theorem batch_abort_in_step_unanimous : let s := batchNode 1
    let batch := s.batchStart.handleBlocks (failingEnv 2) Pool.trustingEnv 0
      [batchCall 1 0 [], batchCall 2 0 []]
    batch.weights.chain.length = 2 ∧ batch.batchSuccess = false ∧
      InStep (batch.cleanupHandleIncomingBlocks s) := by
  have hsorted : (batchNode 1).pool.sortedIds = (batchNode 1).pool.txpool.keys := by decide +kernel
  have hadded : (batchNode 1).pool.addedTxsById.keys = (batchNode 1).pool.txpool.keys := by
    decide +kernel
  refine ⟨by decide +kernel, by decide +kernel, batch_abort_in_step (failingEnv 2)
    Pool.trustingEnv 0 ⟨⟨rfl, rfl, rfl⟩, fun id ↦ by rw [hsorted], fun id ↦ by rw [hadded]⟩
    (by decide +kernel) ⟨by simp [batchCall], ?_, fun height hlow hhigh ↦ ?_⟩ (by decide +kernel)⟩
  · exact forall_mem_cons.mpr ⟨by decide +kernel, forall_mem_singleton.mpr (by decide +kernel)⟩
  · have hone : (batchNode 1).hardForkDb.height = 1 := rfl
    rw [hone] at hlow hhigh
    simp only [length_cons, length_nil] at hhigh
    interval_cases height
    · decide +kernel
    · decide +kernel

end Monero.Blockchain
