import Monero.Blockchain.MinerTx
import Monero.Blockchain.AltChain

/-!
# Adding a block to the main chain

`handle_block_to_main_chain` checks a block, takes its transactions out of the
pool or out of the supplement that came with the block, and adds it to the
database.  On most of its failing exits it hands the transactions that came
from the pool back to `tx_memory_pool::add_tx`.

The difficulty is computed without the caches, which do not show.
-/

namespace Monero.Blockchain

open HardFork Monero.Epee

/-- A transaction of the pool with its `txpool_tx_meta_t`.  `parsed` is its
entry in `m_parsed_tx_cache`, and `legacy` whether it matches
`relay_category::legacy`. -/
structure PoolTx (K P H D : Type*) where
  blob : D
  parsed : Option (Transaction K P)
  weight : ℕ
  fee : ℕ
  validInputVerificationId : H
  pruned : Bool
  legacy : Bool

abbrev Pool (K P H D : Type*) := H → Option (PoolTx K P H D)

abbrev Supplement (K P H D : Type*) := List (H × Transaction K P × D)

structure AddTxCall (K P H D : Type*) where
  tx : Transaction K P
  txid : H
  blob : D
  weight : ℕ
  hfVersion : UInt8
  validInputVerificationId : H

abbrev StoredChain (K P H : Type*) := List (Row (BlockBody K P H))

/-- What block handling calls and what is settled at start-up: hashes,
serialisation, proof checks, checkpoints, and the failures of the database.
`blocksHashCheck` holds a hash, where one is known, and a weight for each of
the first heights, `getPrunedTx` finds a stored transaction and parses it, and
`addTx` returns `none` for `false`. -/
structure Env (K P H D : Type*) where
  hash : StoredChain K P H → H
  longTermBlockWeightsWindow : ℕ
  checkpoints : List (ℕ × H)
  blocksHashCheck : List (Option H × ℕ)
  getTransactionHash : Transaction K P → H
  getTransactionWeight : Transaction K P → ℕ
  getTransactionWeightOfBlob : Transaction K P → D → ℕ
  getPrunedTransactionWeight : Transaction K P → ℕ
  parseTx : Bool → D → Option (Transaction K P)
  getPrunedTx : StoredChain K P H → H → Option (Option (Transaction K P))
  checkProofOfWork : Block K P H → ℕ → ℕ → Bool
  checkAlternativeProofOfWork : StoredChain K P H → List (BlockExtendedInfo (BlockBody K P H)) →
    Block K P H → ℕ → ℕ → Bool
  verNonInputConsensus : Supplement K P H D → UInt8 → Bool
  checkTxInputs : StoredChain K P H → UInt8 → Transaction K P → H → Bool
  removeTxpoolTxThrows : H → Bool
  addBlockThrows : StoredChain K P H → Block K P H → List (Transaction K P × D) → Bool
  addTx : Pool K P H D → AddTxCall K P H D → Option (Pool K P H D)
  validatePool : Pool K P H D → UInt8 → Pool K P H D

structure Node (K P H D : Type*) where
  weights : WeightState (BlockBody K P H) H
  hardFork : HardFork
  hardForkDb : Db
  pool : Pool K P H D
  invalidBlocks : List H

structure BlockVerificationContext where
  addedToMainChain : Bool := false
  verifivationFailed : Bool := false
  badPow : Bool := false
  missingTxs : Bool := false
  partialBlockReward : Bool := false
  deriving DecidableEq, Repr

structure TxMeta (H : Type*) where
  txid : H
  weight : ℕ
  inMempool : Bool
  validInputVerificationId : H

/-- The local variables of the loop over the transactions of the block.
`taken` records the calls of `take_tx` that removed a transaction. -/
structure TxLoop (K P H D : Type*) where
  pool : Pool K P H D
  supplement : Supplement K P H D
  txs : List (Transaction K P × D)
  txsMeta : List (TxMeta H)
  feeSummary : ℕ
  cumulativeBlockWeight : ℕ
  nPruned : ℕ
  taken : List H

inductive TxLoopExit where
  | alreadyInChain
  | missing
  | wrongInputs
  deriving DecidableEq, Repr

/-- What `handle_block_to_main_chain` returns and leaves behind: its return
value, the calls of `take_tx` that removed a transaction, the calls of `add_tx`,
and the reward and the fees that it logs. -/
structure BlockOutcome (K P H D : Type*) where
  returnValue : Bool
  node : Node K P H D
  bvc : BlockVerificationContext
  taken : List H
  returned : List (AddTxCall K P H D)
  baseReward : ℕ
  feeSummary : ℕ

variable {K P H D : Type*}

def Node.chain (node : Node K P H D) : StoredChain K P H := node.weights.chain

/-! ## Checkpoints -/

def isInCheckpointZone (points : List (ℕ × H)) (height : ℕ) : Bool :=
  points.any fun p ↦ height ≤ p.1

variable [DecidableEq H]

def checkBlock (points : List (ℕ × H)) (height : ℕ) (id : H) : Bool :=
  match points.find? fun p ↦ p.1 = height with
  | none => true
  | some p => p.2 = id

namespace Env

variable (env : Env K P H D)

/-! ## The transactions of the block -/

variable (chain : StoredChain K P H)

def txExists (id : H) : Bool :=
  chain.any fun row ↦ row.block.txHashes.contains id ||
    decide (env.getTransactionHash row.block.minerTx = id)

def parsePoolTx (entry : PoolTx K P H D) : Option (Transaction K P) :=
  entry.parsed.or (env.parseTx entry.pruned entry.blob)

/-- `none` is the return value `false`, which leaves the pool as it is. -/
def takeTx (pool : Pool K P H D) (id : H) :
    Option (PoolTx K P H D × Transaction K P × Pool K P H D) :=
  match pool id with
  | none => none
  | some entry =>
    match env.parsePoolTx entry with
    | none => none
    | some tx =>
      if env.removeTxpoolTxThrows id then none
      else some (entry, tx, Function.update pool id none)

def acceptTx (hfVersion : UInt8) (fastCheck : Bool)
    (s : TxLoop K P H D) (id : H) (inMempool : Bool) (tx : Transaction K P) (blob : D)
    (weight fee : ℕ) (validInputVerificationId : H) (pruned : Bool) :
    Except (TxLoopExit × TxLoop K P H D) (TxLoop K P H D) :=
  let s := { s with
    txs := s.txs ++ [(tx, blob)]
    txsMeta := s.txsMeta ++ [⟨id, weight, inMempool, validInputVerificationId⟩]
    nPruned := if pruned then s.nPruned + 1 else s.nPruned }
  if !fastCheck && !env.checkTxInputs chain hfVersion tx validInputVerificationId then
    .error (.wrongInputs, s)
  else
    .ok { s with
      feeSummary := addAmount s.feeSummary fee
      cumulativeBlockWeight := s.cumulativeBlockWeight + weight }

/-- One round of the loop over the transaction hashes.  `nullHash` is the
verification id of a transaction that was not in the pool. -/
def takeBlockTx (nullHash : H) (chain : StoredChain K P H) (hfVersion : UInt8) (fastCheck : Bool)
    (s : TxLoop K P H D) (id : H) : Except (TxLoopExit × TxLoop K P H D) (TxLoop K P H D) :=
  if env.txExists chain id then .error (.alreadyInChain, s)
  else
    match env.takeTx s.pool id with
    | some (entry, tx, pool) =>
      env.acceptTx chain hfVersion fastCheck { s with pool := pool, taken := s.taken ++ [id] } id
        true tx entry.blob entry.weight entry.fee entry.validInputVerificationId entry.pruned
    | none =>
      -- the supplement is asked only for what is not in the pool
      match s.supplement.lookup id with
      | some (tx, blob) =>
        env.acceptTx chain hfVersion fastCheck
          { s with supplement := s.supplement.filter fun extra ↦ extra.1 ≠ id } id false tx blob
          (if tx.pruned then env.getPrunedTransactionWeight tx
            else env.getTransactionWeightOfBlob tx blob)
          (getTxFee tx) nullHash tx.pruned
      | none => .error (.missing, s)

def addTxCall (hfVersion : UInt8) (tx : (Transaction K P × D) × TxMeta H) :
    Option (AddTxCall K P H D) :=
  if tx.2.inMempool then
    some ⟨tx.1.1, tx.2.txid, tx.1.2, tx.2.weight, hfVersion, tx.2.validInputVerificationId⟩
  else none

def returnedTxs (hfVersion : UInt8) (s : TxLoop K P H D) : List (AddTxCall K P H D) :=
  if s.txsMeta.length ≠ s.txs.length then []
  else (s.txs.zip s.txsMeta).filterMap (addTxCall hfVersion)

/-- A transaction that cannot be handed back is only logged. -/
def tryAddTx (pool : Pool K P H D) (call : AddTxCall K P H D) : Pool K P H D :=
  (env.addTx pool call).getD pool

def returnTxsToPool (hfVersion : UInt8) (s : TxLoop K P H D) : Pool K P H D :=
  (returnedTxs hfVersion s).foldl env.tryAddTx s.pool

/-! ## The block -/

/-- The checks before any transaction is taken.  It yields whether the block
has a hash that is known beforehand, and the difficulty. -/
def precheck (now : ℕ) (node : Node K P H D) (b : Block K P H) (id : H)
    (supplement : Supplement K P H D) : Except BlockVerificationContext (Bool × ℕ) :=
  let chain := node.chain
  let height := chain.length
  let hfVersion := node.hardFork.getCurrentVersion
  let failed : BlockVerificationContext := { verifivationFailed := true }
  let expected := (env.blocksHashCheck[height]?.bind Prod.fst)
  let fastCheck := expected.isSome
  let difficulty := uncachedDifficulty (getDifficultyTarget node.hardFork) chain
  if b.body.prevId ≠ env.hash chain then .error failed
  else if !node.hardFork.check b.versions then .error failed
  else if !checkBlockTimestampMainChain now chain b.timestamp then .error failed
  else if difficulty = 0 then .error {}
  else if expected.any fun hash ↦ hash ≠ id then .error failed
  else if !fastCheck && !env.checkProofOfWork b height difficulty then
    .error { verifivationFailed := true, badPow := true }
  else if isInCheckpointZone env.checkpoints height && !checkBlock env.checkpoints height id then
    .error failed
  else if !prevalidateMinerTransaction b.body height hfVersion then .error failed
  else if !fastCheck && !env.verNonInputConsensus supplement hfVersion then .error failed
  else .ok (fastCheck, difficulty)

/-- The weight recorded for a height, which stands in for the weight of a
block with pruned transactions; zero where none is known. -/
def knownWeight (height : ℕ) : ℕ := (env.blocksHashCheck[height]?.map Prod.snd).getD 0

variable (node : Node K P H D)

def reject (s : TxLoop K P H D) (bvc : BlockVerificationContext) : BlockOutcome K P H D where
  returnValue := false
  node := { node with pool := env.returnTxsToPool node.hardFork.getCurrentVersion s }
  bvc := bvc
  taken := s.taken
  returned := returnedTxs node.hardFork.getCurrentVersion s
  baseReward := 0
  feeSummary := s.feeSummary

/-- The cumulative difficulty is a 128-bit number. -/
def newCumulativeDifficulty (difficulty : ℕ) : ℕ :=
  (difficulty + getBlockCumulativeDifficulty chain (chain.length - 1)) % 2 ^ 128

/-- `add_block` and what follows it.  `none` is an exception of the database;
`update_next_cumulative_weight_limit` has no other return value than `true`. -/
def addBlock (node : Node K P H D) (b : Block K P H) (s : TxLoop K P H D)
    (blockWeight difficulty baseReward : ℕ) : Option (Node K P H D) :=
  let chain := node.chain
  let hfVersion := node.hardFork.getCurrentVersion
  match { node.weights with version := hfVersion }.getNextLongTermBlockWeight env.hash
      env.longTermBlockWeightsWindow blockWeight with
  | none => none
  | some (weights, longTermBlockWeight) =>
    if env.addBlockThrows chain b s.txs then none
    else
      let row : Row (BlockBody K P H) :=
        ⟨b.body, b.versions, b.timestamp, blockWeight, longTermBlockWeight,
          newCumulativeDifficulty chain difficulty,
          addGeneratedCoins (getBlockAlreadyGeneratedCoins chain (chain.length - 1)) baseReward⟩
      -- the database drops the return value of `HardFork::add`
      let (hardFork, hardForkDb) := (HardFork.addBlock (node.hardFork, node.hardForkDb)
        b.versions).getD (node.hardFork, node.hardForkDb.addBlock b.versions)
      let version := hardFork.getCurrentVersion
      let weights := { weights with chain := chain ++ [row], version := version }
      some {
        weights := (weights.updateNextCumulativeWeightLimit env.hash
          env.longTermBlockWeightsWindow).getD weights
        hardFork := hardFork
        hardForkDb := hardForkDb
        pool := if version ≠ hfVersion ∧ 0 < chain.length then env.validatePool s.pool version
          else s.pool
        invalidBlocks := node.invalidBlocks }

def finishBlock (b : Block K P H) (s : TxLoop K P H D) (difficulty : ℕ) : BlockOutcome K P H D :=
  let chain := node.chain
  let height := chain.length
  if 0 < s.nPruned ∧ env.knownWeight height = 0 then
    -- `goto leave`, past `return_txs_to_pool`
    { returnValue := false, node := { node with pool := s.pool }, bvc := {}, taken := s.taken,
      returned := [], baseReward := 0, feeSummary := s.feeSummary }
  else
    let blockWeight := if 0 < s.nPruned then env.knownWeight height else s.cumulativeBlockWeight
    match validateMinerTransaction node.weights b.body.minerTx blockWeight s.feeSummary
        (getBlockAlreadyGeneratedCoins chain (height - 1)) node.hardFork.getCurrentVersion with
    | none => env.reject node s { verifivationFailed := true }
    | some (baseReward, isPartial) =>
      match env.addBlock node b s blockWeight difficulty baseReward with
      | none => env.reject node s { verifivationFailed := true, partialBlockReward := isPartial }
      | some node' =>
        { returnValue := true, node := node',
          bvc := { addedToMainChain := true, partialBlockReward := isPartial },
          taken := s.taken, returned := [], baseReward := baseReward,
          feeSummary := s.feeSummary }

def startLoop (b : Block K P H) (supplement : Supplement K P H D) : TxLoop K P H D :=
  ⟨node.pool, supplement, [], [], 0, env.getTransactionWeight b.body.minerTx, 0, []⟩

def takeBlockTxs (nullHash : H) (node : Node K P H D) (b : Block K P H)
    (supplement : Supplement K P H D) (fastCheck : Bool) :
    Except (TxLoopExit × TxLoop K P H D) (TxLoop K P H D) :=
  b.body.txHashes.foldlM
    (env.takeBlockTx nullHash node.chain node.hardFork.getCurrentVersion fastCheck)
    (env.startLoop node b supplement)

def handleBlockToMainChain (nullHash : H) (now : ℕ) (node : Node K P H D) (b : Block K P H)
    (id : H) (supplement : Supplement K P H D) : BlockOutcome K P H D :=
  match env.precheck now node b id supplement with
  | .error bvc => ⟨false, node, bvc, [], [], 0, 0⟩
  | .ok (fastCheck, difficulty) =>
    match env.takeBlockTxs nullHash node b supplement fastCheck with
    | .error (.wrongInputs, s) =>
      env.reject { node with invalidBlocks := node.invalidBlocks ++ [id] } s
        { verifivationFailed := true }
    | .error (.missing, s) =>
      env.reject node s { verifivationFailed := true, missingTxs := true }
    | .error (.alreadyInChain, s) => env.reject node s { verifivationFailed := true }
    | .ok s => env.finishBlock node b s difficulty

end Env

/-! ## A node for concrete runs -/

def trustingEnv (blocksHashCheck : List (Option ℕ × ℕ)) : Env Unit Unit ℕ Unit where
  hash := List.length
  longTermBlockWeightsWindow := 1
  checkpoints := []
  blocksHashCheck := blocksHashCheck
  getTransactionHash := fun _ ↦ 0
  getTransactionWeight := fun _ ↦ 1
  getTransactionWeightOfBlob := fun _ _ ↦ 1
  getPrunedTransactionWeight := fun _ ↦ 1
  parseTx := fun _ _ ↦ none
  getPrunedTx := fun _ _ ↦ none
  checkProofOfWork := fun _ _ _ ↦ true
  checkAlternativeProofOfWork := fun _ _ _ _ _ ↦ true
  verNonInputConsensus := fun _ _ ↦ true
  checkTxInputs := fun _ _ _ _ ↦ true
  removeTxpoolTxThrows := fun _ ↦ false
  addBlockThrows := fun _ _ _ ↦ false
  addTx := fun pool call ↦ some (Function.update pool call.txid (some ⟨call.blob, some call.tx,
    call.weight, getTxFee call.tx, call.validInputVerificationId, call.tx.pruned, true⟩))
  validatePool := fun pool _ ↦ pool

def minerTx (height reward : ℕ) : Transaction Unit Unit :=
  ⟨1, height + 60, [.gen height], [⟨reward, .toKey⟩], [], .null, [], 0, false⟩

def poolTx (pruned : Bool) : Transaction Unit Unit :=
  ⟨2, 0, [.toKey 0 [1] ()], [], [], .bulletproofPlus, [], 0, pruned⟩

def onePool (fee : ℕ) : Pool Unit Unit ℕ Unit :=
  fun id ↦ if id = 7 then some ⟨(), some (poolTx false), 1, fee, 0, false, true⟩ else none

def secondBlock (reward : ℕ) (txHashes : List ℕ) : Block Unit Unit ℕ :=
  ⟨⟨1, 1⟩, 0, ⟨1, minerTx 1 reward, txHashes⟩⟩

def minedRow (height coins : ℕ) : Row (BlockBody Unit Unit ℕ) :=
  ⟨⟨height, minerTx height 0, []⟩, ⟨1, 1⟩, 0, 1, 1, height + 1, coins⟩

def minedNode (chain : StoredChain Unit Unit ℕ) (pool : Pool Unit Unit ℕ Unit) :
    Node Unit Unit ℕ Unit where
  weights := WeightState.start 0 chain 1 (RollingMedian.new 1 (fun _ ↦ 0) (fun _ ↦ 0) fun _ ↦ 0)
  hardFork := oneFork 1
  hardForkDb := ⟨chain.map Row.versions, fun _ ↦ 1⟩
  pool := pool
  invalidBlocks := []

/-! ## A block that is added -/

open Lib

variable {K P H D : Type*}

lemma readAt_last {β : Type*} (f : Row β → ℕ) {base : List (Row β)} (hbase : base ≠ [])
    (rows : List (Row β)) :
    readAt f (base ++ rows) ((base ++ rows).length - 1) =
      (rows.map f).getLastD (readAt f base (base.length - 1)) := by
  have hpos := List.length_pos_iff.mpr hbase
  rcases List.eq_nil_or_concat rows with rfl | ⟨rows, row, rfl⟩
  · simp
  · rw [List.concat_eq_append, List.map_append, List.map_singleton, List.getLastD_concat,
      ← List.append_assoc]
    exact readAt_eq (by simp)

def lastCoins (rows : StoredChain K P H) : ℕ :=
  getBlockAlreadyGeneratedCoins rows (rows.length - 1)

structure AddedRow (chain : StoredChain K P H) (b : Block K P H) (difficulty baseReward : ℕ)
    (row : Row (BlockBody K P H)) : Prop where
  timestamp_eq : row.timestamp = b.timestamp
  cumulativeDifficulty_eq : row.cumulativeDifficulty =
    (difficulty + getBlockCumulativeDifficulty chain (chain.length - 1)) % 2 ^ 128
  alreadyGeneratedCoins_eq : row.alreadyGeneratedCoins =
    addGeneratedCoins (lastCoins chain) baseReward

def rowBlock (row : Row (BlockBody K P H)) : Block K P H :=
  ⟨row.versions, row.timestamp, row.block⟩

variable [DecidableEq H] {env : Env K P H D} {nullHash : H} {now : ℕ} {node node' : Node K P H D}
  {b : Block K P H} {id : H} {supplement : Supplement K P H D} {s : TxLoop K P H D}
  {blockWeight difficulty baseReward : ℕ}

lemma addBlock_row (h : env.addBlock node b s blockWeight difficulty baseReward = some node') :
    ∃ row, node'.chain = node.chain ++ [row] ∧ rowBlock row = b ∧
      AddedRow node.chain b difficulty baseReward row := by
  simp only [Env.addBlock] at h
  split at h
  · cases h
  · rename_i weights longTermBlockWeight _
    split at h
    · cases h
    cases h
    refine ⟨⟨b.body, b.versions, b.timestamp, blockWeight, longTermBlockWeight,
      Env.newCumulativeDifficulty node.chain difficulty, _⟩, ?_, rfl, ⟨rfl, rfl, rfl⟩⟩
    exact WeightState.getD_update_chain env.hash env.longTermBlockWeightsWindow _

lemma addBlock_hardFork (hcheck : node.hardFork.check b.versions = true)
    (h : env.addBlock node b s blockWeight difficulty baseReward = some node') :
    HardFork.addBlock (node.hardFork, node.hardForkDb) b.versions =
      some (node'.hardFork, node'.hardForkDb) := by
  obtain ⟨s', hs', -⟩ := addBlock_of_check hcheck node.hardForkDb
  simp only [Env.addBlock, hs', Option.getD_some] at h
  split at h
  · cases h
  split at h
  · cases h
  cases h
  exact hs'

lemma precheck_ok {fastCheck : Bool}
    (h : env.precheck now node b id supplement = .ok (fastCheck, difficulty)) :
    node.hardFork.check b.versions = true ∧
      difficulty = uncachedDifficulty (getDifficultyTarget node.hardFork) node.chain ∧
        prevalidateMinerTransaction b.body node.chain.length node.hardFork.getCurrentVersion =
          true := by
  simp only [Env.precheck, ite_error_eq_ok] at h
  obtain ⟨-, hcheck, -, -, -, -, -, hminer, -, heq⟩ := h
  cases heq
  exact ⟨by simpa using hcheck, rfl, by simpa using hminer⟩

lemma finishBlock_eq_added (h : (env.finishBlock node b s difficulty).returnValue = true) :
    ¬(0 < s.nPruned ∧ env.knownWeight node.chain.length = 0) ∧
      ∃ blockWeight baseReward isPartial node',
        validateMinerTransaction node.weights b.body.minerTx blockWeight s.feeSummary
          (getBlockAlreadyGeneratedCoins node.chain (node.chain.length - 1))
          node.hardFork.getCurrentVersion = some (baseReward, isPartial) ∧
        env.addBlock node b s blockWeight difficulty baseReward = some node' ∧
        env.finishBlock node b s difficulty = ⟨true, node',
          { addedToMainChain := true, partialBlockReward := isPartial }, s.taken, [], baseReward,
          s.feeSummary⟩ := by
  simp only [Env.finishBlock] at h ⊢
  split at h
  · cases h
  rename_i hpruned
  rw [if_neg hpruned]
  split at h
  · cases h
  rename_i baseReward isPartial hvalidate
  split at h
  · cases h
  · rename_i node' hadd
    exact ⟨hpruned, _, _, _, _, hvalidate, hadd, rfl⟩

section

variable (h : (env.handleBlockToMainChain nullHash now node b id supplement).returnValue = true)

include h

/-- The way through a call that returns `true`. -/
theorem handleBlockToMainChain_eq_added :
    ∃ fastCheck difficulty s, env.precheck now node b id supplement = .ok (fastCheck, difficulty) ∧
      env.takeBlockTxs nullHash node b supplement fastCheck = .ok s ∧
      env.handleBlockToMainChain nullHash now node b id supplement =
        env.finishBlock node b s difficulty := by
  rw [Env.handleBlockToMainChain] at h ⊢
  cases hpre : env.precheck now node b id supplement with
  | error bvc =>
    rw [hpre] at h
    cases h
  | ok pre =>
    rw [hpre] at h
    cases hloop : env.takeBlockTxs nullHash node b supplement pre.1 with
    | error e =>
      obtain ⟨exit, s⟩ := e
      simp only [hloop] at h
      cases exit <;> cases h
    | ok s => exact ⟨_, _, s, rfl, hloop, by simp [hloop]⟩

lemma handleBlockToMainChain_added :
    node.hardFork.check b.versions = true ∧ ∃ s blockWeight, env.addBlock node b s blockWeight
        (uncachedDifficulty (getDifficultyTarget node.hardFork) node.chain)
        (env.handleBlockToMainChain nullHash now node b id supplement).baseReward =
          some (env.handleBlockToMainChain nullHash now node b id supplement).node := by
  obtain ⟨fastCheck, difficulty, s, hpre, -, hfinish⟩ := handleBlockToMainChain_eq_added h
  obtain ⟨hcheck, rfl, -⟩ := precheck_ok hpre
  rw [hfinish] at h ⊢
  obtain ⟨-, blockWeight, _, _, _, -, hadd, houtcome⟩ := finishBlock_eq_added h
  rw [houtcome]
  exact ⟨hcheck, s, blockWeight, hadd⟩

end

end Monero.Blockchain
