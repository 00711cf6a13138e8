import Monero.Blockchain.PoolReturn

/-!
# Rolling the main chain back

`rollback_blockchain_switching` pops blocks down to a height and connects the
blocks that are to stand there.  Popping undoes a block in the database and in
the hard fork object, and hands its transactions to the pool.
-/

namespace Monero.Blockchain

open HardFork List

variable {K P H D : Type*}

/-- The hash of a block, what popping a block reads, and the clock, which is read
once for each block that is handled. -/
structure ReorgEnv (K P H D : Type*) extends Env K P H D where
  nullHash : H
  getBlockHash : Block K P H → H
  poppedTxs : StoredChain K P H → List (Transaction K P × D)
  inputVerificationId : StoredChain K P H → Transaction K P → H
  clock : ℕ → ℕ

structure ReorgState (K P H D : Type*) where
  node : Node K P H D
  clockReads : ℕ

def ReorgState.chain (s : ReorgState K P H D) : StoredChain K P H := s.node.chain

variable (s : ReorgState K P H D) (node : Node K P H D)

def ReorgState.withNode : ReorgState K P H D :=
  { s with node := node }

def Node.withWeights (weights : WeightState (BlockBody K P H) H) : Node K P H D :=
  { node with weights := weights }

def Node.reorganizeHardFork (height : ℕ) : Node K P H D :=
  let (hardFork, hardForkDb) := (node.hardFork.reorganizeFromChainHeight node.hardForkDb
    height).getD (node.hardFork, node.hardForkDb)
  { node with hardFork := hardFork, hardForkDb := hardForkDb }

namespace ReorgEnv

variable [DecidableEq H] (env : ReorgEnv K P H D)

/-! ## Popping -/

/-- A transaction of the popped block goes back to the pool; a failure is only
logged. -/
def returnPoppedTx (chain : StoredChain K P H) (version : UInt8) (pool : Pool K P H D)
    (tx : Transaction K P × D) : Pool K P H D :=
  if tx.1.pruned then pool
  else
    match tx.1.vin with
    | [.gen _] => pool
    | _ => env.tryAddTx pool ⟨tx.1, env.getTransactionHash tx.1, tx.2,
        env.getTransactionWeightOfBlob tx.1 tx.2, version, env.inputVerificationId chain tx.1⟩

/-- `none` is the exception for the genesis block. -/
def popBlockFromBlockchain (node : Node K P H D) : Option (Node K P H D × Block K P H) :=
  match node.chain.getLast? with
  | none => none
  | some row =>
    if node.chain.length ≤ 1 then none
    else
      let chain := node.chain.dropLast
      let previousVersion := node.hardFork.getCurrentVersion
      let hardForkDb := node.hardForkDb.popBlocks 1
      let hardFork := (node.hardFork.onBlockPopped hardForkDb 1).getD node.hardFork
      let version := hardFork.getCurrentVersion
      let pool := (env.poppedTxs node.chain).foldl
        (env.returnPoppedTx chain (hardFork.getIdealVersion chain.length)) node.pool
      some ({ weights := { node.weights with chain := chain, version := version }
              hardFork := hardFork
              hardForkDb := hardForkDb
              pool := if version ≠ previousVersion then env.validatePool pool version else pool
              invalidBlocks := node.invalidBlocks }, rowBlock row)

/-- `none` is an exception. -/
def updateWeightLimit (node : Node K P H D) : Option (Node K P H D) :=
  (node.weights.updateNextCumulativeWeightLimit env.hash env.longTermBlockWeightsWindow).map
    node.withWeights

/-! ## Connecting -/

def handleBlock (s : ReorgState K P H D) (b : Block K P H) : Bool × ReorgState K P H D :=
  let outcome := env.handleBlockToMainChain env.nullHash (env.clock s.clockReads) s.node b
    (env.getBlockHash b) []
  (outcome.returnValue && outcome.bvc.addedToMainChain,
    { s with node := outcome.node, clockReads := s.clockReads + 1 })

/-- The blocks are added until one is refused; it and those after it are
returned. -/
def connectBlocks (s : ReorgState K P H D) :
    List (Block K P H) → ReorgState K P H D × List (Block K P H)
  | [] => (s, [])
  | b :: blocks =>
    if (env.handleBlock s b).1 then connectBlocks (env.handleBlock s b).2 blocks
    else ((env.handleBlock s b).2, b :: blocks)

/-- `while (m_db->height() != rollback_height)` -/
def popToHeight (rollbackHeight : ℕ) : ℕ → Node K P H D → Option (Node K P H D)
  | 0, _ => none
  | fuel + 1, node =>
    if node.chain.length = rollbackHeight then some node
    else (env.popBlockFromBlockchain node).bind fun popped ↦
      popToHeight rollbackHeight fuel popped.1

/-- The return value is whether the original chain was put back. -/
def rollbackBlockchainSwitching (s : ReorgState K P H D) (originalChain : List (Block K P H))
    (rollbackHeight : ℕ) : Option (Bool × ReorgState K P H D) :=
  if s.chain.length < rollbackHeight then some (true, s)
  else
    (env.popToHeight rollbackHeight (s.chain.length + 1) s.node).bind fun node ↦
      (env.updateWeightLimit node).map fun node ↦
        let (s, refused) := env.connectBlocks (s.withNode (node.reorganizeHardFork rollbackHeight))
          originalChain
        if refused.isEmpty then (true, s.withNode (s.node.reorganizeHardFork rollbackHeight))
        else (false, s)

end ReorgEnv

/-! ## What each part does to the chain -/

section

variable [DecidableEq H] {env : ReorgEnv K P H D} {node node' : Node K P H D} {b : Block K P H}

omit [DecidableEq H] in
lemma popBlockFromBlockchain_eq_some (h : env.popBlockFromBlockchain node = some (node', b)) :
    ∃ row, node.chain = node'.chain ++ [row] ∧ b = rowBlock row := by
  simp only [ReorgEnv.popBlockFromBlockchain] at h
  split at h
  · cases h
  · rename_i row hlast
    split at h
    · cases h
    · cases h
      exact ⟨row, (dropLast_append_getLast? row hlast).symm, rfl⟩

lemma updateWeightLimit_chain
    (h : env.updateWeightLimit node = some node') : node'.chain = node.chain := by
  obtain ⟨weights, hweights, rfl⟩ := Option.map_eq_some_iff.mp h
  exact WeightState.updateNextCumulativeWeightLimit_chain hweights

omit [DecidableEq H] in
lemma popToHeight_eq_some {rollbackHeight fuel : ℕ}
    (h : env.popToHeight rollbackHeight fuel node = some node') :
    node'.chain.length = rollbackHeight ∧ ∃ rows, node.chain = node'.chain ++ rows := by
  induction fuel generalizing node with
  | zero => cases h
  | succ fuel ih =>
    rw [ReorgEnv.popToHeight] at h
    split at h
    · rename_i hheight
      cases h
      exact ⟨hheight, [], by simp⟩
    · obtain ⟨⟨popped, b⟩, hpop, hrest⟩ := Option.bind_eq_some_iff.mp h
      obtain ⟨row, hchain, -⟩ := popBlockFromBlockchain_eq_some hpop
      obtain ⟨hheight, rows, hrows⟩ := ih hrest
      refine ⟨hheight, rows ++ [row], ?_⟩
      rw [hchain, hrows, append_assoc]

end

/-! ## A chain for concrete runs

The hash of a block is its timestamp. -/

def timestampHash (chain : StoredChain Unit Unit ℕ) : ℕ :=
  (chain.getLast?.map Row.timestamp).getD 0

def timestampEnv : ReorgEnv Unit Unit ℕ Unit where
  toEnv := { trustingEnv [] with hash := timestampHash }
  nullHash := 0
  getBlockHash := Block.timestamp
  poppedTxs := fun _ ↦ []
  inputVerificationId := fun _ _ ↦ 0
  clock := fun _ ↦ 0

def timedBlock (height timestamp prevId : ℕ) : Block Unit Unit ℕ :=
  ⟨⟨1, 1⟩, timestamp, ⟨prevId, minerTx height 17592186044415, []⟩⟩

def timedRow (height timestamp prevId cumulativeDifficulty : ℕ) : Row (BlockBody Unit Unit ℕ) :=
  ⟨(timedBlock height timestamp prevId).body, ⟨1, 1⟩, timestamp, 1, 1, cumulativeDifficulty, 0⟩

def timedChain : StoredChain Unit Unit ℕ :=
  [timedRow 0 9 0 1, timedRow 1 10 9 2, timedRow 2 30 10 3, timedRow 3 31 30 6]

end Monero.Blockchain
