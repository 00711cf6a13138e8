import Monero.Blockchain.MainChain

/-!
# Alternative blocks

`handle_alternative_block` stores a block that does not extend the main chain,
with the height, the cumulative difficulty and the generated coins computed
from its parent.  `switch_to_alternative_blockchain` later hands the blocks of
the alternative chain to `handle_block_to_main_chain`, one after the other.
-/

namespace Monero.Blockchain

open HardFork

variable {K P H D : Type*}

abbrev AltStore (K P H : Type*) := H → Option (StoredAltBlock (BlockBody K P H) H)

structure AltParent where
  height : ℕ
  cumulativeDifficulty : ℕ
  alreadyGeneratedCoins : ℕ
  deriving DecidableEq, Repr

/-- A block that was stored.  `switches` is set when the alternative chain is
switched to right away, with the flag to discard the main chain. -/
structure AcceptedAlternative (K P H D : Type*) where
  data : StoredAltBlock (BlockBody K P H) H
  altChain : List (BlockExtendedInfo (BlockBody K P H))
  pool : Pool K P H D
  switches : Option Bool

inductive AlternativeOutcome (K P H D : Type*) where
  | rejected (bvc : BlockVerificationContext)
  | orphaned
  | stored (accepted : AcceptedAlternative K P H D)

/-- A block of the alternative chain, with its hash and the time at which it
is connected. -/
structure ConnectCall (K P H : Type*) where
  now : ℕ
  block : Block K P H
  id : H

structure ConnectStep (K P H D : Type*) where
  node : Node K P H D
  block : Block K P H
  outcome : BlockOutcome K P H D

def isAlternativeBlockAllowed (points : List (ℕ × H)) (blockchainHeight blockHeight : ℕ) : Bool :=
  if blockHeight = 0 then false
  else
    match (points.filter fun p ↦ p.1 ≤ blockchainHeight).getLast? with
    | none => true
    | some p => p.1 < blockHeight

/-- `alt_block_data_t` of a block, with the difficulty split into two words. -/
def altBlockData (parent : AltParent) (b : Block K P H) (difficulty cumulativeWeight : ℕ) :
    StoredAltBlock (BlockBody K P H) H :=
  let cumulativeDifficulty := (parent.cumulativeDifficulty + difficulty) % 2 ^ 128
  { block := b.body
    versions := b.versions
    timestamp := b.timestamp
    prevId := b.body.prevId
    height := parent.height + 1
    cumulativeWeight := cumulativeWeight
    cumulativeDifficultyLow := cumulativeDifficulty % 2 ^ 64
    cumulativeDifficultyHigh := cumulativeDifficulty / 2 ^ 64 % 2 ^ 64
    alreadyGeneratedCoins :=
      addGeneratedCoins parent.alreadyGeneratedCoins (getOutsMoneyAmount b.body.minerTx) }

/-- `have_tx` for `relay_category::legacy` -/
def haveTx (pool : Pool K P H D) (id : H) : Bool := (pool id).any PoolTx.legacy

namespace Env

variable [DecidableEq H] (env : Env K P H D)

/-- The parent in the alternative chain or, if that is empty, in the main
chain. -/
def altParent (chain : StoredChain K P H) (getAltBlock : AltStore K P H)
    (alt : List (BlockExtendedInfo (BlockBody K P H))) (prevId : H) : AltParent :=
  match alt, getAltBlock prevId with
  | _ :: _, some prev =>
    ⟨prev.height, prev.extendedInfo.cumulativeDifficulty, prev.alreadyGeneratedCoins⟩
  | _, _ =>
    let height := (getBlockHeight env.hash chain prevId).getD 0
    ⟨height, getBlockCumulativeDifficulty chain height, getBlockAlreadyGeneratedCoins chain height⟩

/-- The transactions that came with the block enter the pool; `none` is the
return value `false`. -/
def admitSupplement (nullHash : H) (chain : StoredChain K P H) (hfVersion : UInt8) :
    Pool K P H D → Supplement K P H D → Option (Pool K P H D)
  | pool, [] => some pool
  | pool, (txid, tx, blob) :: supplement =>
    if haveTx pool txid || env.txExists chain txid then
      admitSupplement nullHash chain hfVersion pool supplement
    else
      match env.addTx pool ⟨tx, env.getTransactionHash tx, blob,
        env.getTransactionWeightOfBlob tx blob, hfVersion, nullHash⟩ with
      | none => none
      | some pool => admitSupplement nullHash chain hfVersion pool supplement

/-- The weight is set to zero when a transaction is unknown; `none` is the
return value `false`. -/
def altCumulativeWeight (chain : StoredChain K P H) (pool : Pool K P H D) : ℕ → List H → Option ℕ
  | weight, [] => some weight
  | weight, txid :: txids =>
    match (pool txid).filter PoolTx.legacy with
    | some entry =>
      match env.parsePoolTx entry with
      | none => none
      | some _ => altCumulativeWeight chain pool (weight + entry.weight) txids
    | none =>
      match env.getPrunedTx chain txid with
      | none => some 0
      | some none => none
      | some (some tx) =>
        altCumulativeWeight chain pool (weight + env.getPrunedTransactionWeight tx) txids

/-- The checks on a block with a known parent, in the order of the source. -/
def checkAlternativeBlock (now : ℕ) (node : Node K P H D) (b : Block K P H) (id : H)
    (supplement : Supplement K P H D) (alt : List (BlockExtendedInfo (BlockBody K P H)))
    (timestamps : List ℕ) (height difficulty : ℕ) (hfVersion : UInt8) :
    Option BlockVerificationContext :=
  let failed : BlockVerificationContext := { verifivationFailed := true }
  if !checkBlockTimestamp now timestamps b.timestamp then some failed
  else if !checkBlock env.checkpoints height id then some failed
  else if difficulty = 0 then some {}
  else if !env.checkAlternativeProofOfWork node.chain alt b height difficulty then
    some { verifivationFailed := true, badPow := true }
  else if !prevalidateMinerTransaction b.body height hfVersion then some failed
  else if !env.verNonInputConsensus supplement hfVersion then some failed
  else none

/-- Whether the alternative chain takes over after the block is stored. -/
def switches (node : Node K P H D) (data : StoredAltBlock (BlockBody K P H) H) : Option Bool :=
  if env.checkpoints.any fun p ↦ p.1 = data.height then some true
  else if getBlockCumulativeDifficulty node.chain (node.chain.length - 1) <
      data.extendedInfo.cumulativeDifficulty then some false
  else none

def handleAlternativeBlock (nullHash : H) (fuel now : ℕ) (node : Node K P H D)
    (getAltBlock : AltStore K P H) (b : Block K P H) (id : H) (supplement : Supplement K P H D) :
    AlternativeOutcome K P H D :=
  let chain := node.chain
  let blockHeight := b.body.getBlockHeight
  let hfVersion := node.hardFork.getIdealVersion blockHeight
  let failed : BlockVerificationContext := { verifivationFailed := true }
  if blockHeight = 0 then .rejected failed
  else if !isAlternativeBlockAllowed env.checkpoints chain.length blockHeight then .rejected failed
  else if !node.hardFork.checkForHeight b.versions blockHeight then .rejected failed
  else if (getAltBlock b.body.prevId).isNone ∧
      (getBlockHeight env.hash chain b.body.prevId).isNone then .orphaned
  else
    match buildAltChain env.hash getAltBlock fuel chain b.body.prevId with
    | none => .rejected {}
    | some (alt, timestamps) =>
      let parent := env.altParent chain getAltBlock alt b.body.prevId
      let difficulty :=
        getNextDifficultyForAlternativeChain node.hardFork chain alt (parent.height + 1)
      match env.checkAlternativeBlock now node b id supplement alt timestamps (parent.height + 1)
          difficulty hfVersion with
      | some bvc => .rejected bvc
      | none =>
        match env.admitSupplement nullHash chain hfVersion node.pool supplement with
        | none => .rejected failed
        | some pool =>
          match env.altCumulativeWeight chain pool (env.getTransactionWeight b.body.minerTx)
              b.body.txHashes with
          | none => .rejected failed
          | some weight =>
            if (getAltBlock id).isSome then .rejected {}
            else
              let data := altBlockData parent b difficulty weight
              .stored ⟨data, alt ++ [data.extendedInfo], pool, env.switches node data⟩

/-! ## Connecting an alternative chain -/

/-- `none` stands for the rollback after a block that is not added. -/
def connectBlock (nullHash : H) (s : Node K P H D × List (ConnectStep K P H D))
    (call : ConnectCall K P H) : Option (Node K P H D × List (ConnectStep K P H D)) :=
  let outcome := env.handleBlockToMainChain nullHash call.now s.1 call.block call.id []
  if outcome.returnValue && outcome.bvc.addedToMainChain then
    some (outcome.node, s.2 ++ [⟨s.1, call.block, outcome⟩])
  else none

/-- The loop of `switch_to_alternative_blockchain`, on the node whose main
chain ends at the split. -/
def connectAlternativeChain (nullHash : H) (node : Node K P H D)
    (calls : List (ConnectCall K P H)) : Option (Node K P H D × List (ConnectStep K P H D)) :=
  calls.foldlM (env.connectBlock nullHash) (node, [])

end Env

end Monero.Blockchain
