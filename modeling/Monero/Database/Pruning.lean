import Monero.Database.Ledger
import Monero.Lib.Codec

/-!
# Pruning

A pruned database keeps the prunable part of a transaction if its block is among
the last `CRYPTONOTE_PRUNING_TIP_BLOCKS` or in the stripe of the seed.  The table
`txs_prunable_tip` lists the transactions of the last blocks, so that an update
needs to look only at those that have left the tip since the last one.
-/

namespace Monero.Database

open Lib

/-! ## Stripes -/

def cryptonotePruningStripeSize : ℕ := 4096

def cryptonotePruningLogStripes : ℕ := 3

def cryptonotePruningTipBlocks : ℕ := 5500

def getPruningLogStripes (pruningSeed : ℕ) : ℕ := pruningSeed >>> 7 &&& 0x7

def getPruningStripe (pruningSeed : ℕ) : ℕ :=
  if pruningSeed = 0 then 0 else 1 + (pruningSeed >>> 0 &&& 0x7f)

def makePruningSeed (stripe logStripes : ℕ) : Except DbError ℕ :=
  if 0x7 < logStripes then .error .runtimeError
  else if stripe = 0 ∨ 1 <<< logStripes < stripe then .error .runtimeError
  else .ok (logStripes <<< 7 ||| (stripe - 1) <<< 0)

/-- The overload of `get_pruning_stripe` that takes heights. -/
def getPruningStripeAt (blockHeight blockchainHeight logStripes : ℕ) : ℕ :=
  if blockchainHeight ≤ blockHeight + cryptonotePruningTipBlocks then 0
  else (blockHeight / cryptonotePruningStripeSize &&& 1 <<< logStripes - 1) + 1

variable (blockHeight blockchainHeight pruningSeed : ℕ)

def hasUnprunedBlock : Bool :=
  let stripe := getPruningStripe pruningSeed
  if stripe = 0 then true
  else
    let blockStripe :=
      getPruningStripeAt blockHeight blockchainHeight (getPruningLogStripes pruningSeed)
    blockStripe = 0 ∨ blockStripe = stripe

def cryptonoteMaxBlockNumber : ℕ := 500000000

def getNextUnprunedBlockHeight : ℕ :=
  if cryptonoteMaxBlockNumber + 1 < blockHeight then blockHeight
  else if cryptonoteMaxBlockNumber + 1 < blockchainHeight then blockHeight
  else
    let stripe := getPruningStripe pruningSeed
    if stripe = 0 then blockHeight
    else if blockchainHeight ≤ blockHeight + cryptonotePruningTipBlocks then blockHeight
    else
      let seedLogStripes := getPruningLogStripes pruningSeed
      let logStripes :=
        if seedLogStripes ≠ 0 then seedLogStripes else cryptonotePruningLogStripes
      let mask := 1 <<< logStripes - 1
      let blockPruningStripe := (blockHeight / cryptonotePruningStripeSize &&& mask) + 1
      if blockPruningStripe = stripe then blockHeight
      else
        let cycles := (blockHeight / cryptonotePruningStripeSize) >>> logStripes
        let cycleStart := cycles + if blockPruningStripe < stripe then 0 else 1
        let h := cycleStart * (cryptonotePruningStripeSize <<< logStripes) +
          (stripe - 1) * cryptonotePruningStripeSize
        if blockchainHeight < h + cryptonotePruningTipBlocks then
          if blockchainHeight < cryptonotePruningTipBlocks then 0
          else blockchainHeight - cryptonotePruningTipBlocks
        else if h < blockHeight then blockHeight
        else h

/-! ## The tables -/

section

variable {H K PK C X : Type} [LinearOrder H] [LinearOrder K]

/-- The tables that pruning changes.  A row of `txs_prunable_tip` is only ever put
with the value it has, so that the table needs no duplicates. -/
structure PruneTables where
  txsPrunable : Table ℕ Blob
  txsPrunableTip : Table ℕ ℕ

structure PruningDb (H K PK C : Type*) [LinearOrder H] [LinearOrder K] where
  db : Db H K PK C
  txsPrunableTip : Table ℕ ℕ
  /-- the row `pruning_seed` of `properties` -/
  pruningSeed : Option ℕ

namespace PruningDb

variable (s : PruningDb H K PK C)

def getBlockchainPruningSeed : ℕ := s.pruningSeed.getD 0

def tables : PruneTables := ⟨s.db.txsPrunable, s.txsPrunableTip⟩

def withTables (t : PruneTables) : PruningDb H K PK C :=
  { s with db := { s.db with txsPrunable := t.txsPrunable }, txsPrunableTip := t.txsPrunableTip }

def unpruned (db : Db H K PK C) : PruningDb H K PK C := ⟨db, .empty, none⟩

/-! ## Adding -/

def addTransaction (env : Env H K PK C X) (s : PruningDb H K PK C) (tx : Tx K PK C X) (blob : Blob)
    (txHash : H) : Except DbError (PruningDb H K PK C) := do
  let db ← Database.addTransaction env s.db tx blob txHash
  let txsPrunableTip :=
    if s.getBlockchainPruningSeed ≠ 0 then s.txsPrunableTip.set s.db.getTxCount s.db.height
    else s.txsPrunableTip
  .ok { s with db, txsPrunableTip }

def addTransactions (env : Env H K PK C X) (s : PruningDb H K PK C)
    (txs : List ((Tx K PK C X × Blob) × H)) : Except DbError (PruningDb H K PK C) :=
  txs.foldlM (fun s p ↦ s.addTransaction env p.1.1 p.1.2 p.2) s

def addBlock (env : Env H K PK C X) (s : PruningDb H K PK C) (e : Entry H K PK C X) :
    Except DbError (PruningDb H K PK C) :=
  if e.blk.txHashes.length ≠ e.txs.length then .error .runtimeError
  else do
    let s ← s.addTransaction env e.blk.minerTx (env.txToBlob e.blk.minerTx)
      (env.getTransactionHash e.blk.minerTx)
    let s ← s.addTransactions env (e.txs.zip e.blk.txHashes)
    let db ← addBlockRow env s.db e
    .ok { s with db }

end PruningDb

/-! ## Pruning -/

variable (txsPruned : Table ℕ Blob)

/-- `is_v1_tx` on the bytes that are never pruned. -/
def isV1Tx (txId : ℕ) : Except DbError Bool := do
  let blob ← orThrow .dbError (txsPruned.get? txId)
  if blob.length = 0 then .error .dbError
  else
    let version ← orThrow .runtimeError ((Codec.varint 64).read blob)
    .ok (version.1 ≤ 1)

/-- Whether the prunable part of a transaction goes: the version is looked up only
for a block that is not kept. -/
def isPruned (blockchainHeight pruningSeed txId blockHeight : ℕ) : Except DbError Bool :=
  if hasUnprunedBlock blockHeight blockchainHeight pruningSeed then .ok false
  else (isV1Tx txsPruned txId).map not

/-- What is removed for a transaction that has left the tip. -/
def PruneTables.remove (t : PruneTables) (pruned : Bool) (txId : ℕ) : PruneTables :=
  ⟨if pruned then t.txsPrunable.erase txId else t.txsPrunable, t.txsPrunableTip.erase txId⟩

/-- Prunable records removed before the database transaction is committed. -/
def pruningCommitCount : ℕ := 4096

/-- The loop over `txs_prunable_tip`, from the cursor to the end of the table or to
a commit; the flag tells which. -/
def pruneTipFrom (txsPruned : Table ℕ Blob) (blockchainHeight pruningSeed : ℕ) :
    List (ℕ × ℕ) → ℕ → PruneTables → Except DbError (Bool × PruneTables)
  | [], _, t => .ok (false, t)
  | (txId, blockHeight) :: rows, commitCounter, t =>
    if blockHeight + cryptonotePruningTipBlocks < blockchainHeight then do
      let pruned ← isPruned txsPruned blockchainHeight pruningSeed txId blockHeight
      let commitCounter :=
        if pruned ∧ (t.txsPrunable.get? txId).isSome then commitCounter + 1 else commitCounter
      if pruningCommitCount ≤ commitCounter then .ok (true, t.remove pruned txId)
      else
        pruneTipFrom txsPruned blockchainHeight pruningSeed rows commitCounter
          (t.remove pruned txId)
    else pruneTipFrom txsPruned blockchainHeight pruningSeed rows commitCounter t

/-- After a commit the cursor is a new one, whose `MDB_NEXT` is the first row.  A
commit comes after a removal from the table, so that its number of rows bounds the
rounds. -/
def pruneTip (txsPruned : Table ℕ Blob) (blockchainHeight pruningSeed : ℕ) :
    ℕ → PruneTables → Except DbError PruneTables
  | 0, _ => .error .dbError
  | fuel + 1, t => do
      let r ← pruneTipFrom txsPruned blockchainHeight pruningSeed t.txsPrunableTip.rows 0 t
      if r.1 then pruneTip txsPruned blockchainHeight pruningSeed fuel r.2 else .ok r.2

inductive PruneMode
  | prune
  | update
  | check
  deriving DecidableEq

/-- The body of the loop over `tx_indices`.  A commit in it puts the cursor back on
the same row, and checking only writes to the log. -/
def pruneIndex (mode : PruneMode) (blockchainHeight pruningSeed : ℕ)
    (t : PruneTables) (data : TxData) : Except DbError PruneTables := do
  let inTip : Bool := blockchainHeight ≤ data.blockId + cryptonotePruningTipBlocks
  let pruned ← isPruned txsPruned blockchainHeight pruningSeed data.txId data.blockId
  .ok
    { txsPrunable :=
        if pruned ∧ mode ≠ .check then t.txsPrunable.erase data.txId else t.txsPrunable
      txsPrunableTip :=
        if inTip ∧ mode ≠ .check then t.txsPrunableTip.set data.txId data.blockId
        else t.txsPrunableTip }

def pruneIndices (db : Db H K PK C) (mode : PruneMode) (pruningSeed : ℕ) (t : PruneTables) :
    Except DbError PruneTables :=
  (db.txIndices.rows.map Prod.snd).foldlM
    (pruneIndex db.txsPruned mode db.height pruningSeed) t

/-- `prune_worker`; `randomStripe` is what `get_random_stripe` returns. -/
def pruneWorker (randomStripe : ℕ) (mode : PruneMode) (pruningSeed : ℕ) (s : PruningDb H K PK C) :
    Except DbError (PruningDb H K PK C) :=
  let logStripes := getPruningLogStripes pruningSeed
  let stripe := getPruningStripe pruningSeed
  if logStripes ≠ 0 ∧ logStripes ≠ cryptonotePruningLogStripes then .error .dbError
  else if 1 <<< cryptonotePruningLogStripes < stripe then .error .dbError
  else
    match s.pruningSeed with
    | none =>
      if mode ≠ .prune then .ok s
      else do
        let seed ← makePruningSeed (if stripe = 0 then randomStripe else stripe)
          cryptonotePruningLogStripes
        let t ← pruneIndices s.db mode seed s.tables
        .ok { s.withTables t with pruningSeed := some seed }
    | some data =>
      let stripe := if stripe = 0 then getPruningStripe data else stripe
      if getPruningStripe data ≠ stripe then .error .dbError
      else if getPruningLogStripes data ≠ cryptonotePruningLogStripes then .error .dbError
      else do
        let seed ← makePruningSeed stripe cryptonotePruningLogStripes
        let t ←
          if mode = .update then
            pruneTip s.db.txsPruned s.db.height seed (s.txsPrunableTip.count + 1) s.tables
          else pruneIndices s.db mode seed s.tables
        .ok (s.withTables t)

def pruneBlockchain (randomStripe pruningSeed : ℕ) (s : PruningDb H K PK C) :
    Except DbError (PruningDb H K PK C) := pruneWorker randomStripe .prune pruningSeed s

def updatePruning (s : PruningDb H K PK C) : Except DbError (PruningDb H K PK C) :=
  pruneWorker 0 .update 0 s

/-! ## Runs -/

inductive PruningOperation (H K PK C X : Type*) where
  | add (e : Entry H K PK C X)
  | update

def pruningStep (env : Env H K PK C X) (s : PruningDb H K PK C) :
    PruningOperation H K PK C X → Except DbError (PruningDb H K PK C)
  | .add e => s.addBlock env e
  | .update => updatePruning s

def pruningRun (env : Env H K PK C X) (s : PruningDb H K PK C)
    (ops : List (PruningOperation H K PK C X)) : Except DbError (PruningDb H K PK C) :=
  ops.foldlM (pruningStep env) s

def addedBlocks (ops : List (PruningOperation H K PK C X)) : List (Entry H K PK C X) :=
  ops.filterMap fun
    | .add e => some e
    | .update => none

end

end Monero.Database
