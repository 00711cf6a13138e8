import Monero.Lib.Table
import Monero.Blockchain.Chain

/-!
# The chain tables of the database

`BlockchainDB::add_block` and `pop_block` with the functions of
`BlockchainLMDB` they call.  Identifiers are not kept anywhere: the id of a
transaction and the index of an output among those of its amount are numbers
of rows at the time of insertion, and the global id of an output is one above
the last one.  Pruning is not enabled.
-/

namespace Monero.Database

open Lib
open Blockchain (TxIn)

abbrev Blob := List UInt8

/-- The exceptions of the database, and two of the standard library. -/
inductive DbError where
  | dbError
  | blockExists
  | blockParentDne
  | blockDne
  | txExists
  | txDne
  | keyImageExists
  | outputDne
  | runtimeError
  | lengthError
  deriving DecidableEq, Repr

def orThrow {α : Type} (e : DbError) : Option α → Except DbError α
  | none => .error e
  | some a => .ok a

@[simp] lemma orThrow_some {α : Type} (e : DbError) (a : α) : orThrow e (some a) = .ok a := rfl

@[simp] lemma orThrow_eq_ok {α : Type} {e : DbError} {o : Option α} {a : α} :
    orThrow e o = .ok a ↔ o = some a := by
  cases o <;> simp [orThrow]

/-- `tx_out`; a target without a public key has `none`. -/
structure Output (PK : Type*) where
  amount : ℕ
  key : Option PK
  deriving DecidableEq

/-- A transaction with the masks of `rct_signatures.outPk`; `rest` is what the
database does not look into. -/
structure Tx (K PK C X : Type*) where
  version : ℕ
  unlockTime : ℕ
  vin : List (TxIn K)
  vout : List (Output PK)
  outPk : List C
  unprunableSize : ℕ
  rest : X
  deriving DecidableEq

/-- What a transaction says: `unprunable_size` only remembers, for a parsed
transaction, a size that is zero before. -/
def Tx.content {K PK C X : Type*} (tx : Tx K PK C X) : Tx K PK C X :=
  { tx with unprunableSize := 0 }

structure Block (H K PK C X : Type*) where
  majorVersion : ℕ
  minorVersion : ℕ
  timestamp : ℕ
  prevId : H
  nonce : ℕ
  minerTx : Tx K PK C X
  txHashes : List H
  deriving DecidableEq

def Block.content {H K PK C X : Type*} (blk : Block H K PK C X) : Block H K PK C X :=
  { blk with minerTx := blk.minerTx.content }

/-- Hashes, serialisation and parsing.  `serializeBase` is the writer of the
part that is never pruned, and `parseTxBase` reads it back; the parser knows
no version above 2. -/
structure Env (H K PK C X : Type*) where
  getBlockHash : Block H K PK C X → H
  getTransactionHash : Tx K PK C X → H
  getTransactionPrunableHash : Tx K PK C X → Blob → H
  txToBlob : Tx K PK C X → Blob
  serializeBase : Tx K PK C X → Option Blob
  blockToBlob : Block H K PK C X → Blob
  parseBlock : Blob → Option (Block H K PK C X)
  parseTx : Blob → Option (Tx K PK C X)
  parseTxBase : Blob → Option (Tx K PK C X)
  zeroCommit : ℕ → C
  hash_content : ∀ tx, getTransactionHash tx.content = getTransactionHash tx
  version_le : ∀ blob tx, parseTxBase blob = some tx → tx.version ≤ 2

/-! ## Tables -/

/-- `mdb_block_info` -/
structure BlockInfo (H : Type*) where
  height : ℕ
  timestamp : ℕ
  coins : ℕ
  weight : ℕ
  diffLo : ℕ
  diffHi : ℕ
  hash : H
  cumRct : ℕ
  longTermBlockWeight : ℕ
  deriving DecidableEq

/-- `tx_data_t` -/
structure TxData where
  txId : ℕ
  unlockTime : ℕ
  blockId : ℕ
  deriving DecidableEq

/-- `outtx` -/
structure OutTx (H : Type*) where
  txHash : H
  localIndex : ℕ
  deriving DecidableEq

/-- `outkey`, which keeps a commitment for amount zero only -/
structure OutKey (PK C : Type*) where
  outputId : ℕ
  pubkey : PK
  unlockTime : ℕ
  height : ℕ
  commitment : Option C
  deriving DecidableEq

/-- An amount without outputs has the empty table. -/
structure OutputTables (H PK C : Type*) where
  outputTxs : Table ℕ (OutTx H)
  outputAmounts : ℕ → Table ℕ (OutKey PK C)

structure Db (H K PK C : Type*) [LinearOrder H] [LinearOrder K] where
  blocks : Table ℕ Blob
  blockInfo : Table ℕ (BlockInfo H)
  blockHeights : Table H ℕ
  txIndices : Table H TxData
  txsPruned : Table ℕ Blob
  txsPrunable : Table ℕ Blob
  txsPrunableHash : Table ℕ H
  txOutputs : Table ℕ (List ℕ)
  outputs : OutputTables H PK C
  spentKeys : Table K Unit

section

variable {H K PK C X : Type} [LinearOrder H] [LinearOrder K]

namespace Db

def empty : Db H K PK C :=
  ⟨.empty, .empty, .empty, .empty, .empty, .empty, .empty, .empty, ⟨.empty, fun _ ↦ .empty⟩,
    .empty⟩

def height (db : Db H K PK C) : ℕ := db.blocks.count

def getTxCount (db : Db H K PK C) : ℕ := db.txsPruned.count

end Db

/-! ## Outputs -/

variable (o : OutputTables H PK C)

def OutputTables.numOutputs : ℕ :=
  match o.outputTxs.last? with
  | none => 0
  | some row => 1 + row.1

/-- `add_output`, which returns the index among the outputs of the amount. -/
def OutputTables.addOutput (height : ℕ) (txHash : H) (out : Output PK)
    (localIndex unlockTime : ℕ) (commitment : Option C) :
    Except DbError (ℕ × OutputTables H PK C) :=
  if out.amount = 0 ∧ commitment.isNone then .error .dbError
  else do
    let pubkey ← orThrow .dbError out.key
    let outputTxs ← orThrow .dbError (o.outputTxs.append? o.numOutputs ⟨txHash, localIndex⟩)
    let amountIndex := (o.outputAmounts out.amount).count
    let rows ← orThrow .dbError ((o.outputAmounts out.amount).append? amountIndex
      ⟨o.numOutputs, pubkey, unlockTime, height, if out.amount = 0 then commitment else none⟩)
    .ok (amountIndex, ⟨outputTxs, Function.update o.outputAmounts out.amount rows⟩)

variable (env : Env H K PK C X)

/-- The output and the commitment that `add_transaction` hands to
`add_output`: a miner output of version 2 is filed under amount zero. -/
def filedOutput (tx : Tx K PK C X) (minerTx : Bool) (i : ℕ)
    (out : Output PK) : Output PK × Option C :=
  if minerTx ∧ tx.version = 2 then ({ out with amount := 0 }, some (env.zeroCommit out.amount))
  else (out, if 1 < tx.version then tx.outPk[i]? else none)

def addOutputs (env : Env H K PK C X) (tx : Tx K PK C X) (minerTx : Bool) (txHash : H)
    (height : ℕ) :
    OutputTables H PK C → ℕ → List (Output PK) → Except DbError (List ℕ × OutputTables H PK C)
  | o, _, [] => .ok ([], o)
  | o, i, out :: outs => do
      let filed := filedOutput env tx minerTx i out
      let added ← o.addOutput height txHash filed.1 i tx.unlockTime filed.2
      let rest ← addOutputs env tx minerTx txHash height added.2 (i + 1) outs
      .ok (added.1 :: rest.1, rest.2)

def OutputTables.removeOutput (amount outIndex : ℕ) : Except DbError (OutputTables H PK C) := do
  let ok ← orThrow .outputDne ((o.outputAmounts amount).get? outIndex)
  let _ ← orThrow .dbError (o.outputTxs.get? ok.outputId)
  .ok ⟨o.outputTxs.erase ok.outputId,
    Function.update o.outputAmounts amount ((o.outputAmounts amount).erase outIndex)⟩

/-- The loop of `remove_tx_outputs`, from the last output to the first.  Fewer
indices than outputs are read beyond their end in the source. -/
def OutputTables.removeOutputs (o : OutputTables H PK C) :
    List ℕ → List ℕ → Except DbError (OutputTables H PK C)
  | [], _ => .ok o
  | _ :: _, [] => .error .dbError
  | amount :: amounts, index :: indices => do
      let o ← o.removeOutputs amounts indices
      o.removeOutput amount index

/-! ## Adding -/

/-- `add_spent_key` for the inputs, and whether one of them is `txin_gen`. -/
def addInput (s : Bool × Table K Unit) : TxIn K → Except DbError (Bool × Table K Unit)
  | .toKey _ _ keyImage => do
      let spentKeys ← orThrow .keyImageExists (s.2.insert? keyImage ())
      .ok (s.1, spentKeys)
  | .gen _ => .ok (true, s.2)
  | _ => .error .runtimeError

def addInputs (spentKeys : Table K Unit) (vin : List (TxIn K)) :
    Except DbError (Bool × Table K Unit) := vin.foldlM addInput (false, spentKeys)

def Env.getUnprunableSize (tx : Tx K PK C X) : Except DbError ℕ :=
  if tx.unprunableSize = 0 then (orThrow .dbError (env.serializeBase tx)).map List.length
  else .ok tx.unprunableSize

/-- Version 1 has no prunable hash. -/
def addPrunableHash (t : Table ℕ H) (tx : Tx K PK C X) (txId : ℕ) (hash : H) :
    Except DbError (Table ℕ H) :=
  if 1 < tx.version then orThrow .dbError (t.append? txId hash) else .ok t

variable (db : Db H K PK C)

def addTransactionData (tx : Tx K PK C X) (blob : Blob)
    (txHash txPrunableHash : H) : Except DbError (ℕ × Db H K PK C) := do
  let txId := db.getTxCount
  let txIndices ← orThrow .txExists (db.txIndices.insert? txHash ⟨txId, tx.unlockTime, db.height⟩)
  let size ← env.getUnprunableSize tx
  if blob.length < size then .error .dbError
  else do
    let txsPruned ← orThrow .dbError (db.txsPruned.append? txId (blob.take size))
    let txsPrunable ← orThrow .dbError (db.txsPrunable.append? txId (blob.drop size))
    let txsPrunableHash ← addPrunableHash db.txsPrunableHash tx txId txPrunableHash
    .ok (txId, { db with txIndices, txsPruned, txsPrunable, txsPrunableHash })

def addTransaction (tx : Tx K PK C X) (blob : Blob)
    (txHash : H) : Except DbError (Db H K PK C) := do
  let inputs ← addInputs db.spentKeys tx.vin
  let data ← addTransactionData env db tx blob txHash (env.getTransactionPrunableHash tx blob)
  let outs ← addOutputs env tx inputs.1 txHash db.height db.outputs 0 tx.vout
  let txOutputs ← orThrow .dbError (db.txOutputs.append? data.1 outs.1)
  .ok { data.2 with spentKeys := inputs.2, outputs := outs.2, txOutputs }

structure Entry (H K PK C X : Type*) where
  blk : Block H K PK C X
  blockWeight : ℕ
  longTermBlockWeight : ℕ
  cumulativeDifficulty : ℕ
  coinsGenerated : ℕ
  txs : List (Tx K PK C X × Blob)

variable (e : Entry H K PK C X)

/-- The count of `add_block`, which is made apart from the filing of outputs. -/
def Entry.numRctOuts : ℕ :=
  (if e.blk.minerTx.version = 2 then e.blk.minerTx.vout.length else 0) +
    (e.txs.map fun p ↦ p.1.vout.countP fun out ↦ out.amount = 0).sum

def Entry.blockInfo (height previous : ℕ) : BlockInfo H where
  height := height
  timestamp := e.blk.timestamp
  coins := e.coinsGenerated
  weight := e.blockWeight
  diffLo := e.cumulativeDifficulty % 2 ^ 64
  diffHi := e.cumulativeDifficulty / 2 ^ 64 % 2 ^ 64
  hash := env.getBlockHash e.blk
  cumRct := e.numRctOuts + previous
  longTermBlockWeight := e.longTermBlockWeight

/-- What a block of the given version adds its own outputs to: from version 4
on, `bi_cum_rct` of the block below, and there is none below the first block. -/
def Db.previousCumRct (majorVersion : ℕ) : Except DbError ℕ :=
  if majorVersion < 4 then .ok 0
  else if db.height = 0 then .error .blockDne
  else (orThrow .blockDne (db.blockInfo.get? (db.height - 1))).map BlockInfo.cumRct

/-- `BlockchainLMDB::add_block` -/
def addBlockRow : Except DbError (Db H K PK C) :=
  let height := db.height
  let blkHash := env.getBlockHash e.blk
  let parent := db.blockHeights.get? e.blk.prevId
  if (db.blockHeights.get? blkHash).isSome then .error .blockExists
  else if 0 < height ∧ parent.isNone then .error .dbError
  else if 0 < height ∧ parent ≠ some (height - 1) then .error .blockParentDne
  else do
    let blocks ← orThrow .dbError (db.blocks.append? height (env.blockToBlob e.blk))
    let previous ← db.previousCumRct e.blk.majorVersion
    let blockInfo ←
      orThrow .dbError (db.blockInfo.append? height (e.blockInfo env height previous))
    let blockHeights ← orThrow .dbError (db.blockHeights.insert? blkHash height)
    .ok { db with blocks, blockInfo, blockHeights }

/-- Transactions with their blobs, and the hashes that the block gives them. -/
def addTransactions (txs : List ((Tx K PK C X × Blob) × H)) : Except DbError (Db H K PK C) :=
  txs.foldlM (fun db p ↦ addTransaction env db p.1.1 p.1.2 p.2) db

/-- `BlockchainDB::add_block`, without the hard fork object. -/
def addBlock : Except DbError (Db H K PK C) :=
  if e.blk.txHashes.length ≠ e.txs.length then .error .runtimeError
  else do
    let db ← addTransaction env db e.blk.minerTx (env.txToBlob e.blk.minerTx)
      (env.getTransactionHash e.blk.minerTx)
    let db ← addTransactions env db (e.txs.zip e.blk.txHashes)
    addBlockRow env db e

/-! ## Removing -/

def removeBlock : Except DbError (Db H K PK C) :=
  if db.height = 0 then .error .blockDne
  else do
    let info ← orThrow .blockDne (db.blockInfo.get? (db.height - 1))
    let _ ← orThrow .dbError (db.blockHeights.get? info.hash)
    let _ ← orThrow .dbError (db.blocks.get? (db.height - 1))
    .ok { db with
      blocks := db.blocks.erase (db.height - 1)
      blockInfo := db.blockInfo.erase (db.height - 1)
      blockHeights := db.blockHeights.erase info.hash }

variable (txHash : H)

/-- `none` when there is no such transaction. -/
def getPrunedTxBlob : Option Blob :=
  (db.txIndices.get? txHash).bind fun data ↦ db.txsPruned.get? data.txId

def getTxBlob : Option Blob :=
  (db.txIndices.get? txHash).bind fun data ↦
    (db.txsPruned.get? data.txId).bind fun pruned ↦
      (db.txsPrunable.get? data.txId).map fun prunable ↦ pruned ++ prunable

def getPrunedTx : Except DbError (Option (Tx K PK C X)) :=
  match getPrunedTxBlob db txHash with
  | none => .ok none
  | some blob => (orThrow .dbError (env.parseTxBase blob)).map some

def getTx : Except DbError (Option (Tx K PK C X)) :=
  match getTxBlob db txHash with
  | none => .ok none
  | some blob => (orThrow .dbError (env.parseTx blob)).map some

/-- Whether `remove_tx_outputs` takes the outputs to be filed under amount
zero. -/
def isPseudoRct (tx : Tx K PK C X) : Bool :=
  match tx.vin with
  | [.gen _] => 2 ≤ tx.version
  | _ => false

def removalAmounts (tx : Tx K PK C X) : List ℕ :=
  tx.vout.map fun out ↦ if isPseudoRct tx then 0 else out.amount

def removePrunableHash (t : Table ℕ H) (tx : Tx K PK C X) (txId : ℕ) :
    Except DbError (Table ℕ H) :=
  if 1 < tx.version then (orThrow .dbError (t.get? txId)).map fun _ ↦ t.erase txId else .ok t

def removeTransactionData (tx : Tx K PK C X) : Except DbError (Db H K PK C) := do
  let data ← orThrow .txDne (db.txIndices.get? txHash)
  let _ ← orThrow .dbError (db.txsPruned.get? data.txId)
  let txsPrunableHash ← removePrunableHash db.txsPrunableHash tx data.txId
  -- a missing row leaves the vector of indices unset in the source
  let indices ← orThrow .dbError (db.txOutputs.get? data.txId)
  let outputs ← db.outputs.removeOutputs (removalAmounts tx) indices
  .ok { db with
    txIndices := db.txIndices.erase txHash
    txsPruned := db.txsPruned.erase data.txId
    txsPrunable := db.txsPrunable.erase data.txId
    txsPrunableHash
    txOutputs := db.txOutputs.erase data.txId
    outputs }

def keyImages (vin : List (TxIn K)) : List K := vin.filterMap fun
    | .toKey _ _ keyImage => some keyImage
    | _ => none

/-- `remove_spent_key` for the inputs, which does not mind a missing key. -/
def removeSpentKeys (spentKeys : Table K Unit) (vin : List (TxIn K)) : Table K Unit :=
  (keyImages vin).foldl Table.erase spentKeys

def removeTransaction : Except DbError (Db H K PK C) := do
  let found ← getPrunedTx env db txHash
  let tx ← orThrow .txDne found
  removeTransactionData { db with spentKeys := removeSpentKeys db.spentKeys tx.vin } txHash tx

/-- One round of the loop of `pop_block`. -/
def popTransaction (s : List (Tx K PK C X) × Db H K PK C) (txHash : H) :
    Except DbError (List (Tx K PK C X) × Db H K PK C) := do
  let found ← getTx env s.2 txHash
  let pruned ← if found.isNone then getPrunedTx env s.2 txHash else .ok found
  let tx ← orThrow .dbError pruned
  let db ← removeTransaction env s.2 txHash
  .ok (s.1 ++ [tx], db)

/-- `get_top_block`; the empty block that stands for no block is not taken
further, since `remove_block` throws on an empty chain. -/
def getTopBlock : Except DbError (Block H K PK C X) :=
  if db.height = 0 then .error .blockDne
  else do
    let blob ← orThrow .blockDne (db.blocks.get? (db.height - 1))
    orThrow .dbError (env.parseBlock blob)

def popBlock : Except DbError (Block H K PK C X × List (Tx K PK C X) × Db H K PK C) := do
  let blk ← getTopBlock env db
  let db ← removeBlock db
  let popped ← blk.txHashes.reverse.foldlM (popTransaction env) ([], db)
  let db ← removeTransaction env popped.2 (env.getTransactionHash blk.minerTx)
  .ok (blk, popped.1, db)

/-! ## Runs -/

inductive Operation (H K PK C X : Type*) where
  | add (e : Entry H K PK C X)
  | pop

def step (env : Env H K PK C X) (db : Db H K PK C) :
    Operation H K PK C X → Except DbError (Db H K PK C)
  | .add e => addBlock env db e
  | .pop => (popBlock env db).map fun popped ↦ popped.2.2

def run (env : Env H K PK C X) (db : Db H K PK C) (ops : List (Operation H K PK C X)) :
    Except DbError (Db H K PK C) := ops.foldlM (step env) db

end

end Monero.Database
