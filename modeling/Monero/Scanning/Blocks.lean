import Monero.Scanning.Transaction

/-!
# Blocks and reorganisations

`process_new_blockchain_entry`, `process_parsed_blocks`, `detach_blockchain` and
`handle_reorg` of `wallet2.cpp`.  A batch of blocks is scanned ahead with the table of
subaddresses as it is before the batch.
-/

namespace Monero.Scanning

open Monero.Lib TransferDetails

section Blocks

variable (env : Env)

/-! ## A block -/

variable (table : List SubaddressIndex)

/-- The answers of a batch: only the first output of an old miner transaction is scanned ahead. -/
def scanAhead (minerTx : Bool) (tx : Tx) : Precomputed :=
  ⟨table,
    if minerTx ∧ env.refreshType = .optimizeCoinbase ∧ tx.version < 2 then 1 else tx.vout.length⟩

def Block.circumstances (b : Block) (height : ℕ) (minerTx : Bool) : Circumstances :=
  ⟨height, b.majorVersion, b.timestamp, minerTx, false, false⟩

/-- The transactions of a block that are processed, with the mark of the miner's. -/
def Block.processed (b : Block) : List (Bool × TxEntry) :=
  (if env.refreshType = .noCoinbase then [] else [(true, b.minerTx)]) ++
    b.txs.map fun e ↦ (false, e)

def processBlockTx (b : Block) (height : ℕ) (w : Wallet)
    (e : Bool × TxEntry) : Except String Wallet :=
  processNewTransaction env (b.circumstances height e.1) e.2 (scanAhead env table e.1 e.2.tx) w

def processNewBlockchainEntry (b : Block) (height : ℕ) (w : Wallet) : Except String Wallet := do
  check (height = w.blockchain.length) "New blockchain entry mismatch"
  let w ← (if env.shouldSkipBlock b.timestamp height then .ok w
    else (b.processed env).foldlM (processBlockTx env table b height) w : Except String Wallet)
  return { w with blockchain := w.blockchain ++ [b.hash] }

/-! ## Going back -/

/-- An output that was spent at the height or above is neither spent nor frozen. -/
def TransferDetails.reset (height : ℕ) (td : TransferDetails) : TransferDetails :=
  if td.spent ∧ height ≤ td.spentHeight then { td.setUnspent with frozen := false } else td

def eraseFound (message : String) (m : Table ℕ ℕ) (key : ℕ) : Except String (Table ℕ ℕ) :=
  match m.get? key with
  | none => .error message
  | some _ => .ok (m.erase key)

/-- All transfers go from the first one at the height or above. -/
def detachBlockchain (height : ℕ) (w : Wallet) : Except String Wallet := do
  let transfers := w.transfers.map (reset height)
  let detached := transfers.dropWhile fun td ↦ td.blockHeight < height
  let keyImages ← ((detached.filter keyImageKnown).map keyImage).foldlM
    (eraseFound "key image not found") w.keyImages
  let pubKeys ← (detached.map key).foldlM (eraseFound "public key not found") w.pubKeys
  return { w with
    transfers := transfers.takeWhile fun td ↦ td.blockHeight < height
    keyImages := keyImages
    pubKeys := pubKeys
    blockchain := w.blockchain.take height
    payments := w.payments.filter fun p ↦ p.2.blockHeight < height
    confirmedTxs := w.confirmedTxs.filter fun d ↦ d.blockHeight < height
    backgroundTxs := w.backgroundTxs.filter fun t ↦ t.height < height
    outputTrackerCache := w.outputTrackerCache.map fun _ ↦ [] }

def handleReorg (height : ℕ) (w : Wallet) : Except String Wallet := do
  let w ← detachBlockchain height w
  return if w.backgroundSyncing ∧ height < w.backgroundStartHeight then
      { w with backgroundStartHeight := height }
    else w

/-! ## A batch of blocks -/

/-- A block at its height: it is new, it is known, or the chain splits before it. -/
def placeBlock (startHeight : ℕ) (w : Wallet) (b : Block × ℕ) : Except String Wallet :=
  match w.blockchain[b.2]? with
  | none => processNewBlockchainEntry env table b.1 b.2 w
  | some known =>
    if b.1.hash = known then .ok w
    else do
      check (b.2 ≠ startHeight)
        "wrong daemon response: split starts from the first block in response"
      check (w.blockchain.length - b.2 ≤ env.maxReorgDepth) "reorg exceeds maximum allowed depth"
      let w ← handleReorg b.2 w
      processNewBlockchainEntry env table b.1 b.2 w

/-- Whether each block is the parent of the next one, and the block known before them of the
first. -/
def parentsMatch (before : Option ℕ) : List Block → Bool
  | [] => true
  | b :: rest => before.all (· = b.prevId) && parentsMatch (some b.hash) rest

def processParsedBlocks (startHeight : ℕ) (blocks : List Block) (w : Wallet) :
    Except String Wallet := do
  check (startHeight < w.blockchain.length) "out_of_hashchain_bounds_error"
  let before := if startHeight = 0 then none else w.blockchain[startHeight - 1]?
  check (parentsMatch before blocks = true) "Parent block hash mismatch"
  (blocks.zipIdx startHeight).foldlM (placeBlock env w.subaddresses startHeight) w

end Blocks

end Monero.Scanning
