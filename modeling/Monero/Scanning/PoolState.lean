import Monero.Scanning.Transaction

/-!
# Transactions that are not in a block

What a refresh does with the answer of the daemon about its pool, to the transactions of
the wallet that are not confirmed and to those that are new, and `commit_tx`.
-/

namespace Monero.Scanning

open Monero.Lib TransferDetails

structure PoolTx where
  entry : TxEntry
  doubleSpendSeen : Bool
  deriving DecidableEq

/-! ## Unconfirmed transactions -/

/-- `set_tx_key_images_spent`, for one input. -/
def setKeyImageSpent (spent : Bool) (w : Wallet) (input : TxIn) : Wallet :=
  match w.keyImages.get? input.keyImage with
  | none => w
  | some i =>
    match w.transfers[i]? with
    | none => w
    | some td =>
      if td.keyImage ≠ input.keyImage ∨ td.spent = spent then w
      else if spent then w.setSpent i 0
      else w.setUnspent i

def setTxKeyImagesSpent (tx : Tx) (spent : Bool) (w : Wallet) : Wallet :=
  tx.vin.foldl (setKeyImageSpent spent) w

/-- In seconds. -/
def txPropagationTimeout : ℕ := 500

structure PoolCheck where
  now : ℕ
  incremental : Bool
  refreshed : Bool

def setState (w : Wallet) (txid : ℕ) (d : UnconfirmedTransferDetails) (state : TransferState) :
    Wallet :=
  { w with unconfirmedTxs := w.unconfirmedTxs.set txid { d with state := state } }

variable (p : PoolCheck)

/-- A transaction that is not in the pool any more is pending. -/
def unseenState (d : UnconfirmedTransferDetails) : TransferState :=
  if p.incremental = false ∧ d.state = .pendingInPool then .pending else d.state

/-- A transaction that is pending for long without being in the pool has failed, and its inputs are
not spent any more. -/
def processUnconfirmedTransfer (seenInPool : ℕ → Bool) (w : Wallet) (txid : ℕ) : Wallet :=
  match w.unconfirmedTxs.get? txid with
  | none => w
  | some d =>
    if seenInPool txid then setTxKeyImagesSpent d.tx true (setState w txid d .pendingInPool)
    else if unseenState p d = .pending ∧ p.refreshed ∧
        d.sentTime + txPropagationTimeout < p.now then
      setTxKeyImagesSpent d.tx false (setState w txid d .failed)
    else setState w txid d (unseenState p d)

def processUnconfirmedTransfers (seenInPool : ℕ → Bool) (w : Wallet) : Wallet :=
  w.unconfirmedTxs.keys.foldl (processUnconfirmedTransfer p seenInPool) w

/-! ## The pool -/

def removeObsoletePoolTxs (txHashes : List ℕ) (removeIfFound : Bool) (w : Wallet) : Wallet :=
  { w with unconfirmedPayments := w.unconfirmedPayments.filter fun p ↦
    txHashes.contains p.2.pd.txHash != removeIfFound }

/-- Transactions that are known are not processed again, unless they pay to another account of the
wallet. -/
def acceptPoolTxForProcessing (w : Wallet) (txid : ℕ) : Bool :=
  if w.unconfirmedPayments.any fun p ↦ p.2.pd.txHash = txid then false
  else if w.scannedPoolTxs.1.contains txid || w.scannedPoolTxs.2.contains txid then false
  else match w.unconfirmedTxs.get? txid with
    | none => true
    | some utd => utd.dests.any fun dest ↦ match dest.subaddress with
        | none => false
        | some index => w.subaddresses.contains index && index.major != utd.subaddrAccount

/-- The wallet, and the transactions of the pool that are to be processed. -/
def updatePoolStateFromPoolData (removed : List ℕ) (added : List PoolTx) (w : Wallet) :
    Wallet × List PoolTx :=
  let addedTxids := added.map fun t ↦ t.entry.txid
  let w := if p.refreshed then
      if p.incremental then removeObsoletePoolTxs removed true w
      else removeObsoletePoolTxs addedTxids false w
    else w
  let w := processUnconfirmedTransfers p (fun txid ↦ addedTxids.contains txid) w
  (w, added.filter fun t ↦ acceptPoolTxForProcessing w t.entry.txid)

/-- The hashes of the pool are asked for first; `answer` is what the daemon has of the transactions
that are asked for then. -/
def updatePoolStateByPoolQuery (now : ℕ) (refreshed : Bool) (hashes : List ℕ)
    (answer : List ℕ → List PoolTx) (w : Wallet) : Wallet × List PoolTx :=
  let w := processUnconfirmedTransfers ⟨now, false, refreshed⟩ (fun txid ↦ hashes.contains txid) w
  let w := if refreshed then removeObsoletePoolTxs hashes false w else w
  let txids := hashes.filter (acceptPoolTxForProcessing w)
  (w, (answer txids).filter fun t ↦ txids.contains t.entry.txid)

/-- At most 5000 hashes are kept in a list. -/
def rememberScanned (w : Wallet) (txid : ℕ) : Wallet :=
  let scanned := txid :: w.scannedPoolTxs.1.filter (· ≠ txid)
  { w with scannedPoolTxs :=
    if 5000 < scanned.length then ([], scanned) else (scanned, w.scannedPoolTxs.2) }

def processPoolTx (env : Env) (now : ℕ) (w : Wallet) (t : PoolTx) : Except String Wallet := do
  let w ← processNewTransaction env ⟨0, 0, now, false, true, t.doubleSpendSeen⟩
    { t.entry with outputIndices := [] } .none w
  return rememberScanned w t.entry.txid

def processPoolState (env : Env) (now : ℕ) (txs : List PoolTx) (w : Wallet) :
    Except String Wallet :=
  txs.foldlM (processPoolTx env now) w

/-! ## Sending -/

structure PendingTx where
  txid : ℕ
  tx : Tx
  selectedTransfers : List ℕ
  dests : List Dest
  paymentId : ℕ
  change : ℕ
  subaddrAccount : ℕ
  subaddrIndices : List ℕ

/-- What is kept of a transaction that the daemon accepted. -/
def commitTx (env : Env) (now : ℕ) (ptx : PendingTx) (w : Wallet) : Except String Wallet := do
  check (∀ idx ∈ ptx.selectedTransfers, idx < w.transfers.length)
    "Bad output index in selected transfers"
  if (w.transfers.any fun td ↦ td.txid = ptx.txid) ∨ (w.unconfirmedTxs.get? ptx.txid).isSome ∨
      (w.confirmedTxs.get? ptx.txid).isSome then return w
  else
    let amountIn := (ptx.selectedTransfers.map fun idx ↦ ((w.transfers[idx]?).map
      amount).getD 0).sum % 2 ^ 64
    let dests := if env.storeTxInfo then ptx.dests else []
    let w := addUnconfirmedTx w ptx.txid ptx.tx (if env.storeTxInfo then amountIn else 0)
      (((dests.map Dest.amount).sum + ptx.change) % 2 ^ 64) dests
        (if env.storeTxInfo then ptx.paymentId else nullHash)
      ptx.change now ptx.subaddrAccount ptx.subaddrIndices
    return ptx.selectedTransfers.foldl (fun w idx ↦ w.setSpent idx 0) w

end Monero.Scanning
