import Monero.Lib.Result
import Monero.Lib.Table

/-!
# The wallet's view of the chain

The containers of `wallet2` that scanning fills: transfers with their indices by key
image and by one-time key, payments, confirmed and unconfirmed transactions, the table
of subaddresses and the data of background synchronisation.  Keys, key images and
hashes are numbers.  What only the view key of the wallet can tell of an output is
given with the output.
-/

namespace Monero.Scanning

open Monero.Lib

/-! ## Transactions and blocks -/

structure SubaddressIndex where
  major : ℕ
  minor : ℕ
  deriving DecidableEq

/-- An input of type `txin_to_key`, with relative offsets. -/
structure TxIn where
  keyImage : ℕ
  amount : ℕ
  keyOffsets : List ℕ
  deriving DecidableEq

/-- An output.  For each public key of the transaction `leads` has the subaddresses of the wallet
that the output leads to, in the order in which the derivations are tried, with the amount that is
decoded for it. -/
structure TxOut where
  key : ℕ
  amount : ℕ
  leads : List (List (SubaddressIndex × ℕ))
  deriving DecidableEq

/-- A payment id in the extra nonce; an encrypted one as it is decrypted with each public key. -/
inductive ExtraNonce where
  | encrypted (decrypted : List (Option ℕ))
  | plain (id : ℕ)
  deriving DecidableEq

structure Tx where
  version : ℕ
  unlockTime : ℕ
  vin : List TxIn
  vout : List TxOut
  /-- The number of public keys in the extra field. -/
  pubKeys : ℕ
  extraNonce : Option ExtraNonce
  txnFee : ℕ
  deriving DecidableEq

/-- A transaction of a block with the global indices of its outputs. -/
structure TxEntry where
  txid : ℕ
  tx : Tx
  outputIndices : List ℕ
  deriving DecidableEq

structure Block where
  hash : ℕ
  prevId : ℕ
  majorVersion : ℕ
  timestamp : ℕ
  minerTx : TxEntry
  txs : List TxEntry
  deriving DecidableEq

def getOutsMoneyAmount (tx : Tx) : ℕ := (tx.vout.map TxOut.amount).sum % 2 ^ 64

def sub64 (a b : ℕ) : ℕ := (a + (2 ^ 64 - b % 2 ^ 64)) % 2 ^ 64

def getOutgoingAmount (tx : Tx) (amountSpent : ℕ) : ℕ :=
  if tx.version = 1 then getOutsMoneyAmount tx else sub64 amountSpent tx.txnFee

def rings (tx : Tx) : List (ℕ × List ℕ) := tx.vin.map fun i ↦ (i.keyImage, i.keyOffsets)

/-! ## The containers -/

structure TransferDetails where
  blockHeight : ℕ
  txid : ℕ
  internalOutputIndex : ℕ
  globalOutputIndex : ℕ
  key : ℕ
  keyImage : ℕ
  keyImageKnown : Bool
  amount : ℕ
  rct : Bool
  pkIndex : ℕ
  subaddrIndex : SubaddressIndex
  spent : Bool
  spentHeight : ℕ
  frozen : Bool
  deriving DecidableEq

structure PaymentDetails where
  txHash : ℕ
  fee : ℕ
  amount : ℕ
  amounts : List ℕ
  blockHeight : ℕ
  unlockTime : ℕ
  timestamp : ℕ
  coinbase : Bool
  subaddrIndex : SubaddressIndex
  deriving DecidableEq

structure PoolPaymentDetails where
  pd : PaymentDetails
  doubleSpendSeen : Bool
  deriving DecidableEq

/-- A destination, with the subaddress of the wallet that it is, if it is one. -/
structure Dest where
  subaddress : Option SubaddressIndex
  amount : ℕ
  deriving DecidableEq

structure ConfirmedTransferDetails where
  amountIn : ℕ
  amountOut : ℕ
  change : ℕ
  blockHeight : ℕ
  dests : List Dest
  paymentId : ℕ
  timestamp : ℕ
  unlockTime : ℕ
  subaddrAccount : ℕ
  subaddrIndices : List ℕ
  rings : List (ℕ × List ℕ)
  deriving DecidableEq

inductive TransferState where
  | pending
  | pendingInPool
  | failed
  deriving DecidableEq

structure UnconfirmedTransferDetails where
  tx : Tx
  amountIn : ℕ
  amountOut : ℕ
  change : ℕ
  sentTime : ℕ
  dests : List Dest
  paymentId : ℕ
  state : TransferState
  timestamp : ℕ
  subaddrAccount : ℕ
  subaddrIndices : List ℕ
  rings : List (ℕ × List ℕ)
  deriving DecidableEq

/-- A transaction that is kept to be processed with the spend key. -/
structure BackgroundSyncedTx where
  indexInBackgroundSyncData : ℕ
  entry : TxEntry
  height : ℕ
  blockTimestamp : ℕ
  doubleSpendSeen : Bool
  deriving DecidableEq

/-- Outputs by amount and global index, newest first. -/
abbrev OutputTracker := List ((ℕ × ℕ) × ℕ)

structure Wallet where
  blockchain : List ℕ
  transfers : List TransferDetails
  keyImages : Table ℕ ℕ
  pubKeys : Table ℕ ℕ
  payments : List (ℕ × PaymentDetails)
  confirmedTxs : Table ℕ ConfirmedTransferDetails
  unconfirmedTxs : Table ℕ UnconfirmedTransferDetails
  unconfirmedPayments : List (ℕ × PoolPaymentDetails)
  scannedPoolTxs : List ℕ × List ℕ
  /-- The numbers of labels, which are the numbers of subaddresses in use. -/
  subaddressLabels : List ℕ
  subaddresses : List SubaddressIndex
  backgroundSyncing : Bool
  backgroundStartHeight : ℕ
  backgroundTxs : List BackgroundSyncedTx
  /-- The cache that is handed to the functions that scan, if there is one. -/
  outputTrackerCache : Option OutputTracker

inductive RefreshType where
  | full
  | optimizeCoinbase
  | noCoinbase
  deriving DecidableEq

/-- A wallet that knows the first block. -/
def Wallet.init (genesis : ℕ) (labels : List ℕ) (subaddresses : List SubaddressIndex) :
    Wallet where
  blockchain := [genesis]
  transfers := []
  keyImages := Table.empty
  pubKeys := Table.empty
  payments := []
  confirmedTxs := Table.empty
  unconfirmedTxs := Table.empty
  unconfirmedPayments := []
  scannedPoolTxs := ([], [])
  subaddressLabels := labels
  subaddresses := subaddresses
  backgroundSyncing := false
  backgroundStartHeight := 0
  backgroundTxs := []
  outputTrackerCache := none

/-- What does not change while the wallet scans. -/
structure Env where
  /-- The key image of a one-time key of the wallet. -/
  keyImageOf : ℕ → ℕ
  refreshType : RefreshType
  /-- `should_skip_block`, by timestamp and height. -/
  shouldSkipBlock : ℕ → ℕ → Bool
  subaddressLookaheadMajor : ℕ
  subaddressLookaheadMinor : ℕ
  trackUses : Bool
  storeTxInfo : Bool
  maxReorgDepth : ℕ

def nullHash : ℕ := 0

/-! ## Spent outputs -/

def TransferDetails.setSpent (td : TransferDetails) (height : ℕ) : TransferDetails :=
  { td with spent := true, spentHeight := height }

def TransferDetails.setUnspent (td : TransferDetails) : TransferDetails :=
  { td with spent := false, spentHeight := 0 }

def Wallet.setSpent (w : Wallet) (idx height : ℕ) : Wallet :=
  { w with transfers := w.transfers.modify idx (·.setSpent height) }

def Wallet.setUnspent (w : Wallet) (idx : ℕ) : Wallet :=
  { w with transfers := w.transfers.modify idx TransferDetails.setUnspent }

/-! ## Subaddresses -/

def uint32Max : ℕ := 2 ^ 32 - 1

def getSubaddressClampedSum (idx extra : ℕ) : ℕ :=
  if uint32Max - extra < idx then uint32Max else idx + extra

/-- The last index that is looked for with `n` in use; the difference `n - 1` wraps at 0. -/
def lastIndex (n lookahead : ℕ) : ℕ :=
  if n = 0 ∨ uint32Max - lookahead < n - 1 then uint32Max else n + lookahead - 1

/-- The new sizes have 32 bits.  For `index.major = 2 ^ 32 - 1` the source then accesses an empty
vector; here the list stays empty. -/
def resizeLabels (labels : List ℕ) (index : SubaddressIndex) : List ℕ :=
  let size := (index.major + 1) % 2 ^ 32
  (if labels.length ≤ index.major then labels.take size ++ List.replicate (size - labels.length) 1
    else labels).modify index.major fun n ↦
      if n ≤ index.minor then (index.minor + 1) % 2 ^ 32 else n

section

variable (labels : List ℕ) (known : List SubaddressIndex) (lookaheadMajor lookaheadMinor : ℕ)

def isWithinLookahead (index : SubaddressIndex) : Bool :=
  index.major ≤ lastIndex labels.length lookaheadMajor &&
    index.minor ≤ lastIndex (labels.getD index.major 0) lookaheadMinor

/-- The loop that increments `minor`, which it does up to `steps` times. -/
def lowestMissingMinor (major : ℕ) : ℕ → ℕ → ℕ
  | 0, minor => minor
  | steps + 1, minor =>
    if ⟨major, minor⟩ ∈ known then lowestMissingMinor major steps (minor + 1) else minor

/-- The indices whose keys are generated; the numbers of labels are converted to 32 bits. -/
def newIndices : List SubaddressIndex :=
  let majorEnd := getSubaddressClampedSum (max (labels.length % 2 ^ 32) 1 - 1) lookaheadMajor
  (List.range majorEnd).flatMap fun major ↦
    let minorEnd := getSubaddressClampedSum (max (labels.getD major 0 % 2 ^ 32) 1 - 1)
      lookaheadMinor
    let minorBegin := lowestMissingMinor known major uint32Max 0
    (List.range' minorBegin (minorEnd - minorBegin)).map fun minor ↦ ⟨major, minor⟩

end

def shouldExpand (env : Env) (w : Wallet) (index : SubaddressIndex) : Bool :=
  isWithinLookahead w.subaddressLabels env.subaddressLookaheadMajor env.subaddressLookaheadMinor
    index

/-- The map from keys to indices is here the list of the indices. -/
def expandSubaddresses (env : Env) (w : Wallet) (index : SubaddressIndex) : Wallet :=
  let labels := resizeLabels w.subaddressLabels index
  { w with
    subaddressLabels := labels
    subaddresses := w.subaddresses ++ (newIndices labels w.subaddresses
      env.subaddressLookaheadMajor env.subaddressLookaheadMinor).filter fun i ↦
        i ∉ w.subaddresses }

/-- Expands if an output was received at the index. -/
def expandOnReceipt (env : Env) (w : Wallet) (index : SubaddressIndex) : Wallet :=
  if shouldExpand env w index then expandSubaddresses env w index else w

end Monero.Scanning
