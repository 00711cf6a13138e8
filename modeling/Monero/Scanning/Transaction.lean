import Monero.Scanning.Wallet

/-!
# Scanning a transaction

`process_new_transaction` of `wallet2.cpp`: outputs to the wallet are looked for with
each public key of the transaction, then inputs that spend outputs of the wallet, then
the outgoing transaction and the payments are kept.
-/

namespace Monero.Scanning

open Monero.Lib

/-- How a transaction is handed to `process_new_transaction`. -/
structure Circumstances where
  height : ℕ
  blockVersion : ℕ
  ts : ℕ
  minerTx : Bool
  pool : Bool
  doubleSpendSeen : Bool

/-- The answers that were computed ahead: the table they were taken from, and for how many
outputs. -/
structure Precomputed where
  table : List SubaddressIndex
  count : ℕ

def Precomputed.none : Precomputed := ⟨[], 0⟩

/-- What was received at each subaddress: the sum and the single amounts. -/
abbrev Received := List (SubaddressIndex × ℕ × List ℕ)

def Received.sumAt (r : Received) (index : SubaddressIndex) : ℕ :=
  ((r.find? (·.1 = index)).map (·.2.1)).getD 0

def Received.update (r : Received) (index : SubaddressIndex) (f : ℕ × List ℕ → ℕ × List ℕ) :
    Received :=
  match r with
  | [] => [(index, f (0, []))]
  | (i, x) :: rest =>
    if i = index then (i, f x) :: rest else (i, x) :: Received.update rest index f

structure Scan where
  wallet : Wallet
  received : Received
  outputFound : List ℕ
  /-- Outputs with an invalid amount. -/
  failed : List ℕ
  totalReceived : ℕ
  paymentId : ℕ

section Receiving

variable (env : Env) (c : Circumstances) (entry : TxEntry)

/-! ## Outputs to the wallet -/

def lookup (table : List SubaddressIndex) (out : TxOut) (pk : ℕ) : Option (SubaddressIndex × ℕ) :=
  (out.leads.getD pk []).find? fun lead ↦ lead.1 ∈ table

variable (pre : Precomputed)

/-- `check_acc_out_precomp_once`: where an output is received, and the amount that is decoded. -/
def checkAccOutPrecompOnce (s : Scan) (pk i : ℕ) : Option (SubaddressIndex × ℕ) :=
  if i ∈ s.outputFound then none
  else match entry.tx.vout[i]? with
    | none => none
    | some out => lookup (if i < pre.count then pre.table else s.wallet.subaddresses) out pk

/-- The outputs that are looked at: only the first one of an old miner transaction if it is not to
the wallet. -/
def outputsToCheck (s : Scan) (pk : ℕ) : List ℕ :=
  if c.minerTx ∧ env.refreshType = .noCoinbase then []
  else if c.minerTx ∧ env.refreshType = .optimizeCoinbase ∧ entry.tx.version < 2 ∧
      checkAccOutPrecompOnce entry pre s pk 0 = none then [0]
  else List.range entry.tx.vout.length

/-- The amount of an output, as it is decoded if it is hidden. -/
def moneyTransfered (i decoded : ℕ) : ℕ :=
  let amount := (entry.tx.vout[i]?.map TxOut.amount).getD 0
  if amount = 0 ∧ ¬c.minerTx then decoded else amount

/-- `scan_output`: the amount is counted; an output without an amount is skipped. -/
def scanOutput (s : Scan) (i : ℕ) (index : SubaddressIndex) (amount : ℕ) :
    Except String (Scan × Option ℕ) :=
  if amount = 0 then
    .ok ({ s with outputFound := i :: s.outputFound, failed := i :: s.failed }, none)
  else do
    check (s.received.sumAt index < 2 ^ 64 - 1 - amount) "Overflow in received amounts"
    return ({ s with
      outputFound := i :: s.outputFound
      received := s.received.update index fun x ↦ (x.1 + amount, x.2 ++ [amount]) }, some amount)

structure Out where
  o : ℕ
  index : SubaddressIndex
  amount : ℕ

def scanOutputs (s : Scan) (pk : ℕ) : Except String (Scan × List Out) := do
  let outputs := outputsToCheck env c entry pre s pk
  check (∀ i ∈ outputs, i ∉ s.failed) "acc_outs_lookup_error"
  outputs.foldlM (fun (acc : Scan × List Out) i ↦
    match checkAccOutPrecompOnce entry pre s pk i with
    | none => .ok acc
    | some (index, decoded) => do
        let (s, amount) ← scanOutput acc.1 i index (moneyTransfered c entry i decoded)
        return (s, acc.2 ++ (amount.map fun a ↦ (⟨i, index, a⟩ : Out)).toList)) (s, [])

/-! ## Taking them in -/

def ignoreLongPaymentIdFromBlockVersion : ℕ := 12

/-- The payment id that goes with the outputs found with a public key. -/
def newPaymentId (paymentId pk : ℕ) : ℕ :=
  match entry.tx.extraNonce with
  | none => paymentId
  | some (.encrypted decrypted) => (decrypted.getD pk none).getD paymentId
  | some (.plain id) =>
    if ignoreLongPaymentIdFromBlockVersion ≤ c.blockVersion then nullHash else id

variable (w : Wallet)

/-- A transaction is kept once. -/
def addToBackground : Wallet :=
  if w.backgroundSyncing ∧ ∀ t ∈ w.backgroundTxs, t.entry.txid ≠ entry.txid then
    { w with backgroundTxs := w.backgroundTxs ++
      [⟨w.backgroundTxs.length, entry, c.height, c.ts, c.doubleSpendSeen⟩] }
  else w

def isRctOutput (amount : ℕ) : Bool := amount = 0 || (c.minerTx && entry.tx.version = 2)

/-- A transfer that is new: without the spend key the key image is not known. -/
def newTransfer (pk : ℕ) (out : Out) (txOut : TxOut) : TransferDetails where
  blockHeight := c.height
  txid := entry.txid
  internalOutputIndex := out.o
  globalOutputIndex := entry.outputIndices.getD out.o 0
  key := txOut.key
  keyImage := if w.backgroundSyncing then 0 else env.keyImageOf txOut.key
  keyImageKnown := !w.backgroundSyncing
  amount := if txOut.amount ≠ 0 then txOut.amount else out.amount
  rct := isRctOutput c entry txOut.amount
  pkIndex := pk
  subaddrIndex := out.index
  spent := false
  spentHeight := 0
  frozen := false

def track (txOut : TxOut) (globalIndex idx : ℕ) : Wallet :=
  { w with outputTrackerCache := w.outputTrackerCache.map fun cache ↦
    ((txOut.amount, globalIndex), idx) :: cache }

def addTransfer (td : TransferDetails) : Wallet :=
  { w with
    transfers := w.transfers ++ [td]
    keyImages :=
      if td.keyImageKnown then w.keyImages.set td.keyImage w.transfers.length else w.keyImages
    pubKeys := w.pubKeys.set td.key w.transfers.length }

def pushTransfer (pk : ℕ) (out : Out) (txOut : TxOut) : Wallet :=
  let td := newTransfer env c entry w pk out txOut
  track (addTransfer (expandOnReceipt env w out.index) td) txOut td.globalOutputIndex
    w.transfers.length

def replacement (pk : ℕ) (out : Out) (txOut : TxOut) (td : TransferDetails) : TransferDetails :=
  { td with
    blockHeight := c.height
    txid := entry.txid
    internalOutputIndex := out.o
    globalOutputIndex := entry.outputIndices.getD out.o 0
    amount := if txOut.amount ≠ 0 then txOut.amount else out.amount
    rct := isRctOutput c entry txOut.amount
    pkIndex := pk
    subaddrIndex := out.index }

/-- A larger output under a key that was used before takes the place of the smaller one. -/
def replaceTransfer (idx pk : ℕ) (out : Out) (txOut : TxOut) : Wallet :=
  let w := expandOnReceipt env w out.index
  track { w with transfers := w.transfers.modify idx (replacement c entry pk out txOut) } txOut
    (entry.outputIndices.getD out.o 0) idx

def receiveOutput (pk : ℕ) (s : Scan) (out : Out) : Except String Scan :=
  match entry.tx.vout[out.o]? with
  | none => .error "wrong out in transaction"
  | some txOut =>
    let amount := if txOut.amount ≠ 0 then txOut.amount else out.amount
    match s.wallet.pubKeys.get? txOut.key with
    | none => .ok { s with
        wallet := if c.pool then s.wallet else pushTransfer env c entry s.wallet pk out txOut
        totalReceived := (s.totalReceived + amount) % 2 ^ 64 }
    | some idx =>
      match s.wallet.transfers[idx]? with
      | none => .error "Unexpected transfer index from public key"
      | some td =>
        if td.spent ∨ out.amount ≤ td.amount then do
          check (out.amount ≤ s.received.sumAt out.index)
            "Unexpected values of new and old outputs"
          check (∃ r ∈ s.received, r.1 = out.index ∧ out.amount ∈ r.2.2)
            "Unexpected values of new and old outputs"
          return { s with received := s.received.update out.index fun x ↦
            (x.1 - out.amount, x.2.erase out.amount) }
        else do
          check (out.amount ≤ s.received.sumAt out.index)
            "Unexpected values of new and old outputs"
          return { s with
            wallet := if c.pool then s.wallet
              else replaceTransfer env c entry s.wallet idx pk out txOut
            received := s.received.update out.index fun x ↦ (x.1 - td.amount, x.2)
            totalReceived := (s.totalReceived + sub64 amount td.amount) % 2 ^ 64 }

/-- The outputs that one public key of the transaction leads to. -/
def scanPubKey (s : Scan) (pk : ℕ) : Except String Scan := do
  let (s, outs) ← scanOutputs env c entry pre s pk
  if outs = [] then return s
  check (c.pool ∨ entry.tx.vout.length = entry.outputIndices.length)
    "transactions outputs size not match with daemon response size"
  outs.foldlM (receiveOutput env c entry pk) { s with
    wallet := if c.pool then s.wallet else addToBackground c entry s.wallet
    paymentId := newPaymentId c entry s.paymentId pk }

def receiveOutputs (w : Wallet) : Except String Scan :=
  (if entry.tx.vout = [] then [] else List.range entry.tx.pubKeys).foldlM
    (scanPubKey env c entry pre) ⟨w, [], [], [], 0, nullHash⟩

/-! ## Inputs that spend -/

structure Spend where
  wallet : Wallet
  moneySpent : ℕ
  subaddrAccount : Option ℕ
  subaddrIndices : List ℕ

def relativeToAbsolute (offsets : List ℕ) : List ℕ :=
  ((List.range offsets.length).map fun n ↦ (offsets.take (n + 1)).sum % 2 ^ 64)

/-- A spent transfer; an amount that the input states is taken over. -/
def TransferDetails.spentBy (td : TransferDetails) (input : TxIn) (height : ℕ) : TransferDetails :=
  { td with amount := if 0 < input.amount then input.amount else td.amount }.setSpent height

/-- The output of the wallet with the key image is spent. -/
def spendKnown (s : Spend) (input : TxIn) (idx : ℕ) (td : TransferDetails) : Spend :=
  let amount := if 0 < input.amount then input.amount else td.amount
  let w := { s.wallet with transfers := s.wallet.transfers.modify idx (·.spentBy input c.height) }
  { wallet := if c.pool then w else addToBackground c entry w
    moneySpent := (s.moneySpent + amount) % 2 ^ 64
    subaddrAccount := some td.subaddrIndex.major
    subaddrIndices := if td.subaddrIndex.minor ∈ s.subaddrIndices then s.subaddrIndices
      else s.subaddrIndices ++ [td.subaddrIndex.minor] }

/-- Whether a ring has an output whose key image is not known.  Without the cache the amounts are
not compared. -/
def mayBeSpend (input : TxIn) : Except String Bool :=
  let offsets := relativeToAbsolute input.keyOffsets
  match w.outputTrackerCache with
  | some cache => do
      let idxs := offsets.filterMap fun offset ↦
        (cache.find? fun e ↦ e.1 = (input.amount, offset)).map Prod.snd
      check (∀ idx ∈ idxs, idx < w.transfers.length) "Output tracker cache index out of range"
      return idxs.any fun idx ↦ (w.transfers[idx]?.map fun td ↦ !td.keyImageKnown).getD false
  | none =>
      .ok (w.transfers.any fun td ↦ !td.keyImageKnown && offsets.contains td.globalOutputIndex)

/-- Transactions that may spend an output are kept while there is no spend key. -/
def trackUse (known : Bool) (input : TxIn) : Except String Wallet :=
  if ¬c.pool ∧ (env.trackUses ∨ (w.backgroundSyncing ∧ known = false)) then do
    let may ← mayBeSpend w input
    return if may then addToBackground c entry w else w
  else .ok w

def spendInput (s : Spend) (input : TxIn) : Except String Spend := do
  match s.wallet.keyImages.get? input.keyImage with
  | none =>
    let w ← trackUse env c entry s.wallet false input
    return { s with wallet := w }
  | some idx =>
    match s.wallet.transfers[idx]? with
    | none => .error "Key images cache contains illegal transfer offset"
    | some td =>
      let s := spendKnown c entry s input idx td
      let w ← trackUse env c entry s.wallet true input
      return { s with wallet := w }

/-! ## The transaction as a whole -/

/-- The transaction is not unconfirmed any more. -/
def processUnconfirmed (txid height : ℕ) : Wallet :=
  match w.unconfirmedTxs.get? txid with
  | none => w
  | some utd => { w with
      confirmedTxs := if env.storeTxInfo ∧ w.confirmedTxs.get? txid = none then
          w.confirmedTxs.set txid ⟨utd.amountIn, utd.amountOut, utd.change, height, utd.dests,
            utd.paymentId, utd.timestamp, utd.tx.unlockTime, utd.subaddrAccount,
            utd.subaddrIndices, utd.rings⟩
        else w.confirmedTxs
      unconfirmedTxs := w.unconfirmedTxs.erase txid }

def plainPaymentId (tx : Tx) : ℕ :=
  match tx.extraNonce with
  | some (.plain id) => id
  | _ => nullHash

/-- Some information may already be there. -/
def processOutgoing (spent received subaddrAccount : ℕ) (subaddrIndices : List ℕ) : Wallet :=
  let details := (w.confirmedTxs.get? entry.txid).getD
    ⟨spent, getOutgoingAmount entry.tx spent, received, 0, [], plainPaymentId entry.tx, 0, 0,
      subaddrAccount, subaddrIndices, []⟩
  { w with confirmedTxs := w.confirmedTxs.set entry.txid { details with
    rings := rings entry.tx
    blockHeight := c.height
    timestamp := c.ts
    unlockTime := entry.tx.unlockTime } }

def addUnconfirmedTx (txid : ℕ) (tx : Tx) (amountIn amountOut : ℕ) (dests : List Dest)
    (paymentId change now subaddrAccount : ℕ) (subaddrIndices : List ℕ) : Wallet :=
  { w with
    unconfirmedTxs := w.unconfirmedTxs.set txid ⟨tx, amountIn, amountOut, change, now, dests,
      paymentId, .pending, now, subaddrAccount, subaddrIndices, rings tx⟩ }

def feeOf (spent : ℕ) : ℕ :=
  if c.minerTx then 0
  else if entry.tx.version = 1 then sub64 spent (getOutsMoneyAmount entry.tx)
  else entry.tx.txnFee

/-- The change of a transaction to oneself is what it received. -/
def keepOutgoing (spent selfReceived subaddrAccount : ℕ) (subaddrIndices : List ℕ) : Wallet :=
  if c.pool then
    if (w.unconfirmedTxs.get? entry.txid).isSome then w
    else addUnconfirmedTx w entry.txid entry.tx spent (getOutgoingAmount entry.tx spent) []
      nullHash selfReceived c.ts subaddrAccount subaddrIndices
  else
    let w := processOutgoing c entry w spent selfReceived subaddrAccount subaddrIndices
    if spent = (selfReceived + feeOf c entry spent) % 2 ^ 64 then
      { w with confirmedTxs := match w.confirmedTxs.get? entry.txid with
        | none => w.confirmedTxs
        | some details => w.confirmedTxs.set entry.txid { details with change := selfReceived } }
    else w

def emplaceOrReplace (l : List (ℕ × PoolPaymentDetails)) (key : ℕ) (pd : PoolPaymentDetails) :
    List (ℕ × PoolPaymentDetails) :=
  match l.findIdx? fun e ↦ e.1 = key ∧ e.2.pd.txHash = pd.pd.txHash ∧
      e.2.pd.subaddrIndex = pd.pd.subaddrIndex with
  | some i => l.set i (key, pd)
  | none => l ++ [(key, pd)]

def paymentOf (spent : ℕ) (r : SubaddressIndex × ℕ × List ℕ) : PaymentDetails where
  txHash := entry.txid
  fee := feeOf c entry spent
  amount := r.2.1
  amounts := r.2.2
  blockHeight := c.height
  unlockTime := entry.tx.unlockTime
  timestamp := c.ts
  coinbase := c.minerTx
  subaddrIndex := r.1

def addPayment (paymentId spent : ℕ) (w : Wallet) (r : SubaddressIndex × ℕ × List ℕ) : Wallet :=
  if c.pool then
    { w with
      unconfirmedPayments := emplaceOrReplace w.unconfirmedPayments paymentId
        ⟨paymentOf c entry spent r, c.doubleSpendSeen⟩ }
  else { w with payments := w.payments ++ [(paymentId, paymentOf c entry spent r)] }

/-- What the transaction receives at other accounts than the one that it spends from. -/
def keepPayments (s : Scan) (spent : ℕ) (subaddrAccount : Option ℕ) : Except String Wallet := do
  let isChange := fun (r : SubaddressIndex × ℕ × List ℕ) ↦ decide (subaddrAccount = some r.1.major)
  let got := s.received.filter fun r ↦ !isChange r
  if got = [] then return w
  check (s.totalReceived = (s.received.map fun r ↦ r.2.1).sum % 2 ^ 64)
    "Consistency failure in amounts received"
  return got.foldl (addPayment c entry s.paymentId spent) w

def processNewTransaction (w : Wallet) : Except String Wallet := do
  let w := if c.minerTx ∨ c.pool then w else processUnconfirmed env w entry.txid c.height
  let s ← receiveOutputs env c entry pre w
  let t ← entry.tx.vin.foldlM (spendInput env c entry) ⟨s.wallet, 0, none, []⟩
  let w := match t.subaddrAccount with
    | some account => if 0 < t.moneySpent then
        keepOutgoing c entry t.wallet t.moneySpent
          (((s.received.filter fun r ↦ r.1.major = account).map fun r ↦ r.2.1).sum % 2 ^ 64)
          account t.subaddrIndices
      else t.wallet
    | none => t.wallet
  keepPayments c entry w s t.moneySpent t.subaddrAccount

end Receiving

end Monero.Scanning
