import Monero.Lib.Table
import Monero.Blockchain.TxInputs

/-!
# The transaction pool

`tx_memory_pool` keeps its transactions in a table of the database and derives
from it, in memory, their total weight, the transactions that spend each key
image, an order by fee, and the two lists from which clients are brought up to
date.

A row of the table has the transaction itself in place of its blob.  The checks
that ask the chain are given with each call, and every reading of the clock is
the next value of `time`.
-/

namespace Monero.Pool

open Monero.Lib
open Monero.Blockchain
  (Transaction TxIn ProofChecks checkTxSemantic checkInputsTypesSupported getTxFee)

/-! ## Constants of `cryptonote_config.h` -/

def maxTxExtraSize : ℕ := 1060

def cryptonoteMempoolTxLivetime : ℕ := 86400 * 3

def cryptonoteMempoolTxFromAltBlockLivetime : ℕ := 604800

def defaultTxpoolMaxWeight : ℕ := 648000000

/-! ## How a transaction was received -/

inductive RelayMethod where
  | none
  | localOnly
  | forward
  | stem
  | fluff
  | block
  deriving DecidableEq, Repr

def RelayMethod.value : RelayMethod → ℕ
  | .none => 0
  | .localOnly => 1
  | .forward => 2
  | .stem => 3
  | .fluff => 4
  | .block => 5

inductive RelayCategory where
  | broadcasted
  | relayable
  | legacy
  | all
  deriving DecidableEq, Repr

def matchesCategory (method : RelayMethod) : RelayCategory → Bool
  | .all => true
  | .relayable => method ≠ .none
  | .broadcasted => method = .block ∨ method = .fluff
  | .legacy => method = .block ∨ method = .fluff ∨ method = .none

/-- `upgrade_relay_method`, and whether it changed anything. -/
def RelayMethod.upgrade (old method : RelayMethod) : RelayMethod × Bool :=
  if old.value < method.value then (method, true) else (old, false)

/-! ## Stored transactions -/

/-- `txpool_tx_meta_t`; its relay flags are those of `relayMethod`. -/
structure TxMeta where
  weight : ℕ
  fee : ℕ
  receiveTime : ℕ
  relayMethod : RelayMethod
  relayed : Bool
  doubleSpendSeen : Bool
  pruned : Bool
  deriving DecidableEq, Repr

def TxMeta.keptByBlock (info : TxMeta) : Bool := info.relayMethod = .block

def TxMeta.broadcasted (info : TxMeta) : Bool := matchesCategory info.relayMethod .broadcasted

structure PoolRow (K P : Type*) where
  info : TxMeta
  tx : Transaction K P
  deriving DecidableEq

/-- The table of the database with what is derived from its transactions. -/
structure Store (K P H : Type*) [LinearOrder K] [LinearOrder H] where
  txpool : Table H (PoolRow K P)
  txpoolWeight : ℕ
  spentKeyImages : Table K (Finset H)

structure AddedTxInfo where
  receiveTime : ℕ
  sensitive : Bool
  deriving DecidableEq, Repr

structure RemovedTxInfo (H : Type*) where
  txid : H
  sensitive : Bool
  deriving DecidableEq, Repr

/-- The order by fee and the transient lists.  `readings` is how often the
clock has been read. -/
structure Lists (H R : Type*) [LinearOrder H] where
  txsByFeeAndReceiveTime : List ((R × ℕ) × H)
  addedTxsById : Table H AddedTxInfo
  addedTxsStartTime : ℕ
  removedTxsByTime : List (ℕ × RemovedTxInfo H)
  removedTxsStartTime : ℕ
  readings : ℕ

structure TxMemoryPool (K P H R : Type*) [LinearOrder K] [LinearOrder H] extends Store K P H,
    Lists H R where
  txpoolMaxWeight : ℕ
  timedOutTransactions : Finset H
  parsedTxCache : Table H (Transaction K P)

/-- What the pool calls.  `feeRate` is the division of a fee by a weight in
floating point, and `verOtherRules` the rules of `ver_non_input_consensus`
other than `check_tx_semantic`. -/
structure Env (K P H R : Type*) where
  getTransactionHash : Transaction K P → H
  getTransactionWeight : Transaction K P → ℕ
  extraSize : Transaction K P → ℕ
  feeRate : ℕ → ℕ → R
  time : ℕ → ℕ
  checks : ProofChecks K P H
  verOtherRules : Transaction K P → UInt8 → Bool

/-- What the chain answers during one call: `check_fee`, and `check_tx_inputs`
for a transaction with its id that is or is not kept by a block. -/
structure View (K P H : Type*) where
  checkFee : ℕ → ℕ → Bool
  checkTxInputs : H → Transaction K P → Bool → Bool

/-- The flags of `tx_verification_context` that the pool itself sets. -/
structure AddTxContext where
  verifivationFailed : Bool := false
  verifivationImpossible : Bool := false
  addedToPool : Bool := false
  feeTooLow : Bool := false
  txExtraTooBig : Bool := false
  nonzeroUnlockTime : Bool := false
  doubleSpend : Bool := false
  invalidInput : Bool := false
  noDropOffense : Bool := false
  relay : RelayMethod := .none
  deriving DecidableEq, Repr

structure AddTxResult (K P H R : Type*) [LinearOrder K] [LinearOrder H] where
  returnValue : Bool
  tvc : AddTxContext
  pool : TxMemoryPool K P H R

/-- `tx_details` without the fields that no one sets here. -/
structure TxDetails (K P : Type*) where
  tx : Transaction K P
  weight : ℕ
  fee : ℕ
  keptByBlock : Bool
  receiveTime : ℕ
  relayed : Bool
  doNotRelay : Bool
  doubleSpendSeen : Bool

structure PoolInfo (K P H : Type*) where
  addedTxs : List (H × TxDetails K P)
  remainingAddedTxids : List H
  removedTxs : List H
  incremental : Bool

structure TakenTx (K P : Type*) where
  tx : Transaction K P
  weight : ℕ
  fee : ℕ
  relayed : Bool
  doNotRelay : Bool
  doubleSpendSeen : Bool
  pruned : Bool

variable {K P H R : Type*}

def Env.verNonInputConsensus [DecidableEq K] (env : Env K P H R) (tx : Transaction K P)
    (version : UInt8) : Bool :=
  env.verOtherRules tx version && (checkTxSemantic env.checks tx version).toBool

def nullTransaction : Transaction K P := ⟨1, 0, [], [], [], .null, [], 0, false⟩

variable [LinearOrder K] [LinearOrder H]

/-! ## The table and the key images -/

namespace Store

variable (s : Store K P H) (id : H)

def txpoolTxMatchesCategory (category : RelayCategory) : Bool :=
  (s.txpool.get? id).any fun row ↦ matchesCategory row.info.relayMethod category

/-- `none` is the exception for an id that is already there. -/
def addTxpoolTx (row : PoolRow K P) : Option (Store K P H) :=
  (s.txpool.insert? id row).map fun txpool ↦ { s with txpool := txpool }

def removeTxpoolTx : Store K P H := { s with txpool := s.txpool.erase id }

/-- `none` is the exception for an id that is not there. -/
def updateTxpoolTx (info : TxMeta) : Option (Store K P H) :=
  (s.txpool.get? id).map fun row ↦ { s with txpool := s.txpool.set id { row with info := info } }

def reduceTxpoolWeight (weight : ℕ) : Store K P H :=
  { s with txpoolWeight := if s.txpoolWeight < weight then 0 else s.txpoolWeight - weight }

def imageSet (image : K) : Finset H := (s.spentKeyImages.get? image).getD ∅

def setImage (image : K) (ids : Finset H) : Store K P H :=
  { s with spentKeyImages := s.spentKeyImages.set image ids }

/-- A failing call leaves behind what it has inserted so far, and an empty set
where there was none. -/
def insertKeyImages (id : H) (txRelay : RelayMethod) :
    List (TxIn K) → Store K P H → Bool × Store K P H
  | [], s => (true, s)
  | .toKey _ _ image :: vin, s =>
    let ids := s.imageSet image
    if txRelay ≠ .block ∧ ¬ ids ⊆ {id} then (false, s.setImage image ids)
    else if id ∈ ids ∧ s.txpoolTxMatchesCategory id .legacy then (false, s.setImage image ids)
    else insertKeyImages id txRelay vin (s.setImage image (insert id ids))
  | _ :: _, s => (false, s)

/-- No caller looks at the return value. -/
def removeTransactionKeyimages (id : H) : List (TxIn K) → Store K P H → Store K P H
  | .toKey _ _ image :: vin, s =>
    match s.spentKeyImages.get? image with
    | none => s
    | some ids =>
      if id ∉ ids then s
      else
        removeTransactionKeyimages id vin
          (if ids.erase id = ∅ then { s with spentKeyImages := s.spentKeyImages.erase image }
            else s.setImage image (ids.erase id))
  | _, s => s

/-- The three steps with which `take_tx`, `prune` and
`remove_stuck_transactions` take a transaction out. -/
def removeTx (weight : ℕ) (vin : List (TxIn K)) : Store K P H :=
  ((s.removeTxpoolTx id).reduceTxpoolWeight weight).removeTransactionKeyimages id vin

def haveTxKeyimgAsSpent (image : K) (id : H) : Bool := s.imageSet image ≠ ∅ &&
    (s.imageSet image ≠ {id} || s.txpoolTxMatchesCategory id .legacy)

def haveTxKeyimgesAsSpent (vin : List (TxIn K)) (id : H) : Bool := vin.any fun
    | .toKey _ _ image => s.haveTxKeyimgAsSpent image id
    | _ => false

def markTx : Store K P H :=
  match s.txpool.get? id with
  | none => s
  | some row => (s.updateTxpoolTx id { row.info with doubleSpendSeen := true }).getD s

/-- Ids of the sets that are not in the table are passed over, and at an input
of another kind the whole transaction of the database is dropped. -/
def markDoubleSpend (tx : Transaction K P) : Store K P H :=
  if checkInputsTypesSupported tx then
    ((tx.vin.filterMap TxIn.keyImage?).flatMap fun image ↦
      s.txpool.keys.filter fun id ↦ id ∈ s.imageSet image).foldl markTx s
  else s

end Store

/-! ## The transient lists -/

section Lists

variable [LinearOrder R]

/-- Greatest fee first, then the earliest. -/
def txFeeCompare (a b : R × ℕ) : Bool :=
  if b.1 < a.1 then true else if a.1 < b.1 then false else a.2 < b.2

/-- Behind the entries of equal rank. -/
def insertByFee (e : (R × ℕ) × H) : List ((R × ℕ) × H) → List ((R × ℕ) × H)
  | [] => [e]
  | x :: xs => if txFeeCompare e.1 x.1 then e :: x :: xs else x :: insertByFee e xs

def insertByTime (e : ℕ × RemovedTxInfo H) :
    List (ℕ × RemovedTxInfo H) → List (ℕ × RemovedTxInfo H)
  | [] => [e]
  | x :: xs => if e.1 < x.1 then e :: x :: xs else x :: insertByTime e xs

def maxRemoved : ℕ := 20000

/-- Old removals are dropped when there are too many or when they are older
than half an hour.  With what is left comes the new start of the list. -/
def trimRemoved (now startTime : ℕ) (removed : List (ℕ × RemovedTxInfo H)) :
    List (ℕ × RemovedTxInfo H) × ℕ :=
  if maxRemoved < removed.length then
    let rest := removed.drop (maxRemoved / 4 + 1)
    (rest, (rest.head?.map Prod.fst).getD startTime)
  else
    let earliest := now - 30 * 60
    let rest := removed.dropWhile fun e ↦ e.1 < earliest
    (rest, if rest.length < removed.length then earliest else startTime)

namespace Lists

variable (env : Env K P H R) (l : Lists H R)

def now : ℕ := env.time l.readings

def tick : Lists H R := { l with readings := l.readings + 1 }

def sortedIds : List H := l.txsByFeeAndReceiveTime.map Prod.snd

def eraseSorted (txid : H) : List ((R × ℕ) × H) :=
  l.txsByFeeAndReceiveTime.filter fun e ↦ e.2 ≠ txid

/-- The insertion fails when the id is in the container. -/
def addTxToTransientLists (txid : H) (fee : R) (receiveTime : ℕ) (sensitive : Bool) : Lists H R :=
  let sorted := if (l.addedTxsById.get? txid).isSome then l.eraseSorted txid
    else l.txsByFeeAndReceiveTime
  { l.tick with
    txsByFeeAndReceiveTime := if sorted.any fun e ↦ e.2 = txid then sorted
      else insertByFee ((fee, receiveTime), txid) sorted
    addedTxsById := l.addedTxsById.set txid ⟨l.now env, sensitive⟩
    addedTxsStartTime := if l.addedTxsStartTime = 0 then l.now env else l.addedTxsStartTime }

def trackRemovedTx (txid : H) (sensitive : Bool) : Lists H R :=
  let (removed, startTime) := trimRemoved (l.now env)
    (if l.removedTxsStartTime = 0 then l.now env else l.removedTxsStartTime)
    (insertByTime (l.now env, ⟨txid, sensitive⟩) l.removedTxsByTime)
  { l.tick with removedTxsByTime := removed, removedTxsStartTime := startTime }

def removeTxFromTransientLists (txid : H) (sensitive : Bool) : Lists H R :=
  trackRemovedTx env { l with
    txsByFeeAndReceiveTime := l.eraseSorted txid
    addedTxsById := l.addedTxsById.erase txid } txid sensitive

/-- "Simply throw away incremental info." -/
def throwAwayIncrementalInfo : Lists H R := { l with
    addedTxsById := Table.empty
    addedTxsStartTime := 0
    removedTxsByTime := []
    removedTxsStartTime := 0 }

end Lists

/-! ## The pool -/

namespace TxMemoryPool

variable (env : Env K P H R) (view : View K P H) (pool : TxMemoryPool K P H R)

def new (txpool : Table H (PoolRow K P)) : TxMemoryPool K P H R where
  txpool := txpool
  txpoolWeight := 0
  spentKeyImages := Table.empty
  txsByFeeAndReceiveTime := []
  addedTxsById := Table.empty
  addedTxsStartTime := 0
  removedTxsByTime := []
  removedTxsStartTime := 0
  readings := 0
  txpoolMaxWeight := defaultTxpoolMaxWeight
  timedOutTransactions := ∅
  parsedTxCache := Table.empty

/-- A transaction leaves the table, the key images and the lists. -/
def drop (id : H) (info : TxMeta) (vin : List (TxIn K)) : TxMemoryPool K P H R := { pool with
    toStore := pool.toStore.removeTx id info.weight vin
    toLists := pool.toLists.removeTxFromTransientLists env id (!info.broadcasted) }

/-- `none` is the return value `false`. -/
def takeTx (id : H) : Option (TakenTx K P × TxMemoryPool K P H R) :=
  (pool.txpool.get? id).map fun row ↦
    let tx := (pool.parsedTxCache.get? id).getD row.tx
    (⟨tx, row.info.weight, row.info.fee, row.info.relayed, row.info.relayMethod = .none,
      row.info.doubleSpendSeen, row.info.pruned⟩, pool.drop env id row.info tx.vin)

/-- From the cheap end towards the first transaction, which stays. -/
def pruneFrom (bytes : ℕ) : List H → TxMemoryPool K P H R → TxMemoryPool K P H R
  | [], pool => pool
  | txid :: txids, pool =>
    if pool.txpoolWeight ≤ bytes then pool
    else
      match pool.txpool.get? txid with
      | none => pruneFrom bytes txids pool
      | some row =>
        if row.info.keptByBlock then pruneFrom bytes txids pool
        else pruneFrom bytes txids (pool.drop env txid row.info row.tx.vin)

def prune (bytes : ℕ) : TxMemoryPool K P H R :=
  pool.pruneFrom env (if bytes = 0 then pool.txpoolMaxWeight else bytes)
    pool.sortedIds.tail.reverse

def cacheParsed (id : H) (tx : Transaction K P) (keptByBlock : Bool) : TxMemoryPool K P H R :=
  if keptByBlock then
    { pool with parsedTxCache := (pool.parsedTxCache.insert? id tx).getD pool.parsedTxCache }
  else pool

/-- Key images, table and lists, in this order.  `replace` is whether a row with
this id is removed first; without it `add_txpool_tx` throws at such a row. -/
def enter (replace : Bool) (id : H) (tx : Transaction K P) (info : TxMeta)
    (txRelay : RelayMethod) : Bool × TxMemoryPool K P H R :=
  let (inserted, store) := pool.toStore.insertKeyImages id txRelay tx.vin
  if !inserted then (false, { pool with toStore := store })
  else
    match (if replace then store.removeTxpoolTx id else store).addTxpoolTx id ⟨info, tx⟩ with
    | none => (false, { pool with toStore := store })
    | some store =>
      (true, { pool with
        toStore := store
        toLists := pool.toLists.addTxToTransientLists env id
          (env.feeRate info.fee (if info.weight = 0 then 1 else info.weight)) info.receiveTime
          (!info.broadcasted) })

def added (txWeight fee : ℕ) (txRelay : RelayMethod) (isNew impossible : Bool) :
    AddTxResult K P H R where
  returnValue := true
  tvc := {
    addedToPool := isNew
    verifivationImpossible := impossible
    relay := if 0 < fee ∧ txRelay ≠ .forward then txRelay else .none }
  pool := prune env
    (if isNew then { pool with txpoolWeight := pool.txpoolWeight + txWeight } else pool)
    pool.txpoolMaxWeight

variable (tx : Transaction K P)

def newMeta (txWeight receiveTime : ℕ) (relayMethod : RelayMethod)
    (relayed doubleSpendSeen : Bool) : TxMeta where
  weight := txWeight
  fee := getTxFee tx
  receiveTime := receiveTime
  relayMethod := relayMethod
  relayed := relayed
  doubleSpendSeen := doubleSpendSeen
  pruned := tx.pruned

/-- The part of `add_tx` after `check_tx_inputs` has failed. -/
def addWithWrongInputs (id : H) (txWeight receiveTime : ℕ)
    (txRelay : RelayMethod) (relayed : Bool) : AddTxResult K P H R :=
  if txRelay ≠ .block then
    ⟨false, { verifivationFailed := true, invalidInput := true }, pool⟩
  else
    let info := newMeta tx txWeight receiveTime txRelay relayed
      (pool.toStore.haveTxKeyimgesAsSpent tx.vin id)
    match (pool.cacheParsed id tx true).enter env false id tx info txRelay with
    | (false, pool) => ⟨false, { verifivationFailed := true }, pool⟩
    | (true, pool) => pool.added env txWeight (getTxFee tx) txRelay true true

/-- The part of `add_tx` after `check_tx_inputs` has succeeded. -/
def addWithGoodInputs (id : H) (txWeight receiveTime : ℕ)
    (txRelay : RelayMethod) (relayed : Bool) : AddTxResult K P H R :=
  let pool := pool.cacheParsed id tx (txRelay = .block)
  let existing := pool.txpool.get? id
  let stored := (existing.map fun row ↦ row.info.relayMethod).getD .none
  -- a stem transaction that comes back on the stem is in a loop
  let txRelay := if existing.isSome && txRelay = .stem && stored = .stem then RelayMethod.fluff
    else txRelay
  let (relayMethod, upgraded) := stored.upgrade txRelay
  if upgraded || existing.isNone then
    let info := newMeta tx txWeight receiveTime relayMethod relayed false
    match pool.enter env true id tx info txRelay with
    | (false, pool) => ⟨false, { verifivationFailed := true }, pool⟩
    | (true, pool) => pool.added env txWeight (getTxFee tx) txRelay existing.isNone false
  else pool.added env txWeight ((existing.map fun row ↦ row.info.fee).getD 0) txRelay false false

def addTx (id : H) (txWeight : ℕ) (txRelay : RelayMethod) (relayed : Bool)
    (version nicVerifiedHfVersion : UInt8) : AddTxResult K P H R :=
  let keptByBlock : Bool := txRelay = .block
  let refused : AddTxContext := { verifivationFailed := true, noDropOffense := true }
  if !keptByBlock && id ∈ pool.timedOutTransactions then
    ⟨false, { verifivationFailed := true }, pool⟩
  else if !keptByBlock && !view.checkFee txWeight (getTxFee tx) then
    ⟨false, { refused with feeTooLow := true }, pool⟩
  else if !keptByBlock && maxTxExtraSize < env.extraSize tx then
    ⟨false, { refused with txExtraTooBig := true }, pool⟩
  else if !keptByBlock && tx.unlockTime ≠ 0 then
    ⟨false, { refused with nonzeroUnlockTime := true }, pool⟩
  else if !keptByBlock && pool.toStore.haveTxKeyimgesAsSpent tx.vin id then
    ⟨false, { refused with doubleSpend := true },
      { pool with toStore := pool.toStore.markDoubleSpend tx }⟩
  else if version ≠ nicVerifiedHfVersion && !env.verNonInputConsensus tx version then
    ⟨false, { verifivationFailed := true }, pool⟩
  else
    let receiveTime := pool.now env
    let pool := { pool with toLists := pool.tick }
    if view.checkTxInputs id tx keptByBlock then
      pool.addWithGoodInputs env tx id txWeight receiveTime txRelay relayed
    else pool.addWithWrongInputs env tx id txWeight receiveTime txRelay relayed

/-- Ages are 64-bit unsigned differences. -/
def isStuck (now : ℕ) (info : TxMeta) : Bool :=
  let txAge := (now + 2 ^ 64 - info.receiveTime) % 2 ^ 64
  if info.keptByBlock then cryptonoteMempoolTxFromAltBlockLivetime < txAge
  else cryptonoteMempoolTxLivetime < txAge

/-- The pass over the table, which leaves it as it is, with the ids of the
transactions to remove. -/
def findStuck : List (H × PoolRow K P) → Lists H R → Lists H R × List H
  | [], l => (l, [])
  | (txid, row) :: rows, l =>
    if isStuck (l.now env) row.info then
      let (l, stuck) := findStuck rows
        (l.tick.removeTxFromTransientLists env txid (!row.info.broadcasted))
      (l, txid :: stuck)
    else findStuck rows l.tick

def removeStored (s : Store K P H) (txid : H) : Store K P H :=
  match s.txpool.get? txid with
  | none => s
  | some row => s.removeTx txid row.info.weight row.tx.vin

def removeStuckTransactions : TxMemoryPool K P H R :=
  let (l, stuck) := findStuck env pool.txpool.rows pool.toLists
  { pool with
    toLists := l
    timedOutTransactions := pool.timedOutTransactions ∪ stuck.toFinset
    toStore := stuck.foldl removeStored pool.toStore }

def relayedMeta (info : TxMeta) (method : RelayMethod) : TxMeta :=
  { info with relayMethod := (info.relayMethod.upgrade method).1, relayed := true }

/-- One round of `set_relayed`, with the entry of `just_broadcasted`. -/
def setRelayedTx (now : ℕ) (method : RelayMethod) (id : H) : TxMemoryPool K P H R × Bool :=
  match pool.txpool.get? id with
  | none => (pool, false)
  | some row =>
    let info := relayedMeta row.info method
    let store := (pool.toStore.updateTxpoolTx id info).getD pool.toStore
    if !row.info.broadcasted && info.broadcasted then
      ({ pool with
        toStore := store
        toLists := pool.toLists.addTxToTransientLists env id (env.feeRate info.fee info.weight)
          now false }, true)
    else ({ pool with toStore := store }, false)

def setRelayedFrom (now : ℕ) (method : RelayMethod) :
    List H → TxMemoryPool K P H R → TxMemoryPool K P H R × List Bool
  | [], pool => (pool, [])
  | id :: ids, pool =>
    let (pool, justBroadcasted) := pool.setRelayedTx env now method id
    let (pool, rest) := setRelayedFrom now method ids pool
    (pool, justBroadcasted :: rest)

def setRelayed (ids : List H) (method : RelayMethod) : TxMemoryPool K P H R × List Bool :=
  setRelayedFrom env (pool.now env) method ids { pool with toLists := pool.tick }

/-- One round of `validate`, with whether the transaction was added back.  If it
is not there any more, a default constructed transaction is added under its id. -/
def revalidate (version : UInt8) (e : H × TxMeta) : TxMemoryPool K P H R × Bool :=
  let (tx, relayed, pool) := match pool.takeTx env e.1 with
    | some (taken, pool) => (taken.tx, taken.relayed, pool)
    | none => (nullTransaction, false, pool)
  let result := pool.addTx env view tx e.1 e.2.weight e.2.relayMethod relayed version 0
  if result.returnValue then
    match result.pool.toStore.updateTxpoolTx e.1 e.2 with
    | none => (result.pool, false)
    | some store => ({ result.pool with toStore := store }, true)
  else (result.pool, false)

def revalidateAll (version : UInt8) :
    List (H × TxMeta) → TxMemoryPool K P H R → TxMemoryPool K P H R × ℕ
  | [], pool => (pool, 0)
  | e :: es, pool =>
    let (pool, addedBack) := pool.revalidate env view version e
    let (pool, count) := revalidateAll version es pool
    (pool, if addedBack then count + 1 else count)

def unprunedTxs : List (H × TxMeta) :=
  (pool.txpool.rows.filter fun r ↦ !r.2.info.pruned).map fun r ↦ (r.1, r.2.info)

def validate (version : UInt8) : TxMemoryPool K P H R × ℕ :=
  let (pool', count) := revalidateAll env view version pool.unprunedTxs
    { pool with toLists := pool.toLists.throwAwayIncrementalInfo }
  (pool', pool.unprunedTxs.length - count)

/-- One pass of `init` over the rows that are or are not kept by a block. -/
def initPass (kept : Bool) : List (H × PoolRow K P) → TxMemoryPool K P H R →
    Bool × TxMemoryPool K P H R
  | [], pool => (true, pool)
  | (txid, row) :: rows, pool =>
    if row.info.keptByBlock ≠ kept then initPass kept rows pool
    else
      match pool.toStore.insertKeyImages txid row.info.relayMethod row.tx.vin with
      | (false, store) => (false, { pool with toStore := store })
      | (true, store) =>
        initPass kept rows { pool with
          toStore := { store with txpoolWeight := store.txpoolWeight + row.info.weight }
          toLists := pool.toLists.addTxToTransientLists env txid
            (env.feeRate row.info.fee row.info.weight) row.info.receiveTime
            (!row.info.broadcasted) }

def cleared (maxTxpoolWeight : ℕ) : TxMemoryPool K P H R := { pool with
    txpoolMaxWeight := if maxTxpoolWeight = 0 then defaultTxpoolMaxWeight else maxTxpoolWeight
    toLists := { pool.toLists.throwAwayIncrementalInfo with txsByFeeAndReceiveTime := [] }
    spentKeyImages := Table.empty
    txpoolWeight := 0 }

def init (maxTxpoolWeight : ℕ) : Bool × TxMemoryPool K P H R :=
  match (pool.cleared maxTxpoolWeight).initPass env false pool.txpool.rows with
  | (false, pool') => (false, pool')
  | (true, pool') => pool'.initPass env true pool.txpool.rows

def onBlockchainInc : TxMemoryPool K P H R := { pool with parsedTxCache := Table.empty }

def onBlockchainDec : TxMemoryPool K P H R := { pool with parsedTxCache := Table.empty }

/-! ### What clients are told -/

def getTransactionHashes (includeSensitive : Bool) : List H :=
  (pool.txpool.rows.filter fun r ↦ matchesCategory r.2.info.relayMethod
    (if includeSensitive then .all else .broadcasted)).map Prod.fst

def getTransactionInfo (txid : H) (includeSensitive : Bool) : Option (TxDetails K P) :=
  match pool.txpool.get? txid with
  | none => none
  | some row =>
    if !includeSensitive && !row.info.broadcasted then none
    else some {
      tx := (pool.parsedTxCache.get? txid).getD row.tx
      weight := row.info.weight
      fee := row.info.fee
      keptByBlock := row.info.keptByBlock
      receiveTime := if includeSensitive then row.info.receiveTime else 0
      relayed := row.info.relayed
      doNotRelay := row.info.relayMethod = .none
      doubleSpendSeen := row.info.doubleSpendSeen }

/-- The first transactions that can be found; a limit of zero is none. -/
def getTransactionsInfo (txids : List H) (includeSensitive : Bool) (maxTxCount : ℕ) :
    List (H × TxDetails K P) :=
  let maxAllowed := if maxTxCount = 0 then txids.length else min maxTxCount txids.length
  (txids.filterMap fun txid ↦ (pool.getTransactionInfo txid includeSensitive).map (txid, ·)).take
    maxAllowed

def isIncremental (startTime : ℕ) : Bool :=
  if startTime = 0 then false
  else if pool.addedTxsStartTime ≠ 0 ∧ pool.removedTxsStartTime ≠ 0 then
    ¬ (startTime ≤ pool.addedTxsStartTime ∨ startTime ≤ pool.removedTxsStartTime)
  else false

def relevantTxids (startTime : ℕ) (includeSensitive : Bool) : List H :=
  (pool.addedTxsById.rows.filter fun e ↦ (includeSensitive || !e.2.sensitive) &&
    (!pool.isIncremental startTime || startTime ≤ e.2.receiveTime)).map Prod.fst

def getPoolInfo (startTime : ℕ) (includeSensitive : Bool) (maxTxCount : ℕ) : PoolInfo K P H :=
  let txids := pool.relevantTxids startTime includeSensitive
  let addedTxs := pool.getTransactionsInfo txids includeSensitive maxTxCount
  { addedTxs := addedTxs
    remainingAddedTxids :=
      if addedTxs.length < txids.length then
        txids.filter fun txid ↦ txid ∉ addedTxs.map Prod.fst
      else []
    removedTxs :=
      if pool.isIncremental startTime then
        ((pool.removedTxsByTime.dropWhile fun e ↦ e.1 < startTime).filter fun e ↦
          includeSensitive || !e.2.sensitive).map fun e ↦ e.2.txid
      else []
    incremental := pool.isIncremental startTime }

end TxMemoryPool

/-! ## Runs -/

/-- The operations of the pool.  `restart` is a new pool on the table that the
last one left, followed by `init`; its clock goes on. -/
inductive Operation (K P H : Type*) where
  | init (maxTxpoolWeight : ℕ)
  | restart (maxTxpoolWeight : ℕ)
  | addTx (view : View K P H) (tx : Transaction K P) (txRelay : RelayMethod) (relayed : Bool)
      (version nicVerifiedHfVersion : UInt8)
  | takeTx (id : H)
  | removeStuckTransactions
  | prune (bytes : ℕ)
  | setRelayed (ids : List H) (method : RelayMethod)
  | validate (view : View K P H) (version : UInt8)
  | onBlockchainInc
  | onBlockchainDec

variable (env : Env K P H R)

/-- A transaction is added under its own hash and with its own weight. -/
def step (pool : TxMemoryPool K P H R) : Operation K P H → TxMemoryPool K P H R
  | .init maxTxpoolWeight => (pool.init env maxTxpoolWeight).2
  | .restart maxTxpoolWeight =>
    (TxMemoryPool.init env { TxMemoryPool.new pool.txpool with readings := pool.readings }
      maxTxpoolWeight).2
  | .addTx view tx txRelay relayed version nicVerifiedHfVersion =>
    (pool.addTx env view tx (env.getTransactionHash tx) (env.getTransactionWeight tx) txRelay
      relayed version nicVerifiedHfVersion).pool
  | .takeTx id => ((pool.takeTx env id).map Prod.snd).getD pool
  | .removeStuckTransactions => pool.removeStuckTransactions env
  | .prune bytes => pool.prune env bytes
  | .setRelayed ids method => (pool.setRelayed env ids method).1
  | .validate view version => (pool.validate env view version).1
  | .onBlockchainInc => pool.onBlockchainInc
  | .onBlockchainDec => pool.onBlockchainDec

def run (ops : List (Operation K P H)) (pool : TxMemoryPool K P H R) : TxMemoryPool K P H R :=
  ops.foldl (step env) pool

end Lists

end Monero.Pool
