import Monero.HardFork.Model
import Monero.Lib.Result

/-!
# The stored chain

The main chain as the database keeps it: one row for each height, with the
block and the data that `BlockchainDB::add_block` stores alongside it.
-/

namespace Monero.Blockchain

/-! ## Constants of `cryptonote_config.h` -/

def difficultyWindow : ℕ := 720

def difficultyLag : ℕ := 15

def difficultyCut : ℕ := 60

def difficultyBlocksCount : ℕ := difficultyWindow + difficultyLag

def difficultyTargetV1 : ℕ := 60

def difficultyTargetV2 : ℕ := 120

def timestampCheckWindow : ℕ := 60

def blockFutureTimeLimit : ℕ := 60 * 60 * 2

def moneySupply : ℕ := 2 ^ 64 - 1

/-! ## Rows -/

/-- A row of the chain.  `β` is what the block holds besides its header
versions and its timestamp. -/
structure Row (β : Type*) where
  block : β
  versions : HardFork.BlockVersions
  timestamp : ℕ
  weight : ℕ
  longTermWeight : ℕ
  cumulativeDifficulty : ℕ
  alreadyGeneratedCoins : ℕ
  deriving DecidableEq

variable {β : Type*} (f : Row β → ℕ) {chain : List (Row β)}

/-- A number read from the row at a height.  The database throws at a height
without a row; no caller asks for one. -/
def readAt (chain : List (Row β)) (height : ℕ) : ℕ := (chain[height]?.map f).getD 0

def getBlockTimestamp : List (Row β) → ℕ → ℕ := readAt Row.timestamp

def getBlockCumulativeDifficulty : List (Row β) → ℕ → ℕ := readAt Row.cumulativeDifficulty

def getBlockAlreadyGeneratedCoins : List (Row β) → ℕ → ℕ := readAt Row.alreadyGeneratedCoins

def getBlockLongTermWeight : List (Row β) → ℕ → ℕ := readAt Row.longTermWeight

def readRange (chain : List (Row β)) (start stop : ℕ) : List ℕ :=
  (List.range' start (stop - start)).map (readAt f chain)

lemma readRange_eq {start stop : ℕ} (hstop : stop ≤ chain.length) :
    readRange f chain start stop = ((chain.map f).take stop).drop start := by
  refine List.ext_getElem? fun i ↦ ?_
  rw [readRange, List.getElem?_map, List.getElem?_drop]
  rcases Nat.lt_or_ge i (stop - start) with hlt | hge
  · have hrow : start + i < chain.length := by omega
    rw [List.getElem?_range' hlt, List.getElem?_take_of_lt (by omega), List.getElem?_map,
      List.getElem?_eq_getElem hrow]
    simp [readAt, hrow]
  · rw [List.getElem?_eq_none (by simpa using hge), List.getElem?_eq_none (by simp; omega)]
    rfl

lemma readAt_eq {f : Row β → ℕ} {height : ℕ} {row : Row β} (h : chain[height]? = some row) :
    readAt f chain height = f row := by
  simp [readAt, h]

/-! ## Transactions and blocks -/

open HardFork

/-- `txin_v`, with key images in `K`. -/
inductive TxIn (K : Type*) where
  | gen (height : ℕ)
  | toScript
  | toScripthash
  | toKey (amount : ℕ) (keyOffsets : List UInt64) (keyImage : K)
  deriving DecidableEq

inductive TxOutTarget where
  | toScript
  | toScripthash
  | toKey
  | toTaggedKey
  deriving DecidableEq, Repr

structure TxOut where
  amount : ℕ
  target : TxOutTarget
  deriving DecidableEq, Repr

inductive RctType where
  | null
  | full
  | simple
  | bulletproof
  | bulletproof2
  | clsag
  | bulletproofPlus
  deriving DecidableEq, Repr

/-- A transaction.  `P` is the type of signatures and commitments, which only
the proof verifiers look into. -/
structure Transaction (K P : Type*) where
  version : ℕ
  unlockTime : ℕ
  vin : List (TxIn K)
  vout : List TxOut
  signatures : List (List P)
  rctType : RctType
  outPk : List P
  txnFee : ℕ
  pruned : Bool
  deriving DecidableEq

structure BlockBody (K P H : Type*) where
  prevId : H
  minerTx : Transaction K P
  txHashes : List H
  deriving DecidableEq

structure Block (K P H : Type*) where
  versions : BlockVersions
  timestamp : ℕ
  body : BlockBody K P H
  deriving DecidableEq

variable {K P H : Type*}

/-! ## Amounts -/

def addAmount (money amount : ℕ) : ℕ := (money + amount) % 2 ^ 64

variable (tx : Transaction K P)

def getOutsMoneyAmount : ℕ := (tx.vout.map TxOut.amount).foldl addAmount 0

/-- The loop shared by `check_inputs_overflow` and `check_outs_overflow`. -/
def checkOverflow : ℕ → List ℕ → Bool
  | _, [] => true
  | money, amount :: amounts =>
    if addAmount amount money < money then false
    else checkOverflow (addAmount money amount) amounts

def checkOutsOverflow : Bool := checkOverflow 0 (tx.vout.map TxOut.amount)

def TxIn.amount? : TxIn K → Option ℕ
  | .toKey amount _ _ => some amount
  | _ => none

/-- An input of another kind fails the check. -/
def checkInputsOverflow : Bool :=
  match tx.vin.mapM TxIn.amount? with
  | none => false
  | some amounts => checkOverflow 0 amounts

def checkMoneyOverflow : Bool :=
  checkInputsOverflow tx && checkOutsOverflow tx

/-- The sum of the amounts before the first input of another kind. -/
def getInputsMoneyAmount : ℕ :=
  ((tx.vin.map TxIn.amount?).takeWhile Option.isSome).reduceOption.foldl addAmount 0

/-- A transaction whose fee cannot be computed has fee zero. -/
def getTxFee : ℕ :=
  if 1 < tx.version then tx.txnFee
  else
    match tx.vin.mapM TxIn.amount? with
    | none => 0
    | some amounts =>
      let amountIn := amounts.foldl addAmount 0
      if getOutsMoneyAmount tx ≤ amountIn then amountIn - getOutsMoneyAmount tx else 0

/-! ## Output types -/

def hfVersionViewTags : UInt8 := 15

def checkOutputTypes (hfVersion : UInt8) : Bool := tx.vout.all fun o ↦
    if hfVersionViewTags < hfVersion then o.target = .toTaggedKey
    else if hfVersion < hfVersionViewTags then o.target = .toKey
    else (o.target = .toKey ∨ o.target = .toTaggedKey) ∧
      tx.vout.head?.map TxOut.target = some o.target

/-- `get_block_height` of a block: the height that the miner transaction
states, zero when it has another form. -/
def BlockBody.getBlockHeight (b : BlockBody K P H) : ℕ :=
  match b.minerTx.vin with
  | [.gen height] => height
  | _ => 0

end Monero.Blockchain
