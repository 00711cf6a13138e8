import Monero.Blockchain.PoolReturn

/-!
# Emission

The coins that a block generates are what its miner transaction pays out above
the fees.  The number stored with a block is the sum of these up to the money
supply, where it stays, and it is the sum that the interface computes over again
from the blocks and their transactions.
-/

namespace Monero.Blockchain

open HardFork List

variable {K P H D : Type*}

/-! ## Sums of amounts -/

lemma foldl_addAmount {money : ℕ} (h : money < 2 ^ 64) (amounts : List ℕ) :
    amounts.foldl addAmount money = (money + amounts.sum) % 2 ^ 64 := by
  induction amounts generalizing money with
  | nil => exact (Nat.mod_eq_of_lt h).symm
  | cons amount amounts ih =>
    have hlt : addAmount money amount < 2 ^ 64 := Nat.mod_lt _ (by positivity)
    rw [foldl_cons, ih hlt, sum_cons, addAmount, Nat.mod_add_mod, Nat.add_assoc]

lemma sum_lt_of_checkOverflow {money : ℕ} (h : money < 2 ^ 64) {amounts : List ℕ}
    (hamounts : ∀ amount ∈ amounts, amount < 2 ^ 64)
    (hcheck : checkOverflow money amounts = true) :
    money + amounts.sum < 2 ^ 64 := by
  induction amounts generalizing money with
  | nil => simpa using h
  | cons amount amounts ih =>
    have hamount := hamounts amount mem_cons_self
    rw [checkOverflow] at hcheck
    split at hcheck
    · cases hcheck
    · rename_i hgrows
      have hsum : amount + money < 2 ^ 64 := by
        rw [addAmount] at hgrows
        omega
      have hadd : addAmount money amount = money + amount := by
        rw [addAmount, Nat.mod_eq_of_lt (by omega)]
      rw [hadd] at hcheck
      have hrest := ih (by omega) (fun a ha ↦ hamounts a (mem_cons_of_mem _ ha)) hcheck
      rw [sum_cons]
      omega

/-! ## The reward -/

/-- The reward that is accounted for is what the miner transaction pays out above
the fees, if these are not more than that or leave room for a reward. -/
theorem validateMinerTransaction_claims {β : Type*} {s : WeightState β H}
    {minerTx : Transaction K P} {weight fee coins reward : ℕ} {version : UInt8} {isPartial : Bool}
    (hfee : fee < 2 ^ 64 - 2 ^ 46 ∨ fee ≤ getOutsMoneyAmount minerTx)
    (h : validateMinerTransaction s minerTx weight fee coins version = some (reward, isPartial)) :
    reward + fee = getOutsMoneyAmount minerTx := by
  have hmoney : getOutsMoneyAmount minerTx < 2 ^ 64 := by
    rw [getOutsMoneyAmount, foldl_addAmount (by positivity)]
    exact Nat.mod_lt _ (by positivity)
  simp only [validateMinerTransaction] at h
  split at h
  · cases h
  split at h
  · cases h
  rename_i baseReward hreward
  have hlt := getBlockReward_lt hreward
  split at h
  · cases h
  split at h
  · -- the whole reward has to be claimed
    split at h
    · cases h
    · rename_i hexact
      cases h
      omega
  · split at h
    · cases h
    · -- a claim below the fees would wrap to more than any reward
      rename_i hclaimed
      cases h
      omega

/-! ## The fees of a block -/

/-- The pool records the fee of each transaction, as `add_tx` computes it. -/
def Env.RecordsFees (env : Env K P H D) (pool : Pool K P H D) : Prop :=
  ∀ id entry tx, pool id = some entry → env.parsePoolTx entry = some tx → entry.fee = getTxFee tx

def feesOf (txs : List (Transaction K P)) : List ℕ := txs.map getTxFee

variable [DecidableEq H]

variable {env : Env K P H D} {nullHash : H} {chain : StoredChain K P H} {hfVersion : UInt8}
  {node : Node K P H D} {fastCheck : Bool}

lemma Env.RecordsFees.update_none {pool : Pool K P H D}
    (h : env.RecordsFees pool) (id : H) : env.RecordsFees (Function.update pool id none) := by
  intro id' entry tx hentry
  by_cases hid : id' = id
  · subst hid
    simp at hentry
  · rw [Function.update_of_ne hid] at hentry
    exact h id' entry tx hentry

lemma takeBlockTx_fee {s s' : TxLoop K P H D} {id : H} (hpool : env.RecordsFees s.pool)
    (h : env.takeBlockTx nullHash chain hfVersion fastCheck s id = .ok s') :
    ∃ tx blob, s'.txs = s.txs ++ [(tx, blob)] ∧
      s'.feeSummary = addAmount s.feeSummary (getTxFee tx) ∧ env.RecordsFees s'.pool := by
  rcases takeBlockTx_cases h with
    ⟨exit, hexit⟩ | ⟨entry, tx, _, htake, -, -, hpushed⟩ | ⟨tx, _, -, -, hpushed⟩
  · cases hexit
  · obtain ⟨hentry, hparsed, -⟩ := takeTx_eq_some htake
    refine ⟨tx, entry.blob, hpushed.txs_eq, ?_, hpushed.pool_eq ▸ hpool.update_none id⟩
    rw [hpushed.feeSummary_eq s' rfl, hpool id entry tx hentry hparsed]
  · exact ⟨tx.1, tx.2, hpushed.txs_eq, hpushed.feeSummary_eq s' rfl, hpushed.pool_eq ▸ hpool⟩

lemma foldlM_takeBlockTx_fees {ids : List H} {s s' : TxLoop K P H D}
    (hpool : env.RecordsFees s.pool)
    (h : ids.foldlM (env.takeBlockTx nullHash chain hfVersion fastCheck) s = .ok s') :
    ∃ added, s'.txs = s.txs ++ added ∧
      s'.feeSummary = (feesOf (added.map Prod.fst)).foldl addAmount s.feeSummary := by
  induction ids generalizing s with
  | nil =>
    cases h
    exact ⟨[], (append_nil _).symm, rfl⟩
  | cons id ids ih =>
    rw [foldlM_cons, Lib.bind_eq_ok] at h
    obtain ⟨s₁, hfirst, hrest⟩ := h
    obtain ⟨tx, blob, htxs, hfee, hpool₁⟩ := takeBlockTx_fee hpool hfirst
    obtain ⟨added, htxs', hfee'⟩ := ih hpool₁ hrest
    refine ⟨(tx, blob) :: added, ?_, ?_⟩
    · rw [htxs', htxs, append_assoc]
      rfl
    · rw [hfee', hfee]
      rfl

/-! ## Accepted blocks -/

structure AcceptedBlock (K P H : Type*) where
  body : BlockBody K P H
  txs : List (Transaction K P)

namespace AcceptedBlock

variable (a : AcceptedBlock K P H)

def outputs : List ℕ := a.body.minerTx.vout.map TxOut.amount

def fees : List ℕ := feesOf a.txs

/-- The coinbase output total less the fees. -/
def emitted : ℕ := a.outputs.sum - a.fees.sum

end AcceptedBlock

def Env.collectedTxs (env : Env K P H D) (nullHash : H) (now : ℕ) (node : Node K P H D)
    (b : Block K P H) (id : H) (supplement : Supplement K P H D) : List (Transaction K P) :=
  match env.precheck now node b id supplement with
  | .error _ => []
  | .ok (fastCheck, _) =>
    match env.takeBlockTxs nullHash node b supplement fastCheck with
    | .error _ => []
    | .ok s => s.txs.map Prod.fst

/-- A chain of blocks that were accepted one after the other, from an empty chain
on.  Between two blocks anything but the chain may change, and blocks may be
taken off its end.  Amounts have 64 bits. -/
inductive Accepted (env : Env K P H D) (nullHash : H) :
    Node K P H D → List (AcceptedBlock K P H) → Prop
  | empty {node : Node K P H D} (hchain : node.chain = []) : Accepted env nullHash node []
  | changed {node node' : Node K P H D} {blocks : List (AcceptedBlock K P H)} (n : ℕ)
      (h : Accepted env nullHash node blocks) (hchain : node'.chain = node.chain.take n) :
      Accepted env nullHash node' (blocks.take n)
  | added {node : Node K P H D} {blocks : List (AcceptedBlock K P H)} {now : ℕ} {b : Block K P H}
      {id : H} {supplement : Supplement K P H D} (h : Accepted env nullHash node blocks)
      (hpool : env.RecordsFees node.pool)
      (hamounts : ∀ o ∈ b.body.minerTx.vout, o.amount < 2 ^ 64)
      (hfees : (feesOf (env.collectedTxs nullHash now node b id supplement)).sum < 2 ^ 64 - 2 ^ 46)
      (hreturn : (env.handleBlockToMainChain nullHash now node b id supplement).returnValue =
        true) :
      Accepted env nullHash (env.handleBlockToMainChain nullHash now node b id supplement).node
        (blocks ++ [⟨b.body, env.collectedTxs nullHash now node b id supplement⟩])

variable {blocks : List (AcceptedBlock K P H)} {a : AcceptedBlock K P H} {height : ℕ}

/-- No addition or subtraction of the 64-bit numbers wraps when a block is
accepted above `coins`: the total of its outputs, the total of its fees, any
reward with the fees, the outputs less the fees, what is left of the supply, and
the new number of coins. -/
structure AcceptedBlock.NoWrap (a : AcceptedBlock K P H) (coins : ℕ) : Prop where
  outputs : a.outputs.sum < 2 ^ 64
  fees : a.fees.sum < 2 ^ 64
  reward : ∀ medianWeight weight version reward,
    getBlockReward medianWeight weight coins version = some reward → reward + a.fees.sum < 2 ^ 64
  claimed : a.fees.sum ≤ a.outputs.sum
  remaining : coins ≤ moneySupply
  generated : a.emitted < moneySupply - coins → coins + a.emitted < 2 ^ 64

omit [DecidableEq H] in
lemma checkOutsOverflow_of_prevalidate {b : BlockBody K P H}
    (h : prevalidateMinerTransaction b height hfVersion = true) :
    checkOutsOverflow b.minerTx = true := by
  simp only [prevalidateMinerTransaction] at h
  split at h
  · iterate 4
      split at h
      · cases h
    rw [Bool.and_eq_true] at h
    exact h.1
  · cases h

lemma handleBlockToMainChain_emits {now : ℕ} {b : Block K P H} {id : H}
    {supplement : Supplement K P H D} {txs : List (Transaction K P)} {out : BlockOutcome K P H D}
    (hpool : env.RecordsFees node.pool) (hamounts : ∀ o ∈ b.body.minerTx.vout, o.amount < 2 ^ 64)
    (htxs : env.collectedTxs nullHash now node b id supplement = txs)
    (hfees : (feesOf txs).sum < 2 ^ 64 - 2 ^ 46)
    (hout : env.handleBlockToMainChain nullHash now node b id supplement = out)
    (h : out.returnValue = true) : (b.body.minerTx.vout.map TxOut.amount).sum < 2 ^ 64 ∧
      out.baseReward + (feesOf txs).sum = (b.body.minerTx.vout.map TxOut.amount).sum := by
  subst hout
  obtain ⟨fastCheck, difficulty, s, hpre, hloop, hfinish⟩ := handleBlockToMainChain_eq_added h
  have hcollected : txs = s.txs.map Prod.fst := by
    simp only [← htxs, Env.collectedTxs, hpre, hloop]
  have hsum : (b.body.minerTx.vout.map TxOut.amount).sum < 2 ^ 64 := by
    have hlt := sum_lt_of_checkOverflow (by positivity) (fun a ha ↦ by
        obtain ⟨o, ho, rfl⟩ := mem_map.mp ha
        exact hamounts o ho) (checkOutsOverflow_of_prevalidate (precheck_ok hpre).2.2)
    rwa [Nat.zero_add] at hlt
  rw [hcollected] at hfees ⊢
  rw [hfinish] at h ⊢
  obtain ⟨added, htxs, hsummary⟩ := foldlM_takeBlockTx_fees hpool hloop
  have hfee : s.feeSummary = (feesOf (s.txs.map Prod.fst)).sum := by
    have htxs' : s.txs = added := htxs
    rw [hsummary, ← htxs', foldl_addAmount (by positivity)]
    exact (congrArg (· % 2 ^ 64) (Nat.zero_add _)).trans (Nat.mod_eq_of_lt (by omega))
  obtain ⟨-, _, _, _, _, hvalidate, -, houtcome⟩ := finishBlock_eq_added h
  refine ⟨hsum, ?_⟩
  rw [← hfee] at hfees ⊢
  rw [houtcome, validateMinerTransaction_claims (.inl hfees) hvalidate, getOutsMoneyAmount,
    foldl_addAmount (by positivity), Nat.zero_add, Nat.mod_eq_of_lt hsum]

/-! ## The chain as a ledger of emissions -/

omit [DecidableEq H] in
@[simp] lemma lastCoins_concat (rows : StoredChain K P H) (row : Row (BlockBody K P H)) :
    lastCoins (rows ++ [row]) = row.alreadyGeneratedCoins := by
  simp [lastCoins, getBlockAlreadyGeneratedCoins, readAt]

inductive EmissionLedger : StoredChain K P H → List (AcceptedBlock K P H) → Prop
  | nil : EmissionLedger [] []
  | concat {rows : StoredChain K P H} {blocks : List (AcceptedBlock K P H)}
      {row : Row (BlockBody K P H)} {a : AcceptedBlock K P H} (h : EmissionLedger rows blocks)
      (hbody : row.block = a.body) (hwrap : a.NoWrap (lastCoins rows))
      (hcoins : row.alreadyGeneratedCoins = addGeneratedCoins (lastCoins rows) a.emitted) :
      EmissionLedger (rows ++ [row]) (blocks ++ [a])

namespace EmissionLedger

variable {rows : StoredChain K P H}

omit [DecidableEq H]

section

variable (h : EmissionLedger rows blocks)

include h

lemma length_eq : rows.length = blocks.length := by
  induction h with
  | nil => rfl
  | concat _ _ _ _ ih => rw [length_append, length_append, ih]; rfl

lemma take (n : ℕ) : EmissionLedger (rows.take n) (blocks.take n) := by
  induction h with
  | nil =>
    rw [take_nil, take_nil]
    exact .nil
  | @concat rows blocks row a h hbody hwrap hcoins ih =>
    rcases Nat.lt_or_ge rows.length n with hlt | hle
    · have hlength := h.length_eq
      rw [take_of_length_le (by simp; omega), take_of_length_le (by simp; omega)]
      exact .concat h hbody hwrap hcoins
    · rw [take_append_of_le_length hle, take_append_of_le_length (h.length_eq ▸ hle)]
      exact ih

lemma lastCoins_eq : lastCoins rows = min moneySupply (blocks.map AcceptedBlock.emitted).sum := by
  induction h with
  | nil => rfl
  | @concat rows blocks row a h hbody hwrap hcoins ih =>
    calc
      lastCoins (rows ++ [row]) = min moneySupply (lastCoins rows + a.emitted) := by
        rw [lastCoins_concat, hcoins, addGeneratedCoins_eq hwrap.remaining]
      _ = min moneySupply ((blocks.map AcceptedBlock.emitted).sum + a.emitted) := by
        rw [ih]
        omega
      _ = min moneySupply ((blocks ++ [a]).map AcceptedBlock.emitted).sum := by simp

lemma lastCoins_le : lastCoins rows ≤ moneySupply := by
  rw [h.lastCoins_eq]
  exact Nat.min_le_left _ _

variable {row : Row (BlockBody K P H)}

lemma coins_eq (hrow : rows[height]? = some row) : row.alreadyGeneratedCoins =
      min moneySupply ((blocks.take (height + 1)).map AcceptedBlock.emitted).sum := by
  rw [← (h.take (height + 1)).lastCoins_eq]
  obtain ⟨hlt, rfl⟩ := List.getElem?_eq_some_iff.mp hrow
  rw [← take_append_getElem hlt, lastCoins_concat]

lemma coins_mono {low high : ℕ} (hle : low ≤ high) {row' : Row (BlockBody K P H)}
    (hrow : rows[low]? = some row) (hrow' : rows[high]? = some row') :
    row.alreadyGeneratedCoins ≤ row'.alreadyGeneratedCoins := by
  rw [h.coins_eq hrow, h.coins_eq hrow']
  have hsublist : (blocks.take (low + 1)).Sublist (blocks.take (high + 1)) :=
    (take_prefix_take_left (by omega)).sublist
  have hsum := (hsublist.map AcceptedBlock.emitted).sum_le_sum fun _ _ ↦ Nat.zero_le _
  omega

end

lemma last (h : EmissionLedger (rows ++ [row]) (blocks ++ [a])) :
    row.block = a.body ∧ a.NoWrap (lastCoins rows) := by
  generalize hrows : rows ++ [row] = rows' at h
  generalize hblocks : blocks ++ [a] = blocks' at h
  cases h with
  | nil => exact absurd hrows (by simp)
  | concat h hbody hwrap hcoins =>
    obtain ⟨rfl, hrow⟩ := append_inj' hrows rfl
    obtain ⟨rfl, ha⟩ := append_inj' hblocks rfl
    cases hrow
    cases ha
    exact ⟨hbody, hwrap⟩

lemma each (h : EmissionLedger rows blocks) (hrow : rows[height]? = some row)
    (ha : blocks[height]? = some a) :
    row.block = a.body ∧ a.NoWrap (lastCoins (rows.take height)) := by
  obtain ⟨hlt, rfl⟩ := List.getElem?_eq_some_iff.mp hrow
  obtain ⟨hlt', rfl⟩ := List.getElem?_eq_some_iff.mp ha
  have hfront := h.take (height + 1)
  rw [← take_append_getElem hlt, ← take_append_getElem hlt'] at hfront
  exact hfront.last

end EmissionLedger

lemma Accepted.ledger (h : Accepted env nullHash node blocks) :
    EmissionLedger node.chain blocks := by
  induction h with
  | empty hchain =>
    rw [hchain]
    exact .nil
  | changed n h hchain ih =>
    rw [hchain]
    exact ih.take n
  | @added node blocks now b id supplement h hpool hamounts hfees hreturn ih =>
    obtain ⟨hsum, hclaims⟩ := handleBlockToMainChain_emits hpool hamounts rfl hfees rfl hreturn
    obtain ⟨-, s, blockWeight, hadd⟩ := handleBlockToMainChain_added hreturn
    obtain ⟨row, hchain, hblock, hrow⟩ := addBlock_row hadd
    rw [hchain]
    have hemitted : (⟨b.body, env.collectedTxs nullHash now node b id supplement⟩ :
        AcceptedBlock K P H).emitted =
          (env.handleBlockToMainChain nullHash now node b id supplement).baseReward := by
      change (b.body.minerTx.vout.map TxOut.amount).sum - (feesOf _).sum = _
      rw [← hclaims, Nat.add_sub_cancel]
    refine .concat ih (congrArg Block.body hblock) ?_ ?_
    · refine ⟨hsum, ?_, fun _ _ _ reward hreward ↦ ?_, ?_, ih.lastCoins_le, fun hlt ↦ ?_⟩
      · exact hfees.trans_le (Nat.sub_le _ _)
      · have hlt := getBlockReward_lt hreward
        simp only [AcceptedBlock.fees]
        omega
      · rw [AcceptedBlock.fees, AcceptedBlock.outputs, ← hclaims]
        exact Nat.le_add_left _ _
      · rw [moneySupply] at hlt
        omega
    · rw [hemitted]
      exact hrow.alreadyGeneratedCoins_eq

/-! ## The sum over the miner transactions -/

/-- `get_transactions` on the stored transactions without their prunable parts:
one that is missing is left out, and one that does not parse ends the loop. -/
def Env.getTransactions (env : Env K P H D) (chain : StoredChain K P H) :
    List H → List (Transaction K P)
  | [] => []
  | id :: ids =>
    match env.getPrunedTx chain id with
    | none => env.getTransactions chain ids
    | some none => []
    | some (some tx) => tx :: env.getTransactions chain ids

/-- The body of the loop of `get_coinbase_tx_sum`; the two sums have 128 bits. -/
def Env.addCoinbase (env : Env K P H D) (chain : StoredChain K P H) (sum : ℕ × ℕ)
    (row : Row (BlockBody K P H)) : ℕ × ℕ :=
  let coinbaseAmount := getOutsMoneyAmount row.block.minerTx
  let txFeeAmount := (feesOf (env.getTransactions chain row.block.txHashes)).foldl addAmount 0
  ((sum.1 + (coinbaseAmount + 2 ^ 64 - txFeeAmount) % 2 ^ 64) % 2 ^ 128,
    (sum.2 + txFeeAmount) % 2 ^ 128)

def Env.getCoinbaseTxSum (env : Env K P H D) (chain : StoredChain K P H) (startOffset count : ℕ) :
    ℕ × ℕ :=
  if count = 0 then (0, 0)
  else ((chain.drop startOffset).take count).foldl (env.addCoinbase chain) (0, 0)

/-- The database finds the transactions of a block, with the fees they had. -/
def Env.StoresFees (env : Env K P H D) (chain : StoredChain K P H) (a : AcceptedBlock K P H) :
    Prop :=
  Forall₂ (fun id tx ↦ ∃ stored, env.getPrunedTx chain id = some (some stored) ∧
    getTxFee stored = getTxFee tx) a.body.txHashes a.txs

omit [DecidableEq H] in
lemma Env.StoresFees.fees_eq (h : env.StoresFees chain a) :
    feesOf (env.getTransactions chain a.body.txHashes) = a.fees := by
  obtain ⟨body, txs⟩ := a
  change Forall₂ _ body.txHashes txs at h
  change feesOf (env.getTransactions chain body.txHashes) = feesOf txs
  generalize body.txHashes = ids at h
  induction h with
  | nil => rfl
  | cons hstored _ ih =>
    obtain ⟨stored, hget, hfee⟩ := hstored
    rw [Env.getTransactions, hget]
    exact congrArg₂ cons hfee ih

omit [DecidableEq H] in
lemma EmissionLedger.foldl_addCoinbase {rows : StoredChain K P H} (h : EmissionLedger rows blocks)
    (hstored : ∀ a ∈ blocks, env.StoresFees chain a) :
    (rows.foldl (env.addCoinbase chain) (0, 0)).1 =
      (blocks.map AcceptedBlock.emitted).sum % 2 ^ 128 := by
  induction h with
  | nil => rfl
  | @concat rows blocks row a h hbody hwrap hcoins ih =>
    have hemission := ih fun a ha ↦ hstored a (mem_append_left _ ha)
    have hfees := (hstored a (mem_append_right _ (mem_singleton_self a))).fees_eq
    have houtputs : getOutsMoneyAmount a.body.minerTx = a.outputs.sum := by
      rw [getOutsMoneyAmount, foldl_addAmount (by positivity), Nat.zero_add]
      exact Nat.mod_eq_of_lt hwrap.outputs
    have hsum : a.fees.foldl addAmount 0 = a.fees.sum := by
      rw [foldl_addAmount (by positivity), Nat.zero_add, Nat.mod_eq_of_lt hwrap.fees]
    have hdiff : (a.outputs.sum + 2 ^ 64 - a.fees.sum) % 2 ^ 64 = a.emitted := by
      have := hwrap.claimed
      have := hwrap.outputs
      rw [AcceptedBlock.emitted]
      omega
    rw [foldl_append, foldl_cons, foldl_nil, map_append, sum_append, map_singleton, sum_singleton]
    simp only [Env.addCoinbase, hbody, hfees, houtputs, hsum, hdiff, hemission, Nat.mod_add_mod]

/-- On every chain of accepted blocks the stored number of coins is the sum of the
coinbase outputs less the fees, up to the money supply; no 64-bit addition or
subtraction on the way wraps; the number never falls; and below the money supply it is
the emission that `get_coinbase_tx_sum` returns. -/
theorem emission_accounting (h : Accepted env nullHash node blocks) :
    (∀ height row, node.chain[height]? = some row →
      ∃ a, blocks[height]? = some a ∧ row.block = a.body ∧
        a.NoWrap (lastCoins (node.chain.take height)) ∧
        row.alreadyGeneratedCoins =
          min moneySupply ((blocks.take (height + 1)).map AcceptedBlock.emitted).sum) ∧
    (∀ (low high : ℕ) (row row' : Row (BlockBody K P H)), low ≤ high →
      node.chain[low]? = some row → node.chain[high]? = some row' →
        row.alreadyGeneratedCoins ≤ row'.alreadyGeneratedCoins) ∧
    ((∀ a ∈ blocks, env.StoresFees node.chain a) →
      ∀ height row, node.chain[height]? = some row → row.alreadyGeneratedCoins < moneySupply →
        (env.getCoinbaseTxSum node.chain 0 (height + 1)).1 = row.alreadyGeneratedCoins) := by
  have hledger := h.ledger
  refine ⟨fun height row hrow ↦ ?_, fun low high row row' hle hrow hrow' ↦ ?_,
    fun hstored height row hrow hbelow ↦ ?_⟩
  · have hlt : height < blocks.length := by
      rw [← hledger.length_eq]
      exact (List.getElem?_eq_some_iff.mp hrow).1
    have ha : blocks[height]? = some blocks[height] := getElem?_eq_getElem hlt
    obtain ⟨hbody, hwrap⟩ := hledger.each hrow ha
    exact ⟨_, ha, hbody, hwrap, hledger.coins_eq hrow⟩
  · exact hledger.coins_mono hle hrow hrow'
  · have hcoins := hledger.coins_eq hrow
    have hsum := (hledger.take (height + 1)).foldl_addCoinbase fun a ha ↦
      hstored a (mem_of_mem_take ha)
    rw [Env.getCoinbaseTxSum, if_neg (Nat.succ_ne_zero height), drop_zero, hsum]
    rw [hcoins] at hbelow ⊢
    have hsupply : moneySupply < 2 ^ 128 := by decide
    rw [Nat.mod_eq_of_lt (by omega)]
    omega

/-! ## Two blocks -/

def feeTx : Transaction Unit Unit := { poolTx false with txnFee := 5 }

def feePool : Pool Unit Unit ℕ Unit :=
  fun id ↦ if id = 7 then some ⟨(), some feeTx, 1, 5, 0, false, true⟩ else none

def feeEnv : Env Unit Unit ℕ Unit :=
  { trustingEnv [] with getPrunedTx := fun _ id ↦ if id = 7 then some (some feeTx) else none }

def genesisBlock : Block Unit Unit ℕ := ⟨⟨1, 1⟩, 0, ⟨0, minerTx 0 17592186044415, []⟩⟩

def genesisNode : Node Unit Unit ℕ Unit :=
  { (feeEnv.handleBlockToMainChain 0 0 (minedNode [] feePool) genesisBlock 0 []).node with
    pool := feePool }

lemma feePool_recordsFees : feeEnv.RecordsFees feePool := by
  intro id entry tx hentry hparsed
  rw [feePool] at hentry
  split_ifs at hentry
  cases hentry
  cases hparsed
  rfl

lemma genesis_accepted : Accepted feeEnv 0 genesisNode [⟨genesisBlock.body, []⟩] := by
  have hstart : Accepted feeEnv 0 (minedNode [] feePool) [] := .empty rfl
  have hreturn : (feeEnv.handleBlockToMainChain 0 0 (minedNode [] feePool) genesisBlock 0
      []).returnValue = true := by decide +kernel
  have hadded := hstart.added feePool_recordsFees (by decide) (by decide +kernel) hreturn
  exact hadded.changed 1 rfl

def feeBlock : Block Unit Unit ℕ := secondBlock (17592169267200 + 5) [7]

abbrev feeOutcome : BlockOutcome Unit Unit ℕ Unit :=
  feeEnv.handleBlockToMainChain 0 0 genesisNode feeBlock 1 []

theorem emission_accounting_fee : ∃ node blocks, Accepted feeEnv 0 node blocks ∧
      node.chain.map Row.alreadyGeneratedCoins = [17592186044415, 35184355311615] ∧
        (feeEnv.getCoinbaseTxSum node.chain 0 2).1 = 35184355311615 := by
  have hreturn : feeOutcome.returnValue = true := by decide +kernel
  have htxs : feeEnv.collectedTxs 0 0 genesisNode feeBlock 1 [] = [feeTx] := by decide +kernel
  have hcoins : feeOutcome.node.chain.map Row.alreadyGeneratedCoins =
      [17592186044415, 35184355311615] := by decide +kernel
  have haccepted := genesis_accepted.added feePool_recordsFees (by decide) (by rw [htxs]; decide)
    hreturn
  rw [htxs] at haccepted
  refine ⟨_, _, haccepted, hcoins, ?_⟩
  obtain ⟨-, -, hsum⟩ := emission_accounting haccepted
  have hstored : ∀ a ∈ [⟨genesisBlock.body, []⟩] ++
      [(⟨feeBlock.body, [feeTx]⟩ : AcceptedBlock Unit Unit ℕ)],
      feeEnv.StoresFees feeOutcome.node.chain a := by
    intro a ha
    rcases mem_pair.mp ha with rfl | rfl
    · exact .nil
    · exact .cons ⟨feeTx, rfl, rfl⟩ .nil
  have hlast := congrArg (·[1]?) hcoins
  simp only [getElem?_map] at hlast
  obtain ⟨row, hrow, hrowCoins⟩ := Option.map_eq_some_iff.mp hlast
  rw [hsum hstored 1 row hrow (by rw [hrowCoins]; decide), hrowCoins]

end Monero.Blockchain
