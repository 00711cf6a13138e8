import Monero.Database.Model

/-!
# Popping a block undoes adding it

Every row that `add_block` writes is new, so that each table is restored by
erasing the rows in any order.  The order matters where a number of rows names
the next one: the outputs of a transaction are taken off from the last to the
first, and so are the transactions of a block.
-/

namespace Monero.Database

open Lib List Function
open Table (added_of_append added_of_insert)
open Blockchain (TxIn)

variable {H K PK C X : Type}

/-! ## Outputs -/

/-- Everything that a successful `add_output` did. -/
structure OutputTables.OutputAdded (o : OutputTables H PK C) (height : ℕ) (txHash : H)
    (out : Output PK) (localIndex unlockTime : ℕ) (commitment : Option C) (pubkey : PK)
    (o' : OutputTables H PK C) : Prop where
  key : out.key = some pubkey
  committed : out.amount = 0 → commitment.isSome
  outputTxs : o.outputTxs.append? o.numOutputs ⟨txHash, localIndex⟩ = some o'.outputTxs
  rows : (o.outputAmounts out.amount).append? (o.outputAmounts out.amount).count
    ⟨o.numOutputs, pubkey, unlockTime, height, if out.amount = 0 then commitment else none⟩ =
      some (o'.outputAmounts out.amount)
  others : ∀ amount ≠ out.amount, o'.outputAmounts amount = o.outputAmounts amount

variable {o o' : OutputTables H PK C} {i height previous : ℕ} {txHash : H} {tx base : Tx K PK C X}
  {env : Env H K PK C X} {minerTx : Bool} {commitment : Option C} {out : Output PK}

lemma OutputTables.addOutput_eq_ok {unlockTime index : ℕ}
    (h : o.addOutput height txHash out i unlockTime commitment = .ok (index, o')) :
    index = (o.outputAmounts out.amount).count ∧
      ∃ pubkey, o.OutputAdded height txHash out i unlockTime commitment pubkey o' := by
  unfold addOutput at h
  split at h
  · cases h
  · rename_i hcommitment
    simp only [bind_eq_ok, orThrow_eq_ok] at h
    obtain ⟨pubkey, hkey, outputTxs, htxs, rows, hrows, heq⟩ := h
    cases heq
    refine ⟨rfl, pubkey, hkey, fun hzero ↦ ?_, htxs, ?_, fun amount hne ↦ ?_⟩
    · cases commitment with
      | none => exact absurd ⟨hzero, rfl⟩ hcommitment
      | some _ => rfl
    · change _ = some (update o.outputAmounts out.amount rows out.amount)
      rw [update_self, hrows]
    · exact update_of_ne hne _ _

lemma OutputTables.OutputAdded.removeOutput {unlockTime : ℕ} {pubkey : PK}
    (h : o.OutputAdded height txHash out i unlockTime commitment pubkey o') :
    o'.removeOutput out.amount (o.outputAmounts out.amount).count = .ok o := by
  have hrow := added_of_append h.rows
  have htx := added_of_append h.outputTxs
  rw [OutputTables.removeOutput, hrow.get_self, orThrow_some, ok_bind, htx.get_self, orThrow_some,
    ok_bind, htx.erase_eq, hrow.erase_eq]
  congr
  funext amount
  by_cases hamount : amount = out.amount
  · rw [hamount, update_self]
  · rw [update_of_ne hamount, h.others amount hamount]

lemma removeOutputs_addOutputs (env : Env H K PK C X) {amountOf : Output PK → ℕ}
    (hamount : ∀ i, ∀ out ∈ tx.vout, (filedOutput env tx minerTx i out).1.amount = amountOf out)
    {outs : List (Output PK)} (hsub : ∀ out ∈ outs, out ∈ tx.vout) {indices : List ℕ}
    (h : addOutputs env tx minerTx txHash height o i outs = .ok (indices, o')) :
    o'.removeOutputs (outs.map amountOf) indices = .ok o := by
  induction outs generalizing o i indices with
  | nil =>
    cases h
    rfl
  | cons out outs ih =>
    simp only [addOutputs, bind_eq_ok] at h
    obtain ⟨⟨index, o₁⟩, hout, ⟨rest, o₂⟩, houts, heq⟩ := h
    cases heq
    obtain ⟨rfl, pubkey, hadded⟩ := OutputTables.addOutput_eq_ok hout
    have htail := ih (fun out hout ↦ hsub out (mem_cons_of_mem _ hout)) houts
    have hhead := hadded.removeOutput
    rw [hamount i out (hsub out mem_cons_self)] at hhead
    rw [map_cons, OutputTables.removeOutputs, htail, ok_bind,
      hamount i out (hsub out mem_cons_self)]
    exact hhead

/-! ## Key images -/

@[simp] lemma keyImages_toKey (amount : ℕ) (offsets : List UInt64) (keyImage : K)
    (vin : List (TxIn K)) :
    keyImages (.toKey amount offsets keyImage :: vin) = keyImage :: keyImages vin := rfl

section Inputs

variable [LinearOrder K]

variable {s' s : Bool × Table K Unit} {vin : List (TxIn K)}

lemma addInput_eq_ok {i : TxIn K} (h : addInput s i = .ok s') :
    ((∃ height, i = .gen height) ∧ s' = (true, s.2)) ∨
      ∃ amount offsets keyImage, i = .toKey amount offsets keyImage ∧ s'.1 = s.1 ∧
        s.2.insert? keyImage () = some s'.2 := by
  cases i with
  | gen height =>
    cases h
    exact .inl ⟨⟨height, rfl⟩, rfl⟩
  | toKey amount offsets keyImage =>
    simp only [addInput, bind_eq_ok, orThrow_eq_ok] at h
    obtain ⟨t, ht, heq⟩ := h
    cases heq
    exact .inr ⟨amount, offsets, keyImage, rfl, rfl, ht⟩
  | toScript => cases h
  | toScripthash => cases h

lemma minerTx_iff (h : vin.foldlM addInput s = .ok s') :
    s'.1 = true ↔ s.1 = true ∨ ∃ height, TxIn.gen height ∈ vin := by
  induction vin generalizing s with
  | nil =>
    cases h
    simp
  | cons i vin ih =>
    rw [foldlM_cons, bind_eq_ok] at h
    obtain ⟨s₁, hinput, hrest⟩ := h
    rw [ih hrest]
    obtain ⟨⟨height, rfl⟩, rfl⟩ | ⟨amount, offsets, keyImage, rfl, hflag, -⟩ :=
      addInput_eq_ok hinput
    · simp
    · simp [hflag]

lemma spentKeys_addInputs (h : vin.foldlM addInput s = .ok s') :
    (∀ k ∈ keyImages vin, s.2.get? k = none) ∧
      ∀ k, s'.2.get? k = if k ∈ keyImages vin then some () else s.2.get? k := by
  induction vin generalizing s with
  | nil =>
    cases h
    simp [keyImages]
  | cons i vin ih =>
    rw [foldlM_cons, bind_eq_ok] at h
    obtain ⟨s₁, hinput, hrest⟩ := h
    obtain ⟨hnew, hget⟩ := ih hrest
    obtain ⟨⟨height, rfl⟩, rfl⟩ | ⟨amount, offsets, keyImage, rfl, -, hinsert⟩ :=
      addInput_eq_ok hinput
    · exact ⟨hnew, hget⟩
    · have hadded := added_of_insert hinsert
      rw [keyImages_toKey]
      constructor
      · intro k hk
        rcases mem_cons.mp hk with rfl | hk
        · exact hadded.fresh
        · have hnone := hnew k hk
          rw [hadded.get] at hnone
          split_ifs at hnone
          exact hnone
      · intro k
        rw [hget, hadded.get]
        by_cases hk : k ∈ keyImages vin
        · rw [if_pos hk, if_pos (mem_cons_of_mem _ hk)]
        · simp [hk]

lemma addInputs_keys {ks : List K} (h : s.2.keys.Perm ks)
    (hadd : vin.foldlM addInput s = .ok s') : s'.2.keys.Perm (ks ++ keyImages vin) := by
  rw [keyImages, filterMap_eq_flatMap_toList]
  refine foldlM_appends (P := fun s ks ↦ s.2.keys.Perm ks) (fun {i s s' ks} h hi ↦ ?_) h hadd
  obtain ⟨⟨_, rfl⟩, rfl⟩ | ⟨_, _, k, rfl, -, hinsert⟩ := addInput_eq_ok hi
  · simpa using h
  · exact (added_of_insert hinsert).keys_perm.trans (h.append_right [k])

lemma get?_foldl_erase (keys : List K) (t : Table K Unit) (x : K) :
    (keys.foldl Table.erase t).get? x = if x ∈ keys then none else t.get? x := by
  induction keys generalizing t with
  | nil => simp
  | cons k keys ih =>
    rw [foldl_cons, ih, Table.get?_erase]
    by_cases hx : x ∈ keys
    · simp [hx]
    · simp [hx]

lemma removeSpentKeys_addInputs {t t' : Table K Unit} (h : addInputs t vin = .ok (minerTx, t')) :
    removeSpentKeys t' vin = t := by
  obtain ⟨hnew, hget⟩ := spentKeys_addInputs h
  apply Table.ext_get
  intro k
  rw [removeSpentKeys, get?_foldl_erase]
  split_ifs with hk
  · exact (hnew k hk).symm
  · exact (hget k).trans (if_neg hk)

end Inputs

/-! ## One transaction -/

def Tx.Coinbase (tx : Tx K PK C X) : Prop := ∃ height, tx.vin = [.gen height]

def Tx.Spending (tx : Tx K PK C X) : Prop :=
  ∀ i ∈ tx.vin, ∃ amount offsets keyImage, i = .toKey amount offsets keyImage

lemma isPseudoRct_iff : isPseudoRct tx = true ↔ tx.Coinbase ∧ 2 ≤ tx.version := by
  unfold isPseudoRct Tx.Coinbase
  split
  · simp_all
  · rename_i hvin
    simp only [Bool.false_eq_true, false_iff, not_and]
    rintro ⟨height, heq⟩
    exact absurd heq (hvin height)

lemma filedOutput_amount [LinearOrder K] (env : Env H K PK C X)
    (hshape : tx.Coinbase ∨ tx.Spending) (hversion : tx.version ≤ 2) {t t' : Table K Unit}
    (hinputs : addInputs t tx.vin = .ok (minerTx, t')) (i : ℕ) (out : Output PK) :
    (filedOutput env tx minerTx i out).1.amount = if isPseudoRct tx then 0 else out.amount := by
  have hminer := minerTx_iff hinputs
  simp only [Bool.false_eq_true, false_or] at hminer
  have hcoinbase : minerTx = true ↔ tx.Coinbase := by
    rw [hminer]
    constructor
    · rintro ⟨height, hmem⟩
      apply hshape.resolve_right
      intro hspending
      obtain ⟨_, _, _, heq⟩ := hspending _ hmem
      cases heq
    · rintro ⟨height, hvin⟩
      exact ⟨height, hvin ▸ mem_singleton_self _⟩
  have hsame : (minerTx = true ∧ tx.version = 2) ↔ isPseudoRct tx = true := by
    rw [isPseudoRct_iff, hcoinbase]
    exact and_congr_right fun _ ↦ ⟨fun h ↦ h.ge, fun h ↦ le_antisymm hversion h⟩
  unfold filedOutput
  by_cases h : isPseudoRct tx = true
  · rw [if_pos (hsame.mpr h), if_pos h]
  · rw [if_neg (mt hsame.mp h), if_neg h]

lemma removePrunableHash_addPrunableHash {t t' : Table ℕ H} {txId : ℕ} {hash : H}
    (h : addPrunableHash t tx txId hash = .ok t') (hversion : base.version = tx.version) :
    removePrunableHash t' base txId = .ok t := by
  unfold addPrunableHash at h
  unfold removePrunableHash
  rw [hversion]
  split_ifs at h ⊢
  · have hadded := added_of_append (orThrow_eq_ok.mp h)
    rw [hadded.get_self, hadded.erase_eq]
    rfl
  · cases h
    rfl

/-- The stored bytes of a transaction parse back: the ones that are never
pruned to a transaction with the same inputs and outputs, and all of them to
the transaction itself. -/
structure Env.ParsesBack (env : Env H K PK C X) (tx : Tx K PK C X) (blob : Blob) : Prop where
  base : ∃ size base, env.getUnprunableSize tx = .ok size ∧
    env.parseTxBase (blob.take size) = some base ∧ base.version = tx.version ∧
      base.vin = tx.vin ∧ base.vout = tx.vout
  full : (env.parseTx blob).map Tx.content = some tx.content

lemma Env.ParsesBack.version_le {blob : Blob} (h : env.ParsesBack tx blob) : tx.version ≤ 2 := by
  obtain ⟨size, base, -, hbase, hversion, -, -⟩ := h.base
  exact hversion ▸ env.version_le _ _ hbase

variable [LinearOrder H] [LinearOrder K] {db db' : Db H K PK C} {e : Entry H K PK C X}

/-- Everything that a successful `add_transaction` did. -/
structure TransactionAdded (env : Env H K PK C X) (db : Db H K PK C) (tx : Tx K PK C X)
    (blob : Blob) (txHash : H) (minerTx : Bool) (size : ℕ) (indices : List ℕ)
    (db' : Db H K PK C) : Prop where
  inputs : addInputs db.spentKeys tx.vin = .ok (minerTx, db'.spentKeys)
  txIndices : db.txIndices.insert? txHash ⟨db.getTxCount, tx.unlockTime, db.height⟩ =
    some db'.txIndices
  size_eq : env.getUnprunableSize tx = .ok size
  txsPruned : db.txsPruned.append? db.getTxCount (blob.take size) = some db'.txsPruned
  txsPrunable : db.txsPrunable.append? db.getTxCount (blob.drop size) = some db'.txsPrunable
  txsPrunableHash : addPrunableHash db.txsPrunableHash tx db.getTxCount
    (env.getTransactionPrunableHash tx blob) = .ok db'.txsPrunableHash
  outputs : addOutputs env tx minerTx txHash db.height db.outputs 0 tx.vout =
    .ok (indices, db'.outputs)
  txOutputs : db.txOutputs.append? db.getTxCount indices = some db'.txOutputs
  blocks : db'.blocks = db.blocks
  blockInfo : db'.blockInfo = db.blockInfo
  blockHeights : db'.blockHeights = db.blockHeights

lemma addTransaction_eq_ok {blob : Blob} (h : addTransaction env db tx blob txHash = .ok db') :
    ∃ minerTx size indices, TransactionAdded env db tx blob txHash minerTx size indices db' := by
  simp only [addTransaction, addTransactionData, bind_eq_ok, orThrow_eq_ok] at h
  obtain ⟨⟨minerTx, spentKeys⟩, hinputs, data, ⟨txIndices, hindices, size, hsize, hdata⟩, h⟩ := h
  split at hdata
  · cases hdata
  simp only [bind_eq_ok, orThrow_eq_ok] at hdata
  obtain ⟨txsPruned, hpruned, txsPrunable, hprunable, txsPrunableHash, hhash, heq⟩ := hdata
  cases heq
  obtain ⟨⟨indices, outputs⟩, houts, txOutputs, hrow, heq⟩ := h
  cases heq
  exact ⟨minerTx, size, indices, hinputs, hindices, hsize, hpruned, hprunable, hhash, houts, hrow,
    rfl, rfl, rfl⟩

section Transaction

variable {blob : Blob} {size : ℕ} {indices : List ℕ}
  (h : TransactionAdded env db tx blob txHash minerTx size indices db')

include h

lemma TransactionAdded.height_eq : db'.height = db.height := by
  rw [Db.height, h.blocks, Db.height]

lemma TransactionAdded.getPrunedTxBlob : getPrunedTxBlob db' txHash = some (blob.take size) := by
  simp [Database.getPrunedTxBlob, (added_of_insert h.txIndices).get_self,
    (added_of_append h.txsPruned).get_self]

lemma TransactionAdded.getTxBlob : getTxBlob db' txHash = some blob := by
  simp [Database.getTxBlob, (added_of_insert h.txIndices).get_self,
    (added_of_append h.txsPruned).get_self, (added_of_append h.txsPrunable).get_self]

section

variable (hshape : tx.Coinbase ∨ tx.Spending)

include hshape

lemma TransactionAdded.removeTransactionData (hversion : base.version = tx.version)
    (hvin : base.vin = tx.vin) (hvout : base.vout = tx.vout) (hle : tx.version ≤ 2) :
    removeTransactionData { db' with spentKeys := db.spentKeys } txHash base = .ok db := by
  have hpseudo : isPseudoRct base = isPseudoRct tx := by
    rw [isPseudoRct, isPseudoRct, hvin, hversion]
  have houts : db'.outputs.removeOutputs (removalAmounts base) indices = .ok db.outputs := by
    rw [removalAmounts, hvout, hpseudo]
    exact removeOutputs_addOutputs env
      (fun i out _ ↦ filedOutput_amount env hshape hle h.inputs i out) (fun _ hout ↦ hout)
        h.outputs
  have hindex := added_of_insert h.txIndices
  have hpruned := added_of_append h.txsPruned
  have hprunable := added_of_append h.txsPrunable
  have hrow := added_of_append h.txOutputs
  have hhash := removePrunableHash_addPrunableHash h.txsPrunableHash hversion
  simp [Database.removeTransactionData, hindex.get_self, orThrow_some, hpruned.get_self, hhash,
    hrow.get_self, houts, hindex.erase_eq, hpruned.erase_eq, hprunable.erase_eq, hrow.erase_eq,
    h.blocks, h.blockInfo, h.blockHeights]

lemma TransactionAdded.removeTransaction (hparse : env.ParsesBack tx blob) :
    removeTransaction env db' txHash = .ok db := by
  obtain ⟨_, base, hsize, hbase, hversion, hvin, hvout⟩ := hparse.base
  cases h.size_eq.symm.trans hsize
  have hfound : getPrunedTx env db' txHash = .ok (some base) := by
    rw [getPrunedTx, h.getPrunedTxBlob]
    simp only [hbase]
    rfl
  rw [Database.removeTransaction, hfound, ok_bind, orThrow_some, ok_bind, hvin,
    removeSpentKeys_addInputs h.inputs]
  exact h.removeTransactionData hshape hversion hvin hvout hparse.version_le

lemma TransactionAdded.popTransaction (hparse : env.ParsesBack tx blob)
    (txs : List (Tx K PK C X)) :
    ∃ popped, popTransaction env (txs, db') txHash = .ok (txs ++ [popped], db) ∧
      popped.content = tx.content := by
  obtain ⟨popped, hpopped, hcontent⟩ := Option.map_eq_some_iff.mp hparse.full
  have hfound : getTx env db' txHash = .ok (some popped) := by
    rw [getTx, h.getTxBlob]
    simp only [hpopped]
    rfl
  refine ⟨popped, ?_, hcontent⟩
  rw [Database.popTransaction]
  simp [hfound, orThrow_some, h.removeTransaction hshape hparse]

end

end Transaction

/-! ## The transactions of a block -/

lemma popTransactions_addTransactions {ps : List ((Tx K PK C X × Blob) × H)}
    (hspending : ∀ p ∈ ps, p.1.1.Spending) (hparse : ∀ p ∈ ps, env.ParsesBack p.1.1 p.1.2)
    (h : addTransactions env db ps = .ok db') :
    ∃ txs, (ps.map Prod.snd).reverse.foldlM (popTransaction env) ([], db') = .ok (txs, db) ∧
      txs.map Tx.content = (ps.map fun p ↦ p.1.1.content).reverse := by
  induction ps generalizing db with
  | nil =>
    cases h
    exact ⟨[], rfl, rfl⟩
  | cons p ps ih =>
    rw [addTransactions, foldlM_cons, bind_eq_ok] at h
    obtain ⟨db₁, hfirst, hrest⟩ := h
    obtain ⟨minerTx, size, indices, hadded⟩ := addTransaction_eq_ok hfirst
    -- the transactions above are popped first
    obtain ⟨txs, htxs, hcontents⟩ := ih (fun q hq ↦ hspending q (mem_cons_of_mem _ hq))
      (fun q hq ↦ hparse q (mem_cons_of_mem _ hq)) hrest
    obtain ⟨popped, hpopped, hcontent⟩ := hadded.popTransaction
      (.inr (hspending p mem_cons_self)) (hparse p mem_cons_self) txs
    refine ⟨txs ++ [popped], ?_, ?_⟩
    · rw [map_cons, reverse_cons, foldlM_append, htxs, ok_bind, foldlM_cons, hpopped]
      rfl
    · simp [hcontents, hcontent]

/-! ## The block -/

/-- Everything that `BlockchainLMDB::add_block` did. -/
structure BlockRowAdded (env : Env H K PK C X) (db : Db H K PK C) (e : Entry H K PK C X)
    (previous : ℕ) (db' : Db H K PK C) : Prop where
  parent : 0 < db.height → db.blockHeights.get? e.blk.prevId = some (db.height - 1)
  blocks : db.blocks.append? db.height (env.blockToBlob e.blk) = some db'.blocks
  previous_eq : db.previousCumRct e.blk.majorVersion = .ok previous
  blockInfo : db.blockInfo.append? db.height (e.blockInfo env db.height previous) =
    some db'.blockInfo
  blockHeights : db.blockHeights.insert? (env.getBlockHash e.blk) db.height = some db'.blockHeights
  rest : db' = { db with
    blocks := db'.blocks, blockInfo := db'.blockInfo, blockHeights := db'.blockHeights }

lemma addBlockRow_eq_ok
    (h : addBlockRow env db e = .ok db') : ∃ previous, BlockRowAdded env db e previous db' := by
  simp only [addBlockRow] at h
  split at h
  · cases h
  split at h
  · cases h
  split at h
  · cases h
  rename_i hparent
  simp only [bind_eq_ok, orThrow_eq_ok] at h
  obtain ⟨blocks, hblocks, previous, hprevious, blockInfo, hinfo, blockHeights, hheights, heq⟩ := h
  cases heq
  refine ⟨previous, fun hpos ↦ ?_, hblocks, hprevious, hinfo, hheights, rfl⟩
  by_contra hne
  exact hparent ⟨hpos, hne⟩

lemma BlockRowAdded.height_eq (h : BlockRowAdded env db e previous db') :
    db'.height = db.height + 1 := by
  rw [Db.height, Table.count, (Table.append?_eq_some h.blocks).2, length_append]
  rfl

lemma BlockRowAdded.removeBlock (h : BlockRowAdded env db e previous db') :
    removeBlock db' = .ok db := by
  have hblocks := added_of_append h.blocks
  have hinfo := added_of_append h.blockInfo
  have hheights := added_of_insert h.blockHeights
  have htop : db'.height - 1 = db.height := by rw [h.height_eq, Nat.add_sub_cancel]
  have hpos : db'.height ≠ 0 := by
    rw [h.height_eq]
    exact Nat.succ_ne_zero _
  have hhash : (e.blockInfo env db.height previous).hash = env.getBlockHash e.blk := rfl
  rw [Database.removeBlock, if_neg hpos, htop]
  simp only [hinfo.get_self, orThrow_some, ok_bind, hhash, hheights.get_self, hblocks.get_self,
    hblocks.erase_eq, hinfo.erase_eq, hheights.erase_eq]
  rw [h.rest]

/-- A block that serialises to something that parses back, with a coinbase as
its miner transaction and inputs `txin_to_key` in the others. -/
structure Entry.WellFormed (env : Env H K PK C X) (e : Entry H K PK C X) : Prop where
  coinbase : e.blk.minerTx.Coinbase
  spending : ∀ p ∈ e.txs, p.1.Spending
  parseBlock : (env.parseBlock (env.blockToBlob e.blk)).map Block.content = some e.blk.content
  parseMinerTx : env.ParsesBack e.blk.minerTx (env.txToBlob e.blk.minerTx)
  parseTxs : ∀ p ∈ e.txs, env.ParsesBack p.1 p.2

lemma addBlock_eq_ok (h : addBlock env db e = .ok db') :
    e.blk.txHashes.length = e.txs.length ∧ ∃ db₁ db₂ previous minerTx size indices,
      TransactionAdded env db e.blk.minerTx (env.txToBlob e.blk.minerTx)
        (env.getTransactionHash e.blk.minerTx) minerTx size indices db₁ ∧
      addTransactions env db₁ (e.txs.zip e.blk.txHashes) = .ok db₂ ∧
      BlockRowAdded env db₂ e previous db' := by
  unfold addBlock at h
  split at h
  · cases h
  rename_i hlength
  simp only [bind_eq_ok] at h
  obtain ⟨db₁, hminer, db₂, htxs, hrow⟩ := h
  obtain ⟨minerTx, size, indices, hadded⟩ := addTransaction_eq_ok hminer
  obtain ⟨previous, hrow⟩ := addBlockRow_eq_ok hrow
  exact ⟨not_not.mp hlength, db₁, db₂, previous, minerTx, size, indices, hadded, htxs, hrow⟩

lemma BlockRowAdded.getTopBlock (h : BlockRowAdded env db e previous db')
    (hparse : (env.parseBlock (env.blockToBlob e.blk)).map Block.content = some e.blk.content) :
    ∃ blk, getTopBlock env db' = .ok blk ∧ blk.content = e.blk.content := by
  obtain ⟨blk, hblk, hcontent⟩ := Option.map_eq_some_iff.mp hparse
  refine ⟨blk, ?_, hcontent⟩
  have hpos : db'.height ≠ 0 := by
    rw [h.height_eq]
    exact Nat.succ_ne_zero _
  rw [Database.getTopBlock, if_neg hpos, h.height_eq, Nat.add_sub_cancel,
    (added_of_append h.blocks).get_self, orThrow_some, ok_bind, hblk, orThrow_some]

lemma popBlock_of_addBlock (he : e.WellFormed env) (h : addBlock env db e = .ok db') :
    ∃ blk txs, popBlock env db' = .ok (blk, txs, db) ∧ blk.content = e.blk.content ∧
      txs.map Tx.content = (e.txs.map fun p ↦ p.1.content).reverse := by
  obtain ⟨hlength, db₁, db₂, _, _, _, _, hadded, htxs, hrow⟩ := addBlock_eq_ok h
  obtain ⟨blk, hblk, hcontent⟩ := hrow.getTopBlock he.parseBlock
  have hhashes : blk.content.txHashes = e.blk.content.txHashes := congrArg Block.txHashes hcontent
  have hhash : env.getTransactionHash blk.minerTx = env.getTransactionHash e.blk.minerTx := by
    rw [← env.hash_content blk.minerTx, ← env.hash_content e.blk.minerTx]
    exact congrArg (fun b ↦ env.getTransactionHash b.minerTx) hcontent
  obtain ⟨txs, hpopped, hcontents⟩ := popTransactions_addTransactions
    (fun p hp ↦ he.spending p.1 (of_mem_zip hp).1)
    (fun p hp ↦ he.parseTxs p.1 (of_mem_zip hp).1) htxs
  rw [map_snd_zip hlength.le] at hpopped
  refine ⟨blk, txs, ?_, hcontent, ?_⟩
  · change blk.txHashes = e.blk.txHashes at hhashes
    rw [popBlock, hblk, ok_bind, hrow.removeBlock, ok_bind, hhashes, hpopped, ok_bind, hhash,
      hadded.removeTransaction (.inl he.coinbase) he.parseMinerTx]
    rfl
  · have hfst : (e.txs.zip e.blk.txHashes).map Prod.fst = e.txs := map_fst_zip hlength.ge
    rw [hcontents]
    conv_rhs => rw [← hfst, map_map]
    rfl

/-! ## Blocks and transactions from a list

Hashes are numbers that a block and a transaction carry with them, and bytes
are those that a list gives to a transaction, first the ones that are never
pruned, and to a block. -/

abbrev ListedTx := Tx ℕ ℕ ℕ ℕ

abbrev ListedBlock := Block ℕ ℕ ℕ ℕ ℕ

abbrev ListedEntry := Entry ℕ ℕ ℕ ℕ ℕ

def listedEnv (txs : List (ListedTx × Blob × Blob)) (blocks : List (ListedBlock × Blob)) :
    Env ℕ ℕ ℕ ℕ ℕ where
  getBlockHash blk := blk.nonce
  getTransactionHash tx := tx.rest
  getTransactionPrunableHash tx _ := tx.rest
  txToBlob tx := ((txs.find? fun p ↦ p.1 = tx).map fun p ↦ p.2.1 ++ p.2.2).getD []
  serializeBase tx := (txs.find? fun p ↦ p.1 = tx).map fun p ↦ p.2.1
  blockToBlob blk := ((blocks.find? fun p ↦ p.1 = blk).map Prod.snd).getD []
  parseBlock blob := (blocks.find? fun p ↦ p.2 = blob).map Prod.fst
  parseTx blob := (txs.find? fun p ↦ p.2.1 ++ p.2.2 = blob).map Prod.fst
  parseTxBase blob := (txs.find? fun p ↦ p.1.version ≤ 2 ∧ p.2.1 = blob).map Prod.fst
  zeroCommit amount := amount
  hash_content _ := rfl
  version_le blob tx h := by
    obtain ⟨p, hp, rfl⟩ := Option.map_eq_some_iff.mp h
    have hfound := find?_some hp
    simp only [decide_eq_true_eq] at hfound
    exact hfound.1

def listedTx (version : ℕ) (vin : List (TxIn ℕ)) (vout : List (Output ℕ)) (outPk : List ℕ)
    (hash : ℕ) : ListedTx := ⟨version, 0, vin, vout, outPk, 0, hash⟩

/-- A block whose hash is one above its height. -/
def listedBlock (majorVersion height : ℕ) (minerTx : ListedTx) (txs : List ListedTx) :
    ListedBlock :=
  ⟨majorVersion, 0, 0, height, height + 1, minerTx, txs.map Tx.rest⟩

def listedEntry (blk : ListedBlock) (txs : List (ListedTx × Blob)) : ListedEntry :=
  ⟨blk, 0, 0, 0, 0, txs⟩

/-- Adding a block to a reachable database and popping it again is a run that
comes back to the database, every table included. -/
theorem pop_undoes_add {ops : List (Operation H K PK C X)} (hrun : run env .empty ops = .ok db)
    (he : e.WellFormed env) (hadd : addBlock env db e = .ok db') :
    run env .empty (ops ++ [.add e, .pop]) = .ok db ∧
      ∃ blk txs, popBlock env db' = .ok (blk, txs, db) ∧ blk.content = e.blk.content ∧
        txs.map Tx.content = (e.txs.map fun p ↦ p.1.content).reverse := by
  have hpop := popBlock_of_addBlock he hadd
  refine ⟨?_, hpop⟩
  obtain ⟨blk, txs, hpop, -, -⟩ := hpop
  rw [run, foldlM_append, ← run, hrun, ok_bind, foldlM_cons, step, hadd, ok_bind,
    foldlM_cons, step, hpop]
  rfl

def firstMinerTx : ListedTx := listedTx 1 [.gen 0] [⟨5, some 10⟩, ⟨7, some 11⟩] [] 100

def secondMinerTx : ListedTx := listedTx 2 [.gen 1] [⟨7, some 12⟩] [] 101

/-- Spends an output and makes two hidden ones. -/
def hiddenTx : ListedTx := listedTx 2 [.toKey 5 [0] 1] [⟨0, some 13⟩, ⟨0, some 14⟩] [21, 22] 102

def clearTx : ListedTx := listedTx 1 [.toKey 7 [0] 2, .toKey 7 [0] 3] [⟨5, some 15⟩] [] 103

def firstBlock : ListedBlock := listedBlock 1 0 firstMinerTx []

def secondBlock : ListedBlock := listedBlock 4 1 secondMinerTx [hiddenTx, clearTx]

def twoBlocksEnv : Env ℕ ℕ ℕ ℕ ℕ :=
  listedEnv [(firstMinerTx, [1], []), (secondMinerTx, [2], [3]), (hiddenTx, [4, 5], [6]),
    (clearTx, [7], [8])] [(firstBlock, [1]), (secondBlock, [2])]

def firstEntry : ListedEntry := listedEntry firstBlock []

def secondEntry : ListedEntry := listedEntry secondBlock [(hiddenTx, [4, 5, 6]), (clearTx, [7, 8])]

lemma firstEntry_wellFormed : firstEntry.WellFormed twoBlocksEnv where
  coinbase := ⟨0, rfl⟩
  spending p hp := by cases hp
  parseBlock := by decide +kernel
  parseMinerTx := ⟨⟨1, firstMinerTx, by decide +kernel⟩, by decide +kernel⟩
  parseTxs p hp := by cases hp

lemma hiddenTx_parsesBack : twoBlocksEnv.ParsesBack hiddenTx [4, 5, 6] :=
  ⟨⟨2, hiddenTx, by decide +kernel⟩, by decide +kernel⟩

lemma clearTx_parsesBack : twoBlocksEnv.ParsesBack clearTx [7, 8] :=
  ⟨⟨1, clearTx, by decide +kernel⟩, by decide +kernel⟩

lemma secondEntry_wellFormed : secondEntry.WellFormed twoBlocksEnv where
  coinbase := ⟨1, rfl⟩
  spending p hp := by
    rcases mem_pair.mp hp with rfl | rfl
    · simp [hiddenTx, listedTx, Tx.Spending]
    · simp [clearTx, listedTx, Tx.Spending]
  parseBlock := by decide +kernel
  parseMinerTx := ⟨⟨1, secondMinerTx, by decide +kernel⟩, by decide +kernel⟩
  parseTxs p hp := by
    rcases mem_pair.mp hp with rfl | rfl
    · exact hiddenTx_parsesBack
    · exact clearTx_parsesBack

theorem pop_undoes_add_second : ∃ db db', run twoBlocksEnv .empty [.add firstEntry] = .ok db ∧
      addBlock twoBlocksEnv db secondEntry = .ok db' ∧
      run twoBlocksEnv .empty [.add firstEntry, .add secondEntry, .pop] = .ok db := by
  have hok : (run twoBlocksEnv .empty [.add firstEntry, .add secondEntry]).isOk = true := by
    decide +kernel
  obtain ⟨db', hrun⟩ := exists_of_isOk hok
  obtain ⟨db, hfirst, hsecond⟩ := bind_eq_ok.mp hrun
  obtain ⟨_, hadd, heq⟩ := bind_eq_ok.mp hsecond
  cases heq
  have hdb : run twoBlocksEnv .empty [.add firstEntry] = .ok db := bind_eq_ok.mpr ⟨db, hfirst, rfl⟩
  exact ⟨db, db', hdb, hadd, (pop_undoes_add hdb secondEntry_wellFormed hadd).1⟩

end Monero.Database
