import Monero.Database.Undo

/-!
# The chain as a ledger of outputs

Seen from outside the database is a stack of blocks.  Its transactions are a
list in the order they were added, and so are the outputs, each with the amount
it is filed under.  The tables of transactions and outputs hold exactly these
lists: ids and indices are positions in them.
-/

namespace Monero.Database

open Lib List
open Blockchain (TxIn)

variable {H K PK C X : Type}

/-! ## Lists of transactions and outputs -/

structure ChainTx (H K PK C X : Type*) where
  tx : Tx K PK C X
  blob : Blob
  hash : H
  height : ℕ

structure Filed (H PK C : Type*) where
  output : Output PK
  origin : OutTx H
  unlockTime : ℕ
  height : ℕ
  commitment : Option C

/-- Whether `add_transaction` takes the transaction for a miner transaction. -/
def Tx.hasGen (tx : Tx K PK C X) : Bool := tx.vin.any fun
    | .gen _ => true
    | _ => false

variable (env : Env H K PK C X)

def ChainTx.file (t : ChainTx H K PK C X) (i : ℕ) (out : Output PK) : Filed H PK C :=
  let filed := filedOutput env t.tx t.tx.hasGen i out
  ⟨filed.1, ⟨t.hash, i⟩, t.tx.unlockTime, t.height, filed.2⟩

def ChainTx.filed (t : ChainTx H K PK C X) : List (Filed H PK C) := t.tx.vout.mapIdx (t.file env)

def ledger (ts : List (ChainTx H K PK C X)) : List (Filed H PK C) := ts.flatMap (ChainTx.filed env)

/-- The index of each of the outputs `fs` among those of its amount, after the
outputs `before`. -/
def amountIndices (before : List (Filed H PK C)) : List (Filed H PK C) → List ℕ
  | [] => []
  | f :: fs =>
    before.countP (fun g ↦ g.output.amount = f.output.amount) :: amountIndices (before ++ [f]) fs

def Entry.transactions (e : Entry H K PK C X) (height : ℕ) : List (ChainTx H K PK C X) :=
  ⟨e.blk.minerTx, env.txToBlob e.blk.minerTx, env.getTransactionHash e.blk.minerTx, height⟩ ::
    (e.txs.zip e.blk.txHashes).map fun p ↦ ⟨p.1.1, p.1.2, p.2, height⟩

def Entry.keyImages (e : Entry H K PK C X) : List K :=
  Database.keyImages e.blk.minerTx.vin ++ e.txs.flatMap fun p ↦ Database.keyImages p.1.vin

def chainTxs (chain : List (Entry H K PK C X)) : List (ChainTx H K PK C X) :=
  chain.zipIdx.flatMap fun p ↦ p.1.transactions env p.2

lemma getElem?_concat_eq_some {α : Type} {l : List α} {a b : α} {i : ℕ}
    (h : (l ++ [a])[i]? = some b) : l[i]? = some b ∧ i < l.length ∨ i = l.length ∧ a = b := by
  rcases lt_trichotomy i l.length with hi | rfl | hi
  · rw [getElem?_append_left hi] at h
    exact .inl ⟨h, hi⟩
  · exact .inr ⟨rfl, by simpa using h⟩
  · rw [getElem?_eq_none (by simp; omega)] at h
    cases h

variable (fs : List (Filed H PK C)) (env : Env H K PK C X) (t : ChainTx H K PK C X)
  {indices : List ℕ} {tx : Tx K PK C X}

lemma ledger_append (ts us : List (ChainTx H K PK C X)) :
    ledger env (ts ++ us) = ledger env ts ++ ledger env us := flatMap_append

lemma ledger_singleton : ledger env [t] = t.filed env := flatMap_singleton _ _

lemma chainTxs_append_singleton (chain : List (Entry H K PK C X)) (e : Entry H K PK C X) :
    chainTxs env (chain ++ [e]) = chainTxs env chain ++ e.transactions env chain.length := by
  simp [chainTxs, zipIdx_append]

/-! ## Outputs -/

def OutKey.data (ok : OutKey PK C) : Option PK × ℕ × ℕ × Option C :=
  (some ok.pubkey, ok.unlockTime, ok.height, ok.commitment)

def Filed.data (f : Filed H PK C) : Option PK × ℕ × ℕ × Option C :=
  (f.output.key, f.unlockTime, f.height, if f.output.amount = 0 then f.commitment else none)

def ofAmount (fs : List (Filed H PK C)) (amount : ℕ) : List (Filed H PK C × ℕ) :=
  fs.zipIdx.filter fun p ↦ p.1.output.amount = amount

/-- The tables hold the ledger `fs`. -/
structure OutputTables.Holds (o : OutputTables H PK C) (fs : List (Filed H PK C)) : Prop where
  outputTxs : o.outputTxs.Lists (fs.map Filed.origin)
  outputAmounts : ∀ amount, ∃ rows, (o.outputAmounts amount).Lists rows ∧
    rows.map (fun ok ↦ (ok.data, ok.outputId)) = (ofAmount fs amount).map fun p ↦ (p.1.data, p.2)
  committed : ∀ f ∈ fs, f.output.amount = 0 → f.commitment.isSome

lemma ofAmount_append_singleton (f : Filed H PK C) (amount : ℕ) : ofAmount (fs ++ [f]) amount =
      ofAmount fs amount ++ if f.output.amount = amount then [(f, fs.length)] else [] := by
  rw [ofAmount, zipIdx_append, filter_append]
  simp [ofAmount, filter_singleton]

lemma length_ofAmount (amount : ℕ) :
    (ofAmount fs amount).length = fs.countP fun f ↦ f.output.amount = amount := by
  induction fs using reverseRecOn with
  | nil => rfl
  | append_singleton fs f ih =>
    rw [ofAmount_append_singleton, length_append, ih, countP_append]
    split_ifs with h <;> simp [h]

namespace OutputTables

variable {o o' : OutputTables H PK C} {fs : List (Filed H PK C)}

lemma Holds.empty : (⟨.empty, fun _ ↦ .empty⟩ : OutputTables H PK C).Holds [] :=
  ⟨.empty, fun _ ↦ ⟨[], .empty, rfl⟩, fun _ hf ↦ absurd hf not_mem_nil⟩

lemma Holds.numOutputs_eq (h : o.Holds fs) : o.numOutputs = fs.length := by
  rw [← length_map Filed.origin, ← h.outputTxs.last?_eq, numOutputs]
  cases o.outputTxs.last? <;> rfl

lemma Holds.count_eq (h : o.Holds fs) (amount : ℕ) :
    (o.outputAmounts amount).count = fs.countP fun f ↦ f.output.amount = amount := by
  obtain ⟨rows, hrows, hdata⟩ := h.outputAmounts amount
  rw [hrows.count_eq, ← length_ofAmount, ← length_map, hdata, length_map]

lemma Holds.add (h : o.Holds fs) {f : Filed H PK C} {pubkey : PK}
    (hadded : o.OutputAdded f.height f.origin.txHash f.output f.origin.localIndex f.unlockTime
      f.commitment pubkey o') : o'.Holds (fs ++ [f]) := by
  refine ⟨?_, fun amount ↦ ?_, fun g hg ↦ ?_⟩
  · rw [map_append]
    apply h.outputTxs.append _ hadded.outputTxs
    rw [h.numOutputs_eq, length_map]
  · obtain ⟨rows, hrows, hdata⟩ := h.outputAmounts amount
    rw [ofAmount_append_singleton]
    by_cases hamount : f.output.amount = amount
    · subst hamount
      refine ⟨_, hrows.append hrows.count_eq hadded.rows, ?_⟩
      rw [map_append, hdata, if_pos rfl, map_append]
      congr 1
      simp [OutKey.data, Filed.data, hadded.key, h.numOutputs_eq]
    · refine ⟨rows, ?_, ?_⟩
      · rw [hadded.others amount (Ne.symm hamount)]
        exact hrows
      · rw [hdata, if_neg hamount, append_nil]
  · rcases mem_append.mp hg with hg | hg
    · exact h.committed g hg
    · rw [mem_singleton.mp hg]
      exact hadded.committed

end OutputTables

lemma holds_addOutputs {outs : List (Output PK)} {i : ℕ} {o o' : OutputTables H PK C}
    {fs : List (Filed H PK C)} (ho : o.Holds fs)
    (h : addOutputs env t.tx t.tx.hasGen t.hash t.height o i outs = .ok (indices, o')) :
    o'.Holds (fs ++ outs.mapIdx fun j out ↦ t.file env (i + j) out) ∧
      indices = amountIndices fs (outs.mapIdx fun j out ↦ t.file env (i + j) out) := by
  induction outs generalizing i o fs indices with
  | nil =>
    cases h
    exact ⟨by simpa using ho, rfl⟩
  | cons out outs ih =>
    simp only [addOutputs, bind_eq_ok] at h
    obtain ⟨⟨index, o₁⟩, hout, ⟨rest, o₂⟩, houts, heq⟩ := h
    cases heq
    obtain ⟨rfl, pubkey, hadded⟩ := OutputTables.addOutput_eq_ok hout
    have hheld : o₁.Holds (fs ++ [t.file env i out]) := ho.add hadded
    obtain ⟨hholds, hindices⟩ := ih hheld houts
    have hcons : (out :: outs).mapIdx (fun j out ↦ t.file env (i + j) out) =
        t.file env i out :: outs.mapIdx fun j out ↦ t.file env (i + 1 + j) out := by
      rw [mapIdx_cons]
      simp [Nat.add_assoc, Nat.add_comm 1]
    rw [hcons]
    constructor
    · simpa using hholds
    · rw [amountIndices, ← hindices, ho.count_eq]
      rfl

/-! ## Transactions -/

lemma hasGen_iff : tx.hasGen = true ↔ ∃ height, TxIn.gen height ∈ tx.vin := by
  unfold Tx.hasGen
  rw [any_eq_true]
  constructor
  · rintro ⟨i, hi, h⟩
    cases i with
    | gen height => exact ⟨height, hi⟩
    | _ => cases h
  · rintro ⟨height, h⟩
    exact ⟨_, h, rfl⟩

variable [LinearOrder H] [LinearOrder K]

/-- The tables hold the transactions `ts`. -/
structure Db.Holds (env : Env H K PK C X) (db : Db H K PK C) (ts : List (ChainTx H K PK C X)) :
    Prop where
  txCount : db.getTxCount = ts.length
  txIndices : ∀ i t, ts[i]? = some t →
    db.txIndices.get? t.hash = some ⟨i, t.tx.unlockTime, t.height⟩
  txOutputs : ∀ i t, ts[i]? = some t →
    db.txOutputs.get? i = some (amountIndices (ledger env (ts.take i)) (t.filed env))
  outputs : db.outputs.Holds (ledger env ts)

section Holds

variable {env : Env H K PK C X} {db db' : Db H K PK C} {ts : List (ChainTx H K PK C X)}

lemma Db.Holds.empty : (Db.empty : Db H K PK C).Holds env [] where
  txCount := rfl
  txIndices i t h := by cases h
  txOutputs i t h := by cases h
  outputs := .empty

lemma TransactionAdded.holds {blob : Blob} {txHash : H} {minerTx : Bool} {size : ℕ}
    (hadded : TransactionAdded env db tx blob txHash minerTx size indices db')
    (h : db.Holds env ts) : db'.Holds env (ts ++ [⟨tx, blob, txHash, db.height⟩]) := by
  have hminer : minerTx = tx.hasGen := by
    rw [Bool.eq_iff_iff, minerTx_iff hadded.inputs, hasGen_iff]
    simp
  obtain ⟨houtputs, hindices⟩ := holds_addOutputs env ⟨tx, blob, txHash, db.height⟩ h.outputs
    (hminer ▸ hadded.outputs)
  simp only [Nat.zero_add] at houtputs hindices
  refine ⟨?_, fun i t ht ↦ ?_, fun i t ht ↦ ?_, ?_⟩
  · rw [Db.getTxCount, Table.count, (Table.append?_eq_some hadded.txsPruned).2, length_append,
      length_append, ← h.txCount]
    rfl
  · have hadd := Table.added_of_insert hadded.txIndices
    obtain ⟨ht, -⟩ | ⟨rfl, rfl⟩ := getElem?_concat_eq_some ht
    · exact hadd.get_of_some (h.txIndices i t ht)
    · rw [hadd.get_self, h.txCount]
  · have hadd := Table.added_of_append hadded.txOutputs
    obtain ⟨ht, hi⟩ | ⟨rfl, rfl⟩ := getElem?_concat_eq_some ht
    · rw [take_append_of_le_length hi.le]
      exact hadd.get_of_some (h.txOutputs i t ht)
    · rw [take_left, ← h.txCount, hadd.get_self, hindices]
      rfl
  · rw [ledger_append, ledger_singleton]
    exact houtputs

variable {ps : List ((Tx K PK C X × Blob) × H)}

lemma Db.Holds.addTransactions (h : db.Holds env ts) (hadd : addTransactions env db ps = .ok db') :
    db'.Holds env (ts ++ ps.map fun p ↦ ⟨p.1.1, p.1.2, p.2, db.height⟩) := by
  induction ps generalizing db ts with
  | nil =>
    cases hadd
    simpa using h
  | cons p ps ih =>
    rw [Database.addTransactions, foldlM_cons, bind_eq_ok] at hadd
    obtain ⟨db₁, hfirst, hrest⟩ := hadd
    obtain ⟨minerTx, size, indices, hadded⟩ := addTransaction_eq_ok hfirst
    have hholds := ih (hadded.holds h) hrest
    simpa [hadded.height_eq] using hholds

lemma addTransactions_blocks (hadd : addTransactions env db ps = .ok db') :
    db'.blocks = db.blocks ∧ db'.blockInfo = db.blockInfo := by
  induction ps generalizing db with
  | nil =>
    cases hadd
    exact ⟨rfl, rfl⟩
  | cons p ps ih =>
    rw [addTransactions, foldlM_cons, bind_eq_ok] at hadd
    obtain ⟨db₁, hfirst, hrest⟩ := hadd
    obtain ⟨minerTx, size, indices, hadded⟩ := addTransaction_eq_ok hfirst
    obtain ⟨hblocks, hinfo⟩ := ih hrest
    exact ⟨hblocks.trans hadded.blocks, hinfo.trans hadded.blockInfo⟩

/-! ## Blocks -/

variable {chain : List (Entry H K PK C X)} {e : Entry H K PK C X}

lemma Db.Holds.addBlock (h : db.Holds env (chainTxs env chain))
    (hheight : db.height = chain.length) (hadd : addBlock env db e = .ok db') :
    db'.Holds env (chainTxs env (chain ++ [e])) ∧ db'.height = (chain ++ [e]).length := by
  obtain ⟨-, db₁, db₂, _, _, _, _, hadded, htxs, hrow⟩ := addBlock_eq_ok hadd
  have hholds := (hadded.holds h).addTransactions htxs
  obtain ⟨hblocks, -⟩ := addTransactions_blocks htxs
  have hheight₂ : db₂.height = db.height := by
    rw [Db.height, hblocks, ← Db.height, hadded.height_eq]
  constructor
  · rw [chainTxs_append_singleton]
    rw [hadded.height_eq, hheight, append_assoc] at hholds
    rw [hrow.rest]
    exact ⟨hholds.txCount, hholds.txIndices, hholds.txOutputs, hholds.outputs⟩
  · rw [hrow.height_eq, hheight₂, hheight, length_append, length_singleton]

lemma addBlock_keys {ks : List K} (h : db.spentKeys.keys.Perm ks)
    (hadd : addBlock env db e = .ok db') : db'.spentKeys.keys.Perm (ks ++ e.keyImages) := by
  obtain ⟨hlength, _, _, _, _, _, _, hminer, htxs, hrow⟩ := addBlock_eq_ok hadd
  have hfst : (e.txs.zip e.blk.txHashes).map Prod.fst = e.txs := map_fst_zip hlength.ge
  rw [hrow.rest, Entry.keyImages, ← hfst, flatMap_map, ← append_assoc]
  refine foldlM_appends (P := fun db ks ↦ db.spentKeys.keys.Perm ks) (fun h hp ↦ ?_)
    (addInputs_keys h hminer.inputs) htxs
  obtain ⟨_, _, _, hadded⟩ := addTransaction_eq_ok hp
  exact addInputs_keys h hadded.inputs

/-! ## Runs -/

def addBlocks (env : Env H K PK C X) (chain : List (Entry H K PK C X)) :
    Except DbError (Db H K PK C) :=
  chain.foldlM (Database.addBlock env) .empty

def chainOf (ops : List (Operation H K PK C X)) : List (Entry H K PK C X) :=
  ops.foldl (fun chain op ↦ match op with
    | .add e => chain ++ [e]
    | .pop => chain.dropLast) []

lemma addBlocks_append_singleton : addBlocks env (chain ++ [e]) = .ok db' ↔
      ∃ db, addBlocks env chain = .ok db ∧ Database.addBlock env db e = .ok db' := by
  rw [addBlocks, foldlM_append, bind_eq_ok]
  simp [addBlocks]

lemma holds_addBlocks (h : addBlocks env chain = .ok db) :
    db.Holds env (chainTxs env chain) ∧ db.height = chain.length := by
  induction chain using reverseRecOn generalizing db with
  | nil =>
    cases h
    exact ⟨.empty, rfl⟩
  | append_singleton chain e ih =>
    obtain ⟨db₀, hchain, hadd⟩ := addBlocks_append_singleton.mp h
    obtain ⟨hholds, hheight⟩ := ih hchain
    exact hholds.addBlock hheight hadd

def Operation.WellFormed (env : Env H K PK C X) : Operation H K PK C X → Prop
  | .add e => e.WellFormed env
  | .pop => True

/-- Pops included, a run leaves the database that adding the blocks of the
chain would have made. -/
theorem addBlocks_chainOf {ops : List (Operation H K PK C X)}
    (hops : ∀ op ∈ ops, op.WellFormed env) (h : run env .empty ops = .ok db) :
    addBlocks env (chainOf ops) = .ok db ∧ ∀ e ∈ chainOf ops, e.WellFormed env := by
  induction ops using reverseRecOn generalizing db with
  | nil =>
    cases h
    exact ⟨rfl, fun e he ↦ by cases he⟩
  | append_singleton ops op ih =>
    rw [run, foldlM_append, bind_eq_ok] at h
    obtain ⟨db₀, hrun, hstep⟩ := h
    rw [foldlM_cons, bind_eq_ok] at hstep
    obtain ⟨_, hstep, heq⟩ := hstep
    cases heq
    obtain ⟨hchain, hwf⟩ := ih (fun op hop ↦ hops op (mem_append_left _ hop)) hrun
    have hop := hops op (mem_append_right _ (mem_singleton_self op))
    rw [chainOf, foldl_append, ← chainOf]
    cases op with
    | add e =>
      refine ⟨addBlocks_append_singleton.mpr ⟨db₀, hchain, hstep⟩, fun e' he' ↦ ?_⟩
      rcases mem_append.mp he' with he' | he'
      · exact hwf e' he'
      · rw [mem_singleton.mp he']
        exact hop
    | pop =>
      refine ⟨?_, fun e he ↦ hwf e (dropLast_subset _ he)⟩
      rcases eq_nil_or_concat (chainOf ops) with hnil | ⟨chain, e, hchain'⟩
      · -- nothing to pop
        rw [hnil] at hchain
        cases hchain
        cases hstep
      · rw [hchain', concat_eq_append] at hchain hwf ⊢
        obtain ⟨db₁, hchain, hadd⟩ := addBlocks_append_singleton.mp hchain
        obtain ⟨blk, txs, hpop, -, -⟩ := popBlock_of_addBlock
          (hwf e (mem_append_right _ (mem_singleton_self e))) hadd
        rw [step, hpop] at hstep
        cases hstep
        rw [foldl_cons, foldl_nil, dropLast_concat]
        exact hchain

end Holds

end Monero.Database
