import Monero.Database.PruneUpdate

/-!
# Runs on a pruned database

A pruned database differs from the unpruned one only in the table of prunable
parts.  Blocks are added to both in the same way, and an update brings the pruned
one to the state that pruning the unpruned one would give.
-/

namespace Monero.Database

open Lib List

variable {H K PK C X : Type} [LinearOrder H] [LinearOrder K]

def Db.withPrunable (u : Db H K PK C) (t : Table ℕ Blob) : Db H K PK C :=
  { u with txsPrunable := t }

section

variable {env : Env H K PK C X} {u u' db' : Db H K PK C} {ts : List (ChainTx H K PK C X)}
  {t : Table ℕ Blob} {tx : Tx K PK C X} {blob : Blob} {txHash : H} {e : Entry H K PK C X}

lemma addTransaction_withPrunable (hkeys : ∀ r ∈ u.txsPrunable.rows, r.1 < u.getTxCount)
    (h : addTransaction env (u.withPrunable t) tx blob txHash = .ok db') :
    ∃ u', addTransaction env u tx blob txHash = .ok u' ∧ db' = u'.withPrunable db'.txsPrunable ∧
      ∀ i, db'.txsPrunable.get? i =
        if i = u.getTxCount then u'.txsPrunable.get? i else t.get? i := by
  simp only [addTransaction, addTransactionData, bind_eq_ok, orThrow_eq_ok] at h
  obtain ⟨inputs, hinputs, data, ⟨txIndices, hindices, size, hsize, hdata⟩, h⟩ := h
  split at hdata
  · cases hdata
  rename_i hlength
  simp only [bind_eq_ok, orThrow_eq_ok] at hdata
  obtain ⟨txsPruned, hpruned, txsPrunable, hprunable, txsPrunableHash, hhash, heq⟩ := hdata
  cases heq
  obtain ⟨outs, houts, txOutputs, hrow, heq⟩ := h
  cases heq
  obtain ⟨txsPrunable', hprunable'⟩ := Table.append?_of_forall_lt (blob.drop size) hkeys
  refine ⟨{ u with
    txIndices, txsPruned, txsPrunable := txsPrunable', txsPrunableHash, spentKeys := inputs.2,
    outputs := outs.2, txOutputs }, ?_, rfl, fun i ↦ ?_⟩
  · simp only [addTransaction, addTransactionData, bind_eq_ok, orThrow_eq_ok]
    refine ⟨inputs, hinputs,
      (u.getTxCount,
        { u with txIndices, txsPruned, txsPrunable := txsPrunable', txsPrunableHash }),
      ⟨txIndices, hindices, size, hsize, ?_⟩, outs, houts, txOutputs, hrow, rfl⟩
    rw [if_neg hlength]
    simp only [bind_eq_ok, orThrow_eq_ok]
    exact ⟨txsPruned, hpruned, txsPrunable', hprunable', txsPrunableHash, hhash, rfl⟩
  · have hold := Table.added_of_append hprunable
    have hnew := Table.added_of_append hprunable'
    change txsPrunable.get? i = if i = u.getTxCount then txsPrunable'.get? i else t.get? i
    rw [hold.get, hnew.get]
    change (if i = u.getTxCount then _ else _) = _
    split_ifs <;> rfl

lemma addBlockRow_withPrunable (h : addBlockRow env (u.withPrunable t) e = .ok db') :
    ∃ u', addBlockRow env u e = .ok u' ∧ db' = u'.withPrunable t := by
  simp only [addBlockRow] at h
  split at h
  · cases h
  rename_i hexists
  split at h
  · cases h
  rename_i hnone
  split at h
  · cases h
  rename_i hparent
  simp only [bind_eq_ok, orThrow_eq_ok] at h
  obtain ⟨blocks, hblocks, previous, hprevious, blockInfo, hinfo, blockHeights, hheights, heq⟩ := h
  cases heq
  refine ⟨{ u with blocks, blockInfo, blockHeights },
    (if_neg hexists).trans ((if_neg hnone).trans ((if_neg hparent).trans ?_)), rfl⟩
  simp only [bind_eq_ok, orThrow_eq_ok]
  exact ⟨blocks, hblocks, previous, hprevious, blockInfo, hinfo, blockHeights, hheights, rfl⟩

/-- The pruned database `s` that goes with the unpruned one `u`, last pruned when
the chain had `height` blocks. -/
structure PrunedFrom (u : Db H K PK C) (ts : List (ChainTx H K PK C X)) (seed height : ℕ)
    (s : PruningDb H K PK C) : Prop where
  db : s.db = u.withPrunable s.db.txsPrunable
  pruningSeed : s.pruningSeed = some seed
  tables : AllSettled u ts seed height s.tables

variable {seed height : ℕ} {s s' : PruningDb H K PK C}

lemma PrunedFrom.unique (hs : PrunedFrom u ts seed height s)
    (hs' : PrunedFrom u ts seed height s') :
    s = s' := by
  have htables := hs.tables.unique hs'.tables
  have hdb := hs.db
  have hdb' := hs'.db
  have hseed := hs.pruningSeed.trans hs'.pruningSeed.symm
  obtain ⟨db, tip, row⟩ := s
  obtain ⟨db', tip', row'⟩ := s'
  cases hseed
  obtain ⟨hprunable, rfl⟩ := PruneTables.mk.inj htables
  change db = _ at hdb
  change db' = _ at hdb'
  have heq : db = db' := by
    rw [hdb, hdb']
    exact congrArg u.withPrunable hprunable
  rw [heq]

lemma Db.Stores.prunable_lt (hu : u.Stores ts) : ∀ r ∈ u.txsPrunable.rows, r.1 < u.getTxCount := by
  intro r hr
  rw [hu.txCount, ← hu.prunable, Table.get?_eq_some_iff.mpr hr]
  rfl

/-! ## Adding blocks -/

lemma AllSettled.add {minerTx : Bool} {size : ℕ} {indices : List ℕ} {p q : PruneTables}
    (hu : u.Stores ts) (hp : AllSettled u ts seed height p)
    (hadded : TransactionAdded env u tx blob txHash minerTx size indices u')
    (hheight : height ≤ u.height) (htip : ∀ i, q.txsPrunableTip.get? i =
      if i = ts.length then some u.height else p.txsPrunableTip.get? i)
    (hprunable : ∀ i, q.txsPrunable.get? i =
      if i = ts.length then u'.txsPrunable.get? i else p.txsPrunable.get? i) :
    AllSettled u' (ts ++ [⟨tx, blob, txHash, u.height⟩]) seed height q := by
  have hnew := Table.added_of_append hadded.txsPrunable
  rw [hu.txCount] at hnew
  refine ⟨fun i t ht ↦ ?_, fun i hi ↦ ?_⟩
  · obtain ⟨ht, hlt⟩ | ⟨rfl, rfl⟩ := getElem?_concat_eq_some ht
    · obtain ⟨htip', hprunable'⟩ := hp.each i t ht
      constructor
      · rw [htip, if_neg hlt.ne, htip']
      · rw [hprunable, if_neg hlt.ne, hprunable', hnew.get, if_neg hlt.ne]
    · have hnear : height ≤ u.height + cryptonotePruningTipBlocks := Nat.le_add_right_of_le hheight
      constructor
      · rw [htip, if_pos rfl, if_pos hnear]
      · rw [hprunable, if_pos rfl, hasUnprunedBlock_of_tip seed hnear, if_pos (.inr rfl)]
  · rw [length_append, length_singleton] at hi
    have hne : i ≠ ts.length := by omega
    rw [htip, if_neg hne, hprunable, if_neg hne]
    exact hp.rest i (by omega)

section Adding

variable (henv : env.ReadsVersion) (hu : u.Stores ts) (hs : PrunedFrom u ts seed height s)
  (hseed : seed ≠ 0) (hheight : height ≤ u.height)

include hu hs hseed hheight

lemma PrunedFrom.addTransaction (h : s.addTransaction env tx blob txHash = .ok s') :
    ∃ u', addTransaction env u tx blob txHash = .ok u' ∧
      PrunedFrom u' (ts ++ [⟨tx, blob, txHash, u.height⟩]) seed height s' := by
  rw [PruningDb.addTransaction, bind_eq_ok] at h
  obtain ⟨db', hadd, heq⟩ := h
  cases heq
  have hcount : s.db.getTxCount = ts.length := by
    rw [hs.db]
    exact hu.txCount
  have hsame : s.db.height = u.height := by
    rw [hs.db]
    rfl
  have hput : s.getBlockchainPruningSeed ≠ 0 := by
    rw [PruningDb.getBlockchainPruningSeed, hs.pruningSeed]
    exact hseed
  rw [hs.db] at hadd
  obtain ⟨u', hadd', hdb', hprunable⟩ := addTransaction_withPrunable hu.prunable_lt hadd
  obtain ⟨minerTx, size, indices, hadded⟩ := addTransaction_eq_ok hadd'
  rw [hu.txCount] at hprunable
  refine ⟨u', hadd', hdb', hs.pruningSeed, hs.tables.add hu hadded hheight (fun i ↦ ?_) hprunable⟩
  change (if _ then s.txsPrunableTip.set s.db.getTxCount s.db.height else _).get? i = _
  rw [if_pos hput, hcount, hsame, Table.get?_set]
  rfl

include henv

lemma PrunedFrom.addTransactions {ps : List ((Tx K PK C X × Blob) × H)}
    (hreads : ∀ p ∈ ps, env.ReadsBase p.1.1 p.1.2) (h : s.addTransactions env ps = .ok s') :
    ∃ u', addTransactions env u ps = .ok u' ∧
      PrunedFrom u' (ts ++ ps.map fun p ↦ ⟨p.1.1, p.1.2, p.2, u.height⟩) seed height s' := by
  induction ps generalizing u ts s with
  | nil =>
    cases h
    exact ⟨u, rfl, by simpa using hs⟩
  | cons p ps ih =>
    rw [PruningDb.addTransactions, foldlM_cons, bind_eq_ok] at h
    obtain ⟨s₁, hfirst, hrest⟩ := h
    obtain ⟨u₁, hu₁, hs₁⟩ := hs.addTransaction hu hseed hheight hfirst
    obtain ⟨minerTx, size, indices, hadded⟩ := addTransaction_eq_ok hu₁
    obtain ⟨u', hu', hs'⟩ := ih (hadded.stores henv (hreads p mem_cons_self) hu) hs₁
      (hadded.height_eq ▸ hheight) (fun q hq ↦ hreads q (mem_cons_of_mem p hq)) hrest
    refine ⟨u', ?_, by simpa [hadded.height_eq] using hs'⟩
    rw [Database.addTransactions, foldlM_cons, hu₁, ok_bind]
    exact hu'

lemma PrunedFrom.addBlock (he : e.Readable env) (h : s.addBlock env e = .ok s') :
    ∃ u', addBlock env u e = .ok u' ∧
      PrunedFrom u' (ts ++ e.transactions env u.height) seed height s' := by
  rw [PruningDb.addBlock] at h
  split at h
  · cases h
  rename_i hlength
  simp only [bind_eq_ok] at h
  obtain ⟨s₁, hminer, s₂, htxs, db', hrow, heq⟩ := h
  cases heq
  obtain ⟨u₁, hu₁, hs₁⟩ := hs.addTransaction hu hseed hheight hminer
  obtain ⟨minerTx, size, indices, hadded⟩ := addTransaction_eq_ok hu₁
  obtain ⟨u₂, hu₂, hs₂⟩ := hs₁.addTransactions henv (hadded.stores henv he.minerTx hu) hseed
    (hadded.height_eq ▸ hheight) (fun p hp ↦ he.txs p.1 (of_mem_zip hp).1) htxs
  rw [hs₂.db] at hrow
  obtain ⟨u', hu', hdb'⟩ := addBlockRow_withPrunable hrow
  obtain ⟨previous, hadded'⟩ := addBlockRow_eq_ok hu'
  subst hdb'
  refine ⟨u', ?_, rfl, hs₂.pruningSeed, ?_⟩
  · rw [Database.addBlock, if_neg hlength, hu₁, ok_bind, hu₂, ok_bind, hu']
  · have htables := hs₂.tables
    rw [hadded.height_eq, append_assoc] at htables
    have hprunable : u'.txsPrunable = u₂.txsPrunable := by rw [hadded'.rest]
    refine ⟨fun i t ht ↦ ⟨(htables.each i t ht).tip, ?_⟩, htables.rest⟩
    rw [hprunable]
    exact (htables.each i t ht).prunable

end Adding

/-! ## Pruning and updating -/

lemma pruneBlockchain_eq {randomStripe : ℕ}
    (hlog : getPruningLogStripes seed = cryptonotePruningLogStripes)
    (hstripe : getPruningStripe seed ≤ 8) (hu : u.Stores ts) :
    ∃ s, pruneBlockchain randomStripe seed (.unpruned u) = .ok s ∧
      PrunedFrom u ts (stripeSeed (getPruningStripe seed)) u.height s := by
  have hne := getPruningStripe_ne_zero hlog
  obtain ⟨hmake, -⟩ := stripeSeed_spec _ hstripe hne
  obtain ⟨q, hq, hsettled⟩ := pruneIndices_allSettled hu (stripeSeed (getPruningStripe seed))
  refine ⟨{ (PruningDb.unpruned u).withTables q with
    pruningSeed := some (stripeSeed (getPruningStripe seed)) }, ?_, rfl, rfl, hsettled⟩
  simp only [pruneBlockchain, pruneWorker, PruningDb.unpruned]
  rw [if_neg fun h ↦ h.2 hlog, if_neg (by simpa [cryptonotePruningLogStripes] using hstripe),
    if_neg (by simp), if_neg hne, hmake, ok_bind]
  exact bind_eq_ok.mpr ⟨q, hq, rfl⟩

lemma PrunedFrom.updatePruning {stripe : ℕ} (hstripe : stripe ≤ 8) (hne : stripe ≠ 0)
    (hu : u.Stores ts) (hs : PrunedFrom u ts (stripeSeed stripe) height s)
    (hheight : height ≤ u.height) :
    ∃ s', Database.updatePruning s = .ok s' ∧ PrunedFrom u ts (stripeSeed stripe) u.height s' := by
  obtain ⟨hmake, hget, hlog, -⟩ := stripeSeed_spec _ hstripe hne
  obtain ⟨q, hq, hsettled⟩ := pruneTip_allSettled hu hheight (hs.tables.settling u.height)
    (Nat.lt_succ_self _)
  have hrun : pruneTip s.db.txsPruned s.db.height (stripeSeed stripe)
      (s.txsPrunableTip.count + 1) s.tables = .ok q := by
    rw [← hq, hs.db]
    rfl
  refine ⟨s.withTables q, ?_, ?_, hs.pruningSeed, hsettled⟩
  · have hzero : getPruningStripe 0 = 0 := rfl
    have hlogZero : getPruningLogStripes 0 = 0 := rfl
    simp only [Database.updatePruning, pruneWorker, hs.pruningSeed, hzero, hlogZero, hget, hlog,
      hmake, ne_eq, not_true_eq_false, false_and, Nat.not_lt_zero, if_false, if_true, ok_bind]
    exact bind_eq_ok.mpr ⟨q, hrun, rfl⟩
  · rw [PruningDb.withTables, hs.db]
    rfl

/-! ## Runs -/

def PruningOperation.Readable (env : Env H K PK C X) : PruningOperation H K PK C X → Prop
  | .add e => e.Readable env
  | .update => True

lemma pruningRun_prunedFrom {stripe : ℕ} (hstripe : stripe ≤ 8) (hne : stripe ≠ 0)
    (henv : env.ReadsVersion) {ops : List (PruningOperation H K PK C X)}
    (hops : ∀ op ∈ ops, op.Readable env) {chain : List (Entry H K PK C X)}
    (hchain : ∀ e ∈ chain, e.Readable env) (hadded : addBlocks env chain = .ok u)
    (hs : PrunedFrom u (chainTxs env chain) (stripeSeed stripe) height s)
    (hheight : height ≤ u.height) (hrun : pruningRun env s ops = .ok s') :
    ∃ u' height', addBlocks env (chain ++ addedBlocks ops) = .ok u' ∧ height' ≤ u'.height ∧
      PrunedFrom u' (chainTxs env (chain ++ addedBlocks ops)) (stripeSeed stripe) height' s' ∧
        ∀ e ∈ chain ++ addedBlocks ops, e.Readable env := by
  induction ops generalizing chain u s height with
  | nil =>
    cases hrun
    rw [addedBlocks, filterMap_nil, append_nil]
    exact ⟨u, height, hadded, hheight, hs, hchain⟩
  | cons op ops ih =>
    rw [pruningRun, foldlM_cons, bind_eq_ok] at hrun
    obtain ⟨s₁, hstep, hrest⟩ := hrun
    have hops' : ∀ op ∈ ops, op.Readable env := fun op hop ↦ hops op (mem_cons_of_mem _ hop)
    obtain ⟨hstored, hlength⟩ := stores_addBlocks henv hchain hadded
    cases op with
    | add e =>
      have he : e.Readable env := hops _ mem_cons_self
      obtain ⟨-, -, -, hseed⟩ := stripeSeed_spec _ hstripe hne
      obtain ⟨u₁, hu₁, hs₁⟩ := hs.addBlock henv hstored hseed hheight he hstep
      obtain ⟨-, hheight₁⟩ := hstored.addBlock henv he hu₁
      have hchain₁ : ∀ e' ∈ chain ++ [e], e'.Readable env := by
        intro e' he'
        rcases mem_append.mp he' with he' | he'
        · exact hchain e' he'
        · rwa [mem_singleton.mp he']
      rw [hlength, ← chainTxs_append_singleton] at hs₁
      have hrec := ih hops' hchain₁ (addBlocks_append_singleton.mpr ⟨u, hadded, hu₁⟩) hs₁
        (by omega) hrest
      rwa [append_assoc] at hrec
    | update =>
      obtain ⟨s₂, hs₂, hpruned⟩ := hs.updatePruning hstripe hne hstored hheight
      cases hstep.symm.trans hs₂
      exact ih hops' hchain hadded hpruned le_rfl hrest

/-- From a database in which pruning was enabled, blocks are added and updates made in
any order.  An update then leaves the state that pruning the unpruned database of the
same blocks would: the prunable parts of version 1 and of unpruned blocks, and the tip
table of the last blocks. -/
theorem updatePruning_eq_pruneBlockchain (henv : env.ReadsVersion)
    {ops₀ : List (Operation H K PK C X)} (hops₀ : ∀ op ∈ ops₀, op.WellFormed env)
    {db₀ : Db H K PK C} (hrun₀ : run env .empty ops₀ = .ok db₀)
    (hlog : getPruningLogStripes seed = cryptonotePruningLogStripes) {randomStripe : ℕ}
    (hprune : pruneBlockchain randomStripe seed (.unpruned db₀) = .ok s)
    {ops : List (PruningOperation H K PK C X)} (hops : ∀ op ∈ ops, op.Readable env)
    (hrun : pruningRun env s ops = .ok s') :
    ∃ r u, updatePruning s' = .ok r ∧ addBlocks env (chainOf ops₀ ++ addedBlocks ops) = .ok u ∧
      (∀ randomStripe, pruneBlockchain randomStripe seed (.unpruned u) = .ok r) ∧
      (∀ i t, (chainTxs env (chainOf ops₀ ++ addedBlocks ops))[i]? = some t →
        ((r.db.txsPrunable.get? i).isSome ↔
          t.tx.version = 1 ∨ hasUnprunedBlock t.height u.height seed = true) ∧
        r.txsPrunableTip.get? i =
          if u.height ≤ t.height + cryptonotePruningTipBlocks then some t.height else none) ∧
      ∀ i, (chainTxs env (chainOf ops₀ ++ addedBlocks ops)).length ≤ i →
        r.db.txsPrunable.get? i = none ∧ r.txsPrunableTip.get? i = none := by
  have hne := getPruningStripe_ne_zero hlog
  have hstripe : getPruningStripe seed ≤ 8 := by
    by_contra hgt
    rw [pruneBlockchain, pruneWorker, if_neg fun h ↦ h.2 hlog,
      if_pos (by simpa [cryptonotePruningLogStripes] using hgt)] at hprune
    cases hprune
  obtain ⟨hchain₀, hwf₀⟩ := addBlocks_chainOf hops₀ hrun₀
  have hreadable₀ : ∀ e ∈ chainOf ops₀, e.Readable env := fun e he ↦ (hwf₀ e he).readable
  obtain ⟨hstored₀, -⟩ := stores_addBlocks henv hreadable₀ hchain₀
  obtain ⟨s₁, hs₁, hpruned₁⟩ := pruneBlockchain_eq hlog hstripe hstored₀
  cases hprune.symm.trans hs₁
  obtain ⟨u, height, hu, hheight, hpruned, hreadable⟩ :=
    pruningRun_prunedFrom hstripe hne henv hops hreadable₀ hchain₀ hpruned₁ le_rfl hrun
  obtain ⟨hstored, -⟩ := stores_addBlocks henv hreadable hu
  obtain ⟨r, hr, hsettled⟩ := hpruned.updatePruning hstripe hne hstored hheight
  refine ⟨r, u, hr, hu, fun randomStripe ↦ ?_, fun i t ht ↦ ?_, fun i hi ↦ ?_⟩
  · obtain ⟨r', hr', hscratch⟩ := pruneBlockchain_eq hlog hstripe hstored
    rw [hsettled.unique hscratch]
    exact hr'
  · obtain ⟨htip, hprunable⟩ := hsettled.tables.each i t ht
    refine ⟨?_, htip⟩
    have hstored_i : (u.txsPrunable.get? i).isSome :=
      (hstored.prunable i).mpr (List.getElem?_eq_some_iff.mp ht).1
    have hunpruned : hasUnprunedBlock t.height u.height (stripeSeed (getPruningStripe seed)) =
        hasUnprunedBlock t.height u.height seed := by
      obtain ⟨-, hseed, hstripes, -⟩ := stripeSeed_spec _ hstripe hne
      simp [hasUnprunedBlock, hseed, hstripes, hlog]
    rw [hunpruned] at hprunable
    change (r.tables.txsPrunable.get? i).isSome ↔ _
    rw [hprunable]
    split_ifs with hkept
    · exact iff_of_true hstored_i hkept
    · exact iff_of_false Bool.false_ne_true hkept
  · exact (hsettled.tables.rest i hi).symm

end

/-! ## A chain of two blocks -/

def loneBlock : ListedBlock := listedBlock 4 1 secondMinerTx []

def loneEntry : ListedEntry := listedEntry loneBlock []

def versionedEnv : Env ℕ ℕ ℕ ℕ ℕ :=
  listedEnv [(firstMinerTx, [1], []), (secondMinerTx, [2], [3])]
    [(firstBlock, [1]), (loneBlock, [2])]

lemma versionedEnv_readsVersion : versionedEnv.ReadsVersion := by
  intro blob tx h
  obtain ⟨p, hp, rfl⟩ := Option.map_eq_some_iff.mp h
  have hfound := find?_some hp
  obtain ⟨-, hblob⟩ := of_decide_eq_true hfound
  rcases mem_pair.mp (mem_of_find?_eq_some hp) with rfl | rfl
  · cases hblob
    exact ⟨by decide, [], by decide⟩
  · cases hblob
    exact ⟨by decide, [], by decide⟩

lemma firstEntry_versioned : firstEntry.WellFormed versionedEnv where
  coinbase := ⟨0, rfl⟩
  spending p hp := by cases hp
  parseBlock := by decide +kernel
  parseMinerTx := ⟨⟨1, firstMinerTx, by decide +kernel⟩, by decide +kernel⟩
  parseTxs p hp := by cases hp

lemma loneEntry_readable : loneEntry.Readable versionedEnv where
  minerTx := ⟨1, secondMinerTx, by decide +kernel⟩
  txs p hp := by cases hp

theorem updatePruning_eq_pruneBlockchain_second :
    ∃ db₀ s s' r u, run versionedEnv .empty [.add firstEntry] = .ok db₀ ∧
      pruneBlockchain 0 385 (.unpruned db₀) = .ok s ∧
        pruningRun versionedEnv s [.update, .add loneEntry] = .ok s' ∧
          updatePruning s' = .ok r ∧ pruneBlockchain 0 385 (.unpruned u) = .ok r ∧
            addBlocks versionedEnv [firstEntry, loneEntry] = .ok u := by
  have hok : (run versionedEnv .empty [.add firstEntry] >>= fun db₀ ↦
      pruneBlockchain 0 385 (.unpruned db₀) >>= fun s ↦
        pruningRun versionedEnv s [.update, .add loneEntry]).isOk = true := by
    decide +kernel
  obtain ⟨s', hok⟩ := exists_of_isOk hok
  obtain ⟨db₀, hrun₀, hok⟩ := bind_eq_ok.mp hok
  obtain ⟨s, hprune, hrun⟩ := bind_eq_ok.mp hok
  have hops₀ : ∀ op ∈ [Operation.add firstEntry], op.WellFormed versionedEnv := fun op hop ↦ by
    rw [mem_singleton.mp hop]
    exact firstEntry_versioned
  have hops : ∀ op ∈ [PruningOperation.update, .add loneEntry], op.Readable versionedEnv := by
    intro op hop
    rcases mem_pair.mp hop with rfl | rfl
    · trivial
    · exact loneEntry_readable
  obtain ⟨r, u, hr, hu, hscratch, -⟩ := updatePruning_eq_pruneBlockchain versionedEnv_readsVersion
    hops₀ hrun₀ (by decide) hprune hops hrun
  exact ⟨db₀, s, s', r, u, hrun₀, hprune, hrun, hr, hscratch 0, hu⟩

end Monero.Database
