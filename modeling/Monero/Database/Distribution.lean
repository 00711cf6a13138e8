import Monero.Database.Numbering

/-!
# The distribution of RingCT outputs

`block_info` keeps a running count of RingCT outputs, made while a block is
added and apart from the filing of outputs under amount zero.
`Blockchain::get_output_distribution` reads it for amount zero; for other
amounts the entries of the amount are counted.
-/

namespace Monero.Database

open Lib List

variable {H K PK C X : Type} [LinearOrder H] [LinearOrder K]

/-! ## Model -/

def getBlockCumulativeRctOutputs (db : Db H K PK C) (heights : List ℕ) : Except DbError (List ℕ) :=
  if heights.any (db.height ≤ ·) then .error .blockDne
  else heights.mapM fun h ↦ (orThrow .dbError (db.blockInfo.get? h)).map BlockInfo.cumRct

/-- The counts from `fromHeight` on and the number below, after one more entry. -/
def countEntry (fromHeight height : ℕ) (s : List ℕ × ℕ) : List ℕ × ℕ :=
  if fromHeight ≤ height then (s.1.modify (height - fromHeight) (· + 1), s.2) else (s.1, s.2 + 1)

/-- The loop of `BlockchainLMDB::get_output_distribution` over the heights of
the entries.  It stops after the first entry above `toHeight`. -/
def countEntries (fromHeight toHeight : ℕ) : List ℕ → List ℕ × ℕ → List ℕ × ℕ
  | [], s => s
  | height :: heights, s =>
    if 0 < toHeight ∧ toHeight < height then countEntry fromHeight height s
    else countEntries fromHeight toHeight heights (countEntry fromHeight height s)

/-- `BlockchainLMDB::get_output_distribution`, the distribution and the base. -/
def getEntryDistribution (db : Db H K PK C) (amount fromHeight toHeight : ℕ) :
    Option (List ℕ × ℕ) :=
  if db.height ≤ fromHeight then none
  else
    let heights := (db.outputs.outputAmounts amount).rows.map fun r ↦ r.2.height
    let counted := countEntries fromHeight toHeight heights
      (replicate (db.height - fromHeight) 0, 0)
    some (runningSumsFrom 0 (counted.1.modify 0 (· + counted.2)), 0)

structure OutputDistribution where
  startHeight : ℕ
  distribution : List ℕ
  base : ℕ
  deriving DecidableEq

def distributionStart (fakechain : Bool) (hf : HardFork) (amount fromHeight : ℕ) : ℕ :=
  let first := if amount = 0 ∧ ¬ fakechain then hf.getEarliestIdealHeightForVersion 4 else 0
  if first < fromHeight then fromHeight else first

/-- `Blockchain::get_output_distribution`; `none` is the return value `false`.
A start beyond `toHeight + 1` makes the size that is reserved wrap around. -/
def getOutputDistribution (fakechain : Bool) (hf : HardFork) (db : Db H K PK C)
    (amount fromHeight toHeight : ℕ) : Except DbError (Option OutputDistribution) :=
  let startHeight := distributionStart fakechain hf amount fromHeight
  if 0 < toHeight ∧ toHeight < fromHeight then .ok none
  else if db.height = 0 then .ok none
  else if db.height ≤ startHeight ∨ db.height ≤ toHeight then .ok none
  else if amount = 0 then
    if toHeight + 1 < startHeight then .error .lengthError
    else do
      let realStartHeight := if 0 < startHeight then startHeight - 1 else startHeight
      let distribution ← getBlockCumulativeRctOutputs db
        (range' realStartHeight (toHeight + 1 - realStartHeight))
      if 0 < startHeight then
        .ok (some ⟨startHeight, distribution.tail, distribution.headD 0⟩)
      else .ok (some ⟨startHeight, distribution, 0⟩)
  else
    .ok ((getEntryDistribution db amount startHeight toHeight).map fun p ↦ ⟨startHeight, p.1, p.2⟩)

/-! ## The counter -/

section Counter

variable {H K PK C X : Type}

def rctCount (fs : List (Filed H PK C)) : ℕ := fs.countP fun f ↦ f.output.amount = 0

/-- The rules for the versions of a chain: they do not decrease, and
transactions of version 2 come with version 4.  The first block is below 4, as
there is no counter for it to add to. -/
structure VersionRules (chain : List (Entry H K PK C X)) : Prop where
  monotone : chain.Pairwise fun e f ↦ e.blk.majorVersion ≤ f.blk.majorVersion
  minerTx : ∀ e ∈ chain, e.blk.majorVersion < 4 → e.blk.minerTx.version ≠ 2
  txs : ∀ e ∈ chain, e.blk.majorVersion < 4 → ∀ p ∈ e.txs, p.1.version ≠ 2

/-- Outputs of amount zero have a commitment. -/
def Committed (fs : List (Filed H PK C)) : Prop :=
  ∀ f ∈ fs, f.output.amount = 0 → f.commitment.isSome

lemma rctCount_append (fs gs : List (Filed H PK C)) :
    rctCount (fs ++ gs) = rctCount fs + rctCount gs := countP_append

lemma countP_mapIdx {α β : Type} {p : β → Bool} {q : α → Bool} {f : ℕ → α → β}
    (h : ∀ i a, p (f i a) = q a) (l : List α) : (l.mapIdx f).countP p = l.countP q := by
  induction l generalizing f with
  | nil => rfl
  | cons a l ih =>
    rw [mapIdx_cons, countP_cons, countP_cons, h, ih fun i a ↦ h (i + 1) a]

variable {env : Env H K PK C X} {t : ChainTx H K PK C X}

lemma rctCount_of_spending (h : t.tx.Spending) :
    rctCount (t.filed env) = t.tx.vout.countP fun out ↦ out.amount = 0 := by
  have hgen : t.tx.hasGen ≠ true := by
    rw [Ne, hasGen_iff]
    rintro ⟨height, hmem⟩
    obtain ⟨_, _, _, heq⟩ := h _ hmem
    cases heq
  apply countP_mapIdx
  intro i out
  rw [ChainTx.file, filedOutput, if_neg fun hminer ↦ hgen hminer.1]

lemma rctCount_of_coinbase (h : t.tx.Coinbase) (hversion : t.tx.version = 2) :
    rctCount (t.filed env) = t.tx.vout.length := by
  have hgen : t.tx.hasGen = true := by
    obtain ⟨height, hvin⟩ := h
    exact hasGen_iff.mpr ⟨height, hvin ▸ mem_singleton_self _⟩
  rw [← countP_true]
  apply countP_mapIdx
  intro i out
  rw [ChainTx.file, filedOutput, if_pos ⟨hgen, hversion⟩]
  rfl

lemma rctCount_of_version {ts : List (ChainTx H K PK C X)} (hversion : ∀ t ∈ ts, t.tx.version < 2)
    (hcommitted : Committed (ledger env ts)) : rctCount (ledger env ts) = 0 := by
  apply countP_eq_zero.mpr
  intro f hf hzero
  have hsome := hcommitted f hf (of_decide_eq_true hzero)
  obtain ⟨t, ht, j, out, -, rfl⟩ := mem_ledger hf
  have hlt := hversion t ht
  rw [ChainTx.file, filedOutput, if_neg fun h ↦ hlt.ne h.2, if_neg (by omega)] at hsome
  cases hsome

lemma ledger_cons (t : ChainTx H K PK C X) (ts : List (ChainTx H K PK C X)) :
    ledger env (t :: ts) = t.filed env ++ ledger env ts := flatMap_cons

lemma rctCount_ledger_zip (ps : List ((Tx K PK C X × Blob) × H)) (height : ℕ)
    (hspending : ∀ p ∈ ps, p.1.1.Spending) :
    rctCount (ledger env (ps.map fun p ↦ ⟨p.1.1, p.1.2, p.2, height⟩)) =
      (ps.map fun p ↦ p.1.1.vout.countP fun out ↦ out.amount = 0).sum := by
  induction ps with
  | nil => rfl
  | cons p ps ih =>
    have hrest := ih fun q hq ↦ hspending q (mem_cons_of_mem _ hq)
    rw [map_cons, ledger_cons, rctCount_append, hrest, map_cons, sum_cons,
      rctCount_of_spending (hspending p mem_cons_self)]

variable {e : Entry H K PK C X} {chain : List (Entry H K PK C X)}

lemma Entry.WellFormed.rctCount_eq (he : e.WellFormed env) (height : ℕ)
    (hlength : e.blk.txHashes.length = e.txs.length)
    (hcommitted : Committed (ledger env (e.transactions env height))) :
    rctCount (ledger env (e.transactions env height)) = e.numRctOuts := by
  have htxs : (e.txs.zip e.blk.txHashes).map Prod.fst = e.txs := map_fst_zip hlength.ge
  rw [Entry.transactions, ledger_cons] at hcommitted ⊢
  rw [rctCount_append, rctCount_ledger_zip _ _ fun p hp ↦ he.spending p.1 (of_mem_zip hp).1,
    Entry.numRctOuts]
  congr 1
  · split_ifs with hversion
    · exact rctCount_of_coinbase he.coinbase hversion
    · have hlt : e.blk.minerTx.version < 2 := lt_of_le_of_ne he.parseMinerTx.version_le hversion
      rw [← ledger_singleton] at hcommitted ⊢
      apply rctCount_of_version
      · intro t ht
        rw [mem_singleton.mp ht]
        exact hlt
      · exact fun f hf ↦ hcommitted f (mem_append_left _ hf)
  · conv_rhs => rw [← htxs, map_map]
    rfl

lemma rctCount_transactions_eq_zero (hrules : VersionRules chain)
    (hwf : ∀ e ∈ chain, e.WellFormed env) (hlow : ∀ e ∈ chain, e.blk.majorVersion < 4)
    (hcommitted : Committed (ledger env (chainTxs env chain))) :
    rctCount (ledger env (chainTxs env chain)) = 0 := by
  apply rctCount_of_version _ hcommitted
  intro t ht
  obtain ⟨⟨e, height⟩, he, ht⟩ := mem_flatMap.mp ht
  have hmem : e ∈ chain := (mem_zipIdx he).2.2 ▸ getElem_mem _
  rcases mem_cons.mp ht with rfl | ht
  · exact lt_of_le_of_ne (hwf e hmem).parseMinerTx.version_le (hrules.minerTx e hmem (hlow e hmem))
  · obtain ⟨p, hp, rfl⟩ := mem_map.mp ht
    have hp := (of_mem_zip hp).1
    exact lt_of_le_of_ne ((hwf e hmem).parseTxs p.1 hp).version_le
      (hrules.txs e hmem (hlow e hmem) p.1 hp)

lemma VersionRules.append_left {above : List (Entry H K PK C X)}
    (h : VersionRules (chain ++ above)) : VersionRules chain where
  monotone := (pairwise_append.mp h.monotone).1
  minerTx e he := h.minerTx e (mem_append_left _ he)
  txs e he := h.txs e (mem_append_left _ he)

variable [LinearOrder H] [LinearOrder K] {db db' : Db H K PK C}

lemma addBlock_blockInfo (h : addBlock env db e = .ok db') :
    ∃ previous, db.previousCumRct e.blk.majorVersion = .ok previous ∧
      db.blockInfo.append? db.height (e.blockInfo env db.height previous) =
        some db'.blockInfo := by
  obtain ⟨-, db₁, db₂, previous, _, _, _, hadded, htxs, hrow⟩ := addBlock_eq_ok h
  obtain ⟨hblocks, hinfo⟩ := addTransactions_blocks htxs
  have hheight : db₂.height = db.height := by rw [Db.height, hblocks, hadded.blocks, Db.height]
  have hprevious := hrow.previous_eq
  have happend := hrow.blockInfo
  rw [Db.previousCumRct, hheight, hinfo, hadded.blockInfo] at hprevious
  rw [hheight, hinfo, hadded.blockInfo] at happend
  exact ⟨previous, hprevious, happend⟩

lemma previousCumRct_eq (hrules : VersionRules (chain ++ [e]))
    (hwf : ∀ e ∈ chain, e.WellFormed env)
    (hcommitted : Committed (ledger env (chainTxs env chain))) (hheight : db.height = chain.length)
    (hrows : ∀ h < chain.length, (db.blockInfo.get? h).map BlockInfo.cumRct =
      some (rctCount (ledger env (chainTxs env (chain.take (h + 1)))))) {previous : ℕ}
    (hprevious : db.previousCumRct e.blk.majorVersion = .ok previous) :
    previous = rctCount (ledger env (chainTxs env chain)) := by
  unfold Db.previousCumRct at hprevious
  split_ifs at hprevious with hlow hzero
  · cases hprevious
    have hbelow : ∀ e' ∈ chain, e'.blk.majorVersion < 4 := fun e' he' ↦
      ((pairwise_append.mp hrules.monotone).2.2 e' he' e (mem_singleton_self e)).trans_lt hlow
    exact (rctCount_transactions_eq_zero hrules.append_left hwf hbelow hcommitted).symm
  · have hpos : 0 < chain.length := by omega
    have hrow := hrows (chain.length - 1) (by omega)
    rw [Nat.sub_add_cancel hpos, take_length] at hrow
    obtain ⟨info, hget, hcum⟩ := Option.map_eq_some_iff.mp hrow
    rw [hheight, hget, orThrow_some] at hprevious
    cases hprevious
    exact hcum

/-- `bi_cum_rct` of every block is the number of outputs up to the block that
are filed under amount zero. -/
theorem cumRct_addBlocks (hchain : addBlocks env chain = .ok db)
    (hwf : ∀ e ∈ chain, e.WellFormed env) (hrules : VersionRules chain) {h : ℕ}
    (hh : h < chain.length) :
    (db.blockInfo.get? h).map BlockInfo.cumRct =
      some (rctCount (ledger env (chainTxs env (chain.take (h + 1))))) := by
  induction chain using reverseRecOn generalizing db h with
  | nil => cases hh
  | append_singleton chain e ih =>
    obtain ⟨db₀, hbelow, hadd⟩ := addBlocks_append_singleton.mp hchain
    obtain ⟨previous, hprevious, hinfo⟩ := addBlock_blockInfo hadd
    have hadded := Table.added_of_append hinfo
    have hheight : db₀.height = chain.length := (holds_addBlocks hbelow).2
    have hbelowwf := fun e' he' ↦ hwf e' (mem_append_left _ he')
    rw [length_append, length_singleton] at hh
    rcases Nat.lt_succ_iff_lt_or_eq.mp hh with hlt | rfl
    · rw [take_append_of_le_length hlt]
      have hrow := ih hbelow hbelowwf hrules.append_left hlt
      obtain ⟨info, hget, hcum⟩ := Option.map_eq_some_iff.mp hrow
      rw [hadded.get_of_some hget, Option.map_some, hcum]
    · have hcommitted := (holds_addBlocks hchain).1.outputs.committed
      rw [chainTxs_append_singleton, ledger_append] at hcommitted
      have htop : (e.blockInfo env db₀.height previous).cumRct = e.numRctOuts + previous := rfl
      rw [← hheight, hadded.get_self, Option.map_some, htop, hheight, take_of_length_le (by simp),
        chainTxs_append_singleton, ledger_append, rctCount_append,
        (hwf e (by simp)).rctCount_eq _ (addBlock_eq_ok hadd).1
          fun f hf ↦ hcommitted f (mem_append_right _ hf), Nat.add_comm]
      congr 2
      apply previousCumRct_eq hrules hbelowwf (holds_addBlocks hbelow).1.outputs.committed hheight
        (fun h hlt ↦ ih hbelow hbelowwf hrules.append_left hlt) hprevious

end Counter

/-! ## Entries by height -/

section Entries

variable {H K PK C X : Type} {env : Env H K PK C X}

lemma ofAmount_map_fst (fs : List (Filed H PK C)) (amount : ℕ) :
    (ofAmount fs amount).map Prod.fst = fs.filter fun f ↦ f.output.amount = amount := by
  induction fs using reverseRecOn with
  | nil => rfl
  | append_singleton fs f ih =>
    rw [ofAmount_append_singleton, map_append, ih, filter_append]
    split_ifs with h <;> simp [h]

lemma ledger_split (env : Env H K PK C X) (below above : List (Entry H K PK C X)) :
    ∃ rest, ledger env (chainTxs env (below ++ above)) = ledger env (chainTxs env below) ++ rest ∧
      ∀ f ∈ rest, below.length ≤ f.height := by
  induction above using reverseRecOn with
  | nil => exact ⟨[], by simp, fun _ hf ↦ absurd hf not_mem_nil⟩
  | append_singleton above e ih =>
    obtain ⟨rest, hrest, hheight⟩ := ih
    refine ⟨rest ++ ledger env (e.transactions env (below ++ above).length), ?_, fun f hf ↦ ?_⟩
    · rw [← append_assoc, chainTxs_append_singleton, ledger_append, hrest, append_assoc]
    · rcases mem_append.mp hf with hf | hf
      · exact hheight f hf
      · obtain ⟨t, ht, j, out, -, rfl⟩ := mem_ledger hf
        have htop : t.height = (below ++ above).length := height_of_mem_transactions ht
        rw [ChainTx.file, htop, length_append]
        exact Nat.le_add_right _ _

def OutputTables.countUpTo (o : OutputTables H PK C) (amount height : ℕ) : ℕ :=
  (o.outputAmounts amount).rows.countP fun r ↦ r.2.height ≤ height

lemma OutputTables.Holds.countUpTo_eq {o : OutputTables H PK C} {chain : List (Entry H K PK C X)}
    (ho : o.Holds (ledger env (chainTxs env chain))) {h : ℕ} (hh : h < chain.length) :
    o.countUpTo 0 h = rctCount (ledger env (chainTxs env (chain.take (h + 1)))) := by
  obtain ⟨rest, hsplit, hrest⟩ := ledger_split env (chain.take (h + 1)) (chain.drop (h + 1))
  rw [take_append_drop] at hsplit
  have hlength : (chain.take (h + 1)).length = h + 1 := length_take_of_le hh
  have hcount : o.countUpTo 0 h =
      ((ofAmount (ledger env (chainTxs env chain)) 0).map fun p ↦ p.1.height).countP (· ≤ h) := by
    rw [← ho.heights_eq, countP_map]
    rfl
  rw [hcount, ← Function.comp_def Filed.height Prod.fst, ← map_map, ofAmount_map_fst,
    countP_map, countP_filter, hsplit, countP_append, rctCount]
  refine (congrArg₂ (· + ·) (countP_congr fun f hf ↦ ?_)
    (countP_eq_zero.mpr fun f hf ↦ ?_)).trans (Nat.add_zero _)
  · have hlt := (ledger_heights env (chain.take (h + 1))).1 f hf
    rw [hlength] at hlt
    simp [Nat.le_of_lt_succ hlt]
  · have hle := hrest f hf
    rw [hlength] at hle
    simp [Nat.not_le_of_lt hle]

end Entries

/-! ## The two distributions -/

lemma countEntry_spec (fromHeight height : ℕ) (s : List ℕ × ℕ) :
    (countEntry fromHeight height s).1.length = s.1.length ∧
      (countEntry fromHeight height s).2 = s.2 + [height].countP (· < fromHeight) ∧
      ∀ k : ℕ, (countEntry fromHeight height s).1[k]? =
        s.1[k]?.map (· + [height].countP (· = fromHeight + k)) := by
  unfold countEntry
  split_ifs with hle
  · refine ⟨length_modify _ _ _, by simp [hle], fun k ↦ ?_⟩
    rw [getElem?_modify]
    by_cases hk : height - fromHeight = k
    · have hheight : height = fromHeight + k := by omega
      simp [hheight]
    · have hheight : height ≠ fromHeight + k := by omega
      simp [hk, hheight]
  · refine ⟨rfl, by simp [Nat.lt_of_not_le hle], fun k ↦ ?_⟩
    have hheight : height ≠ fromHeight + k := by omega
    simp [hheight]

variable {fromHeight toHeight : ℕ} {db : Db H K PK C}

/-- Heights are counted up to the first above `toHeight`, after which there is
none that matters. -/
theorem countEntries_spec (hle : fromHeight ≤ toHeight)
    {heights : List ℕ} (hsorted : heights.Pairwise (· ≤ ·)) (s : List ℕ × ℕ) :
    (countEntries fromHeight toHeight heights s).1.length = s.1.length ∧
      (countEntries fromHeight toHeight heights s).2 = s.2 + heights.countP (· < fromHeight) ∧
      ∀ k, fromHeight + k ≤ toHeight → (countEntries fromHeight toHeight heights s).1[k]? =
        s.1[k]?.map (· + heights.countP (· = fromHeight + k)) := by
  induction heights generalizing s with
  | nil => simp [countEntries]
  | cons height heights ih =>
    obtain ⟨habove, hrest⟩ := pairwise_cons.mp hsorted
    obtain ⟨hlength, hbase, hcounts⟩ := countEntry_spec fromHeight height s
    have hcons : ∀ p, (height :: heights).countP p = [height].countP p + heights.countP p :=
      fun p ↦ (countP_append : ([height] ++ heights).countP p = _)
    simp only [hcons]
    rw [countEntries]
    split_ifs with hstop
    · have hbelow : heights.countP (· < fromHeight) = 0 := by
        apply countP_eq_zero.mpr
        intro x hx
        simp only [decide_eq_true_eq, not_lt]
        calc
          fromHeight ≤ toHeight := hle
          _ ≤ height := hstop.2.le
          _ ≤ x := habove x hx
      refine ⟨hlength, by rw [hbase, hbelow, Nat.add_zero], fun k hk ↦ ?_⟩
      have hnone : heights.countP (· = fromHeight + k) = 0 := by
        apply countP_eq_zero.mpr
        intro x hx
        simp only [decide_eq_true_eq]
        refine ne_of_gt ?_
        calc
          fromHeight + k ≤ toHeight := hk
          _ < height := hstop.2
          _ ≤ x := habove x hx
      rw [hcounts, hnone, Nat.add_zero]
    · obtain ⟨hlength', hbase', hcounts'⟩ := ih hrest (countEntry fromHeight height s)
      refine ⟨hlength'.trans hlength, by rw [hbase', hbase, Nat.add_assoc], fun k hk ↦ ?_⟩
      rw [hcounts' k hk, hcounts, Option.map_map]
      congr 1
      funext x
      exact Nat.add_assoc _ _ _

lemma countP_le_eq_add (heights : List ℕ) (m : ℕ) :
    heights.countP (· ≤ m) = heights.countP (· < m) + heights.countP (· = m) := by
  induction heights with
  | nil => rfl
  | cons x heights ih =>
    simp only [countP_cons, ih, decide_eq_true_eq]
    split_ifs <;> omega

lemma countP_le_eq_sum (heights : List ℕ) (fromHeight k : ℕ) :
    heights.countP (· ≤ fromHeight + k) = heights.countP (· < fromHeight) +
      ((range (k + 1)).map fun j ↦ heights.countP (· = fromHeight + j)).sum := by
  induction k with
  | zero => simpa using countP_le_eq_add heights fromHeight
  | succ k ih =>
    have hlt : heights.countP (· < fromHeight + (k + 1)) =
        heights.countP (· ≤ fromHeight + k) := by
      simp [← Nat.add_assoc]
    rw [countP_le_eq_add, hlt, ih, range_succ (n := k + 1), map_append, sum_append,
      map_singleton, sum_singleton, Nat.add_assoc]

lemma runningSumsFrom_modify_zero (l : List ℕ) (base : ℕ) :
    runningSumsFrom 0 (l.modify 0 (· + base)) = runningSumsFrom base l := by
  cases l with
  | nil => rfl
  | cons a l => simp [runningSumsFrom, Nat.add_comm]

def OutputTables.countsUpTo (o : OutputTables H PK C) (amount fromHeight toHeight : ℕ) : List ℕ :=
  (range' fromHeight (toHeight + 1 - fromHeight)).map (o.countUpTo amount)

lemma getEntryDistribution_eq {amount : ℕ}
    (hsorted : ((db.outputs.outputAmounts amount).rows.map fun r ↦ r.2.height).Pairwise (· ≤ ·))
    (hle : fromHeight ≤ toHeight) (hlt : toHeight < db.height) :
    (getEntryDistribution db amount fromHeight toHeight).map
        (fun p ↦ p.1.take (toHeight + 1 - fromHeight)) =
      some (db.outputs.countsUpTo amount fromHeight toHeight) := by
  obtain ⟨hlength, hbase, hcounts⟩ := countEntries_spec hle hsorted
    (replicate (db.height - fromHeight) 0, 0)
  rw [getEntryDistribution, if_neg (by omega)]
  simp only [Option.map_some, runningSumsFrom_modify_zero, hbase, Nat.zero_add, Option.some_inj]
  simp only [length_replicate] at hlength
  set counted := countEntries fromHeight toHeight
    ((db.outputs.outputAmounts amount).rows.map fun r ↦ r.2.height)
    (replicate (db.height - fromHeight) 0, 0)
  apply ext_getElem?
  intro k
  rw [OutputTables.countsUpTo, getElem?_take, getElem?_map]
  split_ifs with hk
  · have htake : counted.1.take (k + 1) = (range (k + 1)).map fun j ↦
        ((db.outputs.outputAmounts amount).rows.map fun r ↦ r.2.height).countP
          (· = fromHeight + j) := by
      apply ext_getElem?
      intro j
      rw [getElem?_take, getElem?_map]
      split_ifs with hj
      · rw [hcounts j (by omega), getElem?_replicate, if_pos (by omega), getElem?_range hj]
        simp
      · rw [getElem?_eq_none (by simpa using hj)]
        rfl
    rw [runningSumsFrom_getElem? _ (by omega), htake, ← countP_le_eq_sum, getElem?_range' hk]
    simp [OutputTables.countUpTo, countP_map, Function.comp_def]
  · rw [getElem?_eq_none (by simpa using hk)]
    rfl

/-- An answer for amount zero is read off the counters, with the counter below
the start as the base. -/
theorem getOutputDistribution_zero_eq {fakechain : Bool} {hf : HardFork} {start : ℕ}
    {count : ℕ → ℕ}
    (hrows : ∀ h < db.height, (db.blockInfo.get? h).map BlockInfo.cumRct = some (count h))
    (hle : fromHeight ≤ toHeight) (hlt : toHeight < db.height)
    (hstart : start = distributionStart fakechain hf 0 fromHeight) (hstartle : start ≤ toHeight) :
    getOutputDistribution fakechain hf db 0 fromHeight toHeight =
      .ok (some ⟨start, (range' start (toHeight + 1 - start)).map count,
        if start = 0 then 0 else count (start - 1)⟩) := by
  have hcounters : ∀ first, getBlockCumulativeRctOutputs db (range' first (toHeight + 1 - first)) =
        .ok ((range' first (toHeight + 1 - first)).map count) := by
    intro first
    have hlt : ∀ h ∈ range' first (toHeight + 1 - first), h < db.height := by
      intro h hh
      have := mem_range'_1.mp hh
      omega
    rw [getBlockCumulativeRctOutputs, if_neg (by simpa using hlt)]
    apply mapM_eq_ok
    intro h hh
    obtain ⟨info, hget, hcum⟩ := Option.map_eq_some_iff.mp (hrows h (hlt h hh))
    rw [hget, orThrow_some, ← hcum]
    rfl
  simp only [getOutputDistribution, ← hstart]
  rw [if_neg (by omega), if_neg (by omega), if_neg (by omega), if_pos trivial, if_neg (by omega),
    hcounters, ok_bind]
  rcases Nat.eq_zero_or_pos start with rfl | hpos
  · rfl
  · have hlen : toHeight + 1 - (start - 1) = toHeight + 1 - start + 1 := by omega
    rw [if_pos hpos, if_pos hpos, if_neg hpos.ne', hlen, range'_succ, Nat.sub_add_cancel hpos]
    rfl

/-- The counter of every block is the number of entries of amount zero up to
it, and the answers that read the counters are those that count the entries. -/
theorem rct_distribution_counts {env : Env H K PK C X} {ops : List (Operation H K PK C X)}
    (hops : ∀ op ∈ ops, op.WellFormed env) (hrun : run env .empty ops = .ok db)
    (hrules : VersionRules (chainOf ops)) :
    (∀ h < db.height,
      (db.blockInfo.get? h).map BlockInfo.cumRct = some (db.outputs.countUpTo 0 h)) ∧
    ∀ (fakechain : Bool) (hf : HardFork) (fromHeight toHeight start : ℕ), fromHeight ≤ toHeight →
      toHeight < db.height → start = distributionStart fakechain hf 0 fromHeight →
      start ≤ toHeight →
      getOutputDistribution fakechain hf db 0 fromHeight toHeight =
        .ok (some ⟨start, db.outputs.countsUpTo 0 start toHeight,
          if start = 0 then 0 else db.outputs.countUpTo 0 (start - 1)⟩) ∧
      (getEntryDistribution db 0 start toHeight).map (fun p ↦ p.1.take (toHeight + 1 - start)) =
        some (db.outputs.countsUpTo 0 start toHeight) := by
  obtain ⟨hchain, hwf⟩ := addBlocks_chainOf hops hrun
  obtain ⟨hholds, hheight⟩ := holds_addBlocks hchain
  have hrows : ∀ h < db.height,
      (db.blockInfo.get? h).map BlockInfo.cumRct = some (db.outputs.countUpTo 0 h) := by
    intro h hh
    rw [hheight] at hh
    rw [hholds.outputs.countUpTo_eq hh]
    exact cumRct_addBlocks hchain hwf hrules hh
  refine ⟨hrows, fun fakechain hf fromHeight toHeight start hle hlt hstart hstartle ↦ ⟨?_, ?_⟩⟩
  · exact getOutputDistribution_zero_eq hrows hle hlt hstart hstartle
  · exact getEntryDistribution_eq ((hholds.numbered hheight).heights_sorted 0) hstartle hlt

lemma secondEntry_versionRules : VersionRules [firstEntry, secondEntry] where
  monotone := by decide +kernel
  minerTx := by decide +kernel
  txs := by decide +kernel

theorem rct_distribution_counts_readded :
    ∃ db, run twoBlocksEnv .empty readdedOperations = .ok db ∧ db.height = 2 ∧
      ∀ hf, getOutputDistribution true hf db 0 0 1 =
          .ok (some ⟨0, db.outputs.countsUpTo 0 0 1, 0⟩) ∧
        getOutputDistribution true hf db 0 1 1 =
          .ok (some ⟨1, db.outputs.countsUpTo 0 1 1, db.outputs.countUpTo 0 0⟩) := by
  have hok : (run twoBlocksEnv .empty readdedOperations).isOk = true := by decide +kernel
  obtain ⟨db, hrun⟩ := exists_of_isOk hok
  have hheight : db.height = 2 :=
    (holds_addBlocks (addBlocks_chainOf readdedOperations_wellFormed hrun).1).2
  obtain ⟨-, hanswers⟩ :=
    rct_distribution_counts readdedOperations_wellFormed hrun secondEntry_versionRules
  refine ⟨db, hrun, hheight, fun hf ↦ ⟨?_, ?_⟩⟩
  · exact (hanswers true hf 0 1 0 (by decide) (by omega) rfl (by decide)).1
  · exact (hanswers true hf 1 1 1 (by decide) (by omega) rfl (by decide)).1

/-! ## RingCT transactions before version 4

Nothing in the database keeps a transaction of version 2 out of a block of
version 3, and the counter of such a block starts again from zero. -/

def earlyTx (keyImage : ℕ) : ListedTx :=
  listedTx 2 [.toKey 5 [0] keyImage] [⟨0, some (20 + keyImage)⟩] [21] (110 + keyImage)

def earlyMinerTx (height : ℕ) : ListedTx :=
  listedTx 1 [.gen height] [⟨7, some height⟩] [] (100 + height)

def earlyBlock (height : ℕ) : ListedBlock :=
  listedBlock 3 height (earlyMinerTx height) [earlyTx height]

def earlyEnv : Env ℕ ℕ ℕ ℕ ℕ :=
  listedEnv [(firstMinerTx, [1], []), (earlyMinerTx 1, [2], []), (earlyMinerTx 2, [3], []),
    (earlyTx 1, [4], [5]), (earlyTx 2, [6], [7])]
    [(firstBlock, [1]), (earlyBlock 1, [2]), (earlyBlock 2, [3])]

def earlyOperations : List (Operation ℕ ℕ ℕ ℕ ℕ) :=
  [.add (listedEntry firstBlock []), .add (listedEntry (earlyBlock 1) [(earlyTx 1, [4, 5])]),
    .add (listedEntry (earlyBlock 2) [(earlyTx 2, [6, 7])])]

theorem early_rct_counter : (run earlyEnv .empty earlyOperations).toOption.map (fun db ↦
      ((db.blockInfo.get? 2).map BlockInfo.cumRct, db.outputs.countUpTo 0 2)) = some (some 1, 2) ∧
    ((chainOf earlyOperations).Pairwise fun e f ↦ e.blk.majorVersion ≤ f.blk.majorVersion) ∧
    ∀ e ∈ chainOf earlyOperations, e.blk.majorVersion < 4 ∧ e.blk.minerTx.version ≠ 2 := by
  decide +kernel

end Monero.Database
