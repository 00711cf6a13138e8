import Monero.Database.Pruning

/-!
# Incremental pruning

Once a block has left the tip its stripe does not depend on the height of the
chain.  So an update only has to settle the transactions that have left the tip
since the last one, and these are all in the tip table.  It leaves the state that
pruning the unpruned database at the same height would.
-/

namespace Monero.Database

open Lib List

/-! ## Stripes -/

lemma hasUnprunedBlock_of_tip {blockHeight blockchainHeight : ℕ} (seed : ℕ)
    (h : blockchainHeight ≤ blockHeight + cryptonotePruningTipBlocks) :
    hasUnprunedBlock blockHeight blockchainHeight seed = true := by
  simp [hasUnprunedBlock, getPruningStripeAt, h]

lemma hasUnprunedBlock_stable {blockHeight low high : ℕ} (seed : ℕ)
    (hlow : blockHeight + cryptonotePruningTipBlocks < low) (hle : low ≤ high) :
    hasUnprunedBlock blockHeight high seed = hasUnprunedBlock blockHeight low seed := by
  have hhigh : ¬high ≤ blockHeight + cryptonotePruningTipBlocks := by omega
  simp [hasUnprunedBlock, getPruningStripeAt, if_neg hhigh, if_neg (not_le.mpr hlow)]

def stripeSeed (stripe : ℕ) : ℕ := cryptonotePruningLogStripes <<< 7 ||| (stripe - 1) <<< 0

lemma stripeSeed_spec : ∀ stripe ≤ 8, stripe ≠ 0 →
    makePruningSeed stripe cryptonotePruningLogStripes = .ok (stripeSeed stripe) ∧
      getPruningStripe (stripeSeed stripe) = stripe ∧
        getPruningLogStripes (stripeSeed stripe) = cryptonotePruningLogStripes ∧
          stripeSeed stripe ≠ 0 := by
  decide

lemma getPruningStripe_ne_zero {seed : ℕ}
    (hlog : getPruningLogStripes seed = cryptonotePruningLogStripes) :
    getPruningStripe seed ≠ 0 := by
  have hseed : seed ≠ 0 := by
    rintro rfl
    cases hlog
  rw [getPruningStripe, if_neg hseed]
  omega

/-! ## The transactions of the tables -/

section

variable {H K PK C X : Type} (env : Env H K PK C X) {e : Entry H K PK C X} {tx : Tx K PK C X}
  {blob : Blob}

/-- The first field of a serialised transaction is its version, and the parser
knows no version zero. -/
def Env.ReadsVersion : Prop := ∀ blob tx, env.parseTxBase blob = some tx →
    0 < tx.version ∧ ∃ rest, (Codec.varint 64).read blob = some (tx.version, rest)

/-- The bytes of a transaction that are never pruned parse back; the others may be
missing, as in a block that was received pruned. -/
def Env.ReadsBase (tx : Tx K PK C X) (blob : Blob) : Prop :=
  ∃ size base, env.getUnprunableSize tx = .ok size ∧
    env.parseTxBase (blob.take size) = some base ∧ base.version = tx.version

structure Entry.Readable (e : Entry H K PK C X) : Prop where
  minerTx : env.ReadsBase e.blk.minerTx (env.txToBlob e.blk.minerTx)
  txs : ∀ p ∈ e.txs, env.ReadsBase p.1 p.2

lemma Env.ParsesBack.readsBase {env : Env H K PK C X} (h : env.ParsesBack tx blob) :
    env.ReadsBase tx blob := by
  obtain ⟨size, base, hsize, hbase, hversion, -, -⟩ := h.base
  exact ⟨size, base, hsize, hbase, hversion⟩

lemma Entry.WellFormed.readable {env : Env H K PK C X} (h : e.WellFormed env) : e.Readable env :=
  ⟨h.parseMinerTx.readsBase, fun p hp ↦ (h.parseTxs p hp).readsBase⟩

variable [LinearOrder H] [LinearOrder K] {data : TxData}

/-- The tables hold exactly the transactions `ts`, none of them pruned. -/
structure Db.Stores (u : Db H K PK C) (ts : List (ChainTx H K PK C X)) : Prop where
  txCount : u.getTxCount = ts.length
  txIndices : ∀ hash data, u.txIndices.get? hash = some data ↔
    ∃ t, ts[data.txId]? = some t ∧ t.hash = hash ∧ data = ⟨data.txId, t.tx.unlockTime, t.height⟩
  version : ∀ i t, ts[i]? = some t → isV1Tx u.txsPruned i = .ok (decide (t.tx.version = 1))
  prunable : ∀ i, (u.txsPrunable.get? i).isSome ↔ i < ts.length

lemma isV1Tx_of_read {t : Table ℕ Blob} {i version : ℕ} {rest : Blob} (hget : t.get? i = some blob)
    (hread : (Codec.varint 64).read blob = some (version, rest)) :
    isV1Tx t i = .ok (decide (version ≤ 1)) := by
  have hblob : blob.length ≠ 0 := by
    intro hnil
    cases length_eq_zero_iff.mp hnil
    cases hread
  rw [isV1Tx, hget, orThrow_some, ok_bind, if_neg hblob, hread]
  rfl

section Stores

variable {env : Env H K PK C X} {u u' : Db H K PK C} {ts : List (ChainTx H K PK C X)}

lemma Db.Stores.empty : (Db.empty : Db H K PK C).Stores ([] : List (ChainTx H K PK C X)) where
  txCount := rfl
  txIndices hash data := by
    refine ⟨fun h ↦ ?_, fun ⟨t, h, _⟩ ↦ ?_⟩
    · cases h
    · cases h
  version i t h := by cases h
  prunable i := ⟨fun h ↦ (nomatch h), fun h ↦ absurd h (Nat.not_lt_zero i)⟩

section

variable (henv : env.ReadsVersion)

include henv

lemma TransactionAdded.stores {txHash : H} {minerTx : Bool} {size : ℕ} {indices : List ℕ}
    (hreads : env.ReadsBase tx blob)
    (hadded : TransactionAdded env u tx blob txHash minerTx size indices u') (h : u.Stores ts) :
    u'.Stores (ts ++ [⟨tx, blob, txHash, u.height⟩]) := by
  have hindices := Table.added_of_insert hadded.txIndices
  have hpruned := Table.added_of_append hadded.txsPruned
  have hprunable := Table.added_of_append hadded.txsPrunable
  refine ⟨?_, fun hash data ↦ ⟨fun hdata ↦ ?_, ?_⟩, fun i t ht ↦ ?_, fun i ↦ ?_⟩
  · rw [Db.getTxCount, Table.count, (Table.append?_eq_some hadded.txsPruned).2, length_append,
      length_append, ← h.txCount]
    rfl
  · rw [hindices.get] at hdata
    split_ifs at hdata with hhash
    · cases hdata
      refine ⟨⟨tx, blob, txHash, u.height⟩, ?_, hhash.symm, rfl⟩
      rw [h.txCount, getElem?_concat_length]
    · obtain ⟨t, ht, hrest⟩ := (h.txIndices hash data).mp hdata
      obtain ⟨hi, -⟩ := List.getElem?_eq_some_iff.mp ht
      exact ⟨t, by rw [getElem?_append_left hi, ht], hrest⟩
  · rintro ⟨t, ht, rfl, hdata⟩
    obtain ⟨ht, -⟩ | ⟨hi, rfl⟩ := getElem?_concat_eq_some ht
    · exact hindices.get_of_some ((h.txIndices _ data).mpr ⟨t, ht, rfl, hdata⟩)
    · rw [hindices.get_self, hdata, h.txCount, hi]
  · obtain ⟨ht, -⟩ | ⟨rfl, rfl⟩ := getElem?_concat_eq_some ht
    · have hold := h.version i t ht
      simp only [isV1Tx, bind_eq_ok, orThrow_eq_ok] at hold ⊢
      obtain ⟨blob, hblob, hrest⟩ := hold
      exact ⟨blob, hpruned.get_of_some hblob, hrest⟩
    · obtain ⟨size', base, hsize, hbase, hversion⟩ := hreads
      cases hadded.size_eq.symm.trans hsize
      obtain ⟨hpos, rest, hread⟩ := henv _ _ hbase
      have hone : base.version ≤ 1 ↔ tx.version = 1 := by omega
      rw [← h.txCount, isV1Tx_of_read hpruned.get_self hread]
      simp [hone]
  · rw [hprunable.get, length_append, length_singleton, h.txCount]
    split_ifs with hi
    · simp [hi]
    · rw [h.prunable]
      omega

lemma Db.Stores.addTransactions {ps : List ((Tx K PK C X × Blob) × H)}
    (hreads : ∀ p ∈ ps, env.ReadsBase p.1.1 p.1.2) (h : u.Stores ts)
    (hadd : addTransactions env u ps = .ok u') :
    u'.Stores (ts ++ ps.map fun p ↦ ⟨p.1.1, p.1.2, p.2, u.height⟩) := by
  induction ps generalizing u ts with
  | nil =>
    cases hadd
    simpa using h
  | cons p ps ih =>
    rw [Database.addTransactions, foldlM_cons, bind_eq_ok] at hadd
    obtain ⟨u₁, hfirst, hrest⟩ := hadd
    obtain ⟨minerTx, size, indices, hadded⟩ := addTransaction_eq_ok hfirst
    have hstored := ih (fun q hq ↦ hreads q (mem_cons_of_mem p hq))
      (hadded.stores henv (hreads p mem_cons_self) h) hrest
    simpa [hadded.height_eq] using hstored

lemma Db.Stores.addBlock (he : e.Readable env) (h : u.Stores ts) (hadd : addBlock env u e = .ok u')
    : u'.Stores (ts ++ e.transactions env u.height) ∧ u'.height = u.height + 1 := by
  obtain ⟨-, u₁, u₂, _, _, _, _, hadded, htxs, hrow⟩ := addBlock_eq_ok hadd
  have hstored := (hadded.stores henv he.minerTx h).addTransactions henv
    (fun p hp ↦ he.txs p.1 (of_mem_zip hp).1) htxs
  obtain ⟨hblocks, -⟩ := addTransactions_blocks htxs
  have hheight₂ : u₂.height = u.height := by rw [Db.height, hblocks, ← Db.height, hadded.height_eq]
  constructor
  · rw [hadded.height_eq, append_assoc] at hstored
    rw [hrow.rest]
    exact ⟨hstored.txCount, hstored.txIndices, hstored.version, hstored.prunable⟩
  · rw [hrow.height_eq, hheight₂]

lemma stores_addBlocks {chain : List (Entry H K PK C X)} (hchain : ∀ e ∈ chain, e.Readable env)
    (h : addBlocks env chain = .ok u) :
    u.Stores (chainTxs env chain) ∧ u.height = chain.length := by
  induction chain using reverseRecOn generalizing u with
  | nil =>
    cases h
    exact ⟨.empty, rfl⟩
  | append_singleton chain e ih =>
    obtain ⟨u₀, hbelow, hadd⟩ := addBlocks_append_singleton.mp h
    obtain ⟨hstored, hheight⟩ := ih (fun e he ↦ hchain e (mem_append_left _ he)) hbelow
    obtain ⟨hstored', hheight'⟩ := hstored.addBlock henv
      (hchain e (mem_append_right _ (mem_singleton_self e))) hadd
    rw [chainTxs_append_singleton, ← hheight]
    exact ⟨hstored', by rw [hheight', hheight, length_append, length_singleton]⟩

end

lemma Db.Stores.txIds_nodup (h : u.Stores ts) : (u.txIndices.rows.map fun r ↦ r.2.txId).Nodup := by
  rw [Nodup, pairwise_map]
  refine u.txIndices.sorted.imp_of_mem fun {r s} hr hs hlt heq ↦ hlt.ne ?_
  obtain ⟨t, ht, hhash, -⟩ := (h.txIndices _ _).mp (Table.get?_eq_some_iff.mpr hr)
  obtain ⟨t', ht', hhash', -⟩ := (h.txIndices _ _).mp (Table.get?_eq_some_iff.mpr hs)
  rw [heq, ht'] at ht
  cases ht
  exact hhash.symm.trans hhash'

lemma Db.Stores.mem_rows_iff (h : u.Stores ts) :
    data ∈ u.txIndices.rows.map Prod.snd ↔
      ∃ t, ts[data.txId]? = some t ∧ data = ⟨data.txId, t.tx.unlockTime, t.height⟩ := by
  rw [mem_map]
  constructor
  · rintro ⟨r, hr, rfl⟩
    obtain ⟨t, ht, -, hdata⟩ := (h.txIndices _ _).mp (Table.get?_eq_some_iff.mpr hr)
    exact ⟨t, ht, hdata⟩
  · rintro ⟨t, ht, hdata⟩
    exact ⟨_, Table.get?_eq_some_iff.mp ((h.txIndices _ _).mpr ⟨t, ht, rfl, hdata⟩), rfl⟩

lemma Db.Stores.isPruned_eq (h : u.Stores ts) {i : ℕ} {t : ChainTx H K PK C X}
    (ht : ts[i]? = some t) (height seed : ℕ) :
    isPruned u.txsPruned height seed i t.height =
      .ok (decide ¬(t.tx.version = 1 ∨ hasUnprunedBlock t.height height seed = true)) := by
  rw [isPruned, h.version i t ht]
  by_cases hkept : hasUnprunedBlock t.height height seed = true
  · simp [hkept]
  · rw [if_neg hkept]
    simp [hkept, Except.map]

end Stores

/-! ## Settled transactions -/

section Settled

variable (u : Db H K PK C) (ts : List (ChainTx H K PK C X)) (seed : ℕ)

def PruneTables.row (p : PruneTables) (i : ℕ) : Option ℕ × Option Blob :=
  (p.txsPrunableTip.get? i, p.txsPrunable.get? i)

/-- The rows of a transaction as pruning at a height leaves them. -/
structure Settled (height : ℕ) (p : PruneTables) (i : ℕ) (t : ChainTx H K PK C X) : Prop where
  tip : p.txsPrunableTip.get? i =
    if height ≤ t.height + cryptonotePruningTipBlocks then some t.height else none
  prunable : p.txsPrunable.get? i =
    if t.tx.version = 1 ∨ hasUnprunedBlock t.height height seed = true then u.txsPrunable.get? i
    else none

structure AllSettled (height : ℕ) (p : PruneTables) : Prop where
  each : ∀ i t, ts[i]? = some t → Settled u seed height p i t
  rest : ∀ i, ts.length ≤ i → p.txsPrunableTip.get? i = none ∧ p.txsPrunable.get? i = none

/-- Between two heights in an update. -/
structure Settling (low high : ℕ) (p : PruneTables) : Prop where
  each : ∀ i t, ts[i]? = some t → Settled u seed low p i t ∨ Settled u seed high p i t
  rest : ∀ i, ts.length ≤ i → p.txsPrunableTip.get? i = none ∧ p.txsPrunable.get? i = none

variable {u ts seed} {low high : ℕ} {p q : PruneTables} {i : ℕ} {t : ChainTx H K PK C X}

lemma Settled.stable (h : Settled u seed low p i t) (hle : low ≤ high)
    (hstable : high ≤ t.height + cryptonotePruningTipBlocks ∨
      t.height + cryptonotePruningTipBlocks < low) : Settled u seed high p i t := by
  obtain ⟨htip, hprunable⟩ := h
  rcases hstable with hnear | hfar
  · have hlow := hle.trans hnear
    rw [if_pos hlow] at htip
    rw [hasUnprunedBlock_of_tip seed hlow] at hprunable
    exact ⟨by rw [htip, if_pos hnear], by rw [hprunable, hasUnprunedBlock_of_tip seed hnear]⟩
  · rw [if_neg (not_le.mpr hfar)] at htip
    exact ⟨by rw [htip, if_neg (by omega)],
      by rw [hprunable, hasUnprunedBlock_stable seed hfar hle]⟩

lemma Settled.congr (h : Settled u seed low p i t) (hrow : q.row i = p.row i) :
    Settled u seed low q i t :=
  ⟨(congrArg Prod.fst hrow).trans h.tip, (congrArg Prod.snd hrow).trans h.prunable⟩

lemma AllSettled.settling (h : AllSettled u ts seed low p) (high : ℕ) :
    Settling u ts seed low high p := ⟨fun i t ht ↦ .inl (h.each i t ht), h.rest⟩

lemma AllSettled.unique (hp : AllSettled u ts seed high p) (hq : AllSettled u ts seed high q) :
    p = q := by
  have hrow : ∀ i, p.row i = q.row i := by
    intro i
    rw [PruneTables.row, PruneTables.row]
    rcases Nat.lt_or_ge i ts.length with hi | hi
    · have ht : ts[i]? = some ts[i] := getElem?_eq_getElem hi
      rw [(hp.each i _ ht).tip, (hq.each i _ ht).tip, (hp.each i _ ht).prunable,
        (hq.each i _ ht).prunable]
    · rw [(hp.rest i hi).1, (hq.rest i hi).1, (hp.rest i hi).2, (hq.rest i hi).2]
  cases p
  cases q
  rw [PruneTables.mk.injEq]
  exact ⟨Table.ext_get fun i ↦ congrArg Prod.snd (hrow i),
    Table.ext_get fun i ↦ congrArg Prod.fst (hrow i)⟩

/-! ## The loop over the tip table -/

lemma PruneTables.get?_remove_tip (p : PruneTables) (pruned : Bool) (i j : ℕ) :
    (p.remove pruned i).txsPrunableTip.get? j =
      if j = i then none else p.txsPrunableTip.get? j := Table.get?_erase _ _ _

lemma PruneTables.get?_remove_prunable (p : PruneTables) (pruned : Bool) (i j : ℕ) :
    (p.remove pruned i).txsPrunable.get? j =
      if pruned ∧ j = i then none else p.txsPrunable.get? j := by
  cases pruned with
  | false => simp [remove]
  | true => simp [remove, Table.get?_erase]

lemma PruneTables.row_remove {j : ℕ} (hij : j ≠ i) (p : PruneTables) (pruned : Bool) :
    (p.remove pruned i).row j = p.row j := by
  rw [row, get?_remove_tip, if_neg hij, get?_remove_prunable, if_neg fun h ↦ hij h.2, row]

lemma Settling.remove (hu : u.Stores ts) (hp : Settling u ts seed low high p) {blockHeight : ℕ}
    (hrow : p.txsPrunableTip.get? i = some blockHeight)
    (hleft : blockHeight + cryptonotePruningTipBlocks < high) :
    ∃ pruned, isPruned u.txsPruned high seed i blockHeight = .ok pruned ∧
      Settling u ts seed low high (p.remove pruned i) := by
  have hi : i < ts.length := by
    by_contra hge
    rw [(hp.rest i (not_lt.mp hge)).1] at hrow
    cases hrow
  obtain ⟨t, ht⟩ : ∃ t, ts[i]? = some t := ⟨_, getElem?_eq_getElem hi⟩
  -- the row is still that of the lower height
  have hold : Settled u seed low p i t ∧ t.height = blockHeight ∧
      low ≤ t.height + cryptonotePruningTipBlocks := by
    rcases hp.each i t ht with h | h
    · have htip := h.tip
      rw [hrow] at htip
      split_ifs at htip with hlow
      exact ⟨h, (Option.some.inj htip).symm, hlow⟩
    · have htip := h.tip
      rw [hrow] at htip
      split_ifs at htip with hhigh
      cases htip
      omega
  obtain ⟨hold, rfl, hlow⟩ := hold
  have hprunable := hold.prunable
  rw [hasUnprunedBlock_of_tip seed hlow, if_pos (.inr rfl)] at hprunable
  refine ⟨_, hu.isPruned_eq ht high seed, fun j t' ht' ↦ ?_, fun j hj ↦ ?_⟩
  · by_cases hij : j = i
    · subst hij
      cases ht.symm.trans ht'
      refine .inr ⟨?_, ?_⟩
      · rw [PruneTables.get?_remove_tip, if_pos rfl, if_neg (not_le.mpr hleft)]
      · rw [PruneTables.get?_remove_prunable, hprunable]
        by_cases hkept : t.tx.version = 1 ∨ hasUnprunedBlock t.height high seed = true
        · simp [hkept]
        · simp [hkept]
    · have hrow := p.row_remove hij
      exact (hp.each j t' ht').imp (·.congr (hrow _)) (·.congr (hrow _))
  · obtain ⟨htip, hprunable⟩ := Prod.ext_iff.mp (p.row_remove (by omega : j ≠ i) _)
    exact ⟨htip.trans (hp.rest j hj).1, hprunable.trans (hp.rest j hj).2⟩

/-- What a round over the tip table from `rows` on does. -/
structure TipRound (u : Db H K PK C) (ts : List (ChainTx H K PK C X)) (seed low high : ℕ)
    (p : PruneTables) (rows : List (ℕ × ℕ)) (committed : Bool) (q : PruneTables) : Prop where
  settling : Settling u ts seed low high q
  subset : ∀ i h, q.txsPrunableTip.get? i = some h → p.txsPrunableTip.get? i = some h
  count_le : q.txsPrunableTip.count ≤ p.txsPrunableTip.count
  count_lt : committed = true → q.txsPrunableTip.count < p.txsPrunableTip.count
  visited : committed = false → ∀ r ∈ rows,
    r.2 + cryptonotePruningTipBlocks < high → q.txsPrunableTip.get? r.1 = none

lemma pruneTipFrom_round (hu : u.Stores ts) {rows : List (ℕ × ℕ)}
    (hsorted : rows.Pairwise fun r s ↦ r.1 < s.1) (counter : ℕ)
    (hp : Settling u ts seed low high p)
    (hrows : ∀ r ∈ rows, p.txsPrunableTip.get? r.1 = some r.2) :
    ∃ committed q, pruneTipFrom u.txsPruned high seed rows counter p = .ok (committed, q) ∧
      TipRound u ts seed low high p rows committed q := by
  induction rows generalizing counter p with
  | nil => exact ⟨false, p, rfl, hp, fun _ _ h ↦ h, le_rfl, (nomatch ·), fun _ r hr ↦ (nomatch hr)⟩
  | cons r rows ih =>
    obtain ⟨i, blockHeight⟩ := r
    obtain ⟨habove, hsorted⟩ := pairwise_cons.mp hsorted
    have hrow := hrows _ mem_cons_self
    have hrest : ∀ r ∈ rows, p.txsPrunableTip.get? r.1 = some r.2 := fun r hr ↦
      hrows r (mem_cons_of_mem _ hr)
    rw [pruneTipFrom]
    by_cases hleft : blockHeight + cryptonotePruningTipBlocks < high
    · obtain ⟨pruned, hpruned, hremoved⟩ := hp.remove hu hrow hleft
      have hsubset : ∀ j h, (p.remove pruned i).txsPrunableTip.get? j = some h →
          p.txsPrunableTip.get? j = some h := by
        intro j h hj
        rw [PruneTables.get?_remove_tip] at hj
        split_ifs at hj
        exact hj
      have hcount : (p.remove pruned i).txsPrunableTip.count < p.txsPrunableTip.count :=
        Table.count_erase_lt hrow
      have hgone : (p.remove pruned i).txsPrunableTip.get? i = none := by
        rw [PruneTables.get?_remove_tip, if_pos rfl]
      rw [if_pos hleft, hpruned, ok_bind]
      simp only
      generalize (if pruned = true ∧ (p.txsPrunable.get? i).isSome = true then counter + 1
        else counter) = counter'
      by_cases hcommit : pruningCommitCount ≤ counter'
      · rw [if_pos hcommit]
        exact ⟨true, _, rfl, hremoved, hsubset, hcount.le, fun _ ↦ hcount, (nomatch ·)⟩
      · rw [if_neg hcommit]
        have hrest' : ∀ r ∈ rows, (p.remove pruned i).txsPrunableTip.get? r.1 = some r.2 := by
          intro r hr
          rw [PruneTables.get?_remove_tip, if_neg (habove r hr).ne', hrest r hr]
        obtain ⟨committed, q, hq, hround⟩ := ih hsorted counter' hremoved hrest'
        refine ⟨committed, q, hq, hround.settling, fun j h hj ↦ hsubset j h (hround.subset j h hj),
          hround.count_le.trans hcount.le, fun _ ↦ hround.count_le.trans_lt hcount,
          fun hfalse r hr hexpired ↦ ?_⟩
        rcases mem_cons.mp hr with rfl | hr
        · rw [Option.eq_none_iff_forall_ne_some]
          intro h hj
          rw [hround.subset _ _ hj] at hgone
          cases hgone
        · exact hround.visited hfalse r hr hexpired
    · rw [if_neg hleft]
      obtain ⟨committed, q, hq, hround⟩ := ih hsorted counter hp hrest
      refine ⟨committed, q, hq, hround.settling, hround.subset, hround.count_le, hround.count_lt,
        fun hfalse r hr hexpired ↦ ?_⟩
      rcases mem_cons.mp hr with rfl | hr
      · exact absurd hexpired hleft
      · exact hround.visited hfalse r hr hexpired

lemma TipRound.allSettled (hle : low ≤ high)
    (h : TipRound u ts seed low high p p.txsPrunableTip.rows false q) :
    AllSettled u ts seed high q := by
  refine ⟨fun i t ht ↦ ?_, h.settling.rest⟩
  rcases h.settling.each i t ht with hlow | hhigh
  · apply hlow.stable hle
    by_contra hleft
    rw [not_or, not_le, not_lt] at hleft
    have htip := hlow.tip
    rw [if_pos hleft.2] at htip
    have hgone :=
      h.visited rfl (i, t.height) (Table.get?_eq_some_iff.mp (h.subset i _ htip)) hleft.1
    rw [htip] at hgone
    cases hgone
  · exact hhigh

section

variable (hu : u.Stores ts)

include hu

lemma pruneTip_allSettled (hle : low ≤ high) {fuel : ℕ} (hp : Settling u ts seed low high p)
    (hfuel : p.txsPrunableTip.count < fuel) :
    ∃ q, pruneTip u.txsPruned high seed fuel p = .ok q ∧ AllSettled u ts seed high q := by
  induction fuel generalizing p with
  | zero => exact absurd hfuel (Nat.not_lt_zero _)
  | succ fuel ih =>
    obtain ⟨committed, q, hq, hround⟩ := pruneTipFrom_round hu p.txsPrunableTip.sorted 0 hp
      fun r hr ↦ Table.get?_eq_some_iff.mpr hr
    rw [pruneTip, hq, ok_bind]
    cases committed with
    | true =>
      exact ih hround.settling ((hround.count_lt rfl).trans_le (Nat.lt_succ_iff.mp hfuel))
    | false => exact ⟨q, rfl, hround.allSettled hle⟩

/-! ## The loop over all transactions -/

lemma pruneIndex_eq (ht : ts[data.txId]? = some t) (hheight : data.blockId = t.height)
    (p : PruneTables) :
    ∃ q, pruneIndex u.txsPruned .prune high seed p data = .ok q ∧
      (∀ j, j ≠ data.txId → q.row j = p.row j) ∧
      (p.row data.txId = (none, u.txsPrunable.get? data.txId) →
        Settled u seed high q data.txId t) := by
  rw [pruneIndex, hheight, hu.isPruned_eq ht, ok_bind]
  refine ⟨_, rfl, fun j hj ↦ Prod.ext ?_ ?_, fun hrow ↦ ?_⟩
  · dsimp only [PruneTables.row]
    split_ifs
    · rw [Table.get?_set, if_neg hj]
    · rfl
  · dsimp only [PruneTables.row]
    split_ifs
    · rw [Table.get?_erase, if_neg hj]
    · rfl
  obtain ⟨htip, hprunable⟩ := Prod.mk.inj hrow
  constructor
  · by_cases hin : high ≤ t.height + cryptonotePruningTipBlocks
    · simp [hin, Table.get?_set]
    · simp [hin, htip]
  · by_cases hkept : t.tx.version = 1 ∨ hasUnprunedBlock t.height high seed = true
    · simp [hkept, hprunable]
    · simp [hkept, Table.get?_erase]

lemma pruneIndices_rows {rows : List TxData} (hnodup : (rows.map TxData.txId).Nodup)
    (hrows : ∀ data ∈ rows, ∃ t, ts[data.txId]? = some t ∧ data.blockId = t.height)
    (hfresh : ∀ data ∈ rows, p.row data.txId = (none, u.txsPrunable.get? data.txId)) :
    ∃ q, rows.foldlM (pruneIndex u.txsPruned .prune high seed) p = .ok q ∧
      (∀ data ∈ rows, ∀ t, ts[data.txId]? = some t → Settled u seed high q data.txId t) ∧
      ∀ i, (∀ data ∈ rows, data.txId ≠ i) → q.row i = p.row i := by
  induction rows generalizing p with
  | nil => exact ⟨p, rfl, fun _ h ↦ (nomatch h), fun _ _ ↦ rfl⟩
  | cons data rows ih =>
    obtain ⟨hnew, hnodup⟩ := nodup_cons.mp hnodup
    have hother : ∀ d ∈ rows, d.txId ≠ data.txId := fun d hd heq ↦
      hnew (heq ▸ mem_map_of_mem hd)
    obtain ⟨t, ht, hheight⟩ := hrows data mem_cons_self
    obtain ⟨p₁, hp₁, hkeeps, hsettled⟩ := pruneIndex_eq hu ht hheight p
    obtain ⟨q, hq, heach, hrest⟩ := ih hnodup (fun d hd ↦ hrows d (mem_cons_of_mem _ hd))
      fun d hd ↦ (hkeeps d.txId (hother d hd)).trans (hfresh d (mem_cons_of_mem _ hd))
    refine ⟨q, by rw [foldlM_cons, hp₁, ok_bind, hq], ?_, fun i hi ↦ ?_⟩
    · intro d hd t' ht'
      rcases mem_cons.mp hd with rfl | hd
      · cases ht.symm.trans ht'
        exact (hsettled (hfresh d mem_cons_self)).congr (hrest d.txId hother)
      · exact heach d hd t' ht'
    · rw [hrest i fun d hd ↦ hi d (mem_cons_of_mem _ hd), hkeeps i (hi data mem_cons_self).symm]

lemma pruneIndices_allSettled (seed : ℕ) :
    ∃ q, pruneIndices u .prune seed ⟨u.txsPrunable, .empty⟩ = .ok q ∧
      AllSettled u ts seed u.height q := by
  have hnodup : ((u.txIndices.rows.map Prod.snd).map TxData.txId).Nodup := by
    rw [map_map]
    exact hu.txIds_nodup
  have hrows : ∀ data ∈ u.txIndices.rows.map Prod.snd,
      ∃ t, ts[data.txId]? = some t ∧ data.blockId = t.height := by
    intro data hdata
    obtain ⟨t, ht, heq⟩ := hu.mem_rows_iff.mp hdata
    exact ⟨t, ht, congrArg TxData.blockId heq⟩
  obtain ⟨q, hq, heach, hrest⟩ := pruneIndices_rows (p := ⟨u.txsPrunable, .empty⟩) hu hnodup hrows
    fun _ _ ↦ rfl
  refine ⟨q, hq, fun i t ht ↦ ?_, fun i hi ↦ ?_⟩
  · exact heach ⟨i, t.tx.unlockTime, t.height⟩ (hu.mem_rows_iff.mpr ⟨t, ht, rfl⟩) t ht
  · have hnone : ∀ data ∈ u.txIndices.rows.map Prod.snd, data.txId ≠ i := by
      rintro data hdata rfl
      obtain ⟨t, ht, -⟩ := hu.mem_rows_iff.mp hdata
      rw [getElem?_eq_none hi] at ht
      cases ht
    obtain ⟨htip, hprunable⟩ := Prod.mk.inj (hrest i hnone)
    refine ⟨htip, hprunable.trans ?_⟩
    rw [← Option.not_isSome_iff_eq_none, hu.prunable, not_lt]
    exact hi

end

end Settled

end

end Monero.Database
