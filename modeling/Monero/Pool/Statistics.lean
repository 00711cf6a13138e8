import Monero.Epee.Median
import Monero.Pool.Model

/-!
# The ages of the transactions in the pool

`get_transaction_stats` collects the transactions by age and spreads the ages over
the bins of a histogram.  With enough transactions the oldest ones, found by counting
down from the end, share the last bin; otherwise the bins divide the time since the
oldest transaction.  Times have 64 bits, the least, largest and middle weight 32;
counts and sums are natural numbers.
-/

namespace Monero.Pool

open Lib List Table

structure TxpoolHisto where
  txs : ℕ
  bytes : ℕ
  deriving DecidableEq, Repr

def TxpoolHisto.add (a b : TxpoolHisto) : TxpoolHisto := ⟨a.txs + b.txs, a.bytes + b.bytes⟩

structure TxpoolStats where
  bytesTotal : ℕ := 0
  bytesMin : ℕ := 0
  bytesMax : ℕ := 0
  bytesMed : ℕ := 0
  feeTotal : ℕ := 0
  oldest : ℕ := 0
  txsTotal : ℕ := 0
  num10m : ℕ := 0
  numNotRelayed : ℕ := 0
  histo98pc : ℕ := 0
  histo : List TxpoolHisto := []
  numDoubleSpends : ℕ := 0
  deriving DecidableEq, Repr

def TxpoolStats.count (now : ℕ) (stats : TxpoolStats) (info : TxMeta) : TxpoolStats := { stats with
    bytesTotal := stats.bytesTotal + info.weight
    bytesMin := if stats.bytesMin = 0 ∨ info.weight < stats.bytesMin then info.weight % 2 ^ 32
      else stats.bytesMin
    bytesMax := if stats.bytesMax < info.weight then info.weight % 2 ^ 32 else stats.bytesMax
    feeTotal := stats.feeTotal + info.fee
    oldest := if stats.oldest = 0 ∨ info.receiveTime < stats.oldest then info.receiveTime
      else stats.oldest
    num10m := if info.receiveTime < (now + 2 ^ 64 - 600) % 2 ^ 64 then stats.num10m + 1
      else stats.num10m
    numNotRelayed := if info.relayed then stats.numNotRelayed else stats.numNotRelayed + 1
    numDoubleSpends := if info.doubleSpendSeen then stats.numDoubleSpends + 1
      else stats.numDoubleSpends }

def ageOf (now receiveTime : ℕ) : ℕ :=
  (now + 2 ^ 64 - receiveTime) % 2 ^ 64 + if now = receiveTime then 1 else 0

def addAge (now : ℕ) (agebytes : Table ℕ TxpoolHisto) (info : TxMeta) : Table ℕ TxpoolHisto :=
  let age := ageOf now info.receiveTime
  agebytes.set age (((agebytes.get? age).getD ⟨0, 0⟩).add ⟨1, info.weight⟩)

/-- The loop that goes down from the oldest age until `limit` transactions are passed:
the rows below, and those from there on. -/
def percentile (limit : ℕ) : ℕ → List (ℕ × TxpoolHisto) → List (ℕ × TxpoolHisto) →
    List (ℕ × TxpoolHisto) × List (ℕ × TxpoolHisto)
  | _, [], above => ([], above)
  | passed, r :: rows, above =>
    if rows = [] ∨ limit ≤ passed + r.2.txs then (rows.reverse, r :: above)
    else percentile limit (passed + r.2.txs) rows (r :: above)

def binIndex (factor delta age : ℕ) : ℕ := (age * factor % 2 ^ 64 + (2 ^ 64 - 1)) % 2 ^ 64 / delta

/-- `none` is an access past the end of the histogram. -/
def addToBin (histo : List TxpoolHisto) (i : ℕ) (h : TxpoolHisto) : Option (List TxpoolHisto) :=
  if i < histo.length then some (histo.modify i (·.add h)) else none

def fillBins (index : ℕ → ℕ) (rows : List (ℕ × TxpoolHisto)) (histo : List TxpoolHisto) :
    Option (List TxpoolHisto) :=
  rows.foldlM (fun histo r ↦ addToBin histo (index r.1) r.2) histo

def orOne (delta : ℕ) : ℕ := if delta = 0 then 1 else delta

/-- `histo_98pc` and the histogram. -/
def ageHisto (limit factor sinceOldest : ℕ) (rows : List (ℕ × TxpoolHisto)) :
    Option (ℕ × List TxpoolHisto) :=
  if limit ≠ 0 then
    let (below, above) := percentile limit 0 rows.reverse []
    let first := (above.head?.map Prod.fst).getD 0
    (fillBins (binIndex 9 (orOne first)) below (replicate 10 ⟨0, 0⟩) >>=
      fillBins (fun _ ↦ 9) above).map (first, ·)
  else
    (fillBins (binIndex factor (orOne sinceOldest)) rows (replicate factor ⟨0, 0⟩)).map (0, ·)

def TxpoolStats.collect (now : ℕ) (infos : List TxMeta) : TxpoolStats :=
  infos.foldl (count now) {
    txsTotal := infos.length
    bytesMed := Epee.median (infos.map fun info ↦ info.weight % 2 ^ 32) }

/-- `limit` is `txs_total * 0.02`, in floating point. -/
def statsOf (limit : ℕ → ℕ) (now : ℕ) (infos : List TxMeta) : Option TxpoolStats :=
  let agebytes := infos.foldl (addAge now) empty
  let stats := TxpoolStats.collect now infos
  if 1 < stats.txsTotal then
    (ageHisto (limit stats.txsTotal) (if 9 < stats.txsTotal then 10 else stats.txsTotal)
      ((now + 2 ^ 64 - stats.oldest) % 2 ^ 64) agebytes.rows).map fun h ↦
        { stats with histo98pc := h.1, histo := h.2 }
  else some stats

section

variable {K P H R : Type*} [LinearOrder K] [LinearOrder H] (pool : TxMemoryPool K P H R)

/-- The transactions that `for_all_txpool_txes` goes through. -/
def TxMemoryPool.listedTxes (includeSensitive : Bool) : List (H × PoolRow K P) :=
  pool.txpool.rows.filter fun r ↦
    matchesCategory r.2.info.relayMethod (if includeSensitive then .all else .broadcasted)

def TxMemoryPool.getTransactionStats (limit : ℕ → ℕ) (now : ℕ) (includeSensitive : Bool) :
    Option TxpoolStats :=
  statsOf limit now ((pool.listedTxes includeSensitive).map fun r ↦ r.2.info)

end

/-! ## Bins -/

lemma binIndex_lt (factor : ℕ) {delta age : ℕ} (hage : 0 < age) (hle : age ≤ delta)
    (hfactor : 0 < factor) : binIndex factor delta age < factor := by
  rw [binIndex, Nat.div_lt_iff_lt_mul (hage.trans_le hle)]
  have hmul : age * factor ≤ factor * delta := by
    calc
      age * factor ≤ delta * factor := Nat.mul_le_mul_right _ hle
      _ = factor * delta := Nat.mul_comm _ _
  have hpos : 0 < age * factor := Nat.mul_pos hage hfactor
  generalize age * factor = product at hmul hpos
  generalize factor * delta = bound at hmul
  omega

/-- Times below `2 ^ 60` are too close for the product to come around to a small index. -/
lemma le_binIndex {factor receiveTime oldest now : ℕ} (htwo : 2 ≤ factor) (hten : factor ≤ 10)
    (hnewer : now < receiveTime) (htime : receiveTime < 2 ^ 60) (hold : oldest ≤ now) :
    factor ≤ binIndex factor (orOne ((now + 2 ^ 64 - oldest) % 2 ^ 64))
      (ageOf now receiveTime) := by
  have hage : ageOf now receiveTime = 2 ^ 64 - (receiveTime - now) := by
    rw [ageOf, if_neg hnewer.ne]
    omega
  have hdelta : (now + 2 ^ 64 - oldest) % 2 ^ 64 = now - oldest := by omega
  have hone : 0 < orOne (now - oldest) ∧ orOne (now - oldest) ≤ now - oldest + 1 := by
    rw [orOne]
    split_ifs <;> omega
  rw [binIndex, hage, hdelta, Nat.le_div_iff_mul_le hone.1]
  interval_cases factor <;> omega

lemma addToBin_sum {histo : List TxpoolHisto} {i : ℕ} (hi : i < histo.length) (h : TxpoolHisto) :
    ∃ histo', addToBin histo i h = some histo' ∧ histo'.length = histo.length ∧
      (histo'.map TxpoolHisto.txs).sum = (histo.map TxpoolHisto.txs).sum + h.txs := by
  refine ⟨_, if_pos hi, length_modify .., ?_⟩
  rw [modify_eq_take_cons_drop hi]
  conv_rhs => rw [← take_append_drop i histo, drop_eq_getElem_cons hi]
  simp only [map_append, map_cons, sum_append, sum_cons, TxpoolHisto.add]
  omega

def countTxs (rows : List (ℕ × TxpoolHisto)) : ℕ := (rows.map fun r ↦ r.2.txs).sum

lemma fillBins_sum (index : ℕ → ℕ) (histo : List TxpoolHisto) {rows : List (ℕ × TxpoolHisto)}
    (h : ∀ r ∈ rows, index r.1 < histo.length) :
    ∃ histo', fillBins index rows histo = some histo' ∧ histo'.length = histo.length ∧
      (histo'.map TxpoolHisto.txs).sum = (histo.map TxpoolHisto.txs).sum + countTxs rows := by
  induction rows generalizing histo with
  | nil => exact ⟨histo, rfl, rfl, rfl⟩
  | cons r rows ih =>
    obtain ⟨first, hfirst, hlength, hsum⟩ := addToBin_sum (h r mem_cons_self) r.2
    obtain ⟨histo', hrest, hlength', hsum'⟩ :=
      ih first fun r' hr' ↦ hlength.symm ▸ h r' (mem_cons_of_mem r hr')
    refine ⟨histo', ?_, hlength'.trans hlength, ?_⟩
    · rw [fillBins, foldlM_cons, hfirst]
      exact hrest
    · rw [hsum', hsum, countTxs, countTxs, map_cons, sum_cons, Nat.add_assoc]

lemma lt_of_fillBins {index : ℕ → ℕ} {histo histo' : List TxpoolHisto}
    {rows : List (ℕ × TxpoolHisto)} (h : fillBins index rows histo = some histo') :
    ∀ r ∈ rows, index r.1 < histo.length := by
  induction rows generalizing histo with
  | nil => simp
  | cons r rows ih =>
    rw [fillBins, foldlM_cons] at h
    obtain ⟨first, hfirst, hrest⟩ := Option.bind_eq_some_iff.mp h
    obtain ⟨hlt, heq⟩ := Option.ite_none_right_eq_some.mp hfirst
    have hall := ih hrest
    rw [← Option.some.inj heq, length_modify] at hall
    exact forall_mem_cons.mpr ⟨hlt, hall⟩

/-! ## Ages -/

variable {now : ℕ} {infos : List TxMeta} {rows : List (ℕ × TxpoolHisto)}

lemma ageOf_pos {receiveTime : ℕ} (hnow : now < 2 ^ 64) (htime : receiveTime < 2 ^ 64) :
    0 < ageOf now receiveTime := by
  rw [ageOf]
  split_ifs <;> omega

lemma total_addAge (now : ℕ) (agebytes : Table ℕ TxpoolHisto) (info : TxMeta) :
    (addAge now agebytes info).total TxpoolHisto.txs = agebytes.total TxpoolHisto.txs + 1 := by
  rw [addAge, (agebytes.added_erase_set _ _).total_eq]
  cases hage : agebytes.get? (ageOf now info.receiveTime) with
  | none =>
    rw [erase_eq_self hage]
    exact Nat.add_comm _ _
  | some h =>
    rw [total_erase _ hage]
    exact Nat.add_right_comm _ _ _

lemma agebytes_spec (now : ℕ) (infos : List TxMeta) (agebytes : Table ℕ TxpoolHisto) :
    countTxs (infos.foldl (addAge now) agebytes).rows = countTxs agebytes.rows + infos.length ∧
      ∀ age, age ∈ (infos.foldl (addAge now) agebytes).keys ↔
        age ∈ agebytes.keys ∨ ∃ info ∈ infos, age = ageOf now info.receiveTime := by
  induction infos generalizing agebytes with
  | nil => simp
  | cons info infos ih =>
    obtain ⟨hcount, hkeys⟩ := ih (addAge now agebytes info)
    refine ⟨?_, fun age ↦ ?_⟩
    · have hone := total_addAge now agebytes info
      rw [foldl_cons, hcount, length_cons]
      simp only [total] at hone
      simp only [countTxs, hone]
      omega
    · rw [foldl_cons, hkeys, exists_mem_cons_iff, ← or_assoc, mem_keys_iff, mem_keys_iff, addAge,
        get?_set]
      split_ifs with hage <;> simp [hage]

lemma oldest_le (hpos : ∀ info ∈ infos, 0 < info.receiveTime) (stats : TxpoolStats) :
    (∀ info ∈ infos, (infos.foldl (TxpoolStats.count now) stats).oldest ≤ info.receiveTime) ∧
      (stats.oldest ≠ 0 → (infos.foldl (TxpoolStats.count now) stats).oldest ≤ stats.oldest) := by
  induction infos generalizing stats with
  | nil => exact ⟨fun _ h ↦ (not_mem_nil h).elim, fun _ ↦ le_rfl⟩
  | cons info infos ih =>
    obtain ⟨hinfo, hinfos⟩ := forall_mem_cons.mp hpos
    obtain ⟨hrest, hfirst⟩ := ih hinfos (stats.count now info)
    have hstep : (stats.count now info).oldest ≠ 0 ∧
        (stats.count now info).oldest ≤ info.receiveTime ∧
        (stats.oldest ≠ 0 → (stats.count now info).oldest ≤ stats.oldest) := by
      simp only [TxpoolStats.count]
      split_ifs <;> omega
    have hle := hfirst hstep.1
    exact ⟨forall_mem_cons.mpr ⟨hle.trans hstep.2.1, hrest⟩, fun h ↦ hle.trans (hstep.2.2 h)⟩

lemma lt_oldest (hafter : ∀ info ∈ infos, now < info.receiveTime) {stats : TxpoolStats}
    (hstats : now < stats.oldest ∨ stats.oldest = 0 ∧ infos ≠ []) :
    now < (infos.foldl (TxpoolStats.count now) stats).oldest := by
  induction infos generalizing stats with
  | nil => exact hstats.resolve_right fun h ↦ h.2 rfl
  | cons info infos ih =>
    obtain ⟨hinfo, hinfos⟩ := forall_mem_cons.mp hafter
    have hold : now < stats.oldest ∨ stats.oldest = 0 := hstats.imp_right And.left
    refine ih hinfos (.inl ?_)
    simp only [TxpoolStats.count]
    split_ifs <;> omega

/-- A time of zero counts as none yet, so it is found only at the end. -/
def ZeroAtEnd (times : List ℕ) : Prop := 0 ∈ times → times.getLast? = some 0

lemma oldest_collect_le (hzero : ZeroAtEnd (infos.map TxMeta.receiveTime)) :
    ∀ info ∈ infos, (TxpoolStats.collect now infos).oldest ≤ info.receiveTime := by
  by_cases hmem : 0 ∈ infos.map TxMeta.receiveTime
  · obtain ⟨times, htimes⟩ := getLast?_eq_some_iff.mp (hzero hmem)
    obtain ⟨first, rest, rfl, -, hrest⟩ := map_eq_append_iff.mp htimes
    obtain ⟨last, rfl, hlast⟩ := map_eq_singleton_iff.mp hrest
    have hnone : (TxpoolStats.collect now (first ++ [last])).oldest = 0 := by
      rw [TxpoolStats.collect, foldl_append, foldl_cons, foldl_nil, TxpoolStats.count]
      dsimp only
      split_ifs <;> omega
    exact fun info _ ↦ hnone ▸ Nat.zero_le _
  · refine (oldest_le (fun info hinfo ↦ Nat.pos_of_ne_zero fun h ↦ hmem ?_) _).1
    exact mem_map.mpr ⟨info, hinfo, h⟩

lemma percentile_spec (limit passed : ℕ) (rows above : List (ℕ × TxpoolHisto)) :
    (percentile limit passed rows above).1 ++ (percentile limit passed rows above).2 =
      rows.reverse ++ above ∧ ((percentile limit passed rows above).2 = [] → rows = []) := by
  induction rows generalizing passed above with
  | nil => exact ⟨rfl, fun _ ↦ rfl⟩
  | cons r rows ih =>
    rw [percentile]
    split_ifs with hlast
    · simp
    · obtain ⟨hsplit, hnil⟩ := ih (passed + r.2.txs) (r :: above)
      exact ⟨by simp [hsplit], fun h ↦ absurd (.inl (hnil h)) hlast⟩

lemma txsTotal_count (stats : TxpoolStats) :
    (infos.foldl (TxpoolStats.count now) stats).txsTotal = stats.txsTotal := by
  induction infos generalizing stats with
  | nil => rfl
  | cons info infos ih => rw [foldl_cons, ih, TxpoolStats.count]

/-! ## The histogram -/

lemma sum_replicate_zero (n : ℕ) :
    ((replicate n (⟨0, 0⟩ : TxpoolHisto)).map TxpoolHisto.txs).sum = 0 := by
  rw [map_replicate, sum_replicate, smul_zero]

lemma ageHisto_spread (factor sinceOldest : ℕ) :
    (∃ h, ageHisto 0 factor sinceOldest rows = some h ∧
      (h.2.map TxpoolHisto.txs).sum = countTxs rows) ↔
    ∀ r ∈ rows, binIndex factor (orOne sinceOldest) r.1 < factor := by
  rw [ageHisto, if_neg (not_not.mpr rfl)]
  constructor
  · rintro ⟨h, hfill, -⟩
    obtain ⟨histo, hfill, -⟩ := Option.map_eq_some_iff.mp hfill
    have hlt := lt_of_fillBins hfill
    rwa [length_replicate] at hlt
  · intro hlt
    obtain ⟨histo, hfill, -, hsum⟩ := fillBins_sum (binIndex factor (orOne sinceOldest))
      (replicate factor ⟨0, 0⟩) fun r hr ↦ by simpa using hlt r hr
    refine ⟨(0, histo), ?_, ?_⟩
    · rw [hfill]
      rfl
    · rw [hsum, sum_replicate_zero, Nat.zero_add]

/-- What is below the last bin is less old than its first age, which is the divisor. -/
theorem ageHisto_percentile {limit : ℕ} (factor sinceOldest : ℕ) (hlimit : limit ≠ 0)
    (hsorted : rows.Pairwise fun r s ↦ r.1 < s.1) (hrows : ∀ r ∈ rows, 0 < r.1) :
    ∃ h, ageHisto limit factor sinceOldest rows = some h ∧
      (h.2.map TxpoolHisto.txs).sum = countTxs rows := by
  obtain ⟨hsplit, hnil⟩ := percentile_spec limit 0 rows.reverse []
  rw [reverse_reverse, append_nil] at hsplit
  generalize hp : percentile limit 0 rows.reverse [] = p at hsplit hnil
  obtain ⟨below, above⟩ := p
  dsimp only at hsplit hnil
  subst hsplit
  obtain ⟨-, -, habove⟩ := pairwise_append.mp hsorted
  have hbelow : ∀ r ∈ below, binIndex 9 (orOne ((above.head?.map Prod.fst).getD 0)) r.1 < 10 := by
    intro r hr
    have hpos := hrows r (mem_append_left above hr)
    cases above with
    | nil =>
      rw [append_nil] at hnil
      rw [reverse_eq_nil_iff.mp (hnil rfl)] at hr
      cases hr
    | cons a above =>
      have hlt : r.1 < a.1 := habove r hr a mem_cons_self
      have hbin := binIndex_lt 9 hpos hlt.le (by decide)
      have hone : orOne a.1 = a.1 := if_neg (hpos.trans hlt).ne'
      simp only [head?_cons, Option.map_some, Option.getD_some, hone]
      omega
  obtain ⟨histo, hfill, hlength, hsum⟩ := fillBins_sum _ (replicate 10 ⟨0, 0⟩) hbelow
  obtain ⟨histo', hfill', -, hsum'⟩ := fillBins_sum (fun _ ↦ 9) histo
    fun (r : ℕ × TxpoolHisto) (_ : r ∈ above) ↦ by
      rw [hlength, length_replicate]
      decide
  refine ⟨((above.head?.map Prod.fst).getD 0, histo'), ?_, ?_⟩
  · rw [ageHisto, if_pos hlimit, hp]
    simp only [hfill, hfill', Option.bind_eq_bind, Option.bind_some, Option.map_some]
  · rw [hsum', hsum, sum_replicate_zero, Nat.zero_add, countTxs, countTxs, countTxs, map_append,
      sum_append]

/-- The clock is not between the times, unless the oldest transactions have a bin; one
transaction alone gets none. -/
def ClockOutside (limit : ℕ → ℕ) (now : ℕ) (times : List ℕ) : Prop :=
  times.length ≠ 1 ∧
    (limit times.length ≠ 0 ∨ (∀ t ∈ times, t ≤ now) ∨ ∀ t ∈ times, now < t)

section

variable (limit : ℕ → ℕ) (hnow : now < 2 ^ 64)
  (htimes : ∀ info ∈ infos, info.receiveTime < 2 ^ 64)

lemma statsOf_counts_of_le (hle : infos.length ≤ 1) :
    (∃ stats, statsOf limit now infos = some stats ∧
      (stats.histo.map TxpoolHisto.txs).sum = infos.length) ↔ infos.length ≠ 1 := by
  cases infos with
  | nil => simp [statsOf, TxpoolStats.collect]
  | cons info infos =>
    obtain rfl := length_eq_zero_iff.mp (Nat.le_zero.mp (Nat.le_of_succ_le_succ hle))
    simp [statsOf, TxpoolStats.collect, TxpoolStats.count]

include hnow htimes

lemma statsOf_counts_of_lt (hmany : 1 < infos.length) :
    (∃ stats, statsOf limit now infos = some stats ∧
        (stats.histo.map TxpoolHisto.txs).sum = infos.length) ↔
      limit infos.length ≠ 0 ∨ ∀ info ∈ infos, binIndex (min 10 infos.length)
        (orOne ((now + 2 ^ 64 - (TxpoolStats.collect now infos).oldest) % 2 ^ 64))
          (ageOf now info.receiveTime) < min 10 infos.length := by
  obtain ⟨hcount, hkeys⟩ := agebytes_spec now infos empty
  have hrows (p : ℕ → Prop) : (∀ r ∈ (infos.foldl (addAge now) empty).rows, p r.1) ↔
      ∀ info ∈ infos, p (ageOf now info.receiveTime) := by
    constructor
    · intro h info hinfo
      obtain ⟨r, hr, heq⟩ := mem_map.mp ((hkeys _).mpr (.inr ⟨info, hinfo, rfl⟩))
      exact heq ▸ h r hr
    · intro h r hr
      obtain ⟨info, hinfo, heq⟩ := ((hkeys r.1).mp (mem_map_of_mem hr)).resolve_left not_mem_nil
      exact heq ▸ h info hinfo
  have hhisto : (∃ h, ageHisto (limit infos.length) (min 10 infos.length)
      ((now + 2 ^ 64 - (TxpoolStats.collect now infos).oldest) % 2 ^ 64)
        (infos.foldl (addAge now) empty).rows = some h ∧ (h.2.map TxpoolHisto.txs).sum =
          countTxs (infos.foldl (addAge now) empty).rows) ↔
      limit infos.length ≠ 0 ∨ ∀ info ∈ infos, binIndex (min 10 infos.length)
        (orOne ((now + 2 ^ 64 - (TxpoolStats.collect now infos).oldest) % 2 ^ 64))
          (ageOf now info.receiveTime) < min 10 infos.length := by
    by_cases hlimit : limit infos.length = 0
    · rw [hlimit, ageHisto_spread, or_iff_right (not_not.mpr rfl)]
      exact hrows fun age ↦ binIndex _ _ age < _
    · refine iff_of_true (ageHisto_percentile _ _ hlimit (Table.sorted _) ?_) (.inl hlimit)
      exact (hrows _).mpr fun info hinfo ↦ ageOf_pos hnow (htimes info hinfo)
  have hfactor : (if 9 < infos.length then 10 else infos.length) = min 10 infos.length := by
    split_ifs <;> omega
  have htotal : (TxpoolStats.collect now infos).txsTotal = infos.length := txsTotal_count _
  rw [hcount.trans (Nat.zero_add _)] at hhisto
  simpa [statsOf, htotal, hmany, hfactor] using hhisto

/-- The clock outside the times is enough, and below `2 ^ 60` it is needed. -/
lemma statsOf_counts (hzero : ZeroAtEnd (infos.map TxMeta.receiveTime)) :
    (ClockOutside limit now (infos.map TxMeta.receiveTime) →
      ∃ stats, statsOf limit now infos = some stats ∧
        (stats.histo.map TxpoolHisto.txs).sum = infos.length) ∧
    ((∀ info ∈ infos, info.receiveTime < 2 ^ 60) →
      (∃ stats, statsOf limit now infos = some stats ∧
        (stats.histo.map TxpoolHisto.txs).sum = infos.length) →
      ClockOutside limit now (infos.map TxMeta.receiveTime)) := by
  have hleast : ∀ info ∈ infos, (TxpoolStats.collect now infos).oldest ≤ info.receiveTime :=
    oldest_collect_le hzero
  rw [ClockOutside, length_map, forall_mem_map, forall_mem_map]
  rcases Nat.lt_or_ge 1 infos.length with hmany | hfew
  · rw [statsOf_counts_of_lt limit hnow htimes hmany]
    refine ⟨fun hout ↦ hout.2.imp_right fun hclock info hinfo ↦ ?_, fun hsmall hbins ↦
      ⟨hmany.ne', hbins.imp_right fun hbins ↦ ?_⟩⟩
    · refine binIndex_lt _ (ageOf_pos hnow (htimes info hinfo)) ?_ (by omega)
      have hle := hleast info hinfo
      have hlt := htimes info hinfo
      rw [ageOf, orOne]
      rcases hclock with hclock | hclock
      · have hbefore := hclock info hinfo
        split_ifs <;> omega
      · have hafter : now < (TxpoolStats.collect now infos).oldest :=
          lt_oldest hclock (.inr ⟨rfl, ne_nil_of_mem hinfo⟩)
        split_ifs <;> omega
    · by_contra hmixed
      simp only [not_or, not_forall, not_le, not_lt] at hmixed
      obtain ⟨⟨newer, hnewer, hafter⟩, old, hold, hbefore⟩ := hmixed
      have hbin :=
        le_binIndex (by omega) (min_le_left 10 infos.length) hafter (hsmall newer hnewer)
        ((hleast old hold).trans hbefore)
      exact absurd (hbins newer hnewer) (not_lt.mpr hbin)
  · rw [statsOf_counts_of_le limit hfew]
    refine ⟨And.left, fun _ hone ↦ ⟨hone, .inr (.inl ?_)⟩⟩
    have hnone : infos = [] := length_eq_zero_iff.mp (by omega)
    simp [hnone]

end

/-- Two transactions; the clock shows 100. -/
def agedPool (first second : ℕ) : TxMemoryPool ℕ ℕ ℕ ℕ :=
  .new ⟨[(1, ⟨⟨5, 1, first, .fluff, true, false, false⟩, nullTransaction⟩),
    (2, ⟨⟨5, 1, second, .fluff, true, false, false⟩, nullTransaction⟩)], by simp⟩

end Monero.Pool
