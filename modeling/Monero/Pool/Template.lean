import Monero.Blockchain.MinerTx
import Monero.Pool.Index
import Monero.Pool.Statistics

/-!
# Transactions for the next block

`fill_block_template` and `get_block_template_backlog` go through the pool from the better
to the worse paying transactions and take those that are ready and share no key image with
one taken before.  A transaction is parsed only when its inputs are checked: where
`m_input_cache` knows the answer, the key images that are looked at are those of a default
constructed transaction.
-/

namespace Monero.Pool

open Lib List Function
open Monero.Blockchain (Transaction TxIn checkInputsTypesSupported getBlockReward)

variable {K P H R : Type*} [LinearOrder K] [LinearOrder H]

/-- The checks of the chain; `none` is an exception, also for a blob that does not parse. -/
structure ChainChecks (K P H : Type*) where
  topBlockHash : H
  checkTxInputs : H → Transaction K P → Option Bool

/-- Whether the transaction is ready, the transaction as far as it was parsed, and
`m_input_cache`.  The caller records `last_failed_id`. -/
def isTransactionReadyToGo (chain : ChainChecks K P H) (inputCache : H → Option Bool)
    (lastFailedId : Option H) (id : H) (tx : Transaction K P) :
    Option Bool × Transaction K P × (H → Option Bool) :=
  if lastFailedId = some chain.topBlockHash then (some false, nullTransaction, inputCache)
  else
    match inputCache id with
    | some ret => (some ret, nullTransaction, inputCache)
    | none =>
      match chain.checkTxInputs id tx with
      | none => (none, tx, inputCache)
      | some ret => (some ret, tx, update inputCache id (some ret))

def haveKeyImages (kImages : Finset K) : List (TxIn K) → Bool
  | .toKey _ _ image :: vin => image ∈ kImages || haveKeyImages kImages vin
  | _ => false

def appendKeyImages : Finset K → List (TxIn K) → Finset K
  | kImages, .toKey _ _ image :: vin =>
    if image ∈ kImages then kImages else appendKeyImages (insert image kImages) vin
  | kImages, _ => kImages

section

variable {chain : ChainChecks K P H} {inputCache : H → Option Bool} {lastFailedId : Option H}
  {id : H} {tx : Transaction K P} {kImages : Finset K} {vin : List (TxIn K)}

omit [LinearOrder K] in
lemma isTransactionReadyToGo_cache {x : H} (hx : x ≠ id) :
    (isTransactionReadyToGo chain inputCache lastFailedId id tx).2.2 x = inputCache x := by
  rw [isTransactionReadyToGo]
  split
  · rfl
  split
  · rfl
  split
  · rfl
  · exact update_of_ne hx _ _

omit [LinearOrder K] in
lemma isTransactionReadyToGo_fst :
    (isTransactionReadyToGo chain inputCache lastFailedId id tx).1 =
      if lastFailedId = some chain.topBlockHash then some false
      else (inputCache id).or (chain.checkTxInputs id tx) := by
  rw [isTransactionReadyToGo]
  split
  · rfl
  · cases inputCache id with
    | some ret => rfl
    | none => cases chain.checkTxInputs id tx <;> rfl

omit [LinearOrder K] in
lemma isTransactionReadyToGo_parsed
    (h : (isTransactionReadyToGo chain inputCache lastFailedId id tx).1 = some true) :
    (isTransactionReadyToGo chain inputCache lastFailedId id tx).2.1 =
      if inputCache id = none then tx else nullTransaction := by
  rw [isTransactionReadyToGo] at h ⊢
  split at h
  · cases h
  rw [if_neg ‹_›]
  cases hcache : inputCache id with
  | some ret => rfl
  | none => cases hcheck : chain.checkTxInputs id tx <;> rfl

lemma haveKeyImages_eq_true (h : haveKeyImages kImages vin = true) :
    ∃ image ∈ imagesOf vin, image ∈ kImages := by
  fun_induction haveKeyImages kImages vin with
  | case1 amount offsets image vin ih =>
    rw [imagesOf_toKey, exists_mem_cons_iff]
    rcases Bool.or_eq_true_iff.mp h with hmem | hrest
    · exact .inl (of_decide_eq_true hmem)
    · exact .inr (ih hrest)
  | case2 => cases h

lemma mem_appendKeyImages {image : K} (h : image ∈ appendKeyImages kImages vin) :
    image ∈ kImages ∨ image ∈ imagesOf vin := by
  fun_induction appendKeyImages kImages vin with
  | case1 => exact .inl h
  | case2 kImages amount offsets image' vin hnew ih =>
    rw [imagesOf_toKey, mem_cons]
    rcases ih h with hold | hrest
    · rcases Finset.mem_insert.mp hold with rfl | hold
      · exact .inr (.inl rfl)
      · exact .inl hold
    · exact .inr (.inr hrest)
  | case3 => exact .inl h

lemma subset_appendKeyImages : kImages ⊆ appendKeyImages kImages vin := by
  fun_induction appendKeyImages kImages vin with
  | case1 => exact subset_rfl
  | case2 kImages amount offsets image vin hnew ih => exact (Finset.subset_insert _ _).trans ih
  | case3 => exact subset_rfl

/-- All images of a transaction of the pool are seen, if none of them was there before. -/
theorem imagesOf_seen (hkeys : vin.all TxIn.isToKey = true) (hdistinct : (imagesOf vin).Nodup)
    (hnew : haveKeyImages kImages vin = false) :
    (∀ image ∈ imagesOf vin, image ∉ kImages) ∧
      ∀ image ∈ imagesOf vin, image ∈ appendKeyImages kImages vin := by
  induction vin, hkeys using toKey_induction generalizing kImages with
  | nil => simp
  | toKey amount offsets image vin hkeys ih =>
    rw [haveKeyImages, Bool.or_eq_false_iff, decide_eq_false_iff_not] at hnew
    rw [imagesOf_toKey, nodup_cons] at hdistinct
    have hrest : haveKeyImages (insert image kImages) vin = false := by
      by_contra htrue
      obtain ⟨x, hx, hmem⟩ := haveKeyImages_eq_true (eq_true_of_ne_false htrue)
      rcases Finset.mem_insert.mp hmem with rfl | hmem
      · exact hdistinct.1 hx
      · exact (ih hdistinct.2 hnew.2).1 x hx hmem
    obtain ⟨hout, hin⟩ := ih hdistinct.2 hrest
    rw [imagesOf_toKey, appendKeyImages, if_neg hnew.1]
    simp only [forall_mem_cons]
    refine ⟨⟨hnew.1, fun x hx hmem ↦ hout x hx (Finset.mem_insert_of_mem hmem)⟩, ?_, hin⟩
    exact subset_appendKeyImages (Finset.mem_insert_self _ _)

end

/-! ## Filling a block template -/

def coinbaseBlobReservedSize : ℕ := 600

/-- The arguments of `fill_block_template`, whether stem transactions are mined, and
`template_accept_threshold`, which multiplies in floating point. -/
structure Filling where
  medianWeight : ℕ
  alreadyGeneratedCoins : ℕ
  version : UInt8
  mineStemTxes : Bool
  templateAcceptThreshold : ℕ → ℕ

def Filling.maxTotalWeight (f : Filling) : ℕ :=
  ((if 5 ≤ f.version then 2 * f.medianWeight else 130 * f.medianWeight % 2 ^ 64 / 100) + 2 ^ 64 -
    coinbaseBlobReservedSize) % 2 ^ 64

def Filling.reward (f : Filling) (weight : ℕ) : Option ℕ :=
  getBlockReward f.medianWeight weight f.alreadyGeneratedCoins f.version

/-- The transactions taken so far, with the remembered checks. -/
structure Template (K H : Type*) where
  txHashes : List H
  totalWeight : ℕ
  fee : ℕ
  bestCoinbase : ℕ
  kImages : Finset K
  inputCache : H → Option Bool
  lastFailedId : H → Option H

section

variable (f : Filling) (chain : ChainChecks K P H) (pool : TxMemoryPool K P H R)

def Template.ready (t : Template K H) (id : H) (tx : Transaction K P) :
    Option Bool × Transaction K P × (H → Option Bool) :=
  isTransactionReadyToGo chain t.inputCache (t.lastFailedId id) id tx

/-- The end of a round, for a transaction that fits and pays. -/
def Template.consider (t : Template K H) (id : H) (row : PoolRow K P) (coinbase : ℕ) :
    Template K H :=
  let (ready, tx, inputCache) := t.ready chain id row.tx
  let t := { t with
    inputCache := inputCache
    lastFailedId := if ready = some false then
      update t.lastFailedId id (some chain.topBlockHash) else t.lastFailedId }
  if ready ≠ some true ∨ haveKeyImages t.kImages tx.vin then t
  else { t with
    txHashes := t.txHashes ++ [id]
    totalWeight := t.totalWeight + row.info.weight
    fee := t.fee + row.info.fee
    bestCoinbase := coinbase
    kImages := appendKeyImages t.kImages tx.vin }

/-- `none` leaves the loop.  Before version 5 the coinbase is not computed. -/
def fillStep (t : Template K H) (id : H) : Option (Template K H) :=
  match pool.txpool.get? id with
  | none => some t
  | some row =>
    if !matchesCategory row.info.relayMethod .legacy &&
        !(f.mineStemTxes && row.info.relayMethod = .stem) then some t
    else if row.info.pruned then some t
    else if f.maxTotalWeight < t.totalWeight + row.info.weight then some t
    else if 5 ≤ f.version then
      match f.reward (t.totalWeight + row.info.weight) with
      | none => some t
      | some reward =>
        if reward + t.fee + row.info.fee < f.templateAcceptThreshold t.bestCoinbase then some t
        else some (t.consider chain id row (reward + t.fee + row.info.fee))
    else if f.medianWeight < t.totalWeight then none
    else some (t.consider chain id row 0)

def fillLoop : List H → Template K H → Template K H
  | [], t => t
  | id :: ids, t =>
    match fillStep f chain pool t id with
    | none => t
    | some t => fillLoop ids t

/-- `expected_reward` is `bestCoinbase`; `none` is the return value `false`. -/
def fillBlockTemplate (inputCache : H → Option Bool) (lastFailedId : H → Option H) :
    Option (Template K H) :=
  (f.reward 0).map fun reward ↦
    fillLoop f chain pool pool.sortedIds ⟨[], 0, 0, reward, ∅, inputCache, lastFailedId⟩

end

/-- The transaction may go into the block as far as its row tells, and is not too
heavy for it alone. -/
def Filling.Minable (f : Filling) (row : PoolRow K P) : Prop :=
  (matchesCategory row.info.relayMethod .legacy = true ∨
    f.mineStemTxes = true ∧ row.info.relayMethod = .stem) ∧
  ¬row.info.pruned = true ∧ row.info.weight ≤ f.maxTotalWeight

section

variable {f : Filling} {chain : ChainChecks K P H} {pool : TxMemoryPool K P H R}
  {start t t' : Template K H} {id : H} {ids : List H} {rows : List (H × PoolRow K P)}

lemma fillStep_cases (hversion : 5 ≤ f.version) :
    fillStep f chain pool t id = some t ∨ ∃ row reward, pool.txpool.get? id = some row ∧
      f.Minable row ∧ t.totalWeight + row.info.weight ≤ f.maxTotalWeight ∧
      f.reward (t.totalWeight + row.info.weight) = some reward ∧
      fillStep f chain pool t id =
        some (t.consider chain id row (reward + t.fee + row.info.fee)) := by
  rw [fillStep]
  cases hrow : pool.txpool.get? id with
  | none => exact .inl rfl
  | some row =>
    dsimp only
    split_ifs with hrelay hpruned hweight
    · exact .inl rfl
    · exact .inl rfl
    · exact .inl rfl
    · cases hreward : f.reward (t.totalWeight + row.info.weight) with
      | none => exact .inl rfl
      | some reward =>
        dsimp only
        split_ifs with hpays
        · exact .inl rfl
        · refine .inr ⟨row, reward, rfl, ⟨?_, hpruned, by omega⟩, not_lt.mp hweight, hreward, rfl⟩
          simpa [or_iff_not_imp_left] using hrelay

lemma Template.consider_cases (row : PoolRow K P) (coinbase : ℕ) :
    ∃ inputCache lastFailedId, (∀ x ≠ id, inputCache x = t.inputCache x ∧
        lastFailedId x = t.lastFailedId x) ∧
      (t.consider chain id row coinbase =
          { t with inputCache := inputCache, lastFailedId := lastFailedId } ∨
        (t.ready chain id row.tx).1 = some true ∧
        haveKeyImages t.kImages (t.ready chain id row.tx).2.1.vin = false ∧
        t.consider chain id row coinbase =
          ⟨t.txHashes ++ [id], t.totalWeight + row.info.weight, t.fee + row.info.fee, coinbase,
            appendKeyImages t.kImages (t.ready chain id row.tx).2.1.vin, inputCache,
            lastFailedId⟩) := by
  refine ⟨(t.ready chain id row.tx).2.2, if (t.ready chain id row.tx).1 = some false then
    update t.lastFailedId id (some chain.topBlockHash) else t.lastFailedId,
    fun x hx ↦ ⟨isTransactionReadyToGo_cache hx, ?_⟩, ?_⟩
  · split
    · exact update_of_ne hx _ _
    · rfl
  · by_cases hskip : (t.ready chain id row.tx).1 ≠ some true ∨
        haveKeyImages t.kImages (t.ready chain id row.tx).2.1.vin
    · exact .inl (if_pos hskip)
    · rw [not_or, not_not, Bool.not_eq_true] at hskip
      refine .inr ⟨hskip.1, hskip.2, if_neg ?_⟩
      rw [not_or, not_not, Bool.not_eq_true]
      exact hskip

variable (f pool chain start) in
/-- The template holds the transactions `rows`; `ids` are still to come. -/
structure Filled (ids : List H) (t : Template K H) (rows : List (H × PoolRow K P)) : Prop where
  hashes : t.txHashes = rows.map Prod.fst
  taken : ∀ r ∈ rows, pool.txpool.get? r.1 = some r.2 ∧ f.Minable r.2 ∧
    (start.ready chain r.1 r.2.tx).1 = some true
  nodup : (rows.map Prod.fst ++ ids).Nodup
  disjoint : rows.Pairwise fun r s ↦ (imagesOf r.2.tx.vin).Disjoint (imagesOf s.2.tx.vin)
  images : ∀ r ∈ rows, start.inputCache r.1 = none →
    ∀ image ∈ imagesOf r.2.tx.vin, image ∈ t.kImages
  weight : t.totalWeight = (rows.map fun r ↦ r.2.info.weight).sum
  fee : t.fee = (rows.map fun r ↦ r.2.info.fee).sum
  bounded : t.totalWeight ≤ f.maxTotalWeight
  coinbase : (f.reward t.totalWeight).map (· + t.fee) = some t.bestCoinbase
  fresh : ∀ id ∈ ids, t.inputCache id = start.inputCache id ∧
    t.lastFailedId id = start.lastFailedId id

variable (f chain pool) in
/-- Where two transactions that may go into the block conflict and both are ready, the
next call parses both. -/
def ConflictsParsed (inputCache : H → Option Bool) (lastFailedId : H → Option H) : Prop :=
  ∀ id row id' row', pool.txpool.get? id = some row → pool.txpool.get? id' = some row' →
    id ≠ id' → ¬ (imagesOf row.tx.vin).Disjoint (imagesOf row'.tx.vin) →
    f.Minable row → (isTransactionReadyToGo chain inputCache (lastFailedId id) id row.tx).1 =
      some true →
    f.Minable row' → (isTransactionReadyToGo chain inputCache (lastFailedId id') id' row'.tx).1 =
      some true → inputCache id = none ∧ inputCache id' = none

lemma Filled.take (h : Filled f chain pool start (id :: ids) t rows)
    (hstorable : ∀ id row, pool.txpool.get? id = some row → Storable row.tx)
    (hparsed : ConflictsParsed f chain pool start.inputCache start.lastFailedId)
    {row : PoolRow K P} {reward : ℕ} (hrow : pool.txpool.get? id = some row)
    (hminable : f.Minable row) (hbound : t.totalWeight + row.info.weight ≤ f.maxTotalWeight)
    (hreward : f.reward (t.totalWeight + row.info.weight) = some reward) :
    ∃ rows, Filled f chain pool start ids
      (t.consider chain id row (reward + t.fee + row.info.fee)) rows := by
  obtain ⟨hcache, hfailed⟩ := h.fresh id mem_cons_self
  have hready : (t.ready chain id row.tx).1 = (start.ready chain id row.tx).1 := by
    rw [Template.ready, isTransactionReadyToGo_fst, hcache, hfailed, Template.ready,
      isTransactionReadyToGo_fst]
  obtain ⟨hnotMem, hrest⟩ := nodup_cons.mp (perm_middle.nodup_iff.mp h.nodup)
  obtain ⟨cache, failed, hother, hcases⟩ :=
    @Template.consider_cases _ _ _ _ _ chain t id row (reward + t.fee + row.info.fee)
  have hfresh (x) (hx : x ∈ ids) :
      cache x = start.inputCache x ∧ failed x = start.lastFailedId x := by
    have hne : x ≠ id := by
      rintro rfl
      exact hnotMem (mem_append_right _ hx)
    rw [(hother x hne).1, (hother x hne).2]
    exact h.fresh x (mem_cons_of_mem _ hx)
  rcases hcases with hskip | ⟨htrue, hnew, htake⟩
  · rw [hskip]
    exact ⟨rows, h.hashes, h.taken, hrest, h.disjoint, h.images, h.weight, h.fee, h.bounded,
      h.coinbase, hfresh⟩
  have hseen (hnone : start.inputCache id = none) :
      (∀ image ∈ imagesOf row.tx.vin, image ∉ t.kImages) ∧ ∀ image ∈ imagesOf row.tx.vin,
        image ∈ appendKeyImages t.kImages (t.ready chain id row.tx).2.1.vin := by
    have hvin : (t.ready chain id row.tx).2.1 = row.tx := by
      rw [Template.ready, isTransactionReadyToGo_parsed htrue, hcache, if_pos hnone]
    rw [hvin] at hnew ⊢
    exact imagesOf_seen (hstorable id row hrow).toKey (hstorable id row hrow).distinct hnew
  rw [htake]
  refine ⟨rows ++ [(id, row)], ?_, ?_, ?_, ?_, ?_, ?_, ?_, hbound, ?_, hfresh⟩
  · rw [h.hashes, map_append]
    rfl
  · rw [forall_mem_append]
    exact ⟨h.taken, by simpa using ⟨hrow, hminable, hready ▸ htrue⟩⟩
  · simpa using h.nodup
  · refine pairwise_append.mpr ⟨h.disjoint, pairwise_singleton _ _, fun r hr s hs ↦ ?_⟩
    obtain rfl := mem_singleton.mp hs
    have hne : r.1 ≠ id := fun heq ↦ hnotMem (mem_append_left _ (heq ▸ mem_map_of_mem hr))
    by_contra hconflict
    obtain ⟨hget, hmine, hgo⟩ := h.taken r hr
    obtain ⟨hr0, hid0⟩ :=
      hparsed _ _ _ _ hget hrow hne hconflict hmine hgo hminable (hready ▸ htrue)
    exact hconflict fun image hin hin' ↦ (hseen hid0).1 image hin' (h.images r hr hr0 image hin)
  · rw [forall_mem_append]
    refine ⟨fun r hr hnone image himage ↦ ?_, by simpa using fun hnone ↦ (hseen hnone).2⟩
    exact subset_appendKeyImages (h.images r hr hnone image himage)
  · rw [h.weight, map_append, sum_append]
    simp
  · rw [h.fee, map_append, sum_append]
    simp
  · rw [hreward]
    simp [Nat.add_assoc]

lemma Filled.fillLoop (h : Filled f chain pool start ids t rows)
    (hstorable : ∀ id row, pool.txpool.get? id = some row → Storable row.tx)
    (hparsed : ConflictsParsed f chain pool start.inputCache start.lastFailedId)
    (hversion : 5 ≤ f.version) :
    ∃ rows, Filled f chain pool start [] (fillLoop f chain pool ids t) rows := by
  induction ids generalizing t rows with
  | nil => exact ⟨rows, h⟩
  | cons id ids ih =>
    rw [Pool.fillLoop]
    rcases @fillStep_cases _ _ _ _ _ _ f chain pool t id hversion with
      hskip | ⟨row, reward, hrow, hminable, hbound, hreward, hstep⟩
    · rw [hskip]
      refine ih ⟨h.hashes, h.taken, ?_, h.disjoint, h.images, h.weight, h.fee, h.bounded,
        h.coinbase, fun x hx ↦ h.fresh x (mem_cons_of_mem _ hx)⟩
      exact h.nodup.sublist ((sublist_cons_self _ _).append_left _)
    · rw [hstep]
      obtain ⟨rows, hnext⟩ := h.take hstorable hparsed hrow hminable hbound hreward
      exact ih hnext

end

/-- Two transactions that spend the image 1, the second kept for a block. -/
def conflictingPool : TxMemoryPool ℕ Unit ℕ ℕ :=
  run trustingEnv [.addTx trustingView (spendingTx 7 1) .fluff false 16 0,
    .addTx trustingView (spendingTx 8 1) .block true 16 16] (TxMemoryPool.new Table.empty)

lemma conflictingPool_sound :
    Sound trustingEnv (Set.range fun id ↦ spendingTx id 1) ∅ conflictingPool := by
  refine ((sound_new _ _).run ?_ ?_ ?_).sound
  · rintro _ ⟨id, rfl⟩ _ ⟨id', rfl⟩ heq
    obtain rfl : id = id' := heq
    rfl
  · simp [Operation.WellFormed, spendingTx, imagesOf, TxIn.keyImage?, checkInputsTypesSupported,
      TxIn.isToKey]
  · simp [Operation.tx?]

def sampleFilling : Filling := ⟨300000, 0, 16, false, id⟩

def readyChain : ChainChecks ℕ Unit ℕ := ⟨0, fun _ _ ↦ some true⟩

/-- With what the pool has under its id. -/
abbrev BacklogEntry (K P H : Type*) := H × PoolRow K P

/-- The products have 64 bits. -/
def BacklogEntry.paysBetter (a b : BacklogEntry K P H) : Bool :=
  b.2.info.fee * a.2.info.weight % 2 ^ 64 < a.2.info.fee * b.2.info.weight % 2 ^ 64

def maxBacklogWeight (medianWeight : ℕ) : ℕ := (medianWeight + medianWeight / 8) % 2 ^ 64

def totalWeight (l : List (BacklogEntry K P H)) : ℕ := (l.map fun e ↦ e.2.info.weight).sum

/-- The order in which the transactions are examined. -/
def backlogOrder (limit : ℕ) (l : List (BacklogEntry K P H)) : List (BacklogEntry K P H) :=
  if limit < totalWeight l % 2 ^ 64 then l.insertionSort fun a b ↦ ¬ b.paysBetter a else l

def backlogLoop (chain : ChainChecks K P H) (lastFailedId : H → Option H) (limit : ℕ) :
    List (BacklogEntry K P H) → ℕ → Finset K → (H → Option Bool) → List (BacklogEntry K P H)
  | [], _, _, _ => []
  | e :: l, w, kImages, inputCache =>
    let (ready, tx, inputCache) :=
      isTransactionReadyToGo chain inputCache (lastFailedId e.1) e.1 e.2.tx
    if ready ≠ some true ∨ haveKeyImages kImages tx.vin then
      backlogLoop chain lastFailedId limit l w kImages inputCache
    else
      let w := (w + e.2.info.weight) % 2 ^ 64
      e :: if limit < w then [] else
        backlogLoop chain lastFailedId limit l w (appendKeyImages kImages tx.vin) inputCache

def TxMemoryPool.getBlockTemplateBacklog (pool : TxMemoryPool K P H R) (chain : ChainChecks K P H)
    (inputCache : H → Option Bool) (lastFailedId : H → Option H) (medianWeight : ℕ)
    (includeSensitive : Bool) : List (BacklogEntry K P H) :=
  backlogLoop chain lastFailedId (maxBacklogWeight medianWeight)
    (backlogOrder (maxBacklogWeight medianWeight) (pool.listedTxes includeSensitive)) 0 ∅
    inputCache

namespace BacklogEntry

def feeRate (e : BacklogEntry K P H) : ℚ := e.2.info.fee / e.2.info.weight

def Ready (chain : ChainChecks K P H) (inputCache : H → Option Bool) (lastFailedId : H → Option H)
    (e : BacklogEntry K P H) : Prop :=
  (isTransactionReadyToGo chain inputCache (lastFailedId e.1) e.1 e.2.tx).1 = some true

def images (e : BacklogEntry K P H) : List K := imagesOf e.2.tx.vin

/-- Which of the two products is smaller can be seen from their low 64 bits. -/
def ProductsCompare (a b : BacklogEntry K P H) : Prop :=
  b.2.info.fee * a.2.info.weight % 2 ^ 64 < a.2.info.fee * b.2.info.weight % 2 ^ 64 ↔
    b.2.info.fee * a.2.info.weight < a.2.info.fee * b.2.info.weight

instance decidableProductsCompare (a b : BacklogEntry K P H) : Decidable (a.ProductsCompare b) :=
  instDecidableIff

end BacklogEntry

section

variable {chain : ChainChecks K P H} {lastFailedId : H → Option H} {limit w : ℕ}
  {l out : List (BacklogEntry K P H)} {kImages : Finset K} {inputCache start : H → Option Bool}

omit [LinearOrder K] [LinearOrder H] in
lemma backlogOrder_sorted (hpos : ∀ e ∈ l, 0 < e.2.info.weight)
    (hexact : ∀ a ∈ l, ∀ b ∈ l, a ≠ b → a.ProductsCompare b)
    (hsum : limit < totalWeight l % 2 ^ 64) :
    (backlogOrder limit l).Pairwise fun a b ↦ b.feeRate ≤ a.feeRate := by
  have hrate : ∀ a ∈ l, ∀ b ∈ l, (¬ b.paysBetter a ↔ b.feeRate ≤ a.feeRate) := by
    intro a ha b hb
    by_cases hab : b = a
    · subst hab
      simp [BacklogEntry.paysBetter]
    have hcompare : _ ↔ _ := hexact b hb a ha hab
    rw [BacklogEntry.paysBetter, decide_eq_true_iff, hcompare, not_lt, BacklogEntry.feeRate,
      BacklogEntry.feeRate,
      div_le_div_iff₀ (Nat.cast_pos.mpr (hpos b hb)) (Nat.cast_pos.mpr (hpos a ha))]
    exact_mod_cast Iff.rfl
  have hsame := map_insertionSort (fun a b : BacklogEntry K P H ↦ ¬ b.paysBetter a)
    (fun a b ↦ b.feeRate ≤ a.feeRate) id l hrate
  rw [map_id, map_id] at hsame
  have : Std.Total fun a b : BacklogEntry K P H ↦ b.feeRate ≤ a.feeRate :=
    ⟨fun a b ↦ le_total _ _⟩
  have : IsTrans (BacklogEntry K P H) fun a b ↦ b.feeRate ≤ a.feeRate :=
    ⟨fun a b c hab hbc ↦ hbc.trans hab⟩
  rw [backlogOrder, if_pos hsum, hsame]
  exact pairwise_insertionSort _ l

omit [LinearOrder K] in
lemma BacklogEntry.Ready.images_parsed {e : BacklogEntry K P H} {image : K}
    (h : e.Ready chain inputCache lastFailedId) (himage : image ∈ imagesOf
      (isTransactionReadyToGo chain inputCache (lastFailedId e.1) e.1 e.2.tx).2.1.vin) :
    image ∈ e.images := by
  rw [isTransactionReadyToGo_parsed h] at himage
  split at himage
  · exact himage
  · cases himage

/-- What was examined is returned, is not ready, or conflicts with something before it. -/
theorem backlogLoop_spec (hout : backlogLoop chain lastFailedId limit l w kImages inputCache = out)
    (hnodup : (l.map Prod.fst).Nodup) (hfresh : ∀ e ∈ l, inputCache e.1 = start e.1) :
    ∃ examined rest, l = examined ++ rest ∧ out ⊆ examined ∧ ∀ e ∈ examined,
      e.Ready chain start lastFailedId → e ∈ out ∨
      ∃ image ∈ e.images, image ∈ kImages ∨ ∃ s ∈ out, image ∈ s.images := by
  induction l generalizing w kImages inputCache out with
  | nil => exact ⟨[], [], rfl, hout ▸ Subset.refl _, forall_mem_nil _⟩
  | cons e l ih =>
    obtain ⟨hnotMem, hnodup⟩ := nodup_cons.mp hnodup
    obtain ⟨hcache, hlater⟩ := forall_mem_cons.mp hfresh
    have hready : e.Ready chain inputCache lastFailedId ↔ e.Ready chain start lastFailedId := by
      rw [BacklogEntry.Ready, isTransactionReadyToGo_fst, hcache, BacklogEntry.Ready,
        isTransactionReadyToGo_fst]
    have hnext (s) (hs : s ∈ l) : (isTransactionReadyToGo chain inputCache (lastFailedId e.1) e.1
        e.2.tx).2.2 s.1 = start s.1 := by
      have hne : s.1 ≠ e.1 := fun heq ↦ hnotMem (heq ▸ mem_map_of_mem hs)
      rw [isTransactionReadyToGo_cache hne, hlater s hs]
    rw [backlogLoop] at hout
    dsimp only at hout
    split_ifs at hout with hskip hfull
    · obtain ⟨examined, rest, rfl, hsub, hall⟩ := ih hout hnodup hnext
      refine ⟨e :: examined, rest, rfl, subset_cons_of_subset e hsub,
        forall_mem_cons.mpr ⟨fun htrue ↦ .inr ?_, hall⟩⟩
      have htrue := hready.mpr htrue
      obtain ⟨image, himage, hseen⟩ :=
        haveKeyImages_eq_true (hskip.resolve_left (not_not.mpr htrue))
      exact ⟨image, htrue.images_parsed himage, .inl hseen⟩
    · subst hout
      exact ⟨[e], l, rfl, Subset.refl _, fun s hs _ ↦ .inl hs⟩
    · subst hout
      obtain ⟨examined, rest, rfl, hsub, hall⟩ := ih rfl hnodup hnext
      refine ⟨e :: examined, rest, rfl, cons_subset_cons e hsub,
        forall_mem_cons.mpr ⟨fun _ ↦ .inl mem_cons_self, fun s hs hsready ↦ ?_⟩⟩
      have htrue : e.Ready chain inputCache lastFailedId := not_not.mp (not_or.mp hskip).1
      rcases hall s hs hsready with hout | ⟨image, himage, hseen | ⟨r, hr, hin⟩⟩
      · exact .inl (mem_cons_of_mem e hout)
      · exact .inr ⟨image, himage, (mem_appendKeyImages hseen).imp_right fun hin ↦
          ⟨e, mem_cons_self, htrue.images_parsed hin⟩⟩
      · exact .inr ⟨image, himage, .inr ⟨r, mem_cons_of_mem e hr, hin⟩⟩

/-- As long as the products of fees and weights of any two transactions compare like their
low 64 bits and the low 64 bits of the total weight exceed the limit. -/
theorem getBlockTemplateBacklog_prefers (pool : TxMemoryPool K P H R) (medianWeight : ℕ)
    (includeSensitive : Bool) (hl : pool.listedTxes includeSensitive = l)
    (hpos : ∀ e ∈ l, 0 < e.2.info.weight)
    (hexact : ∀ a ∈ l, ∀ b ∈ l, a ≠ b → a.ProductsCompare b)
    (hsum : maxBacklogWeight medianWeight < totalWeight l % 2 ^ 64)
    (hout : pool.getBlockTemplateBacklog chain inputCache lastFailedId medianWeight
      includeSensitive = out) :
    (backlogOrder (maxBacklogWeight medianWeight) l).Pairwise
        (fun a b ↦ b.feeRate ≤ a.feeRate) ∧
      ∀ e ∈ l, e ∉ out → e.Ready chain inputCache lastFailedId →
        (∀ s ∈ out, e.images.Disjoint s.images) → ∀ s ∈ out, e.feeRate ≤ s.feeRate := by
  have hsorted := backlogOrder_sorted hpos hexact hsum
  have hperm : (backlogOrder (maxBacklogWeight medianWeight) l).Perm l := by
    rw [backlogOrder, if_pos hsum]
    exact perm_insertionSort _ _
  have hkeys : (l.map Prod.fst).Nodup :=
    hl ▸ pool.txpool.keys_nodup.sublist (filter_sublist.map Prod.fst)
  rw [TxMemoryPool.getBlockTemplateBacklog, hl] at hout
  obtain ⟨examined, rest, hsplit, hsub, hall⟩ :=
    backlogLoop_spec hout ((hperm.map Prod.fst).nodup_iff.mpr hkeys) fun _ _ ↦ rfl
  refine ⟨hsorted, fun e he hleft hready hdisjoint s hs ↦ ?_⟩
  rw [hsplit, pairwise_append] at hsorted
  rw [← hperm.mem_iff, hsplit, mem_append] at he
  rcases he with he | he
  · rcases hall e he hready with hin | ⟨image, himage, hseen | ⟨r, hr, hin⟩⟩
    · exact absurd hin hleft
    · cases hseen
    · exact absurd hin (hdisjoint r hr himage)
  · exact hsorted.2.2 s (hsub hs) e he

end

theorem getBlockTemplateBacklog_prefers_sample :
    (conflictingPool.getBlockTemplateBacklog readyChain (fun _ ↦ none) (fun _ ↦ none) 80 true).map
        Prod.fst = [8] ∧
      (backlogOrder (maxBacklogWeight 80) (conflictingPool.listedTxes true)).Pairwise
        fun a b ↦ b.feeRate ≤ a.feeRate := by
  have hexact : ∀ a ∈ conflictingPool.listedTxes true, ∀ b ∈ conflictingPool.listedTxes true,
      BacklogEntry.ProductsCompare a b := by decide +kernel
  exact ⟨by decide +kernel, (@getBlockTemplateBacklog_prefers _ _ _ _ _ _ readyChain (fun _ ↦ none)
    _ _ (fun _ ↦ none) conflictingPool 80 true rfl (by decide +kernel)
    (fun a ha b hb _ ↦ hexact a ha b hb) (by decide +kernel) rfl).1⟩

/-- The first one pays 2 ^ 37 for each byte, the second one next to nothing. -/
def unevenPool : TxMemoryPool ℕ Unit ℕ ℕ :=
  .new ⟨[(1, ⟨⟨2 ^ 10, 2 ^ 47, 0, .fluff, true, false, false⟩, nullTransaction⟩),
    (2, ⟨⟨2 ^ 17, 2 ^ 10, 0, .fluff, true, false, false⟩, nullTransaction⟩)], by simp⟩

theorem backlog_prefers_worse :
    (unevenPool.getBlockTemplateBacklog readyChain (fun _ ↦ none) (fun _ ↦ none) (2 ^ 16) true).map
        Prod.fst = [2] ∧
      (unevenPool.listedTxes true).map BacklogEntry.feeRate = [2 ^ 37, 1 / 2 ^ 7] := by
  decide +kernel

end Monero.Pool
