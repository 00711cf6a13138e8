import Monero.Pool.Store

/-!
# How the pool evolves

`Sound` says what holds between the operations of the pool: the rows of the
table are sane, what is derived from them is right, and the lists hold exactly
their ids.  While `validate` puts the transactions back one by one, those still
to come may be missing from the map of added transactions; `unlisted` are the
ids for which this is allowed.

Every operation is shown to keep the pool sound and to reach its lists through
single list steps.
-/

namespace Monero.Pool

open Monero.Lib List Function Table
open TxMemoryPool (enter newMeta)
open Relation (ReflTransGen)
open Monero.Blockchain (Transaction TxIn checkInputsTypesSupported checkTxSemantic)

variable {K P H R : Type*} {old : RelayMethod}

/-! ## Relay methods and lists -/

lemma upgrade_none (method : RelayMethod) : (RelayMethod.none.upgrade method).1 = method := by
  cases method <;> rfl

lemma upgrade_block (method : RelayMethod) (h : old = .block) :
    (old.upgrade method).1 = .block := by
  subst h
  cases method <;> rfl

lemma upgrade_broadcasted (method : RelayMethod) (h : matchesCategory old .broadcasted = true) :
    matchesCategory (old.upgrade method).1 .broadcasted = true := by
  cases old <;> cases method <;> first | rfl | cases h

lemma insertByFee_perm [LinearOrder R] (e : (R × ℕ) × H) (xs : List ((R × ℕ) × H)) :
    (insertByFee e xs).Perm (e :: xs) := by
  induction xs with
  | nil => exact Perm.refl _
  | cons x xs ih =>
    rw [insertByFee]
    split_ifs
    · exact Perm.refl _
    · exact (ih.cons x).trans (Perm.swap e x xs)

variable [LinearOrder H]

lemma Lists.map_eraseSorted (l : Lists H R) (id : H) :
    (l.eraseSorted id).map Prod.snd = l.sortedIds.filter fun x ↦ x ≠ id := by
  rw [sortedIds, filter_map]
  rfl

variable (t : Table H (PoolRow K P))

/-- For the ids in the table, whether the transaction is sensitive. -/
def sensitivity (id : H) : Option Bool := (t.get? id).map fun row ↦ !row.info.broadcasted

lemma sensitivity_erase (id : H) :
    sensitivity (t.erase id) = update (sensitivity t) id none :=
  map_get?_update (t.get?_erase id) _

lemma sensitivity_of_get {t t' : Table H (PoolRow K P)} {id : H} {row : PoolRow K P}
    (h : ∀ x, t'.get? x = if x = id then some row else t.get? x) :
    sensitivity t' = update (sensitivity t) id (some !row.info.broadcasted) :=
  map_get?_update h _

lemma sensitivity_set (id : H) (row : PoolRow K P) : sensitivity (t.set id row) =
      update (sensitivity t) id (some !row.info.broadcasted) :=
  sensitivity_of_get (t.get?_set id row)

/-! ## The lists -/

namespace Lists

variable {env : Env K P H R} {l l' : Lists H R} {m : H → Option Bool} {U : Set H} {id : H}
  {sensitive : Bool}

/-- The ids of the lists are those for which `m` has a value, which is whether
the transaction is sensitive. -/
structure Tracks (l : Lists H R) (m : H → Option Bool) (unlisted : Set H) : Prop where
  nodup : l.sortedIds.Nodup
  sorted : ∀ id, id ∈ l.sortedIds ↔ (m id).isSome
  added : ∀ id info, l.addedTxsById.get? id = some info → m id = some info.sensitive
  listed : ∀ id, (m id).isSome → l.addedTxsById.get? id = none → id ∈ unlisted

/-- A transaction that clients can see is not hidden again, and when it goes
this is logged for them. -/
def Respects (l : Lists H R) (id : H) (sensitive : Bool) : Prop :=
  ∀ info, l.addedTxsById.get? id = some info → info.sensitive = false → sensitive = false

section

variable (h : l.Tracks m U)

include h

lemma Tracks.respects (hid : m id = some false → sensitive = false) : l.Respects id sensitive := by
  intro info hinfo hfalse
  apply hid
  rw [h.added id info hinfo, hfalse]

lemma Tracks.tick : l.tick.Tracks m U := ⟨h.nodup, h.sorted, h.added, h.listed⟩

lemma Tracks.mono {V : Set H} (hsub : ∀ id, (m id).isSome → id ∈ U → id ∈ V) :
    l.Tracks m V :=
  ⟨h.nodup, h.sorted, h.added, fun id hid hnone ↦ hsub id hid (h.listed id hid hnone)⟩

lemma Tracks.throwAway : l.throwAwayIncrementalInfo.Tracks m { id | (m id).isSome } := by
  refine ⟨h.nodup, h.sorted, fun id info hid ↦ ?_, fun _ hid _ ↦ hid⟩
  cases hid

end

lemma tracks_cleared (l : Lists H R) :
    Lists.Tracks (R := R) { l.throwAwayIncrementalInfo with txsByFeeAndReceiveTime := [] }
      (fun _ ↦ none) ∅ := by
  refine ⟨nodup_nil, fun id ↦ ?_, fun id info hid ↦ ?_, fun id hid ↦ ?_⟩
  · simp [sortedIds]
  · cases hid
  · cases hid

lemma Tracks.remove (h : l.Tracks m U) (env : Env K P H R) (id : H) (sensitive : Bool) :
    (l.removeTxFromTransientLists env id sensitive).Tracks (update m id none) U := by
  have hids : (l.removeTxFromTransientLists env id sensitive).sortedIds =
      l.sortedIds.filter fun x ↦ x ≠ id := l.map_eraseSorted id
  have hget : ∀ x, (l.removeTxFromTransientLists env id sensitive).addedTxsById.get? x =
      if x = id then none else l.addedTxsById.get? x := l.addedTxsById.get?_erase id
  refine ⟨?_, fun x ↦ ?_, fun x info hx ↦ ?_, fun x hx hnone ↦ ?_⟩
  · rw [hids]
    exact h.nodup.filter _
  · rw [hids, mem_filter, decide_eq_true_eq, h.sorted]
    by_cases hx : x = id
    · simp [hx]
    · simp [hx]
  · rw [hget] at hx
    split_ifs at hx with hxid
    rw [update_of_ne hxid]
    exact h.added x info hx
  · by_cases hxid : x = id
    · rw [hxid, update_self] at hx
      cases hx
    · rw [update_of_ne hxid] at hx
      rw [hget, if_neg hxid] at hnone
      exact h.listed x hx hnone

section Sorted

variable [LinearOrder R] {fee : R} {receiveTime : ℕ}

omit [LinearOrder H] in
lemma insertSorted_spec [DecidableEq H] (e : (R × ℕ) × H) {xs : List ((R × ℕ) × H)}
    (hnodup : (xs.map Prod.snd).Nodup) :
    let ys := if xs.any fun x ↦ x.2 = e.2 then xs else insertByFee e xs
    (ys.map Prod.snd).Nodup ∧ ∀ x, x ∈ ys.map Prod.snd ↔ x = e.2 ∨ x ∈ xs.map Prod.snd := by
  have hany : (xs.any fun x ↦ x.2 = e.2) = true ↔ e.2 ∈ xs.map Prod.snd := by simp
  intro ys
  by_cases hmem : e.2 ∈ xs.map Prod.snd
  · have hys : ys = xs := if_pos (hany.mpr hmem)
    rw [hys]
    refine ⟨hnodup, fun x ↦ ⟨.inr, ?_⟩⟩
    rintro (rfl | hx)
    · exact hmem
    · exact hx
  · have hys : ys = insertByFee e xs := if_neg (hany.not.mpr hmem)
    have hperm : ((insertByFee e xs).map Prod.snd).Perm (e.2 :: xs.map Prod.snd) :=
      (insertByFee_perm e xs).map Prod.snd
    rw [hys]
    constructor
    · exact hperm.nodup_iff.mpr (nodup_cons.mpr ⟨hmem, hnodup⟩)
    · intro x
      rw [hperm.mem_iff, mem_cons]

lemma Tracks.sortedIds_add (h : l.Tracks m U) (env : Env K P H R) (id : H) (fee : R)
    (receiveTime : ℕ) (sensitive : Bool) :
    (l.addTxToTransientLists env id fee receiveTime sensitive).sortedIds.Nodup ∧
      ∀ x, x ∈ (l.addTxToTransientLists env id fee receiveTime sensitive).sortedIds ↔
        x = id ∨ x ∈ l.sortedIds := by
  rw [addTxToTransientLists]
  by_cases hadded : (l.addedTxsById.get? id).isSome
  · have hkept : ((l.eraseSorted id).map Prod.snd).Nodup := by
      rw [map_eraseSorted]
      exact h.nodup.filter _
    simp only [hadded, if_true]
    refine (insertSorted_spec ((fee, receiveTime), id) hkept).imp_right fun hmem x ↦ ?_
    refine (hmem x).trans ?_
    rw [map_eraseSorted, mem_filter, decide_eq_true_eq]
    by_cases hx : x = id <;> simp [hx]
  · simp only [hadded]
    exact insertSorted_spec ((fee, receiveTime), id) h.nodup

lemma Tracks.add (h : l.Tracks m U) (env : Env K P H R) (id : H) (fee : R) (receiveTime : ℕ)
    (sensitive : Bool) : (l.addTxToTransientLists env id fee receiveTime sensitive).Tracks
      (update m id (some sensitive)) U := by
  obtain ⟨hnodup, hmem⟩ := h.sortedIds_add env id fee receiveTime sensitive
  refine ⟨hnodup, fun x ↦ ?_, fun x info hx ↦ ?_, fun x hx hnone ↦ ?_⟩
  · rw [hmem, h.sorted]
    by_cases hx : x = id
    · simp [hx]
    · simp [hx]
  · change (l.addedTxsById.set id _).get? x = some info at hx
    rw [get?_set] at hx
    split_ifs at hx with hxid
    · cases hx
      rw [hxid, update_self]
    · rw [update_of_ne hxid]
      exact h.added x info hx
  · change (l.addedTxsById.set id _).get? x = none at hnone
    rw [get?_set] at hnone
    split_ifs at hnone with hxid
    rw [update_of_ne hxid] at hx
    exact h.listed x hx hnone

end Sorted

/-! ### Single steps -/

inductive ListStep [LinearOrder R] (env : Env K P H R) (l l' : Lists H R) : Prop
  | tick (h : l' = l.tick)
  | add (id : H) (fee : R) (receiveTime : ℕ) (sensitive : Bool)
    (hrespects : l.Respects id sensitive)
      (h : l' = l.addTxToTransientLists env id fee receiveTime sensitive)
  | remove (id : H) (sensitive : Bool) (hrespects : l.Respects id sensitive)
      (h : l' = l.removeTxFromTransientLists env id sensitive)
  | throwAway (sorted : List ((R × ℕ) × H))
      (h : l' = { l.throwAwayIncrementalInfo with txsByFeeAndReceiveTime := sorted })

abbrev ListSteps [LinearOrder R] (env : Env K P H R) : Lists H R → Lists H R → Prop :=
  ReflTransGen (ListStep env)

end Lists

/-! ## Sound pools -/

variable [LinearOrder K] [LinearOrder R] (env : Env K P H R) (T : Set (Transaction K P))

structure Sound (unlisted : Set H) (pool : TxMemoryPool K P H R) : Prop where
  table : TableOk env T pool.txpool
  derived : pool.toStore.Derived
  lists : pool.toLists.Tracks (sensitivity pool.txpool) unlisted
  cache : ∀ id tx, pool.parsedTxCache.get? id = some tx → tx ∈ T ∧ env.getTransactionHash tx = id

structure Evolves (unlisted : Set H) (pool pool' : TxMemoryPool K P H R) : Prop where
  sound : Sound env T unlisted pool'
  steps : Lists.ListSteps env pool.toLists pool'.toLists

variable {env T} {U : Set H} {pool pool' pool'' : TxMemoryPool K P H R} {id : H}
  {row : PoolRow K P} {tx : Transaction K P} {info : TxMeta} {txRelay : RelayMethod}
  {s : Store K P H}

lemma Sound.evolves (h : Sound env T U pool) : Evolves env T U pool pool :=
  ⟨h, ReflTransGen.refl⟩

lemma Evolves.trans (h : Evolves env T U pool pool') (h' : Evolves env T U pool' pool'') :
    Evolves env T U pool pool'' :=
  ⟨h'.sound, h.steps.trans h'.steps⟩

omit [LinearOrder R] in
lemma updateTxpoolTx_eq (hrow : s.txpool.get? id = some row) (info : TxMeta) :
    s.updateTxpoolTx id info = some { s with txpool := s.txpool.set id ⟨info, row.tx⟩ } := by
  rw [Store.updateTxpoolTx, hrow]
  rfl

section

variable (h : Sound env T U pool)

include h

omit [LinearOrder R] in
lemma Sound.setRow (info : TxMeta)
    (hrow : pool.txpool.get? id = some row) (hok : RowOf env T id ⟨info, row.tx⟩)
    (hkept : row.info.keptByBlock = true → info.keptByBlock = true) {l : Lists H R}
    (hl : l.Tracks (update (sensitivity pool.txpool) id (some !info.broadcasted)) U) :
    Sound env T U { pool with
      toStore := { pool.toStore with txpool := pool.txpool.set id ⟨info, row.tx⟩ }
      toLists := l } := by
  refine ⟨h.table.set hrow hok rfl hkept, h.derived.set hrow rfl ?_, ?_, h.cache⟩
  · exact hok.weight.trans (h.table.rows id row hrow).weight.symm
  · exact (sensitivity_set pool.txpool id ⟨info, row.tx⟩).symm ▸ hl

omit [LinearOrder R] in
lemma Sound.setInfo (hrow : pool.txpool.get? id = some row)
    (hweight : info.weight = row.info.weight) (hpruned : info.pruned = row.info.pruned)
    (hkept : row.info.keptByBlock = true → info.keptByBlock = true)
    (hbroadcasted : info.broadcasted = row.info.broadcasted) :
    Sound env T U { pool with
      toStore := { pool.toStore with txpool := pool.txpool.set id ⟨info, row.tx⟩ } } := by
  have hok := h.table.rows id row hrow
  refine h.setRow info hrow ⟨hok.mem, hok.hash, hok.storable, hweight.trans hok.weight,
    hpruned.trans hok.unpruned⟩ hkept ?_
  rw [Function.update_eq_self_iff.mpr]
  · exact h.lists
  · rw [sensitivity, hrow, hbroadcasted]
    rfl

/-! ## Removing transactions -/

lemma Sound.drop (hrow : pool.txpool.get? id = some row) :
    Evolves env T U pool (pool.drop env id row.info row.tx.vin) ∧
      (pool.drop env id row.info row.tx.vin).txpool = pool.txpool.erase id := by
  obtain ⟨hderived, htxpool⟩ := h.derived.removeTx hrow (h.table.rows id row hrow).storable
  have hlists := h.lists.remove env id (!row.info.broadcasted)
  rw [← sensitivity_erase, ← htxpool] at hlists
  refine ⟨⟨⟨?_, hderived, hlists, h.cache⟩, ReflTransGen.single (.remove id _ ?_ rfl)⟩, htxpool⟩
  · exact htxpool.symm ▸ h.table.erase id
  · apply h.lists.respects
    rw [sensitivity, hrow]
    exact fun hsome ↦ Option.some.inj hsome

omit [LinearOrder R] in
lemma Sound.takeTx (hinj : Set.InjOn env.getTransactionHash T)
    {taken : TakenTx K P} (htake : pool.takeTx env id = some (taken, pool')) :
    ∃ row, pool.txpool.get? id = some row ∧ taken.tx = row.tx ∧
      pool' = pool.drop env id row.info row.tx.vin := by
  rw [TxMemoryPool.takeTx, Option.map_eq_some_iff] at htake
  obtain ⟨row, hrow, heq⟩ := htake
  have htx : (pool.parsedTxCache.get? id).getD row.tx = row.tx := by
    cases hcached : pool.parsedTxCache.get? id with
    | none => rfl
    | some tx =>
      obtain ⟨hmem, hhash⟩ := h.cache id tx hcached
      exact (h.table.rows id row hrow).tx_eq hinj hmem hhash
  rw [htx] at heq
  cases heq
  exact ⟨row, hrow, rfl, rfl⟩

lemma Sound.pruneFrom (bytes : ℕ) (ids : List H) :
    Evolves env T U pool (pool.pruneFrom env bytes ids) ∧
      ∀ x r, (pool.pruneFrom env bytes ids).txpool.get? x = some r →
        pool.txpool.get? x = some r := by
  induction ids generalizing pool with
  | nil => exact ⟨h.evolves, fun _ _ hx ↦ hx⟩
  | cons id ids ih =>
    rw [TxMemoryPool.pruneFrom]
    split_ifs
    · exact ⟨h.evolves, fun _ _ hx ↦ hx⟩
    · cases hrow : pool.txpool.get? id with
      | none => exact ih h
      | some row =>
        simp only
        split_ifs
        · exact ih h
        · obtain ⟨hdrop, htxpool⟩ := h.drop hrow
          obtain ⟨hrest, hsub⟩ := ih hdrop.sound
          refine ⟨hdrop.trans hrest, fun x r hx ↦ ?_⟩
          have hx := hsub x r hx
          rw [htxpool, get?_erase] at hx
          split_ifs at hx
          exact hx

lemma Sound.prune (bytes : ℕ) :
    Evolves env T U pool (pool.prune env bytes) ∧
      ∀ x r, (pool.prune env bytes).txpool.get? x = some r → pool.txpool.get? x = some r :=
  h.pruneFrom _ _

/-! ## Adding transactions -/

lemma Sound.cacheParsed (hmem : tx ∈ T) (hhash : env.getTransactionHash tx = id)
    (keptByBlock : Bool) :
    Evolves env T U pool (pool.cacheParsed id tx keptByBlock) ∧
      (pool.cacheParsed id tx keptByBlock).txpool = pool.txpool ∧
      (pool.cacheParsed id tx keptByBlock).toStore = pool.toStore := by
  rw [TxMemoryPool.cacheParsed]
  split_ifs
  · refine ⟨⟨⟨h.table, h.derived, h.lists, fun x y hx ↦ ?_⟩, ReflTransGen.refl⟩, rfl, rfl⟩
    cases hinsert : pool.parsedTxCache.insert? id tx with
    | none =>
      simp only [hinsert] at hx
      exact h.cache x y hx
    | some cache =>
      simp only [hinsert, Option.getD_some] at hx
      rw [(added_of_insert hinsert).get] at hx
      split_ifs at hx with hxid
      · cases hx
        exact ⟨hmem, hhash.trans hxid.symm⟩
      · exact h.cache x y hx
  · exact ⟨h.evolves, rfl, rfl⟩

/-- The total weight is raised only after `enter`, at the end of `add_tx`. -/
theorem Sound.enter_new (hnone : pool.txpool.get? id = none) (hok : RowOf env T id ⟨info, tx⟩)
    (hone : txRelay ≠ .block → ∀ image ∈ imagesOf tx.vin, pool.toStore.imageSet image ⊆ {id})
    (hkept : info.keptByBlock = false → txRelay ≠ .block) (replace : Bool) :
    ∃ pool', pool.enter env replace id tx info txRelay = (true, pool') ∧
      Evolves env T U pool { pool' with txpoolWeight := pool'.txpoolWeight + info.weight } ∧
      pool'.txpool = pool.txpool.set id ⟨info, tx⟩ ∧
      pool'.txpoolMaxWeight = pool.txpoolMaxWeight := by
  have hnew := fun image (_ : image ∈ imagesOf tx.vin) ↦ h.derived.notMem_imageSet hnone image
  obtain ⟨s', heq, hins⟩ :=
    Store.insertKeyImages_new hok.storable.toKey hok.storable.distinct hnew hone
  have hadded : pool.txpool.Added id ⟨info, tx⟩ (pool.txpool.set id ⟨info, tx⟩) :=
    added_of_insert (insert?_of_none _ hnone)
  have hstore : (if replace then s'.removeTxpoolTx id else s').addTxpoolTx id ⟨info, tx⟩ =
      some { s' with txpool := pool.txpool.set id ⟨info, tx⟩ } := by
    have hinsert : s'.addTxpoolTx id ⟨info, tx⟩ =
        some { s' with txpool := pool.txpool.set id ⟨info, tx⟩ } := by
      rw [Store.addTxpoolTx, hins.txpool, insert?_of_none _ hnone]
      rfl
    have herase : s'.removeTxpoolTx id = s' := by
      rw [Store.removeTxpoolTx, hins.txpool, erase_eq_self hnone, ← hins.txpool]
    rw [herase, ite_self, hinsert]
  refine ⟨{ pool with
    toStore := { s' with txpool := pool.txpool.set id ⟨info, tx⟩ }
    toLists := pool.toLists.addTxToTransientLists env id
      (env.feeRate info.fee (if info.weight = 0 then 1 else info.weight)) info.receiveTime
      (!info.broadcasted) }, ?_, ⟨⟨?_, ?_, ?_, h.cache⟩, ?_⟩, rfl, rfl⟩
  · simp only [enter, heq, hstore]
    rfl
  · apply h.table.insert hadded hok
    intro hfalse x r hx image himage himage'
    -- another transaction with this image would be in the set, which has at most this id
    have hmem : x ∈ pool.toStore.imageSet image :=
      (h.derived.imageSet image x).mpr ⟨r, hx, himage'⟩
    rw [Finset.mem_singleton.mp (hone (hkept hfalse) image himage hmem), hnone] at hx
    cases hx
  · exact h.derived.insert hins hadded
  · exact (sensitivity_of_get hadded.get).symm ▸ h.lists.add env id _ _ _
  · refine ReflTransGen.single (.add id _ _ _ ?_ rfl)
    apply h.lists.respects
    rw [sensitivity, hnone]
    exact fun hsome ↦ by cases hsome

omit [LinearOrder R] in
lemma Sound.insertKeyImages_existing (hrow : pool.txpool.get? id = some row)
    (txRelay : RelayMethod) :
    ∃ inserted, pool.toStore.insertKeyImages id txRelay row.tx.vin = (inserted, pool.toStore) :=
  ⟨_, Prod.ext rfl (Store.insertKeyImages_of_mem (h.derived.mem_imageSet hrow))⟩

lemma Sound.enter_existing_fails (hrow : pool.txpool.get? id = some row) :
    pool.enter env false id row.tx info txRelay = (false, pool) := by
  obtain ⟨inserted, heq⟩ := h.insertKeyImages_existing hrow txRelay
  have hthrows : pool.toStore.addTxpoolTx id ⟨info, row.tx⟩ = none := by
    rw [Store.addTxpoolTx, insert?_eq_none hrow]
    rfl
  simp only [enter, heq]
  cases inserted with
  | false => rfl
  | true =>
    simp [hthrows]

lemma Sound.enter_existing (txRelay : RelayMethod) (hrow : pool.txpool.get? id = some row)
    (hok : RowOf env T id ⟨info, row.tx⟩)
    (hkept : row.info.keptByBlock = true → info.keptByBlock = true)
    (hbroadcasted : row.info.broadcasted = true → info.broadcasted = true) :
    Evolves env T U pool (pool.enter env true id row.tx info txRelay).2 := by
  obtain ⟨inserted, heq⟩ := h.insertKeyImages_existing hrow txRelay
  have hset : (pool.toStore.removeTxpoolTx id).addTxpoolTx id ⟨info, row.tx⟩ =
      some { pool.toStore with txpool := pool.txpool.set id ⟨info, row.tx⟩ } := by
    rw [Store.addTxpoolTx, Store.removeTxpoolTx, insert?_erase]
    rfl
  simp only [enter, heq]
  cases inserted with
  | false => exact h.evolves
  | true =>
    simp only [Bool.not_true, Bool.false_eq_true, if_false, if_true, hset]
    refine ⟨h.setRow info hrow hok hkept (h.lists.add env id _ _ _),
      ReflTransGen.single (.add id _ _ _ ?_ rfl)⟩
    apply h.lists.respects
    rw [sensitivity, hrow]
    intro hsome
    have hshown : row.info.broadcasted = true := by simpa using hsome
    rw [hbroadcasted hshown]
    rfl

end

lemma Evolves.added {txWeight : ℕ} (isNew : Bool) (h : Evolves env T U pool
      (if isNew then { pool' with txpoolWeight := pool'.txpoolWeight + txWeight } else pool'))
    (fee : ℕ) (txRelay : RelayMethod) (impossible : Bool) :
    Evolves env T U pool (pool'.added env txWeight fee txRelay isNew impossible).pool ∧
      ∀ x r, (pool'.added env txWeight fee txRelay isNew impossible).pool.txpool.get? x = some r →
        pool'.txpool.get? x = some r := by
  obtain ⟨hprune, hsub⟩ := h.sound.prune pool'.txpoolMaxWeight
  refine ⟨h.trans hprune, fun x r hx ↦ ?_⟩
  have hx := hsub x r hx
  cases isNew
  · exact hx
  · exact hx

variable (env T) in
/-- A transaction of `T` under its hash and with its weight. -/
structure Admissible (tx : Transaction K P) (id : H) (txWeight : ℕ) : Prop where
  mem : tx ∈ T
  hash : env.getTransactionHash tx = id
  storable : Storable tx
  weight : txWeight = env.getTransactionWeight tx

variable {txWeight receiveTime : ℕ} {relayed : Bool}

omit [LinearOrder K] [LinearOrder H] [LinearOrder R] in
lemma Admissible.rowOf (h : Admissible env T tx id txWeight) (receiveTime : ℕ)
    (relayMethod : RelayMethod) (relayed doubleSpendSeen : Bool) : RowOf env T id
      ⟨newMeta tx txWeight receiveTime relayMethod relayed doubleSpendSeen, tx⟩ :=
  ⟨h.mem, h.hash, h.storable, h.weight, h.storable.unpruned⟩

variable (env T) in
/-- What adding a transaction does: the pool evolves, and a transaction that was
not there is there at most with this relay method. -/
structure AddSpec (U : Set H) (pool : TxMemoryPool K P H R) (id : H) (tx : Transaction K P)
    (txRelay : RelayMethod) (pool' : TxMemoryPool K P H R) : Prop where
  evolves : Evolves env T U pool pool'
  row : pool.txpool.get? id = none → ∀ row, pool'.txpool.get? id = some row →
    row.tx = tx ∧ row.info.relayMethod = txRelay

lemma AddSpec.of_evolves (h : Evolves env T U pool pool') (htxpool : pool'.txpool = pool.txpool)
    (hspec : AddSpec env T U pool' id tx txRelay pool'') :
    AddSpec env T U pool id tx txRelay pool'' :=
  ⟨h.trans hspec.evolves, fun hnone ↦ hspec.row (htxpool ▸ hnone)⟩

lemma AddSpec.of_existing (h : Evolves env T U pool pool')
    (hrow : pool.txpool.get? id = some row) :
    AddSpec env T U pool id tx txRelay pool' := by
  refine ⟨h, fun hnone ↦ ?_⟩
  rw [hnone] at hrow
  cases hrow

omit [LinearOrder R] in
lemma imageSet_subset_of_notSpent {vin : List (TxIn K)}
    (h : s.haveTxKeyimgesAsSpent vin id = false)
    : ∀ image ∈ imagesOf vin, s.imageSet image ⊆ {id} := by
  intro image himage
  obtain ⟨input, hinput, hsome⟩ := mem_filterMap.mp himage
  rw [Store.haveTxKeyimgesAsSpent, any_eq_false] at h
  have hnot := h input hinput
  cases input with
  | toKey amount offsets x =>
    cases hsome
    simp only [Store.haveTxKeyimgAsSpent, Bool.and_eq_true, Bool.or_eq_true, decide_eq_true_eq,
      not_and_or, not_not, not_or] at hnot
    rcases hnot with hempty | ⟨heq, -⟩
    · rw [hempty]
      exact Finset.empty_subset _
    · exact heq.subset
  | gen height => cases hsome
  | toScript => cases hsome
  | toScripthash => cases hsome

omit [LinearOrder H] [LinearOrder R] in
lemma toKey_of_verNonInputConsensus (version : UInt8)
    (h : env.verNonInputConsensus tx version = true) : checkInputsTypesSupported tx = true := by
  by_contra hkeys
  rw [Bool.not_eq_true] at hkeys
  have hfails : (checkTxSemantic env.checks tx version).toBool = false := by
    simp only [checkTxSemantic, hkeys, Bool.not_false, if_true]
    split_ifs <;> rfl
  rw [Env.verNonInputConsensus, hfails, Bool.and_false] at h
  cases h

variable (env T) in
/-- A transaction of `T` under its hash and with its weight.  Its inputs are
known to be of the right kind if the consensus rules are not checked again. -/
structure Addable (tx : Transaction K P) (id : H) (txWeight : ℕ)
    (version nicVerifiedHfVersion : UInt8) : Prop where
  mem : tx ∈ T
  hash : env.getTransactionHash tx = id
  weight : txWeight = env.getTransactionWeight tx
  distinct : (imagesOf tx.vin).Nodup
  unpruned : tx.pruned = false
  toKey : version = nicVerifiedHfVersion → checkInputsTypesSupported tx = true

section

variable (h : Sound env T U pool)

include h

lemma Sound.addSpec_self (id : H) (tx : Transaction K P) (txRelay : RelayMethod) :
    AddSpec env T U pool id tx txRelay pool := by
  refine ⟨h.evolves, fun hnone row hrow ↦ ?_⟩
  rw [hnone] at hrow
  cases hrow

lemma Sound.add_new (hnone : pool.txpool.get? id = none) (hadm : Admissible env T tx id txWeight)
    (hone : txRelay ≠ .block → ∀ image ∈ imagesOf tx.vin, pool.toStore.imageSet image ⊆ {id})
    (replace : Bool) (receiveTime : ℕ) (relayed doubleSpendSeen : Bool) :
    ∃ pool', pool.enter env replace id tx
        (newMeta tx txWeight receiveTime txRelay relayed doubleSpendSeen) txRelay =
        (true, pool') ∧
      ∀ fee impossible, AddSpec env T U pool id tx txRelay
        (pool'.added env txWeight fee txRelay true impossible).pool := by
  obtain ⟨pool', heq, hev, htxpool, -⟩ := h.enter_new hnone
    (hadm.rowOf receiveTime txRelay relayed doubleSpendSeen) hone of_decide_eq_false replace
  refine ⟨pool', heq, fun fee impossible ↦ ?_⟩
  obtain ⟨hadded, hsub⟩ := Evolves.added true hev fee txRelay impossible
  refine ⟨hadded, fun _ row hrow ↦ ?_⟩
  have hrow := hsub id row hrow
  rw [htxpool, get?_set, if_pos rfl] at hrow
  cases hrow
  exact ⟨rfl, rfl⟩

section

variable (hinj : Set.InjOn env.getTransactionHash T) (hadm : Admissible env T tx id txWeight)

include hinj hadm

lemma Sound.addWithWrongInputs :
    AddSpec env T U pool id tx txRelay
      (pool.addWithWrongInputs env tx id txWeight receiveTime txRelay relayed).pool := by
  rw [TxMemoryPool.addWithWrongInputs]
  split_ifs with hblock
  · exact h.addSpec_self id tx txRelay
  · obtain ⟨hev, htxpool, -⟩ := h.cacheParsed hadm.mem hadm.hash true
    apply AddSpec.of_evolves hev htxpool
    cases hrow : (pool.cacheParsed id tx true).txpool.get? id with
    | none =>
      obtain ⟨pool', heq, hspec⟩ := hev.sound.add_new hrow hadm (fun hne ↦ absurd hne hblock) false
        receiveTime relayed (pool.toStore.haveTxKeyimgesAsSpent tx.vin id)
      simp only [heq]
      exact hspec _ _
    | some row =>
      have htx : tx = row.tx := (hev.sound.table.rows id row hrow).tx_eq hinj hadm.mem hadm.hash
      subst htx
      simp only [hev.sound.enter_existing_fails hrow]
      exact hev.sound.addSpec_self id row.tx txRelay

lemma Sound.addWithGoodInputs
    (hone : txRelay ≠ .block → ∀ image ∈ imagesOf tx.vin, pool.toStore.imageSet image ⊆ {id}) :
    AddSpec env T U pool id tx txRelay
      (pool.addWithGoodInputs env tx id txWeight receiveTime txRelay relayed).pool := by
  obtain ⟨hev, htxpool, hstore⟩ := h.cacheParsed hadm.mem hadm.hash (txRelay = .block : Bool)
  apply AddSpec.of_evolves hev htxpool
  rw [TxMemoryPool.addWithGoodInputs]
  rw [← hstore] at hone
  generalize pool.cacheParsed id tx (txRelay = .block : Bool) = cached at hev hone ⊢
  cases hrow : cached.txpool.get? id with
  | none =>
    simp only [Option.isSome_none, Bool.false_and, Bool.false_eq_true, if_false, Option.map_none,
      Option.getD_none, Option.isNone_none, Bool.or_true, if_true, upgrade_none]
    obtain ⟨pool', heq, hspec⟩ := hev.sound.add_new hrow hadm hone true receiveTime relayed false
    simp only [heq]
    exact hspec _ _
  | some row =>
    have htx : tx = row.tx := (hev.sound.table.rows id row hrow).tx_eq hinj hadm.mem hadm.hash
    subst htx
    apply AddSpec.of_existing _ hrow
    simp only [Option.isSome_some, Bool.true_and, Option.map_some, Option.getD_some,
      Option.isNone_some, Bool.or_false]
    generalize (if (decide (txRelay = .stem) && decide (row.info.relayMethod = .stem)) = true then
      RelayMethod.fluff else txRelay) = method
    split_ifs with hupgraded
    · have hentered := hev.sound.enter_existing method hrow
        (hadm.rowOf receiveTime (row.info.relayMethod.upgrade method).1 relayed false)
        (fun hkept ↦ decide_eq_true (upgrade_block method (of_decide_eq_true hkept)))
        (upgrade_broadcasted method)
      rcases heq : cached.enter env true id row.tx (newMeta row.tx txWeight receiveTime
        (row.info.relayMethod.upgrade method).1 relayed false) method with ⟨inserted, pool'⟩
      rw [heq] at hentered
      cases inserted with
      | false => exact hentered
      | true => exact (Evolves.added false hentered _ _ _).1
    · exact (Evolves.added false hev.sound.evolves _ _ _).1

end

omit [LinearOrder R] in
lemma Sound.markTx (x : H) :
    Sound env T U { pool with toStore := pool.toStore.markTx x } ∧
      ∀ id, pool.txpool.get? id = none → (pool.toStore.markTx x).txpool.get? id = none := by
  cases hrow : pool.txpool.get? x with
  | none =>
    have hmark : pool.toStore.markTx x = pool.toStore := by rw [Store.markTx, hrow]
    rw [hmark]
    exact ⟨h, fun _ hnone ↦ hnone⟩
  | some row =>
    have hmark : pool.toStore.markTx x = { pool.toStore with
        txpool := pool.txpool.set x ⟨{ row.info with doubleSpendSeen := true }, row.tx⟩ } := by
      rw [Store.markTx, hrow]
      exact congrArg (Option.getD · pool.toStore) (updateTxpoolTx_eq hrow _)
    rw [hmark]
    refine ⟨h.setInfo hrow rfl rfl (fun hkept ↦ hkept) rfl, fun id hnone ↦ ?_⟩
    rw [get?_set, if_neg, hnone]
    rintro rfl
    rw [hnone] at hrow
    cases hrow

omit [LinearOrder R] in
lemma Sound.foldl_markTx (ids : List H) :
    Sound env T U { pool with toStore := ids.foldl Store.markTx pool.toStore } ∧
      ∀ id, pool.txpool.get? id = none →
        (ids.foldl Store.markTx pool.toStore).txpool.get? id = none := by
  induction ids generalizing pool with
  | nil => exact ⟨h, fun _ hnone ↦ hnone⟩
  | cons x ids ih =>
    obtain ⟨hmark, hnone⟩ := h.markTx x
    obtain ⟨hrest, hnone'⟩ := ih hmark
    exact ⟨hrest, fun id hid ↦ hnone' id (hnone id hid)⟩

lemma Sound.markDoubleSpend (id : H) (tx : Transaction K P) (txRelay : RelayMethod) :
    AddSpec env T U pool id tx txRelay
      { pool with toStore := pool.toStore.markDoubleSpend tx } := by
  rw [Store.markDoubleSpend]
  split_ifs
  · generalize flatMap _ _ = ids
    obtain ⟨hsound, hnone⟩ := h.foldl_markTx ids
    refine ⟨⟨hsound, ReflTransGen.refl⟩, fun hid row hrow ↦ ?_⟩
    rw [hnone id hid] at hrow
    cases hrow
  · exact h.addSpec_self id tx txRelay

lemma Sound.addTx (hinj : Set.InjOn env.getTransactionHash T)
    {version nicVerifiedHfVersion : UInt8}
    (hadd : Addable env T tx id txWeight version nicVerifiedHfVersion) (view : View K P H)
    (txRelay : RelayMethod) (relayed : Bool) : AddSpec env T U pool id tx txRelay
      (pool.addTx env view tx id txWeight txRelay relayed version nicVerifiedHfVersion).pool := by
  simp only [TxMemoryPool.addTx]
  split
  · exact h.addSpec_self id tx txRelay
  split
  · exact h.addSpec_self id tx txRelay
  split
  · exact h.addSpec_self id tx txRelay
  split
  · exact h.addSpec_self id tx txRelay
  split
  · exact h.markDoubleSpend id tx txRelay
  rename_i hspent
  split
  · exact h.addSpec_self id tx txRelay
  rename_i hrules
  have hstorable : Storable tx := by
    refine ⟨?_, hadd.distinct, hadd.unpruned⟩
    by_cases hversion : version = nicVerifiedHfVersion
    · exact hadd.toKey hversion
    · have hpassed : env.verNonInputConsensus tx version = true := by simpa [hversion] using hrules
      exact toKey_of_verNonInputConsensus version hpassed
  have hadm : Admissible env T tx id txWeight := ⟨hadd.mem, hadd.hash, hstorable, hadd.weight⟩
  have htick : Evolves env T U pool { pool with toLists := pool.tick } :=
    ⟨⟨h.table, h.derived, h.lists.tick, h.cache⟩, ReflTransGen.single (.tick rfl)⟩
  apply AddSpec.of_evolves htick rfl
  split
  · apply htick.sound.addWithGoodInputs hinj hadm
    intro hblock
    apply imageSet_subset_of_notSpent
    simpa [hblock] using hspent
  · exact htick.sound.addWithWrongInputs hinj hadm

end

end Monero.Pool
