import Monero.Pool.Evolution

/-!
# The index mirrors the table

Every operation of the pool, `init` and `validate` among them, takes a sound
pool to a sound pool, so in every reachable state the lists, the weight and the
key images are those of the pool table.
-/

namespace Monero.Pool

open Monero.Lib List Table
open TxMemoryPool (new initPass relayedMeta findStuck cleared init)
open Monero.Blockchain (Transaction TxIn checkInputsTypesSupported)

variable {K P H R : Type*} [LinearOrder K] [LinearOrder H] [LinearOrder R] {env : Env K P H R}
  {T : Set (Transaction K P)} {U V : Set H} {pool pool' : TxMemoryPool K P H R} {id : H}
  {version : UInt8}

/-! ## Relaying -/

lemma Sound.setRelayedTx (h : Sound env T U pool) (now : ℕ) (method : RelayMethod) (id : H) :
    Evolves env T U pool (pool.setRelayedTx env now method id).1 := by
  cases hrow : pool.txpool.get? id with
  | none =>
    rw [TxMemoryPool.setRelayedTx, hrow]
    exact h.evolves
  | some row =>
    have hkept : row.info.keptByBlock = true →
        (relayedMeta row.info method).keptByBlock = true :=
      fun hkept ↦ decide_eq_true (upgrade_block method (of_decide_eq_true hkept))
    have hok := h.table.rows id row hrow
    simp only [TxMemoryPool.setRelayedTx, hrow, updateTxpoolTx_eq hrow, Option.getD_some]
    split_ifs with hjust
    · rw [Bool.and_eq_true, Bool.not_eq_true'] at hjust
      refine ⟨h.setRow (relayedMeta row.info method) hrow
        ⟨hok.mem, hok.hash, hok.storable, hok.weight, hok.unpruned⟩ hkept ?_,
        Relation.ReflTransGen.single (.add id _ _ false ?_ rfl)⟩
      · rw [hjust.2]
        exact h.lists.add env id _ _ _
      · exact fun _ _ _ ↦ rfl
    · refine ⟨h.setInfo hrow rfl rfl hkept ?_, Relation.ReflTransGen.refl⟩
      cases hbroadcasted : row.info.broadcasted with
      | false => simpa [hbroadcasted] using hjust
      | true => exact upgrade_broadcasted method hbroadcasted

lemma Sound.setRelayedFrom (h : Sound env T U pool) (now : ℕ) (method : RelayMethod)
    (ids : List H) : Evolves env T U pool (pool.setRelayedFrom env now method ids).1 := by
  induction ids generalizing pool with
  | nil => exact h.evolves
  | cons id ids ih =>
    have hfirst := h.setRelayedTx now method id
    exact hfirst.trans (ih hfirst.sound)

/-! ## Transactions that stay too long -/

omit [LinearOrder K] in
open TxMemoryPool in
lemma findStuck_spec (env : Env K P H R) {l : Lists H R} {m : H → Option Bool} (h : l.Tracks m U)
    {rows : List (H × PoolRow K P)} (hdistinct : (rows.map Prod.fst).Nodup)
    (hrows : ∀ r ∈ rows, m r.1 = some !r.2.info.broadcasted) :
    (findStuck env rows l).1.Tracks (fun x ↦ if x ∈ (findStuck env rows l).2 then none else m x)
    U ∧ Lists.ListSteps env l (findStuck env rows l).1 := by
  induction rows generalizing l m with
  | nil => exact ⟨by simpa [findStuck] using h, Relation.ReflTransGen.refl⟩
  | cons r rows ih =>
    obtain ⟨hnot, hdistinct⟩ := nodup_cons.mp hdistinct
    have htick : Lists.ListSteps env l l.tick := Relation.ReflTransGen.single (.tick rfl)
    rw [findStuck]
    split_ifs
    · have hstep : Lists.ListSteps env l.tick
          (l.tick.removeTxFromTransientLists env r.1 (!r.2.info.broadcasted)) := by
        refine Relation.ReflTransGen.single (.remove r.1 _ (h.tick.respects ?_) rfl)
        rw [hrows r mem_cons_self]
        exact fun hsome ↦ Option.some.inj hsome
      obtain ⟨htracks, hsteps⟩ := ih (h.tick.remove env r.1 (!r.2.info.broadcasted)) hdistinct
        fun r' hr' ↦ by
          rw [Function.update_of_ne, hrows r' (mem_cons_of_mem _ hr')]
          rintro heq
          exact hnot (heq ▸ mem_map_of_mem hr')
      refine ⟨?_, htick.trans (hstep.trans hsteps)⟩
      convert htracks using 2 with x
      by_cases hx : x = r.1
      · simp [hx]
      · simp [hx]
    · obtain ⟨htracks, hsteps⟩ := ih h.tick hdistinct fun r' hr' ↦ hrows r' (mem_cons_of_mem _ hr')
      exact ⟨htracks, htick.trans hsteps⟩

omit [LinearOrder R] in
open TxMemoryPool in
lemma foldl_removeStored {s : Store K P H} (hderived : s.Derived) (hok : TableOk env T s.txpool)
    (ids : List H) : (ids.foldl removeStored s).Derived ∧
      TableOk env T (ids.foldl removeStored s).txpool ∧
      ∀ x, (ids.foldl removeStored s).txpool.get? x =
        if x ∈ ids then none else s.txpool.get? x := by
  induction ids generalizing s with
  | nil => exact ⟨hderived, hok, by simp⟩
  | cons id ids ih =>
    have hfirst :
        (removeStored s id).Derived ∧ (removeStored s id).txpool = s.txpool.erase id := by
      cases hrow : s.txpool.get? id with
      | none =>
        rw [removeStored, hrow, erase_eq_self hrow]
        exact ⟨hderived, rfl⟩
      | some row =>
        rw [removeStored, hrow]
        exact hderived.removeTx hrow (hok.rows id row hrow).storable
    obtain ⟨hderived', hok', hget⟩ := ih hfirst.1 (hfirst.2 ▸ hok.erase id)
    refine ⟨hderived', hok', fun x ↦ ?_⟩
    rw [foldl_cons, hget, hfirst.2, get?_erase]
    by_cases hx : x = id
    · simp [hx]
    · simp [hx]

lemma Sound.removeStuckTransactions (h : Sound env T U pool) :
    Evolves env T U pool (pool.removeStuckTransactions env) := by
  obtain ⟨htracks, hsteps⟩ := findStuck_spec env h.lists pool.txpool.keys_nodup fun r hr ↦ by
    rw [sensitivity, Table.get?_eq_some_iff.mpr hr]
    rfl
  obtain ⟨hderived, hok, hget⟩ := foldl_removeStored h.derived h.table
    (findStuck env pool.txpool.rows pool.toLists).2
  have hsensitivity : sensitivity (pool.removeStuckTransactions env).txpool = fun x ↦
      if x ∈ (findStuck env pool.txpool.rows pool.toLists).2 then none
      else sensitivity pool.txpool x := by
    funext x
    refine (congrArg (Option.map _) (hget x)).trans ?_
    split_ifs <;> rfl
  exact ⟨⟨hok, hderived, hsensitivity ▸ htracks, h.cache⟩, hsteps⟩

/-! ## Validating the pool again -/

omit [LinearOrder R] in
lemma Sound.mono (h : Sound env T U pool)
    (hsub : ∀ id, (pool.txpool.get? id).isSome → id ∈ U → id ∈ V) : Sound env T V pool :=
  ⟨h.table, h.derived, h.lists.mono fun id hid ↦ hsub id (by simpa [sensitivity] using hid),
    h.cache⟩

/-- A default constructed transaction has no inputs and breaks the rules. -/
theorem addTx_nullTransaction (env : Env K P H R) (pool : TxMemoryPool K P H R) (view : View K P H)
    (id : H) (txWeight : ℕ) (txRelay : RelayMethod) (relayed : Bool) (hversion : version ≠ 0) :
    (pool.addTx env view nullTransaction id txWeight txRelay relayed version 0).returnValue =
      false ∧
      (pool.addTx env view nullTransaction id txWeight txRelay relayed version 0).pool = pool := by
  have hrules : env.verNonInputConsensus nullTransaction version = false := by
    rw [Env.verNonInputConsensus]
    exact Bool.and_false _
  have hspent : pool.toStore.haveTxKeyimgesAsSpent (nullTransaction : Transaction K P).vin id =
      false := rfl
  simp only [TxMemoryPool.addTx, hrules, hspent, Bool.and_false, Bool.false_eq_true, if_false,
    hversion, ne_eq, not_false_eq_true, decide_true, Bool.not_false, Bool.and_self, if_true]
  split_ifs <;> exact ⟨rfl, rfl⟩

variable (env T) in
/-- The id and the data of a transaction that was in the pool. -/
def Remembered (e : H × TxMeta) : Prop := ∃ tx, RowOf env T e.1 ⟨e.2, tx⟩

lemma Sound.revalidate (h : Sound env T U pool) (hinj : Set.InjOn env.getTransactionHash T)
    (view : View K P H) (hversion : version ≠ 0) {e : H × TxMeta} (he : Remembered env T e) :
    Evolves env T (U \ {e.1}) pool (pool.revalidate env view version e).1 := by
  have hmono : ∀ {p : TxMemoryPool K P H R}, Sound env T U p → p.txpool.get? e.1 = none →
      Sound env T (U \ {e.1}) p := by
    intro p hp hnone
    refine hp.mono fun id hid hmem ↦ ⟨hmem, ?_⟩
    rintro rfl
    rw [hnone] at hid
    cases hid
  obtain ⟨tx₀, hrow₀⟩ := he
  rw [TxMemoryPool.revalidate]
  cases htake : pool.takeTx env e.1 with
  | none =>
    obtain ⟨hfalse, hpool⟩ := addTx_nullTransaction env pool view e.1 e.2.weight
      e.2.relayMethod false hversion
    simp only [hfalse, hpool, Bool.false_eq_true, if_false]
    exact (hmono h (Option.map_eq_none_iff.mp htake)).evolves
  | some taken =>
    obtain ⟨taken, pool'⟩ := taken
    obtain ⟨row, hrow, htx, rfl⟩ := h.takeTx hinj htake
    obtain ⟨hdrop, htxpool⟩ := h.drop hrow
    have hnone : (pool.drop env e.1 row.info row.tx.vin).txpool.get? e.1 = none := by
      rw [htxpool, get?_erase, if_pos rfl]
    have hok := h.table.rows e.1 row hrow
    have htx₀ : tx₀ = row.tx := hok.tx_eq hinj hrow₀.mem hrow₀.hash
    subst htx₀
    have hadd : Addable env T row.tx e.1 e.2.weight version 0 :=
      ⟨hok.mem, hok.hash, hrow₀.weight, hok.storable.distinct, hok.storable.unpruned,
        fun heq ↦ absurd heq hversion⟩
    have hspec := (hmono hdrop.sound hnone).addTx hinj hadd view e.2.relayMethod taken.relayed
    simp only [htx]
    generalize TxMemoryPool.addTx env view (pool.drop env e.1 row.info row.tx.vin) row.tx e.1
      e.2.weight e.2.relayMethod taken.relayed version 0 = result at hspec ⊢
    have hev : Evolves env T (U \ {e.1}) pool result.pool :=
      ⟨hspec.evolves.sound, hdrop.steps.trans hspec.evolves.steps⟩
    split_ifs
    · cases hrow' : result.pool.txpool.get? e.1 with
      | none =>
        have hthrows : result.pool.toStore.updateTxpoolTx e.1 e.2 = none := by
          rw [Store.updateTxpoolTx, hrow']
          rfl
        simp only [hthrows]
        exact hev
      | some row' =>
        -- the data of the transaction go back to what they were
        obtain ⟨htx', hmethod⟩ := hspec.row hnone row' hrow'
        have hok' := hev.sound.table.rows e.1 row' hrow'
        have hkept : row'.info.keptByBlock = e.2.keptByBlock := by
          rw [TxMeta.keptByBlock, hmethod, TxMeta.keptByBlock]
        have hbroadcasted : e.2.broadcasted = row'.info.broadcasted := by
          rw [TxMeta.broadcasted, ← hmethod, TxMeta.broadcasted]
        simp only [updateTxpoolTx_eq hrow']
        refine ⟨hev.sound.setInfo hrow' ?_ ?_ (fun htrue ↦ hkept ▸ htrue) hbroadcasted, hev.steps⟩
        · rw [hrow₀.weight, hok'.weight, htx']
        · rw [hrow₀.unpruned, hok'.unpruned]
    · exact hev

lemma Sound.revalidateAll (hinj : Set.InjOn env.getTransactionHash T) (view : View K P H)
    (hversion : version ≠ 0) {es : List (H × TxMeta)} (hes : ∀ e ∈ es, Remembered env T e)
    (h : Sound env T { id | id ∈ es.map Prod.fst } pool) :
    Evolves env T ∅ pool (pool.revalidateAll env view version es).1 := by
  induction es generalizing pool with
  | nil => exact (h.mono fun id _ hmem ↦ by cases hmem).evolves
  | cons e es ih =>
    have hfirst := h.revalidate hinj view hversion (hes e mem_cons_self)
    have hrest := ih (fun e' he' ↦ hes e' (mem_cons_of_mem _ he'))
      (hfirst.sound.mono fun id _ hmem ↦ by
        rcases mem_cons.mp hmem.1 with heq | hmem'
        · exact absurd heq hmem.2
        · exact hmem')
    exact ⟨hrest.sound, hfirst.steps.trans hrest.steps⟩

lemma Sound.validate (h : Sound env T ∅ pool) (hinj : Set.InjOn env.getTransactionHash T)
    (view : View K P H) (hversion : version ≠ 0) :
    Evolves env T ∅ pool (pool.validate env view version).1 := by
  have hunpruned : pool.unprunedTxs = pool.txpool.rows.map fun r ↦ (r.1, r.2.info) := by
    rw [TxMemoryPool.unprunedTxs, filter_eq_self.mpr]
    intro r hr
    rw [(h.table.rows r.1 r.2 (Table.get?_eq_some_iff.mpr hr)).unpruned]
    rfl
  have hstart : Sound env T { id | id ∈ pool.unprunedTxs.map Prod.fst }
      { pool with toLists := pool.toLists.throwAwayIncrementalInfo } := by
    refine ⟨h.table, h.derived, h.lists.throwAway.mono fun id hid _ ↦ ?_, h.cache⟩
    rw [sensitivity, Option.isSome_map, ← mem_keys_iff] at hid
    rw [Set.mem_ofPred_eq, hunpruned, map_map]
    exact hid
  have hes : ∀ e ∈ pool.unprunedTxs, Remembered env T e := by
    rw [hunpruned]
    intro e he
    obtain ⟨r, hr, rfl⟩ := mem_map.mp he
    exact ⟨r.2.tx, h.table.rows r.1 r.2 (Table.get?_eq_some_iff.mpr hr)⟩
  have hrest := Sound.revalidateAll hinj view hversion hes hstart
  exact ⟨hrest.sound, .head (.throwAway _ rfl) hrest.steps⟩

/-! ## Reading the table again -/

variable (env) in
/-- During `init` the key images, the weight and the lists are those of the
rows read so far, which make up the table `t`. -/
structure Rebuilt (t : Table H (PoolRow K P)) (pool pool' : TxMemoryPool K P H R) : Prop where
  derived : Store.Derived { pool'.toStore with txpool := t }
  lists : pool'.toLists.Tracks (sensitivity t) ∅
  steps : Lists.ListSteps env pool.toLists pool'.toLists
  txpool : pool'.txpool = pool.txpool
  parsedTxCache : pool'.parsedTxCache = pool.parsedTxCache

variable {t table : Table H (PoolRow K P)} {row : PoolRow K P}

lemma Rebuilt.step (h : Rebuilt env t pool pool') (htable : TableOk env T table)
    (hsub : ∀ x r, t.get? x = some r → table.get? x = some r) (hrow : table.get? id = some row)
    (hnone : t.get? id = none)
    (hkept : row.info.keptByBlock = false →
      ∀ x r, t.get? x = some r → r.info.keptByBlock = false) :
    ∃ s', pool'.toStore.insertKeyImages id row.info.relayMethod row.tx.vin = (true, s') ∧
      Rebuilt env (t.set id row) pool { pool' with
        toStore := { s' with txpoolWeight := s'.txpoolWeight + row.info.weight }
        toLists := pool'.toLists.addTxToTransientLists env id
          (env.feeRate row.info.fee row.info.weight) row.info.receiveTime
          (!row.info.broadcasted) } := by
  have hstorable := (htable.rows id row hrow).storable
  have hone : row.info.relayMethod ≠ .block →
      ∀ image ∈ imagesOf row.tx.vin, pool'.toStore.imageSet image ⊆ {id} := by
    intro hblock image himage x hx
    have hfalse : row.info.keptByBlock = false := decide_eq_false hblock
    obtain ⟨r, hr, himage'⟩ := (h.derived.imageSet image x).mp hx
    exact Finset.mem_singleton.mpr (htable.exclusive x r id row (hsub x r hr) hrow
      (hkept hfalse x r hr) hfalse image himage' himage)
  obtain ⟨s', heq, hins⟩ := Store.insertKeyImages_new (s := pool'.toStore) hstorable.toKey
    hstorable.distinct (fun image _ ↦ h.derived.notMem_imageSet hnone image) hone
  have hadded : t.Added id row (t.set id row) :=
    added_of_insert (insert?_of_none _ hnone)
  have hins' : Store.Inserted id (imagesOf row.tx.vin) { pool'.toStore with txpool := t }
      { s' with txpool := t } := ⟨rfl, hins.txpoolWeight, hins.imageSet, hins.noEmptySet⟩
  have hderived := h.derived.insert hins' hadded
  refine ⟨s', heq, hderived, ?_, ?_, hins.txpool.trans h.txpool, h.parsedTxCache⟩
  · rw [sensitivity_set]
    exact h.lists.add env id _ _ _
  · refine h.steps.tail (.add id _ _ _ ?_ rfl)
    apply h.lists.respects
    rw [sensitivity, hnone]
    exact fun hsome ↦ by cases hsome

/-- The rows of one pass. -/
abbrev passRows (rows : List (H × PoolRow K P)) (kept : Bool) : List (H × PoolRow K P) :=
  rows.filter (·.2.info.keptByBlock = kept)

lemma initPass_passRows (kept : Bool) (rows : List (H × PoolRow K P)) :
    pool.initPass env kept rows = pool.initPass env kept (passRows rows kept) := by
  induction rows generalizing pool with
  | nil => rfl
  | cons r rows ih =>
    rw [initPass]
    by_cases hpass : r.2.info.keptByBlock = kept
    · rw [passRows, filter_cons_of_pos (by simpa using hpass), initPass]
      simp only [ih]
    · rw [if_pos hpass, passRows, filter_cons_of_neg (by simpa using hpass), ih]

lemma Rebuilt.initPass (htable : TableOk env T table) {kept : Bool}
    {seen rows : List (H × PoolRow K P)} (h : Rebuilt env t pool pool')
    (hdistinct : ((seen ++ rows).map Prod.fst).Nodup)
    (hrows : ∀ r ∈ seen ++ rows, table.get? r.1 = some r.2)
    (hpass : ∀ r ∈ rows, r.2.info.keptByBlock = kept)
    (hkept : kept = false → ∀ r ∈ seen, r.2.info.keptByBlock = false)
    (hseen : ∀ x r, t.get? x = some r ↔ (x, r) ∈ seen) :
    ∃ t' pool'', pool'.initPass env kept rows = (true, pool'') ∧ Rebuilt env t' pool pool'' ∧
      ∀ x r, t'.get? x = some r ↔ (x, r) ∈ seen ++ rows := by
  induction rows generalizing seen t pool' with
  | nil => exact ⟨t, pool', rfl, h, by simpa using hseen⟩
  | cons r rows ih =>
    obtain ⟨hr, hpass⟩ := forall_mem_cons.mp hpass
    have hfresh : t.get? r.1 = none := by
      refine Option.eq_none_iff_forall_ne_some.mpr fun r' hr' ↦ ?_
      rw [map_append, map_cons, nodup_middle, nodup_cons] at hdistinct
      exact hdistinct.1 (mem_append_left _ (mem_map.mpr ⟨_, (hseen r.1 r').mp hr', rfl⟩))
    obtain ⟨s', heq, hstep⟩ := h.step htable
      (fun x r' hx ↦ hrows _ (mem_append_left _ ((hseen x r').mp hx))) (hrows r (by simp)) hfresh
      fun hfalse x r' hx ↦ hkept (hr.symm.trans hfalse) _ ((hseen x r').mp hx)
    rw [append_cons] at hdistinct hrows ⊢
    obtain ⟨t', pool'', heq', hrebuilt⟩ := ih hstep hdistinct hrows hpass
      (fun hfalse ↦ forall_mem_append.mpr
        ⟨hkept hfalse, forall_mem_singleton.mpr (hr.trans hfalse)⟩)
      fun x r' ↦ by
        rw [get?_set, mem_append, ← hseen]
        by_cases hx : x = r.1
        · simp [hx, hfresh, Prod.ext_iff, eq_comm]
        · simp [hx, Prod.ext_iff]
    refine ⟨t', pool'', ?_, hrebuilt⟩
    simp only [initPass, hr, ne_eq, not_true_eq_false, if_false, heq]
    exact heq'

lemma init_spec (pool : TxMemoryPool K P H R) (htable : TableOk env T pool.txpool)
    (hcache : ∀ id tx, pool.parsedTxCache.get? id = some tx →
      tx ∈ T ∧ env.getTransactionHash tx = id) (maxTxpoolWeight : ℕ) :
    (pool.init env maxTxpoolWeight).1 = true ∧
      Evolves env T ∅ pool (pool.init env maxTxpoolWeight).2 := by
  have hpass (kept : Bool) : ∀ r ∈ passRows pool.txpool.rows kept, r.2.info.keptByBlock = kept :=
    fun r hr ↦ of_decide_eq_true (mem_filter.mp hr).2
  have hperm : (passRows pool.txpool.rows false ++ passRows pool.txpool.rows true).Perm
      pool.txpool.rows := by
    have hkept : passRows pool.txpool.rows true =
        pool.txpool.rows.filter fun r ↦ !decide (r.2.info.keptByBlock = false) :=
      filter_congr fun r _ ↦ by simp
    rw [hkept]
    exact filter_append_perm _ _
  have hdistinct := (hperm.map Prod.fst).nodup_iff.mpr pool.txpool.keys_nodup
  have hrows : ∀ r ∈ passRows pool.txpool.rows false ++ passRows pool.txpool.rows true,
      pool.txpool.get? r.1 = some r.2 :=
    fun r hr ↦ Table.get?_eq_some_iff.mpr (hperm.mem_iff.mp hr)
  have hstart : Rebuilt env empty pool (pool.cleared maxTxpoolWeight) := by
    refine ⟨⟨rfl, by simp [Store.imageSet, cleared], ?_⟩,
      Lists.tracks_cleared pool.toLists, .single (.throwAway [] rfl), rfl, rfl⟩
    intro image
    simp [cleared]
  obtain ⟨t₀, pool₀, heq₀, hrebuilt₀, hiff₀⟩ := hstart.initPass htable
    (hdistinct.sublist ((sublist_append_left _ _).map _))
    (fun r hr ↦ hrows r (mem_append_left _ hr)) (hpass false) (by simp)
    (by simp : ∀ x r, _ ↔ (x, r) ∈ [])
  obtain ⟨t₁, pool₁, heq₁, hrebuilt₁, hiff₁⟩ := hrebuilt₀.initPass htable hdistinct hrows
    (hpass true) (fun _ ↦ hpass false) hiff₀
  have ht₁ : t₁ = pool.txpool := by
    refine ext_get fun x ↦ Option.ext fun r ↦ ?_
    rw [hiff₁, hperm.mem_iff, get?_eq_some_iff]
  have hinit : pool.init env maxTxpoolWeight = (true, pool₁) := by
    rw [init, initPass_passRows, heq₀]
    exact (initPass_passRows _ _).trans heq₁
  rw [hinit]
  subst ht₁
  refine ⟨rfl, ⟨hrebuilt₁.txpool ▸ htable, ?_, hrebuilt₁.txpool ▸ hrebuilt₁.lists,
    hrebuilt₁.parsedTxCache ▸ hcache⟩, hrebuilt₁.steps⟩
  have hderived := hrebuilt₁.derived
  rw [← hrebuilt₁.txpool] at hderived
  exact hderived

/-! ## Runs -/

def Operation.tx? : Operation K P H → Option (Transaction K P)
  | .addTx _ tx _ _ _ _ => some tx
  | _ => none

/-- Added transactions are not pruned, have distinct key images and, if the
consensus rules are not checked again, inputs of the right kind.  There is no
hard fork version zero. -/
def Operation.WellFormed : Operation K P H → Prop
  | .addTx _ tx _ _ version nicVerifiedHfVersion => tx.pruned = false ∧ (imagesOf tx.vin).Nodup ∧
      (version = nicVerifiedHfVersion → checkInputsTypesSupported tx = true)
  | .validate _ version => version ≠ 0
  | _ => True

omit [LinearOrder R] in
lemma sound_new (env : Env K P H R) (T : Set (Transaction K P)) :
    Sound env T ∅ (new empty) := by
  refine ⟨TableOk.empty, ⟨rfl, ?_, ?_⟩, ⟨nodup_nil, ?_, ?_, ?_⟩, ?_⟩ <;>
    simp [new, Store.imageSet, Store.NoEmptySet, sensitivity, Lists.sortedIds]

section

variable (h : Sound env T ∅ pool) (hinj : Set.InjOn env.getTransactionHash T)

include h hinj

lemma Sound.step {op : Operation K P H} (hop : op.WellFormed) (htx : ∀ tx ∈ op.tx?, tx ∈ T) :
    Evolves env T ∅ pool (step env pool op) := by
  cases op with
  | init maxTxpoolWeight => exact (init_spec pool h.table h.cache maxTxpoolWeight).2
  | restart maxTxpoolWeight =>
    let fresh : TxMemoryPool K P H R :=
      { new pool.txpool with readings := pool.readings }
    have hinit : Evolves env T ∅ fresh (fresh.init env maxTxpoolWeight).2 :=
      (init_spec fresh h.table (fun id tx htx ↦ by cases htx) maxTxpoolWeight).2
    exact ⟨hinit.sound, .head (.throwAway [] rfl) hinit.steps⟩
  | addTx view tx txRelay relayed version nicVerifiedHfVersion =>
    obtain ⟨hunpruned, hdistinct, hkeys⟩ := hop
    exact (h.addTx hinj ⟨htx tx rfl, rfl, rfl, hdistinct, hunpruned, hkeys⟩ view txRelay
      relayed).evolves
  | takeTx id =>
    rw [Pool.step]
    cases htake : pool.takeTx env id with
    | none => exact h.evolves
    | some taken =>
      obtain ⟨row, hrow, -, heq⟩ := h.takeTx hinj htake
      rw [Option.map_some, Option.getD_some, heq]
      exact (h.drop hrow).1
  | removeStuckTransactions => exact h.removeStuckTransactions
  | prune bytes => exact (h.prune bytes).1
  | setRelayed ids method =>
    have htick : Evolves env T ∅ pool { pool with toLists := pool.tick } :=
      ⟨⟨h.table, h.derived, h.lists.tick, h.cache⟩, .single (.tick rfl)⟩
    exact htick.trans (htick.sound.setRelayedFrom _ method ids)
  | validate view version => exact h.validate hinj view hop
  | onBlockchainInc =>
    exact ⟨⟨h.table, h.derived, h.lists, fun id tx htx ↦ by cases htx⟩, .refl⟩
  | onBlockchainDec =>
    exact ⟨⟨h.table, h.derived, h.lists, fun id tx htx ↦ by cases htx⟩, .refl⟩

lemma Sound.run {ops : List (Operation K P H)} (hops : ∀ op ∈ ops, op.WellFormed)
    (htxs : ∀ tx ∈ ops.filterMap Operation.tx?, tx ∈ T) :
    Evolves env T ∅ pool (run env ops pool) := by
  induction ops generalizing pool with
  | nil => exact h.evolves
  | cons op ops ih =>
    have hfirst := h.step hinj (hops op mem_cons_self) fun tx htx ↦
      htxs tx (mem_filterMap.mpr ⟨op, mem_cons_self, htx⟩)
    refine hfirst.trans (ih hfirst.sound (fun op' hop' ↦ hops op' (mem_cons_of_mem _ hop')) ?_)
    intro tx htx
    obtain ⟨op', hop', heq⟩ := mem_filterMap.mp htx
    exact htxs tx (mem_filterMap.mpr ⟨op', mem_cons_of_mem _ hop', heq⟩)

end

/-- The ids in the order by fee, in the map of added transactions and in the
table are the same, each once; the weight is that of the rows; and each key
image that occurs has the ids of the transactions that spend it. -/
structure Mirrors (pool : TxMemoryPool K P H R) : Prop where
  sorted : pool.sortedIds.Perm pool.txpool.keys
  added : pool.addedTxsById.keys = pool.txpool.keys
  weight : pool.txpoolWeight = (pool.txpool.rows.map fun r ↦ r.2.info.weight).sum
  spent : ∀ image ids, pool.spentKeyImages.get? image = some ids → ids ≠ ∅ ∧
    ∀ id, id ∈ ids ↔ ∃ row, pool.txpool.get? id = some row ∧ image ∈ imagesOf row.tx.vin
  unspent : ∀ image, pool.spentKeyImages.get? image = none →
    ∀ id row, pool.txpool.get? id = some row → image ∉ imagesOf row.tx.vin

omit [LinearOrder R] in
lemma Sound.mirrors (h : Sound env T ∅ pool) : Mirrors pool := by
  refine ⟨?_, ?_, h.derived.weight, fun image ids hids ↦ ⟨?_, fun id ↦ ?_⟩, ?_⟩
  · rw [perm_ext_iff_of_nodup h.lists.nodup pool.txpool.keys_nodup]
    intro id
    rw [h.lists.sorted, mem_keys_iff, sensitivity, Option.isSome_map]
  · apply keys_eq_of_isSome
    intro id
    constructor
    · intro hsome
      obtain ⟨info, hinfo⟩ := Option.isSome_iff_exists.mp hsome
      have hrow := h.lists.added id info hinfo
      rw [sensitivity, Option.map_eq_some_iff] at hrow
      obtain ⟨row, hrow, -⟩ := hrow
      rw [hrow]
      rfl
    · intro hsome
      by_contra hnone
      exact h.lists.listed id (by simpa [sensitivity] using hsome) (by simpa using hnone)
  · rintro rfl
    exact h.derived.noEmptySet image hids
  · rw [← h.derived.imageSet, Store.imageSet, hids]
    rfl
  · intro image hnone id row hrow himage
    have hmem := h.derived.mem_imageSet hrow image himage
    rw [Store.imageSet, hnone] at hmem
    cases hmem

/-- Every outside check passes, a transaction has its fee as its hash, and the
clock advances with every reading. -/
def trustingEnv : Env ℕ Unit ℕ ℕ where
  getTransactionHash := fun tx ↦ tx.txnFee
  getTransactionWeight := fun _ ↦ 100
  extraSize := fun _ ↦ 0
  feeRate := fun fee _ ↦ fee
  time := fun n ↦ 1000 + n
  checks := ⟨fun _ ↦ true, fun _ ↦ true, fun _ _ ↦ 0, fun _ _ ↦ true⟩
  verOtherRules := fun _ _ ↦ true

def trustingView : View ℕ Unit ℕ := ⟨fun _ _ ↦ true, fun _ _ _ ↦ true⟩

def spendingTx (id image : ℕ) : Transaction ℕ Unit :=
  ⟨2, 0, [.toKey 0 [1] image], [], [], .bulletproofPlus, [], id, false⟩

/-- Two transactions that spend the image 1, the second kept for a block, and
one that is relayed and later taken. -/
def mixedOperations : List (Operation ℕ Unit ℕ) :=
  [.init 0, .addTx trustingView (spendingTx 7 1) .stem false 16 0, .validate trustingView 16,
    .addTx trustingView (spendingTx 8 1) .block true 16 16,
    .addTx trustingView (spendingTx 9 2) .localOnly false 16 0, .setRelayed [9] .fluff,
    .addTx trustingView (spendingTx 7 1) .fluff false 16 0, .onBlockchainInc,
    .restart 1000000, .takeTx 9, .removeStuckTransactions, .prune 0]

end Monero.Pool
