import Monero.Pool.Model

/-!
# The pool table and the key images

What is kept in memory about the rows of the pool table: their total weight
and, for each key image, the ids of the transactions that spend it.  `Derived`
says that both are what the table determines; adding, removing and updating a
row keep it so.
-/

namespace Monero.Pool

open Monero.Lib List Table
open Monero.Blockchain (Transaction TxIn checkInputsTypesSupported)

variable {K P H R : Type*}

def imagesOf (vin : List (TxIn K)) : List K := vin.filterMap TxIn.keyImage?

structure Storable (tx : Transaction K P) : Prop where
  toKey : checkInputsTypesSupported tx = true
  distinct : (imagesOf tx.vin).Nodup
  unpruned : tx.pruned = false

@[simp] lemma imagesOf_nil : imagesOf ([] : List (TxIn K)) = [] := rfl

@[simp] lemma imagesOf_toKey (amount : ℕ) (offsets : List UInt64) (image : K)
    (vin : List (TxIn K)) :
    imagesOf (.toKey amount offsets image :: vin) = image :: imagesOf vin := rfl

lemma toKey_induction {motive : (vin : List (TxIn K)) → vin.all TxIn.isToKey = true → Prop}
    (nil : motive [] rfl) (toKey : ∀ amount offsets image vin h, motive vin h →
      motive (.toKey amount offsets image :: vin) (by simpa [TxIn.isToKey] using h))
    (vin : List (TxIn K)) (h : vin.all TxIn.isToKey = true) : motive vin h := by
  induction vin with
  | nil => exact nil
  | cons input vin ih =>
    have hboth := h
    rw [all_cons, Bool.and_eq_true] at hboth
    cases input with
    | toKey amount offsets image => exact toKey amount offsets image vin hboth.2 (ih hboth.2)
    | gen height => cases hboth.1
    | toScript => cases hboth.1
    | toScripthash => cases hboth.1

/-! ## The rows -/

variable (env : Env K P H R) (T : Set (Transaction K P))

/-- A row for a transaction of `T`, under its hash and with its weight. -/
structure RowOf (id : H) (row : PoolRow K P) : Prop where
  mem : row.tx ∈ T
  hash : env.getTransactionHash row.tx = id
  storable : Storable row.tx
  weight : row.info.weight = env.getTransactionWeight row.tx
  unpruned : row.info.pruned = false

variable {env T} in
lemma RowOf.tx_eq (hinj : Set.InjOn env.getTransactionHash T) {id : H} {row : PoolRow K P}
    {tx : Transaction K P} (h : RowOf env T id row) (hmem : tx ∈ T)
    (hhash : env.getTransactionHash tx = id) :
    tx = row.tx :=
  hinj hmem h.mem (hhash.trans h.hash.symm)

section Table

variable [LinearOrder H]

/-- Two transactions that share a key image are there only when a block has
brought at least one of them. -/
structure TableOk (t : Table H (PoolRow K P)) : Prop where
  rows : ∀ id row, t.get? id = some row → RowOf env T id row
  exclusive : ∀ id row id' row', t.get? id = some row → t.get? id' = some row' →
    row.info.keptByBlock = false → row'.info.keptByBlock = false →
    ∀ image ∈ imagesOf row.tx.vin, image ∈ imagesOf row'.tx.vin → id = id'

variable {env T} {t : Table H (PoolRow K P)} {id : H} {row row' : PoolRow K P}

lemma TableOk.empty : TableOk env T (empty : Table H (PoolRow K P)) := by
  constructor <;> simp

lemma TableOk.erase (h : TableOk env T t) (id : H) : TableOk env T (t.erase id) := by
  have hsub : ∀ x r, (t.erase id).get? x = some r → t.get? x = some r := by
    intro x r
    rw [get?_erase]
    split_ifs
    · simp
    · exact fun h ↦ h
  exact ⟨fun x r hx ↦ h.rows x r (hsub x r hx), fun x r x' r' hx hx' ↦
    h.exclusive x r x' r' (hsub x r hx) (hsub x' r' hx')⟩

/-- Replacing a row by one of the same transaction that a block has brought if
it had brought the old one. -/
theorem TableOk.set (h : TableOk env T t) (hrow : t.get? id = some row) (hok : RowOf env T id row')
    (htx : row'.tx = row.tx) (hkept : row.info.keptByBlock = true → row'.info.keptByBlock = true) :
    TableOk env T (t.set id row') := by
  -- every row has a counterpart in the old table, with the same images
  have hold : ∀ x r, (t.set id row').get? x = some r → ∃ r₀, t.get? x = some r₀ ∧
      imagesOf r₀.tx.vin = imagesOf r.tx.vin ∧
      (r.info.keptByBlock = false → r₀.info.keptByBlock = false) := by
    intro x r hx
    rw [get?_set] at hx
    split_ifs at hx with hxid
    · cases hx
      refine ⟨row, hxid ▸ hrow, by rw [htx], fun hfalse ↦ ?_⟩
      rw [← Bool.not_eq_true] at hfalse ⊢
      exact fun htrue ↦ hfalse (hkept htrue)
    · exact ⟨r, hx, rfl, fun h ↦ h⟩
  constructor
  · intro x r hx
    rw [get?_set] at hx
    split_ifs at hx with hxid
    · cases hx
      exact hxid ▸ hok
    · exact h.rows x r hx
  · intro x r x' r' hx hx' hfalse hfalse' image himage himage'
    obtain ⟨r₀, hr₀, himages, hkept₀⟩ := hold x r hx
    obtain ⟨r₀', hr₀', himages', hkept₀'⟩ := hold x' r' hx'
    exact h.exclusive x r₀ x' r₀' hr₀ hr₀' (hkept₀ hfalse) (hkept₀' hfalse') image
      (himages ▸ himage) (himages' ▸ himage')

lemma TableOk.insert (h : TableOk env T t) {t' : Table H (PoolRow K P)}
    (hadded : t.Added id row t')
    (hok : RowOf env T id row) (hfree : row.info.keptByBlock = false → ∀ x r, t.get? x = some r →
      ∀ image ∈ imagesOf row.tx.vin, image ∉ imagesOf r.tx.vin) : TableOk env T t' := by
  constructor
  · intro x r hx
    rw [hadded.get] at hx
    split_ifs at hx with hxid
    · cases hx
      exact hxid ▸ hok
    · exact h.rows x r hx
  · intro x r x' r' hx hx' hfalse hfalse' image himage himage'
    rw [hadded.get] at hx hx'
    split_ifs at hx hx' with hxid hxid' hxid'
    · exact hxid.trans hxid'.symm
    · cases hx
      exact absurd himage' (hfree hfalse x' r' hx' image himage)
    · cases hx'
      exact absurd himage (hfree hfalse' x r hx image himage')
    · exact h.exclusive x r x' r' hx hx' hfalse hfalse' image himage himage'

end Table

variable [LinearOrder K] [LinearOrder H]

namespace Store

variable {s s' : Store K P H} {id : H} {image : K} {txRelay : RelayMethod} {vin : List (TxIn K)}

def NoEmptySet (s : Store K P H) : Prop := ∀ image, s.spentKeyImages.get? image ≠ some ∅

lemma imageSet_setImage (image x : K) (ids : Finset H) :
    (s.setImage image ids).imageSet x = if x = image then ids else s.imageSet x := by
  rw [imageSet, setImage, get?_set]
  split_ifs <;> rfl

lemma NoEmptySet.setImage (h : s.NoEmptySet) {ids : Finset H} (hids : ids ≠ ∅) :
    (s.setImage image ids).NoEmptySet := by
  intro x
  rw [Store.setImage, get?_set]
  split_ifs with hx
  · simpa using hids
  · exact h x

lemma setImage_self (h : id ∈ s.imageSet image) : s.setImage image (s.imageSet image) = s := by
  have hget : s.spentKeyImages.get? image = some (s.imageSet image) := by
    cases hget : s.spentKeyImages.get? image with
    | none => simp [imageSet, hget] at h
    | some ids => simp [imageSet, hget]
  rw [setImage, set_eq_self hget]

/-! ## Inserting key images -/

/-- `s'` is `s` after `id` was put into the sets of all `images`. -/
structure Inserted (id : H) (images : List K) (s s' : Store K P H) : Prop where
  txpool : s'.txpool = s.txpool
  txpoolWeight : s'.txpoolWeight = s.txpoolWeight
  imageSet : ∀ x, s'.imageSet x = if x ∈ images then insert id (s.imageSet x) else s.imageSet x
  noEmptySet : s.NoEmptySet → s'.NoEmptySet

lemma insertKeyImages_new (hkeys : vin.all TxIn.isToKey = true) (hdistinct : (imagesOf vin).Nodup)
    (hnew : ∀ image ∈ imagesOf vin, id ∉ s.imageSet image)
    (hone : txRelay ≠ .block → ∀ image ∈ imagesOf vin, s.imageSet image ⊆ {id}) :
    ∃ s', insertKeyImages id txRelay vin s = (true, s') ∧ Inserted id (imagesOf vin) s s' := by
  induction vin, hkeys using toKey_induction generalizing s with
  | nil => exact ⟨s, rfl, rfl, rfl, by simp, fun h ↦ h⟩
  | toKey amount offsets image vin _ ih =>
    rw [imagesOf_toKey] at hdistinct hnew hone
    obtain ⟨hnot, hdistinct⟩ := nodup_cons.mp hdistinct
    have hother : ∀ x ∈ imagesOf vin, (s.setImage image (insert id (s.imageSet image))).imageSet x
        = s.imageSet x := by
      intro x hx
      rw [imageSet_setImage, if_neg]
      rintro rfl
      exact hnot hx
    obtain ⟨s', heq, hins⟩ := ih (s := s.setImage image (insert id (s.imageSet image))) hdistinct
      (fun x hx ↦ by
        rw [hother x hx]
        exact hnew x (mem_cons_of_mem _ hx))
      (fun hblock x hx ↦ by
        rw [hother x hx]
        exact hone hblock x (mem_cons_of_mem _ hx))
    refine ⟨s', ?_, hins.txpool, hins.txpoolWeight, fun x ↦ ?_, fun h ↦ ?_⟩
    · rw [insertKeyImages, if_neg, if_neg, heq]
      · exact fun h ↦ hnew image mem_cons_self h.1
      · exact fun h ↦ h.2 (hone h.1 image mem_cons_self)
    · rw [hins.imageSet, imageSet_setImage, imagesOf_toKey]
      by_cases hx : x = image
      · subst hx
        simp [hnot]
      · simp [hx]
    · exact hins.noEmptySet (h.setImage (Finset.insert_ne_empty _ _))

lemma insertKeyImages_of_mem (h : ∀ image ∈ imagesOf vin, id ∈ s.imageSet image) :
    (insertKeyImages id txRelay vin s).2 = s := by
  induction vin with
  | nil => rfl
  | cons input vin ih =>
    cases input with
    | toKey amount offsets image =>
      have hmem : id ∈ s.imageSet image := h image mem_cons_self
      rw [insertKeyImages, Finset.insert_eq_self.mpr hmem, setImage_self hmem]
      split_ifs
      · rfl
      · rfl
      · exact ih fun x hx ↦ h x (mem_cons_of_mem _ hx)
    | gen height => rfl
    | toScript => rfl
    | toScripthash => rfl

/-! ## Removing key images -/

/-- `s'` is `s` after `id` was taken out of the sets of all `images`. -/
structure Erased (id : H) (images : List K) (s s' : Store K P H) : Prop where
  txpool : s'.txpool = s.txpool
  txpoolWeight : s'.txpoolWeight = s.txpoolWeight
  imageSet : ∀ x, s'.imageSet x = if x ∈ images then (s.imageSet x).erase id else s.imageSet x
  noEmptySet : s.NoEmptySet → s'.NoEmptySet

/-- The store after one round of `remove_transaction_keyimages`. -/
def eraseFromImage (s : Store K P H) (id : H) (image : K) : Store K P H :=
  if (s.imageSet image).erase id = ∅ then
    { s with spentKeyImages := s.spentKeyImages.erase image }
  else s.setImage image ((s.imageSet image).erase id)

lemma imageSet_eraseFromImage (image x : K) : (s.eraseFromImage id image).imageSet x =
    if x = image then (s.imageSet image).erase id else s.imageSet x := by
  rw [eraseFromImage]
  split_ifs with hempty hx hx
  · rw [imageSet, get?_erase, if_pos hx, hempty]
    rfl
  · rw [imageSet, get?_erase, if_neg hx]
    rfl
  · rw [imageSet_setImage, if_pos hx]
  · rw [imageSet_setImage, if_neg hx]

lemma NoEmptySet.eraseFromImage (h : s.NoEmptySet) : (s.eraseFromImage id image).NoEmptySet := by
  rw [Store.eraseFromImage]
  split_ifs with hempty
  · intro x
    change (s.spentKeyImages.erase image).get? x ≠ some ∅
    rw [get?_erase]
    split_ifs
    · simp
    · exact h x
  · exact h.setImage hempty

lemma removeTransactionKeyimages_toKey (h : id ∈ s.imageSet image) (amount : ℕ)
    (offsets : List UInt64) (vin : List (TxIn K)) :
    removeTransactionKeyimages id (.toKey amount offsets image :: vin) s =
      removeTransactionKeyimages id vin (s.eraseFromImage id image) := by
  cases hget : s.spentKeyImages.get? image with
  | none => simp [imageSet, hget] at h
  | some ids =>
    have hset : s.imageSet image = ids := by simp [imageSet, hget]
    rw [removeTransactionKeyimages, hget, eraseFromImage, hset]
    rw [hset] at h
    simp [h]

lemma removeTransactionKeyimages_spec (hkeys : vin.all TxIn.isToKey = true)
    (hdistinct : (imagesOf vin).Nodup) (hmem : ∀ image ∈ imagesOf vin, id ∈ s.imageSet image) :
    Erased id (imagesOf vin) s (removeTransactionKeyimages id vin s) := by
  induction vin, hkeys using toKey_induction generalizing s with
  | nil => exact ⟨rfl, rfl, by simp [removeTransactionKeyimages], fun h ↦ h⟩
  | toKey amount offsets image vin _ ih =>
    rw [imagesOf_toKey] at hdistinct hmem
    obtain ⟨hnot, hdistinct⟩ := nodup_cons.mp hdistinct
    have herased := ih (s := s.eraseFromImage id image) hdistinct fun x hx ↦ by
      rw [imageSet_eraseFromImage, if_neg]
      · exact hmem x (mem_cons_of_mem _ hx)
      · rintro rfl
        exact hnot hx
    rw [removeTransactionKeyimages_toKey (hmem image mem_cons_self)]
    have hframe : (s.eraseFromImage id image).txpool = s.txpool ∧
        (s.eraseFromImage id image).txpoolWeight = s.txpoolWeight := by
      rw [eraseFromImage]
      split_ifs <;> exact ⟨rfl, rfl⟩
    refine ⟨herased.txpool.trans hframe.1, herased.txpoolWeight.trans hframe.2, fun x ↦ ?_,
      fun h ↦ herased.noEmptySet h.eraseFromImage⟩
    rw [herased.imageSet, imageSet_eraseFromImage, imagesOf_toKey]
    by_cases hx : x = image
    · subst hx
      simp [hnot]
    · simp [hx]

/-! ## What the table determines -/

def rowWeight (row : PoolRow K P) : ℕ := row.info.weight

/-- Weight and key images are those of the rows of the table. -/
structure Derived (s : Store K P H) : Prop where
  weight : s.txpoolWeight = s.txpool.total rowWeight
  imageSet : ∀ image id, id ∈ s.imageSet image ↔
    ∃ row, s.txpool.get? id = some row ∧ image ∈ imagesOf row.tx.vin
  noEmptySet : s.NoEmptySet

variable {row row' : PoolRow K P} {txpool' : Table H (PoolRow K P)}

section

variable (h : s.Derived)

include h

lemma Derived.mem_imageSet (hrow : s.txpool.get? id = some row) :
    ∀ image ∈ imagesOf row.tx.vin, id ∈ s.imageSet image :=
  fun image himage ↦ (h.imageSet image id).mpr ⟨row, hrow, himage⟩

lemma Derived.notMem_imageSet (hnone : s.txpool.get? id = none) (image : K) :
    id ∉ s.imageSet image := by
  rw [h.imageSet]
  rintro ⟨row, hrow, -⟩
  rw [hnone] at hrow
  cases hrow

lemma Derived.insert (hins : Inserted id (imagesOf row.tx.vin) s s')
    (hadded : s.txpool.Added id row txpool') :
    Derived { s' with txpool := txpool', txpoolWeight := s'.txpoolWeight + row.info.weight } := by
  refine ⟨?_, fun image x ↦ ?_, hins.noEmptySet h.noEmptySet⟩
  · change s'.txpoolWeight + row.info.weight = txpool'.total rowWeight
    rw [hadded.total_eq, hins.txpoolWeight, h.weight, Nat.add_comm]
    rfl
  · change x ∈ s'.imageSet image ↔ ∃ r, txpool'.get? x = some r ∧ image ∈ imagesOf r.tx.vin
    rw [hins.imageSet, hadded.get]
    by_cases hx : x = id
    · subst hx
      by_cases himage : image ∈ imagesOf row.tx.vin
      · simp [himage]
      · simp [himage, h.notMem_imageSet hadded.fresh]
    · rw [if_neg hx, ← h.imageSet]
      split_ifs <;> simp [hx]

lemma Derived.removeTx (hrow : s.txpool.get? id = some row) (hstorable : Storable row.tx) :
    (s.removeTx id row.info.weight row.tx.vin).Derived ∧
      (s.removeTx id row.info.weight row.tx.vin).txpool = s.txpool.erase id := by
  have herased : Erased id (imagesOf row.tx.vin) ((s.removeTxpoolTx id).reduceTxpoolWeight
      row.info.weight) (s.removeTx id row.info.weight row.tx.vin) :=
    removeTransactionKeyimages_spec hstorable.toKey hstorable.distinct (h.mem_imageSet hrow)
  have hweight : s.txpoolWeight = row.info.weight + (s.txpool.erase id).total rowWeight := by
    rw [h.weight, total_erase rowWeight hrow]
    rfl
  refine ⟨⟨?_, fun image x ↦ ?_, herased.noEmptySet h.noEmptySet⟩, herased.txpool⟩
  · rw [herased.txpool, herased.txpoolWeight]
    change (if s.txpoolWeight < row.info.weight then 0 else s.txpoolWeight - row.info.weight) =
      (s.txpool.erase id).total rowWeight
    rw [hweight, if_neg (by omega), Nat.add_sub_cancel_left]
  · rw [herased.txpool, herased.imageSet]
    change x ∈ (if image ∈ imagesOf row.tx.vin then (s.imageSet image).erase id
      else s.imageSet image) ↔ ∃ r, (s.txpool.erase id).get? x = some r ∧ image ∈ imagesOf r.tx.vin
    rw [get?_erase]
    by_cases hx : x = id
    · subst hx
      by_cases himage : image ∈ imagesOf row.tx.vin
      · simp [himage]
      · simp [himage, h.imageSet, hrow]
    · rw [if_neg hx, ← h.imageSet]
      split_ifs <;> simp [hx]

lemma Derived.set (hrow : s.txpool.get? id = some row) (htx : row'.tx = row.tx)
    (hweight : row'.info.weight = row.info.weight) :
    Derived { s with txpool := s.txpool.set id row' } := by
  refine ⟨?_, fun image x ↦ ?_, h.noEmptySet⟩
  · change s.txpoolWeight = (s.txpool.set id row').total rowWeight
    rw [(added_erase_set s.txpool id row').total_eq, h.weight,
      total_erase rowWeight hrow, rowWeight, rowWeight, hweight]
  · change x ∈ s.imageSet image ↔ ∃ r, (s.txpool.set id row').get? x = some r ∧ _
    rw [get?_set, h.imageSet]
    by_cases hx : x = id
    · subst hx
      simp [hrow, htx]
    · rw [if_neg hx]

end

end Store

end Monero.Pool
