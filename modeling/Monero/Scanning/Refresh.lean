import Monero.Scanning.Events

/-!
# Refreshing

`refresh` of `wallet2.cpp`: the pool comes with the first pull of blocks, the blocks of
this and the further pulls are processed, and then the transactions of that pool.  A
transaction of the pool that is mined in between is listed as pending afterwards; if
there is none, nothing that is in a block is.
-/

namespace Monero.Scanning

open Monero.Lib List

/-! ## The refresh -/

/-- What the daemon says of its pool: what came and went since the last time or the whole pool, or
in the old way its hashes and then the transactions that are asked for. -/
inductive PoolAnswer where
  | data (incremental : Bool) (removed : List ℕ) (added : List PoolTx)
  | query (hashes : List ℕ) (answer : List ℕ → List PoolTx)

def takePool (now : ℕ) : PoolAnswer → Wallet → Wallet × List PoolTx
  | .data incremental removed added, w =>
    updatePoolStateFromPoolData ⟨now, incremental, true⟩ removed added w
  | .query hashes answer, w => updatePoolStateByPoolQuery now true hashes answer w

abbrev Batch := ℕ × List Block

def processBatches (env : Env) (batches : List Batch) (w : Wallet) : Except String Wallet :=
  batches.foldlM (fun w batch ↦ processParsedBlocks env batch.1 batch.2 w) w

def refresh (env : Env) (now : ℕ) (pool : PoolAnswer) (batches : List Batch) (w : Wallet) :
    Except String Wallet := do
  let (w, processPoolTxs) := takePool now pool w
  let w ← processBatches env batches w
  processPoolState env now processPoolTxs w

def balance (account : ℕ) (w : Wallet) : ℕ :=
  ((w.transfers.filter fun td ↦ td.subaddrIndex.major = account && !td.spent && !td.frozen).map
    TransferDetails.amount).sum +
  ((w.unconfirmedTxs.rows.filter fun r ↦ r.2.subaddrAccount = account && r.2.state ≠ .failed).map
    fun r ↦ r.2.change + ((r.2.dests.filter fun d ↦ d.subaddress.any (·.major = account)).map
      Dest.amount).sum).sum +
  ((w.unconfirmedPayments.filter fun p ↦ p.2.pd.subaddrIndex.major = account).map
    fun p ↦ p.2.pd.amount).sum

/-! ## Transactions of blocks -/

/-- The transactions of the blocks, each with its height, that are not skipped. -/
def txidsOf (env : Env) (blocks : List (Block × ℕ)) : List ℕ :=
  (blocks.filter fun b ↦ !env.shouldSkipBlock b.1.timestamp b.2).flatMap fun b ↦
    b.1.minerTx.txid :: b.1.txs.map TxEntry.txid

def scannedTxids (env : Env) (chain : List Block) (n : ℕ) : List ℕ :=
  txidsOf env (chain.zipIdx.take n)

def pulledTxids (env : Env) (batches : List Batch) : List ℕ :=
  txidsOf env (batches.flatMap fun batch ↦ batch.2.zipIdx batch.1)

structure Unlisted (txids : List ℕ) (w : Wallet) : Prop where
  unconfirmedTxs : ∀ txid ∈ txids, w.unconfirmedTxs.get? txid = none
  unconfirmedPayments : ∀ p ∈ w.unconfirmedPayments, p.2.pd.txHash ∉ txids

/-- The pool is apart from transactions; what left it since the last time is reported. -/
def PoolAnswer.Apart (txids : List ℕ) (w : Wallet) : PoolAnswer → Prop
  | .data incremental removed added => (∀ t ∈ added, t.entry.txid ∉ txids) ∧
      (incremental = true → ∀ p ∈ w.unconfirmedPayments, p.2.pd.txHash ∈ txids →
        p.2.pd.txHash ∈ removed)
  | .query hashes _ => ∀ txid ∈ hashes, txid ∉ txids

/-- Nothing is listed in one wallet that is not in the other, and the payments are the same. -/
structure NoneListed (w w' : Wallet) : Prop where
  unconfirmedTxs : ∀ {txid}, w.unconfirmedTxs.get? txid = none → w'.unconfirmedTxs.get? txid = none
  unconfirmedPayments : w'.unconfirmedPayments = w.unconfirmedPayments

lemma NoneListed.refl (w : Wallet) : NoneListed w w := ⟨fun h ↦ h, rfl⟩

variable {w' w : Wallet} {txids : List ℕ} {table : List SubaddressIndex} {b : Block} {height : ℕ}
  {chain : List Block}

lemma NoneListed.trans {w'' : Wallet} (h : NoneListed w w') (h' : NoneListed w' w'') :
    NoneListed w w'' :=
  ⟨fun hnone ↦ h'.unconfirmedTxs (h.unconfirmedTxs hnone),
    h'.unconfirmedPayments.trans h.unconfirmedPayments⟩

lemma Unlisted.noneListed (h : Unlisted txids w) (hnone : NoneListed w w') : Unlisted txids w' :=
  ⟨fun txid htxid ↦ hnone.unconfirmedTxs (h.unconfirmedTxs txid htxid), by
    rw [hnone.unconfirmedPayments]
    exact h.unconfirmedPayments⟩

variable {env : Env} {c : Circumstances} {entry : TxEntry}

lemma Change.noneListed (hpool : c.pool = false) (h : Change env c entry w w') :
    NoneListed w w' := by
  cases h with
  | unconfirmed =>
    obtain ⟨_, heq⟩ := processUnconfirmed_eq env w entry.txid c.height
    rw [heq]
    refine ⟨fun hnone ↦ ?_, rfl⟩
    rw [Table.get?_erase, hnone, ite_self]
  | background =>
    obtain ⟨_, heq⟩ := addToBackground_eq c entry w
    rw [heq]
    exact ⟨fun h ↦ h, rfl⟩
  | expand =>
    obtain ⟨_, _, -, heq⟩ := expandOnReceipt_eq env w _
    rw [heq]
    exact ⟨fun h ↦ h, rfl⟩
  | track => exact ⟨fun h ↦ h, rfl⟩
  | push => exact ⟨fun h ↦ h, rfl⟩
  | replace => exact ⟨fun h ↦ h, rfl⟩
  | spend => exact ⟨fun h ↦ h, rfl⟩
  | outgoing =>
    simp only [keepOutgoing, hpool, Bool.false_eq_true, if_false]
    split
    · exact ⟨fun h ↦ h, rfl⟩
    · exact ⟨fun h ↦ h, rfl⟩
  | payment =>
    simp only [addPayment, hpool, Bool.false_eq_true, if_false]
    exact ⟨fun h ↦ h, rfl⟩

lemma noneListed_of_changes (hpool : c.pool = false)
    (h : Relation.ReflTransGen (Change env c entry) w w') : NoneListed w w' := by
  induction h with
  | refl => exact NoneListed.refl w
  | tail _ hstep ih => exact ih.trans (hstep.noneListed hpool)

lemma processBlockTx_noneListed
    {e : Bool × TxEntry} (h : processBlockTx env table b height w e = .ok w') :
    NoneListed w w' ∧ (e.1 = false → w'.unconfirmedTxs.get? e.2.txid = none) := by
  refine ⟨noneListed_of_changes rfl (processNewTransaction_changes h), fun hminer ↦ ?_⟩
  have hafter := noneListed_of_changes rfl (processNewTransaction_changes_after h)
  refine hafter.unconfirmedTxs ?_
  obtain ⟨_, heq⟩ := processUnconfirmed_eq env w e.2.txid height
  simp only [Block.circumstances, hminer, Bool.false_eq_true, or_self, if_false, heq]
  rw [Table.get?_erase, if_pos rfl]

lemma foldlM_processBlockTx
    {l : List (Bool × TxEntry)} (h : l.foldlM (processBlockTx env table b height) w = .ok w') :
    NoneListed w w' ∧ ∀ e ∈ l, e.1 = false → w'.unconfirmedTxs.get? e.2.txid = none := by
  induction l generalizing w with
  | nil =>
    cases h
    exact ⟨NoneListed.refl _, fun e he ↦ by cases he⟩
  | cons e l ih =>
    rw [foldlM_cons] at h
    obtain ⟨v, hv, hrest⟩ := bind_eq_ok.mp h
    obtain ⟨hfirst, herased⟩ := processBlockTx_noneListed hv
    obtain ⟨hlater, hall⟩ := ih hrest
    refine ⟨hfirst.trans hlater, fun x hx hminer ↦ ?_⟩
    rcases mem_cons.mp hx with rfl | hx
    · exact hlater.unconfirmedTxs (herased hminer)
    · exact hall x hx hminer

lemma processNewBlockchainEntry_noneListed
    (h : processNewBlockchainEntry env table b height w = .ok w') :
    NoneListed w w' ∧ w'.blockchain = w.blockchain ++ [b.hash] ∧ height = w.blockchain.length ∧
      (env.shouldSkipBlock b.timestamp height = false →
        ∀ e ∈ b.txs, w'.unconfirmedTxs.get? e.txid = none) := by
  obtain ⟨hheight, v', -, -, heq⟩ := processNewBlockchainEntry_invariant (P := fun _ ↦ True)
    (fun _ _ _ _ _ _ ↦ trivial) trivial h
  have hchain : w'.blockchain = w.blockchain ++ [b.hash] := by rw [heq]
  obtain ⟨_, -, h⟩ := bind_eq_ok.mp h
  obtain ⟨v, hv, h⟩ := bind_eq_ok.mp h
  have hlists : NoneListed w v ∧ (env.shouldSkipBlock b.timestamp height = false →
      ∀ e ∈ b.txs, v.unconfirmedTxs.get? e.txid = none) := by
    split at hv
    next hskip =>
      cases hv
      refine ⟨NoneListed.refl _, fun hnot ↦ ?_⟩
      rw [hskip] at hnot
      cases hnot
    next =>
      obtain ⟨hnone, hall⟩ := foldlM_processBlockTx hv
      refine ⟨hnone, fun _ e he ↦ hall (false, e) ?_ rfl⟩
      exact mem_append_right _ (mem_map_of_mem he)
  cases h
  exact ⟨⟨hlists.1.unconfirmedTxs, hlists.1.unconfirmedPayments⟩, hchain, hheight, hlists.2⟩

/-! ## Batches of a chain -/

/-- The wallet is on the chain, and its lists are free of the transactions of the blocks it has,
which are among `txids`. -/
structure OnChain (env : Env) (chain : List Block) (txids : List ℕ) (w : Wallet) : Prop where
  blockchain : w.blockchain = (chain.take w.blockchain.length).map Block.hash
  scanned : scannedTxids env chain w.blockchain.length ⊆ txids
  unconfirmedTxs : ∀ txid ∈ scannedTxids env chain w.blockchain.length,
    w.unconfirmedTxs.get? txid = none
  minerTxs : ∀ b ∈ chain, w.unconfirmedTxs.get? b.minerTx.txid = none
  unconfirmedPayments : ∀ p ∈ w.unconfirmedPayments, p.2.pd.txHash ∉ txids

lemma scannedTxids_succ {n txid : ℕ} (hb : chain[n]? = some b)
    (h : txid ∈ scannedTxids env chain (n + 1)) : txid ∈ scannedTxids env chain n ∨
      env.shouldSkipBlock b.timestamp n = false ∧
        (txid = b.minerTx.txid ∨ ∃ e ∈ b.txs, e.txid = txid) := by
  have htake : chain.zipIdx.take (n + 1) = chain.zipIdx.take n ++ [(b, n)] := by
    rw [take_add_one, getElem?_zipIdx, hb]
    simp
  unfold scannedTxids txidsOf at h ⊢
  rw [htake, filter_append, flatMap_append, mem_append] at h
  refine h.imp_right fun hlast ↦ ?_
  cases hskip : env.shouldSkipBlock b.timestamp n with
  | true => simp [hskip] at hlast
  | false =>
    simp only [hskip, filter_cons, Bool.not_false, if_true, filter_nil, flatMap_cons,
      flatMap_nil, append_nil, mem_cons, mem_map] at hlast
    exact ⟨rfl, hlast⟩

lemma mem_txidsOf {blocks : List (Block × ℕ)} (hb : (b, height) ∈ blocks)
    (hskip : env.shouldSkipBlock b.timestamp height = false) :
    b.minerTx.txid ∈ txidsOf env blocks ∧ ∀ e ∈ b.txs, e.txid ∈ txidsOf env blocks := by
  have hmem : (b, height) ∈ blocks.filter fun b ↦ !env.shouldSkipBlock b.1.timestamp b.2 :=
    mem_filter.mpr ⟨hb, by simp [hskip]⟩
  exact ⟨mem_flatMap.mpr ⟨_, hmem, mem_cons_self⟩, fun e he ↦
    mem_flatMap.mpr ⟨_, hmem, mem_cons_of_mem _ (mem_map_of_mem he)⟩⟩

lemma OnChain.placeBlock {startHeight : ℕ} (hw : OnChain env chain txids w)
    (hb : chain[height]? = some b) (htxids : env.shouldSkipBlock b.timestamp height = false →
      b.minerTx.txid ∈ txids ∧ ∀ e ∈ b.txs, e.txid ∈ txids)
        (h : placeBlock env table startHeight w (b, height) = .ok w') :
    OnChain env chain txids w' ∧ w.blockchain.length ≤ w'.blockchain.length := by
  have hknown : ∀ k < w.blockchain.length, w.blockchain[k]? = (chain[k]?).map Block.hash := by
    intro k hk
    rw [hw.blockchain, getElem?_map, getElem?_take_of_lt hk]
  rcases placeBlock_eq_ok h with ⟨-, hnew⟩ | ⟨-, rfl⟩ | ⟨hlt, hne, -⟩
  · obtain ⟨hnone, hchain, hheight, herased⟩ := processNewBlockchainEntry_noneListed hnew
    subst hheight
    have hlength : w'.blockchain.length = w.blockchain.length + 1 := by simp [hchain]
    refine ⟨⟨?_, fun txid htxid ↦ ?_, fun txid htxid ↦ ?_,
      fun x hx ↦ hnone.unconfirmedTxs (hw.minerTxs x hx), ?_⟩, hlength.symm ▸ Nat.le_succ _⟩
    · rw [hlength, take_add_one, hb, map_append, ← hw.blockchain, hchain]
      rfl
    · rw [hlength] at htxid
      rcases scannedTxids_succ hb htxid with hold | ⟨hskip, rfl | ⟨e, he, rfl⟩⟩
      · exact hw.scanned hold
      · exact (htxids hskip).1
      · exact (htxids hskip).2 e he
    · rw [hlength] at htxid
      rcases scannedTxids_succ hb htxid with hold | ⟨hskip, hminer | ⟨e, he, rfl⟩⟩
      · exact hnone.unconfirmedTxs (hw.unconfirmedTxs txid hold)
      · rw [hminer]
        exact hnone.unconfirmedTxs (hw.minerTxs b (mem_of_getElem? hb))
      · exact herased hskip e he
    · rw [hnone.unconfirmedPayments]
      exact hw.unconfirmedPayments
  · exact ⟨hw, le_rfl⟩
  · -- There is no other block at a height that the wallet has.
    refine absurd ?_ hne
    rw [hknown height hlt, hb, Option.map_some]

def Batch.IsSegment (chain : List Block) (batch : Batch) : Prop :=
  ∀ b ∈ batch.2.zipIdx batch.1, chain[b.2]? = some b.1

lemma OnChain.processBatches {batches : List Batch}
    (hw : OnChain env chain txids w) (hsegments : ∀ batch ∈ batches, batch.IsSegment chain)
    (hpulled : pulledTxids env batches ⊆ txids) (h : processBatches env batches w = .ok w') :
    OnChain env chain txids w' := by
  refine foldlM_rel (R := fun a b ↦ OnChain env chain txids a → OnChain env chain txids b)
    (fun _ h ↦ h) (fun h h' ha ↦ h' (h ha)) (fun batch hbatch {x x'} hx hxon ↦ ?_) h hw
  obtain ⟨_, -, hx⟩ := bind_eq_ok.mp hx
  obtain ⟨_, -, hx⟩ := bind_eq_ok.mp hx
  exact foldlM_rel (R := fun a b ↦ OnChain env chain txids a → OnChain env chain txids b)
    (fun _ h ↦ h) (fun h h' ha ↦ h' (h ha))
    (fun b hb _ _ hplace ha ↦ (ha.placeBlock (hsegments batch hbatch b hb) (fun hskip ↦
      (mem_txidsOf (mem_flatMap.mpr ⟨batch, hbatch, hb⟩) hskip).imp (fun h ↦ hpulled h)
        fun h e he ↦ hpulled (h e he)) hplace).1) hx hxon

/-! ## The pool -/

lemma processUnconfirmedTransfers_noneListed (p : PoolCheck) (seen : ℕ → Bool) (w : Wallet) :
    NoneListed w (processUnconfirmedTransfers p seen w) ∧
      (processUnconfirmedTransfers p seen w).blockchain = w.blockchain := by
  refine processUnconfirmedTransfers_invariant
    (P := fun v ↦ NoneListed w v ∧ v.blockchain = w.blockchain)
    (fun {v txid d} state hd hv ↦ ⟨⟨fun {x} hx ↦ ?_, hv.1.unconfirmedPayments⟩, hv.2⟩)
    (fun _ _ _ _ _ _ _ _ _ hv ↦ ⟨⟨⟨hv.1.1, hv.1.2⟩, hv.2⟩, ⟨⟨hv.1.1, hv.1.2⟩, hv.2⟩⟩)
    ⟨NoneListed.refl w, rfl⟩
  have hnone := hv.1.unconfirmedTxs hx
  simp only [setState]
  rw [Table.get?_set, if_neg]
  · exact hnone
  · -- A state is set for what is listed.
    rintro rfl
    rw [hd] at hnone
    cases hnone

/-- With a pool that is apart, the payments that stay and the transactions to be processed are. -/
theorem takePool_apart (now : ℕ) {pool : PoolAnswer} (hapart : pool.Apart txids w) :
    (∀ {txid}, w.unconfirmedTxs.get? txid = none →
      (takePool now pool w).1.unconfirmedTxs.get? txid = none) ∧
      (takePool now pool w).1.blockchain = w.blockchain ∧
      (∀ p ∈ (takePool now pool w).1.unconfirmedPayments, p.2.pd.txHash ∉ txids) ∧
      ∀ t ∈ (takePool now pool w).2, t.entry.txid ∉ txids := by
  cases pool with
  | data incremental removed added =>
    obtain ⟨hadded, hremoved⟩ := hapart
    simp only [takePool, updatePoolStateFromPoolData, if_true]
    refine ⟨?_, ?_, ?_, fun t ht ↦ hadded t (mem_of_mem_filter ht)⟩
    · rw [apply_ite (processUnconfirmedTransfers _ _)]
      split
      · exact (processUnconfirmedTransfers_noneListed _ _
          (removeObsoletePoolTxs _ true w)).1.unconfirmedTxs
      · exact (processUnconfirmedTransfers_noneListed _ _
          (removeObsoletePoolTxs _ false w)).1.unconfirmedTxs
    · rw [(processUnconfirmedTransfers_noneListed _ _ _).2]
      split
      · rfl
      · rfl
    · rw [(processUnconfirmedTransfers_noneListed _ _ _).1.unconfirmedPayments]
      intro p hp htxids
      cases incremental with
      | true =>
        obtain ⟨hp, hkept⟩ := mem_filter.mp hp
        simp [hremoved rfl p hp htxids] at hkept
      | false =>
        obtain ⟨-, hkept⟩ := mem_filter.mp hp
        obtain ⟨t, ht, heq⟩ : ∃ t ∈ added, t.entry.txid = p.2.pd.txHash := by simpa using hkept
        exact hadded t ht (heq ▸ htxids)
  | query hashes answer =>
    simp only [takePool, updatePoolStateByPoolQuery, if_true]
    refine ⟨(processUnconfirmedTransfers_noneListed _ _ w).1.unconfirmedTxs,
      (processUnconfirmedTransfers_noneListed _ _ w).2, fun p hp ↦ ?_, fun t ht ↦ ?_⟩
    · obtain ⟨-, hkept⟩ := mem_filter.mp hp
      exact hapart _ (by simpa using hkept)
    · obtain ⟨-, hasked⟩ := mem_filter.mp ht
      exact hapart _ (mem_of_mem_filter (contains_iff_mem.mp hasked))

lemma Change.unlisted (hentry : entry.txid ∉ txids)
    (h : Change env c entry w w') (hw : Unlisted txids w) : Unlisted txids w' := by
  by_cases hpool : c.pool = true
  · cases h with
    | unconfirmed hblock =>
      rw [hpool] at hblock
      cases hblock
    | background hblock =>
      rw [hpool] at hblock
      cases hblock
    | expand =>
      obtain ⟨_, _, -, heq⟩ := expandOnReceipt_eq env w _
      rw [heq]
      exact ⟨hw.1, hw.2⟩
    | track => exact ⟨hw.1, hw.2⟩
    | push => exact ⟨hw.1, hw.2⟩
    | replace => exact ⟨hw.1, hw.2⟩
    | spend => exact ⟨hw.1, hw.2⟩
    | outgoing =>
      simp only [keepOutgoing, if_pos hpool]
      split
      next => exact hw
      next =>
        refine ⟨fun txid htxid ↦ ?_, hw.2⟩
        simp only [addUnconfirmedTx]
        rw [Table.get?_set, if_neg]
        · exact hw.1 txid htxid
        · rintro rfl
          exact hentry htxid
    | payment =>
      simp only [addPayment, if_pos hpool]
      refine ⟨hw.1, fun p hp ↦ ?_⟩
      simp only [emplaceOrReplace] at hp
      split at hp
      next =>
        rcases mem_or_eq_of_mem_set hp with hp | rfl
        · exact hw.2 p hp
        · exact hentry
      next =>
        rcases mem_append.mp hp with hp | hp
        · exact hw.2 p hp
        · rw [mem_singleton.mp hp]
          exact hentry
  · exact hw.noneListed (h.noneListed (by simpa using hpool))

lemma processPoolState_unlisted {now : ℕ} {txs : List PoolTx}
    (htxs : ∀ t ∈ txs, t.entry.txid ∉ txids) (hw : Unlisted txids w)
    (h : processPoolState env now txs w = .ok w') :
    Unlisted txids w' ∧ w'.blockchain = w.blockchain := by
  refine foldlM_rel (R := fun a b ↦ (Unlisted txids a ∧ a.blockchain = w.blockchain →
      Unlisted txids b ∧ b.blockchain = w.blockchain))
    (fun _ h ↦ h) (fun h h' ha ↦ h' (h ha)) (fun t ht {x x'} hx hxun ↦ ?_) h ⟨hw, rfl⟩
  obtain ⟨v, scanned, hv, rfl⟩ := processPoolTx_eq_ok hx
  have hafter := processNewTransaction_invariant
    (P := fun v ↦ Unlisted txids v ∧ v.blockchain = w.blockchain)
    (fun hchange hw ↦ ⟨hchange.unlisted (htxs t ht) hw.1, hchange.blockchain.trans hw.2⟩) hxun hv
  exact ⟨⟨hafter.1.1, hafter.1.2⟩, hafter.2⟩

/-! ## After a refresh -/

/-- If no transaction of the pool that comes with the first pull is in a block of the wallet or of
the pulls, then nothing that is in a block is listed as unconfirmed afterwards. -/
theorem nothing_confirmed_is_pending {now : ℕ} {pool : PoolAnswer} {batches : List Batch}
    {chain : List Block} {w w' : Wallet}
    (hchain : w.blockchain = (chain.take w.blockchain.length).map Block.hash)
    (hsegments : ∀ batch ∈ batches, batch.IsSegment chain)
    (hlisted : Unlisted (scannedTxids env chain w.blockchain.length) w)
    (hminer : ∀ b ∈ chain, w.unconfirmedTxs.get? b.minerTx.txid = none)
    (hapart : pool.Apart
      (scannedTxids env chain w.blockchain.length ++ pulledTxids env batches) w)
    (h : refresh env now pool batches w = .ok w') :
    Unlisted (scannedTxids env chain w'.blockchain.length) w' := by
  obtain ⟨htxs, hsame, hpayments, hpool⟩ := takePool_apart now hapart
  obtain ⟨v, hv, h⟩ := bind_eq_ok.mp h
  have hstart : OnChain env chain
      (scannedTxids env chain w.blockchain.length ++ pulledTxids env batches)
        (takePool now pool w).1 := by
    refine ⟨?_, ?_, fun txid htxid ↦ htxs ?_, fun b hb ↦ htxs (hminer b hb), hpayments⟩
    · rw [hsame]
      exact hchain
    · rw [hsame]
      exact subset_append_left _ _
    · rw [hsame] at htxid
      exact hlisted.unconfirmedTxs txid htxid
  have hend := hstart.processBatches hsegments (subset_append_right _ _) hv
  have hnone : Unlisted [] v := ⟨fun _ h ↦ absurd h not_mem_nil, fun _ _ ↦ not_mem_nil⟩
  have hlength : w'.blockchain = v.blockchain :=
    (processPoolState_unlisted (fun _ _ ↦ not_mem_nil) hnone h).2
  rw [hlength]
  refine (processPoolState_unlisted (fun t ht hmem ↦ hpool t ht (hend.scanned hmem))
    ⟨hend.unconfirmedTxs, fun p hp hmem ↦ hend.unconfirmedPayments p hp (hend.scanned hmem)⟩ h).1

def samplePayment : TxEntry := ⟨51, sampleTx [] [sampleOut 1 5], [7]⟩

def sampleChain : List Block :=
  [sampleBlock 100 0 [], sampleBlock 101 100 [], sampleBlock 102 101 [samplePayment]]

theorem nothing_confirmed_is_pending_sample :
    ∃ w', refresh sampleEnv 10 (.data false [] [⟨samplePayment, false⟩])
      [(0, sampleChain.take 2)] sampleWallet = .ok w' ∧ w'.blockchain.length = 2 ∧
      Unlisted (scannedTxids sampleEnv sampleChain w'.blockchain.length) w' := by
  have hresult : ((refresh sampleEnv 10 (.data false [] [⟨samplePayment, false⟩])
      [(0, sampleChain.take 2)] sampleWallet).toOption.map fun w ↦ w.blockchain.length) =
        some 2 := by
    decide +kernel
  obtain ⟨w', hw', hlength⟩ := Option.map_eq_some_iff.mp hresult
  have h := toOption_eq_some.mp hw'
  refine ⟨w', h, hlength,
    @nothing_confirmed_is_pending _ _ _ _ sampleChain _ _ rfl ?_ ?_ (fun _ _ ↦ rfl) ?_ h⟩
  · intro batch hbatch
    rw [mem_singleton.mp hbatch]
    unfold Batch.IsSegment
    decide
  · exact ⟨fun _ _ ↦ rfl, fun p hp ↦ absurd hp not_mem_nil⟩
  · exact ⟨by decide, fun hfalse ↦ absurd hfalse (by decide)⟩

/-- The payment was in the pool at the last refresh, and it still is at the first pull of this one.
It is mined in a block of the second pull; the balance counts it twice. -/
theorem mined_payment_stays_pending :
    ((refresh sampleEnv 10 (.data false [] [⟨samplePayment, false⟩]) [(0, sampleChain.take 1)]
      sampleWallet >>=
      refresh sampleEnv 20 (.data true [] [])
        [(0, sampleChain.take 2), (1, sampleChain.drop 1)]).toOption.map
        fun w ↦ (w.blockchain, w.transfers.map (·.txid), w.unconfirmedPayments.map (·.2.pd.txHash),
          balance 0 w)) =
      some ([100, 101, 102], [51], [51], 10) := by
  decide +kernel

end Monero.Scanning
