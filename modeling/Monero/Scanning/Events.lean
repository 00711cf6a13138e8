import Monero.Scanning.Changes
import Monero.Scanning.PoolState

/-!
# Runs of a wallet

Whatever blocks, pools and own transactions a wallet is given, its indices by one-time
key and by key image point to transfers with that key and that key image, and no
transfer is above the chain.
-/

namespace Monero.Scanning

open Monero.Lib List TransferDetails
open Relation (ReflTransGen)

/-! ## What happens to a wallet -/

inductive Event where
  /-- A block of a batch that starts at a height, with the table the batch was scanned with. -/
  | block (table : List SubaddressIndex) (startHeight : ℕ) (b : Block) (height : ℕ)
  | poolData (p : PoolCheck) (removed : List ℕ) (added : List PoolTx)
  | poolQuery (now : ℕ) (refreshed : Bool) (hashes : List ℕ) (answer : List ℕ → List PoolTx)
  | poolTx (now : ℕ) (t : PoolTx)
  | commit (now : ℕ) (ptx : PendingTx)

def step (env : Env) : Event → Wallet → Except String Wallet
  | .block table startHeight b height, w => placeBlock env table startHeight w (b, height)
  | .poolData p removed added, w => .ok (updatePoolStateFromPoolData p removed added w).1
  | .poolQuery now refreshed hashes answer, w =>
    .ok (updatePoolStateByPoolQuery now refreshed hashes answer w).1
  | .poolTx now t, w => processPoolTx env now w t
  | .commit now ptx, w => commitTx env now ptx w

def runEvents (env : Env) (events : List Event) (w : Wallet) : Except String Wallet :=
  events.foldlM (fun w event ↦ step env event w) w

def Reaches (env : Env) : Wallet → Wallet → Prop :=
  ReflTransGen fun w w' ↦ ∃ event, step env event w = .ok w'

/-! ## Indices of transfers -/

structure Wallet.Consistent (w : Wallet) : Prop where
  pubKeys : ∀ {k i}, w.pubKeys.get? k = some i → ∃ td, w.transfers[i]? = some td ∧ td.key = k
  keyImages : ∀ {k i}, w.keyImages.get? k = some i →
    ∃ td, w.transfers[i]? = some td ∧ td.keyImage = k ∧ td.keyImageKnown = true

def SameOutputs (l l' : List TransferDetails) : Prop :=
  l'.map (fun td ↦ (td.key, td.keyImage, td.keyImageKnown)) =
    l.map fun td ↦ (td.key, td.keyImage, td.keyImageKnown)

variable {l : List TransferDetails} {td : TransferDetails} {w' w : Wallet} {P : Wallet → Prop}
  {n height now : ℕ} {table : List SubaddressIndex} {b : Block}
  {f : TransferDetails → TransferDetails}

lemma sameOutputs_modify (idx : ℕ) (hf : ∀ td,
      ((f td).key, (f td).keyImage, (f td).keyImageKnown) =
        (td.key, td.keyImage, td.keyImageKnown))
    : SameOutputs l (l.modify idx f) := by
  apply ext_getElem?
  intro i
  simp only [getElem?_map, getElem?_modify]
  cases l[i]? with
  | none => rfl
  | some td =>
    simp only [Option.map_some, Option.map_eq_map]
    split
    · rw [hf]
    · rfl

lemma SameOutputs.exists_of_getElem? {l' : List TransferDetails} (h : SameOutputs l l') {i : ℕ}
    (htd : l[i]? = some td) : ∃ td', l'[i]? = some td' ∧ td'.key = td.key ∧
      td'.keyImage = td.keyImage ∧ td'.keyImageKnown = td.keyImageKnown := by
  have hi := congrArg (·[i]?) h
  simp only [getElem?_map, htd, Option.map_some, Option.map_eq_some_iff] at hi
  obtain ⟨td', htd', heq⟩ := hi
  simp only [Prod.mk.injEq] at heq
  exact ⟨td', htd', heq⟩

lemma Wallet.Consistent.of_sameOutputs (h : w.Consistent)
    (hsame : SameOutputs w.transfers w'.transfers) (hpub : w'.pubKeys = w.pubKeys)
    (hki : w'.keyImages = w.keyImages) : w'.Consistent := by
  refine ⟨fun {k i} hk ↦ ?_, fun {k i} hk ↦ ?_⟩
  · rw [hpub] at hk
    obtain ⟨td, htd, rfl⟩ := h.pubKeys hk
    obtain ⟨td', htd', hkey, -, -⟩ := hsame.exists_of_getElem? htd
    exact ⟨td', htd', hkey⟩
  · rw [hki] at hk
    obtain ⟨td, htd, rfl, hknown⟩ := h.keyImages hk
    obtain ⟨td', htd', -, hki', hknown'⟩ := hsame.exists_of_getElem? htd
    exact ⟨td', htd', hki', hknown'.trans hknown⟩

lemma Wallet.Consistent.addTransfer (h : w.Consistent) (td : TransferDetails) :
    (addTransfer w td).Consistent := by
  have hold : ∀ {i : ℕ} {t : TransferDetails}, w.transfers[i]? = some t →
      (w.transfers ++ [td])[i]? = some t := fun ht ↦ getElem?_append_left
        (List.getElem?_eq_some_iff.mp ht).1 ▸ ht
  refine ⟨fun {k i} hk ↦ ?_, fun {k i} hk ↦ ?_⟩
  · simp only [Scanning.addTransfer, Table.get?_set] at hk ⊢
    split at hk
    next heq =>
      cases hk
      exact ⟨td, getElem?_concat_length, heq.symm⟩
    next =>
      obtain ⟨t, ht, hkey⟩ := h.pubKeys hk
      exact ⟨t, hold ht, hkey⟩
  · simp only [Scanning.addTransfer] at hk ⊢
    split at hk
    next hknown =>
      rw [Table.get?_set] at hk
      split at hk
      next heq =>
        cases hk
        exact ⟨td, getElem?_concat_length, heq.symm, hknown⟩
      next =>
        obtain ⟨t, ht, hki⟩ := h.keyImages hk
        exact ⟨t, hold ht, hki⟩
    next =>
      obtain ⟨t, ht, hki⟩ := h.keyImages hk
      exact ⟨t, hold ht, hki⟩

variable {env : Env} {c : Circumstances} {entry : TxEntry} {startHeight : ℕ}

lemma addToBackground_eq (c : Circumstances) (entry : TxEntry) (w : Wallet) :
    ∃ txs, addToBackground c entry w = { w with backgroundTxs := txs } := by
  unfold addToBackground
  split
  · exact ⟨_, rfl⟩
  · exact ⟨_, rfl⟩

lemma processUnconfirmed_eq (env : Env) (w : Wallet) (txid height : ℕ) : ∃ confirmed,
    processUnconfirmed env w txid height =
      { w with confirmedTxs := confirmed, unconfirmedTxs := w.unconfirmedTxs.erase txid } := by
  unfold processUnconfirmed
  split
  next hnone => exact ⟨w.confirmedTxs, by rw [Table.erase_eq_self hnone]⟩
  next => exact ⟨_, rfl⟩

lemma keepOutgoing_eq (c : Circumstances) (entry : TxEntry) (w : Wallet)
    (spent received account : ℕ) (indices : List ℕ) : ∃ confirmed unconfirmed,
    keepOutgoing c entry w spent received account indices =
      { w with confirmedTxs := confirmed, unconfirmedTxs := unconfirmed } := by
  unfold keepOutgoing
  split
  · split
    · exact ⟨_, _, rfl⟩
    · exact ⟨_, _, rfl⟩
  · simp only
    split
    · exact ⟨_, _, rfl⟩
    · exact ⟨_, _, rfl⟩

lemma addPayment_eq (c : Circumstances) (entry : TxEntry) (paymentId spent : ℕ) (w : Wallet)
    (r : SubaddressIndex × ℕ × List ℕ) : ∃ payments unconfirmed,
    addPayment c entry paymentId spent w r =
      { w with payments := payments, unconfirmedPayments := unconfirmed } := by
  unfold addPayment
  split
  · exact ⟨_, _, rfl⟩
  · exact ⟨_, _, rfl⟩

structure SameLedger (w w' : Wallet) : Prop where
  blockchain : w'.blockchain = w.blockchain
  transfers : w'.transfers = w.transfers
  keyImages : w'.keyImages = w.keyImages
  pubKeys : w'.pubKeys = w.pubKeys
  backgroundSyncing : w'.backgroundSyncing = w.backgroundSyncing

lemma Change.ledger (h : Change env c entry w w') : SameLedger w w' ∨
    (∃ pk out txOut, c.pool = false ∧ entry.tx.vout[Out.o out]? = some txOut ∧
      w.pubKeys.get? txOut.key = none ∧
      w' = addTransfer w (newTransfer env c entry w pk out txOut)) ∨
    (∃ idx pk td out txOut, c.pool = false ∧ entry.tx.vout[Out.o out]? = some txOut ∧
      w.pubKeys.get? txOut.key = some idx ∧ w.transfers[idx]? = some td ∧ td.spent = false ∧
      w' = { w with transfers := w.transfers.modify idx (replacement c entry pk out txOut) }) ∨
    ∃ input idx td, input ∈ entry.tx.vin ∧ w.keyImages.get? input.keyImage = some idx ∧
      w.transfers[idx]? = some td ∧
      w' = { w with transfers := w.transfers.modify idx (·.spentBy input c.height) } := by
  cases h with
  | unconfirmed =>
    obtain ⟨_, heq⟩ := processUnconfirmed_eq env w entry.txid c.height
    rw [heq]
    exact .inl ⟨rfl, rfl, rfl, rfl, rfl⟩
  | background =>
    obtain ⟨_, heq⟩ := addToBackground_eq c entry w
    rw [heq]
    exact .inl ⟨rfl, rfl, rfl, rfl, rfl⟩
  | expand =>
    obtain ⟨_, _, -, heq⟩ := expandOnReceipt_eq env w _
    rw [heq]
    exact .inl ⟨rfl, rfl, rfl, rfl, rfl⟩
  | track => exact .inl ⟨rfl, rfl, rfl, rfl, rfl⟩
  | push hpool hout hnew => exact .inr (.inl ⟨_, _, _, hpool, hout, hnew, rfl⟩)
  | replace hpool hout hidx htd hspent =>
    exact .inr (.inr (.inl ⟨_, _, _, _, _, hpool, hout, hidx, htd, hspent, rfl⟩))
  | spend hinput hidx htd => exact .inr (.inr (.inr ⟨_, _, _, hinput, hidx, htd, rfl⟩))
  | outgoing =>
    obtain ⟨_, _, heq⟩ := keepOutgoing_eq c entry w _ _ _ _
    rw [heq]
    exact .inl ⟨rfl, rfl, rfl, rfl, rfl⟩
  | payment =>
    obtain ⟨_, _, heq⟩ := addPayment_eq c entry _ _ w _
    rw [heq]
    exact .inl ⟨rfl, rfl, rfl, rfl, rfl⟩

lemma processNewTransaction_invariant {pre : Precomputed}
    (hchange : ∀ {w w'}, Change env c entry w w' → P w → P w') (hw : P w)
    (h : processNewTransaction env c entry pre w = .ok w') : P w' := by
  have hchanges := processNewTransaction_changes h
  clear h
  induction hchanges with
  | refl => exact hw
  | tail _ hstep ih => exact hchange hstep ih

lemma Change.consistent (h : Change env c entry w w') (hw : w.Consistent) : w'.Consistent := by
  rcases h.ledger with hsame | ⟨pk, out, txOut, -, -, -, rfl⟩ |
    ⟨idx, pk, td, out, txOut, -, -, -, -, -, rfl⟩ | ⟨input, idx, td, -, -, -, rfl⟩
  · refine hw.of_sameOutputs ?_ hsame.pubKeys hsame.keyImages
    rw [hsame.transfers]
    rfl
  · exact hw.addTransfer _
  · exact hw.of_sameOutputs (sameOutputs_modify _ fun _ ↦ rfl) rfl rfl
  · exact hw.of_sameOutputs (sameOutputs_modify _ fun _ ↦ rfl) rfl rfl

lemma Change.blockchain (h : Change env c entry w w') : w'.blockchain = w.blockchain := by
  rcases h.ledger with hsame | ⟨pk, out, txOut, -, -, -, rfl⟩ |
    ⟨idx, pk, td, out, txOut, -, -, -, -, -, rfl⟩ | ⟨input, idx, td, -, -, -, rfl⟩
  · exact hsame.blockchain
  · rfl
  · rfl
  · rfl

/-- The transfers are at heights below a bound. -/
def Wallet.Below (n : ℕ) (w : Wallet) : Prop := ∀ td ∈ w.transfers, td.blockHeight < n

lemma Wallet.Below.mono {m : ℕ} (h : w.Below n) (hnm : n ≤ m) : w.Below m :=
  fun td htd ↦ (h td htd).trans_le hnm

lemma below_modify {idx : ℕ} (h : w.Below n)
    (hf : ∀ td, td.blockHeight < n → (f td).blockHeight < n) :
    Wallet.Below n { w with transfers := w.transfers.modify idx f } := by
  intro td htd
  obtain ⟨i, hi⟩ := mem_iff_getElem?.mp htd
  rw [getElem?_modify] at hi
  obtain ⟨old, hold, rfl⟩ := Option.map_eq_some_iff.mp hi
  have hlt := h old (mem_of_getElem? hold)
  split
  · exact hf old hlt
  · exact hlt

lemma Change.below (hn : c.height < n) (h : Change env c entry w w')
    (hw : w.Below n) : w'.Below n := by
  rcases h.ledger with hsame | ⟨pk, out, txOut, -, -, -, rfl⟩ |
    ⟨idx, pk, td, out, txOut, -, -, -, -, -, rfl⟩ | ⟨input, idx, td, -, -, -, rfl⟩
  · intro td htd
    rw [hsame.transfers] at htd
    exact hw td htd
  · intro td htd
    rcases mem_append.mp htd with htd | htd
    · exact hw td htd
    · rw [mem_singleton.mp htd]
      exact hn
  · exact below_modify hw fun _ _ ↦ hn
  · exact below_modify hw fun _ h ↦ h

/-! ## Blocks -/

lemma processNewBlockchainEntry_invariant
    (hchange : ∀ e ∈ b.processed env, ∀ {w w'}, Change env (b.circumstances height e.1) e.2 w w' →
      P w → P w') (hw : P w) (h : processNewBlockchainEntry env table b height w = .ok w') :
    height = w.blockchain.length ∧ ∃ v, P v ∧ v.blockchain = w.blockchain ∧
      w' = { v with blockchain := w.blockchain ++ [b.hash] } := by
  obtain ⟨_, hheight, h⟩ := bind_eq_ok.mp h
  obtain ⟨v, hv, h⟩ := bind_eq_ok.mp h
  cases h
  refine ⟨of_check_eq_ok hheight, v, ?_⟩
  suffices hsuff : P v ∧ v.blockchain = w.blockchain from ⟨hsuff.1, hsuff.2, by rw [hsuff.2]⟩
  split at hv
  next =>
    cases hv
    exact ⟨hw, rfl⟩
  next =>
    refine foldlM_rel
      (R := fun a b ↦ (P a ∧ a.blockchain = w.blockchain → P b ∧ b.blockchain = w.blockchain))
      (fun _ h ↦ h) (fun h h' ha ↦ h' (h ha)) (fun e he {x x'} hx ⟨hPx, hxchain⟩ ↦ ?_) hv ⟨hw, rfl⟩
    exact processNewTransaction_invariant (P := fun v ↦ P v ∧ v.blockchain = w.blockchain)
      (fun hstep hP ↦ ⟨hchange e he hstep hP.1, hstep.blockchain.trans hP.2⟩) ⟨hPx, hxchain⟩ hx

lemma foldlM_eraseFound {message : String} {ks : List ℕ} {m m' : Table ℕ ℕ}
    (h : ks.foldlM (eraseFound message) m = .ok m') (k : ℕ) :
    m'.get? k = if k ∈ ks then none else m.get? k := by
  induction ks generalizing m with
  | nil =>
    cases h
    simp
  | cons x ks ih =>
    rw [foldlM_cons] at h
    obtain ⟨m₁, hfound, hrest⟩ := bind_eq_ok.mp h
    unfold eraseFound at hfound
    split at hfound
    next => cases hfound
    next =>
      cases hfound
      rw [ih hrest, Table.get?_erase]
      simp only [mem_cons]
      by_cases hk : k ∈ ks
      · simp [hk]
      · simp [hk]

@[simp] lemma reset_output (n : ℕ) (td : TransferDetails) :
    (td.reset n).key = td.key ∧ (td.reset n).keyImage = td.keyImage ∧
      (td.reset n).keyImageKnown = td.keyImageKnown ∧
      (td.reset n).blockHeight = td.blockHeight := by
  unfold reset
  split <;> exact ⟨rfl, rfl, rfl, rfl⟩

def keptTransfers (n : ℕ) (l : List TransferDetails) : List TransferDetails :=
  (l.map (reset n)).takeWhile fun td ↦ td.blockHeight < n

def detachedTransfers (n : ℕ) (l : List TransferDetails) : List TransferDetails :=
  (l.map (reset n)).dropWhile fun td ↦ td.blockHeight < n

lemma keptTransfers_append (n : ℕ) (l : List TransferDetails) :
    keptTransfers n l ++ detachedTransfers n l = l.map (reset n) :=
  takeWhile_append_dropWhile

lemma keptTransfers_below (h : td ∈ keptTransfers n l) : td.blockHeight < n := by
  simpa using mem_takeWhile_imp h

lemma keptTransfers_getElem? {i : ℕ} (h : l[i]? = some td) :
    (keptTransfers n l)[i]? = some (td.reset n) ∨ td.reset n ∈ detachedTransfers n l := by
  have hi : (keptTransfers n l ++ detachedTransfers n l)[i]? = some (td.reset n) := by
    rw [keptTransfers_append, getElem?_map, h, Option.map_some]
  by_cases hlt : i < (keptTransfers n l).length
  · exact .inl (getElem?_append_left hlt ▸ hi)
  · rw [getElem?_append_right (Nat.le_of_not_lt hlt)] at hi
    exact .inr (mem_of_getElem? hi)

/-- What is left of a wallet at a height. -/
structure Detached (n : ℕ) (w w' : Wallet) : Prop where
  blockchain : w'.blockchain = w.blockchain.take n
  transfers : w'.transfers = keptTransfers n w.transfers
  keyImages : ∀ k, w'.keyImages.get? k = if k ∈ ((detachedTransfers n w.transfers).filter
    keyImageKnown).map keyImage then none else w.keyImages.get? k
  pubKeys : ∀ k, w'.pubKeys.get? k = if k ∈ (detachedTransfers n w.transfers).map key
    then none else w.pubKeys.get? k
  payments : w'.payments = w.payments.filter fun p ↦ p.2.blockHeight < n
  confirmedTxs : w'.confirmedTxs = w.confirmedTxs.filter fun d ↦ d.blockHeight < n
  unconfirmedTxs : w'.unconfirmedTxs = w.unconfirmedTxs
  unconfirmedPayments : w'.unconfirmedPayments = w.unconfirmedPayments

lemma detachBlockchain_eq_ok (h : detachBlockchain n w = .ok w') : Detached n w w' := by
  obtain ⟨keyImages, hki, h⟩ := bind_eq_ok.mp h
  obtain ⟨pubKeys, hpub, h⟩ := bind_eq_ok.mp h
  cases h
  exact ⟨rfl, rfl, foldlM_eraseFound hki, foldlM_eraseFound hpub, rfl, rfl, rfl, rfl⟩

lemma handleReorg_eq_ok (h : handleReorg n w = .ok w') : Detached n w w' := by
  obtain ⟨v, hdetach, h⟩ := bind_eq_ok.mp h
  have hv := detachBlockchain_eq_ok hdetach
  cases h
  split
  · exact ⟨hv.1, hv.2, hv.3, hv.4, hv.5, hv.6, hv.7, hv.8⟩
  · exact hv

lemma Detached.consistent (h : Detached n w w') (hw : w.Consistent) : w'.Consistent := by
  refine ⟨fun {k i} hk ↦ ?_, fun {k i} hk ↦ ?_⟩
  · rw [h.pubKeys] at hk
    split at hk
    next => cases hk
    next hnot =>
      obtain ⟨td, htd, rfl⟩ := hw.pubKeys hk
      rw [h.transfers]
      have hkey := (reset_output n td).1
      rcases keptTransfers_getElem? (n := n) htd with hkept | hgone
      · exact ⟨_, hkept, hkey⟩
      · exact absurd (mem_map.mpr ⟨_, hgone, hkey⟩) hnot
  · rw [h.keyImages] at hk
    split at hk
    next => cases hk
    next hnot =>
      obtain ⟨td, htd, rfl, hknown⟩ := hw.keyImages hk
      rw [h.transfers]
      obtain ⟨-, hki, hknown', -⟩ := reset_output n td
      have hknown' := hknown'.trans hknown
      rcases keptTransfers_getElem? (n := n) htd with hkept | hgone
      · exact ⟨_, hkept, hki, hknown'⟩
      · exact absurd (mem_map.mpr ⟨td.reset n, mem_filter.mpr ⟨hgone, hknown'⟩, hki⟩) hnot

lemma Detached.below (h : Detached n w w') : w'.Below n := by
  intro td htd
  rw [h.transfers] at htd
  exact keptTransfers_below htd

lemma placeBlock_eq_ok (h : placeBlock env table startHeight w (b, height) = .ok w') :
    (w.blockchain[height]? = none ∧ processNewBlockchainEntry env table b height w = .ok w') ∨
    (w.blockchain[height]? = some b.hash ∧ w' = w) ∨
    (height < w.blockchain.length ∧ w.blockchain[height]? ≠ some b.hash ∧
      ∃ v, handleReorg height w = .ok v ∧
        processNewBlockchainEntry env table b height v = .ok w') := by
  unfold placeBlock at h
  simp only at h
  split at h
  next hnone => exact .inl ⟨hnone, h⟩
  next known hknown =>
    split at h
    next heq =>
      cases h
      exact .inr (.inl ⟨heq ▸ hknown, rfl⟩)
    next hne =>
      obtain ⟨_, -, h⟩ := bind_eq_ok.mp h
      obtain ⟨_, -, h⟩ := bind_eq_ok.mp h
      obtain ⟨v, hv, h⟩ := bind_eq_ok.mp h
      refine .inr (.inr ⟨(List.getElem?_eq_some_iff.mp hknown).1, fun heq ↦ ?_, v, hv, h⟩)
      rw [hknown] at heq
      exact hne (Option.some.inj heq).symm

/-- What holds of the indices and heights of every wallet. -/
structure Wallet.Sound (w : Wallet) : Prop where
  consistent : w.Consistent
  below : w.Below w.blockchain.length

lemma processNewBlockchainEntry_sound (hw : w.Sound)
    (h : processNewBlockchainEntry env table b height w = .ok w') : w'.Sound := by
  have hlt : height < w.blockchain.length + 1 := by
    obtain ⟨hheight, -⟩ := processNewBlockchainEntry_invariant (P := fun _ ↦ True)
      (fun _ _ _ _ _ _ ↦ trivial) trivial h
    omega
  obtain ⟨-, v, ⟨hconsistent, hbelow⟩, -, rfl⟩ := processNewBlockchainEntry_invariant
    (P := fun v ↦ v.Consistent ∧ v.Below (w.blockchain.length + 1))
    (fun e he {_ _} hchange hv ↦ ⟨hchange.consistent hv.1, hchange.below hlt hv.2⟩)
    ⟨hw.consistent, hw.below.mono (Nat.le_succ _)⟩ h
  refine ⟨hconsistent.of_sameOutputs rfl rfl rfl, ?_⟩
  intro td htd
  have := hbelow td htd
  simpa using this

lemma Detached.sound (h : Detached n w w') (hn : n ≤ w.blockchain.length)
    (hw : w.Consistent) : w'.Sound := by
  refine ⟨h.consistent hw, h.below.mono ?_⟩
  rw [h.blockchain, length_take]
  omega

lemma placeBlock_sound (hw : w.Sound)
    (h : placeBlock env table startHeight w (b, height) = .ok w') :
    w'.Sound := by
  rcases placeBlock_eq_ok h with ⟨-, hnew⟩ | ⟨-, rfl⟩ | ⟨hlt, -, v, hreorg, hnew⟩
  · exact processNewBlockchainEntry_sound hw hnew
  · exact hw
  · exact processNewBlockchainEntry_sound
      ((handleReorg_eq_ok hreorg).sound hlt.le hw.consistent) hnew

/-! ## The pool and own transactions -/

/-- A predicate that does not mind whether the output of an input is spent. -/
def IgnoresSpent (P : Wallet → Prop) (input : TxIn) : Prop :=
  ∀ {w i td}, w.keyImages.get? input.keyImage = some i → w.transfers[i]? = some td → P w →
    P (w.setSpent i 0) ∧ P (w.setUnspent i)

lemma setTxKeyImagesSpent_invariant {tx : Tx} {spent : Bool}
    (hspent : ∀ input ∈ tx.vin, IgnoresSpent P input) (hw : P w) :
    P (setTxKeyImagesSpent tx spent w) := by
  refine foldlRecOn tx.vin _ hw fun w hw input hinput ↦ ?_
  unfold setKeyImageSpent
  split
  next => exact hw
  next i hi =>
    split
    next => exact hw
    next td htd =>
      split
      next => exact hw
      next =>
        split
        · exact (hspent input hinput hi htd hw).1
        · exact (hspent input hinput hi htd hw).2

section

variable (hstate : ∀ {w txid d} state, w.unconfirmedTxs.get? txid = some d → P w → P (setState w
  txid d state)) (hspent : ∀ {w txid d}, w.unconfirmedTxs.get? txid = some d → P w → ∀ input ∈
  d.tx.vin, IgnoresSpent P input) {p : PoolCheck}

include hstate hspent

lemma processUnconfirmedTransfers_invariant {seen : ℕ → Bool} (hw : P w) :
    P (processUnconfirmedTransfers p seen w) := by
  refine foldlRecOn _ _ hw fun w hw txid _ ↦ ?_
  unfold processUnconfirmedTransfer
  split
  next => exact hw
  next d hd =>
    split
    next => exact setTxKeyImagesSpent_invariant (hspent hd hw) (hstate _ hd hw)
    next =>
      split
      next => exact setTxKeyImagesSpent_invariant (hspent hd hw) (hstate _ hd hw)
      next => exact hstate _ hd hw

lemma updatePoolStateFromPoolData_invariant {removed : List ℕ} {added : List PoolTx}
    (hremove : ∀ {w} hashes found, P w → P (removeObsoletePoolTxs hashes found w)) (hw : P w) :
    P (updatePoolStateFromPoolData p removed added w).1 := by
  refine processUnconfirmedTransfers_invariant hstate hspent ?_
  split
  · split
    · exact hremove _ _ hw
    · exact hremove _ _ hw
  · exact hw

lemma updatePoolStateByPoolQuery_invariant {refreshed : Bool} {hashes : List ℕ}
    {answer : List ℕ → List PoolTx}
    (hremove : ∀ {w} hashes found, P w → P (removeObsoletePoolTxs hashes found w)) (hw : P w) :
    P (updatePoolStateByPoolQuery now refreshed hashes answer w).1 := by
  unfold updatePoolStateByPoolQuery
  simp only
  split
  · exact hremove _ _ (processUnconfirmedTransfers_invariant hstate hspent hw)
  · exact processUnconfirmedTransfers_invariant hstate hspent hw

end

lemma commitTx_invariant {ptx : PendingTx}
    (hadd : ∀ {w : Wallet} (d : UnconfirmedTransferDetails), d.tx = ptx.tx → P w →
      P { w with unconfirmedTxs := w.unconfirmedTxs.set ptx.txid d })
    (hspent : ∀ {w : Wallet}, ∀ i ∈ ptx.selectedTransfers, P w → P (w.setSpent i 0)) (hw : P w)
    (h : commitTx env now ptx w = .ok w') : P w' := by
  obtain ⟨_, -, h⟩ := bind_eq_ok.mp h
  split at h
  next =>
    cases h
    exact hw
  next =>
    cases h
    exact foldlRecOn _ _ (hadd _ rfl hw) fun w hw i hi ↦ hspent i hi hw

lemma Wallet.Sound.of_same (h : w.Sound) (hchain : w'.blockchain = w.blockchain)
    (htransfers : w'.transfers = w.transfers) (hki : w'.keyImages = w.keyImages)
    (hpub : w'.pubKeys = w.pubKeys) : w'.Sound := by
  refine ⟨h.consistent.of_sameOutputs ?_ hpub hki, ?_⟩
  · rw [htransfers]
    rfl
  · rw [hchain]
    intro td htd
    rw [htransfers] at htd
    exact h.below td htd

lemma Wallet.Sound.setSpent (h : w.Sound) (i height : ℕ) : (w.setSpent i height).Sound :=
  ⟨h.consistent.of_sameOutputs (sameOutputs_modify i fun _ ↦ rfl) rfl rfl,
    below_modify h.below fun _ h ↦ h⟩

lemma Wallet.Sound.setUnspent (h : w.Sound) (i : ℕ) : (w.setUnspent i).Sound :=
  ⟨h.consistent.of_sameOutputs (sameOutputs_modify i fun _ ↦ rfl) rfl rfl,
    below_modify h.below fun _ h ↦ h⟩

lemma Wallet.Sound.ignoresSpent (input : TxIn) : IgnoresSpent Wallet.Sound input :=
  fun _ _ hw ↦ ⟨hw.setSpent _ 0, hw.setUnspent _⟩

lemma processPoolTx_eq_ok {t : PoolTx} (h : processPoolTx env now w t = .ok w') :
    ∃ v scanned, processNewTransaction env ⟨0, 0, now, false, true, t.doubleSpendSeen⟩
        { t.entry with outputIndices := [] } .none w = .ok v ∧
      w' = { v with scannedPoolTxs := scanned } := by
  obtain ⟨v, hv, h⟩ := bind_eq_ok.mp h
  cases h
  exact ⟨v, _, hv, rfl⟩

lemma step_sound {event : Event} (hw : w.Sound) (h : step env event w = .ok w') : w'.Sound := by
  have hstate : ∀ {w : Wallet} {txid d} state, w.unconfirmedTxs.get? txid = some d → w.Sound →
      (setState w txid d state).Sound := fun _ _ hw ↦ hw.of_same rfl rfl rfl rfl
  cases event with
  | block table startHeight b height => exact placeBlock_sound hw h
  | poolData p removed added =>
    cases h
    exact updatePoolStateFromPoolData_invariant hstate
      (fun _ _ input _ ↦ Wallet.Sound.ignoresSpent input)
      (fun _ _ hw ↦ hw.of_same rfl rfl rfl rfl) hw
  | poolQuery now refreshed hashes answer =>
    cases h
    exact updatePoolStateByPoolQuery_invariant hstate
      (fun _ _ input _ ↦ Wallet.Sound.ignoresSpent input)
      (fun _ _ hw ↦ hw.of_same rfl rfl rfl rfl) hw
  | poolTx now t =>
    obtain ⟨v, scanned, hv, rfl⟩ := processPoolTx_eq_ok h
    have hsound : v.Consistent ∧ v.blockchain = w.blockchain ∧ v.Below w.blockchain.length := by
      refine processNewTransaction_invariant
        (P := fun v ↦ v.Consistent ∧ v.blockchain = w.blockchain ∧ v.Below w.blockchain.length)
        (fun hchange ⟨hc, hchain, hb⟩ ↦
          ⟨hchange.consistent hc, hchange.blockchain.trans hchain, ?_⟩)
        ⟨hw.consistent, rfl, hw.below⟩ hv
      -- The height of a pool transaction is 0, but only a block adds transfers.
      rcases hchange.ledger with hsame | ⟨_, _, _, hpool, -⟩ | ⟨_, _, _, _, _, hpool, -⟩ |
        ⟨_, _, _, -, -, -, rfl⟩
      · intro td htd
        rw [hsame.transfers] at htd
        exact hb td htd
      · cases hpool
      · cases hpool
      · exact below_modify hb fun _ h ↦ h
    have hv : v.Sound := ⟨hsound.1, by rw [hsound.2.1]; exact hsound.2.2⟩
    exact hv.of_same rfl rfl rfl rfl
  | commit now ptx =>
    exact commitTx_invariant (fun _ _ hw ↦ hw.of_same rfl rfl rfl rfl)
      (fun i _ hw ↦ hw.setSpent i 0) hw h

lemma Reaches.sound (h : Reaches env w w') (hw : w.Sound) : w'.Sound := by
  induction h with
  | refl => exact hw
  | tail _ hstep ih =>
    obtain ⟨event, hevent⟩ := hstep
    exact step_sound ih hevent

lemma reaches_of_run {events : List Event}
    (h : runEvents env events w = .ok w') : Reaches env w w' :=
  foldlM_rel (R := Reaches env) (fun _ ↦ .refl) (fun h h' ↦ h.trans h')
    (fun event _ _ _ hstep ↦ .single ⟨event, hstep⟩) h

lemma init_sound (genesis : ℕ) (labels : List ℕ) (subaddresses : List SubaddressIndex) :
    (Wallet.init genesis labels subaddresses).Sound where
  consistent := ⟨(nomatch ·), (nomatch ·)⟩
  below := fun _ htd ↦ absurd htd not_mem_nil

def sampleEnv : Env where
  keyImageOf := fun key ↦ key + 1000
  refreshType := .optimizeCoinbase
  shouldSkipBlock := fun _ _ ↦ false
  subaddressLookaheadMajor := 1
  subaddressLookaheadMinor := 2
  trackUses := false
  storeTxInfo := true
  maxReorgDepth := 10

def sampleTx (vin : List TxIn) (vout : List TxOut) : Tx := ⟨2, 0, vin, vout, 1, none, 0⟩

def sampleOut (key amount : ℕ) : TxOut := ⟨key, 0, [[(⟨0, 0⟩, amount)]]⟩

def sampleIn (key : ℕ) (keyOffsets : List ℕ) : TxIn := ⟨sampleEnv.keyImageOf key, 0, keyOffsets⟩

def sampleBlock (hash prevId : ℕ) (txs : List TxEntry) : Block :=
  ⟨hash, prevId, 16, 0, ⟨hash + 1000, sampleTx [] [], []⟩, txs⟩

def sampleWallet : Wallet := .init 100 [1] [⟨0, 0⟩, ⟨0, 1⟩]

def receiving : Event :=
  .block [⟨0, 0⟩] 0
    (sampleBlock 101 100 [⟨1, sampleTx [] [sampleOut 6 5, sampleOut 7 5], [2, 3]⟩]) 1

def spending : Event :=
  .block [⟨0, 0⟩] 0 (sampleBlock 102 101 [⟨2, sampleTx [sampleIn 7 [3]] [], []⟩]) 2

/-- A wallet that has received two outputs and spent one of them. -/
def afterSpending : Wallet :=
  ((runEvents sampleEnv [receiving, spending] sampleWallet).toOption).getD sampleWallet

lemma afterSpending_reached : Reaches sampleEnv sampleWallet afterSpending :=
  reaches_of_run (show runEvents sampleEnv [receiving, spending] sampleWallet =
    .ok afterSpending from rfl)

end Monero.Scanning
