import Monero.Scanning.Events

/-!
# Spends that a block confirmed

An output that a block marked as spent stays so as long as the wallet meets no other
transaction with its key image: neither in the pool, nor among its own, nor in a block.
With such a transaction the spend can be forgotten.
-/

namespace Monero.Scanning

open Monero.Lib List

/-- An output that was marked as spent, with the keys of the transfers up to it and the chain. -/
structure Mark where
  idx : ℕ
  key : ℕ
  keyImage : ℕ
  height : ℕ
  keys : List ℕ
  hashes : List ℕ

def Mark.of (w : Wallet) (idx : ℕ) (td : TransferDetails) : Mark :=
  ⟨idx, td.key, td.keyImage, td.spentHeight, (w.transfers.take (idx + 1)).map TransferDetails.key,
    w.blockchain⟩

structure Mark.Kept (m : Mark) (w : Wallet) : Prop where
  consistent : w.Consistent
  spent : ∃ td, w.transfers[m.idx]? = some td ∧ td.key = m.key ∧ td.keyImage = m.keyImage ∧
    td.spent = true ∧ td.spentHeight = m.height
  earlier : ∀ {j td}, j ≤ m.idx → w.transfers[j]? = some td → td.key ∈ m.keys ∧
    td.blockHeight ≤ m.height
  pending : ∀ {txid d}, w.unconfirmedTxs.get? txid = some d → ∀ input ∈ d.tx.vin,
    input.keyImage ≠ m.keyImage
  length : m.hashes.length = m.height + 1
  chain : w.blockchain.take (m.height + 1) = m.hashes

/-- The transaction does not have the key image. -/
def Mark.NotSpentBy (m : Mark) (tx : Tx) : Prop := ∀ input ∈ tx.vin, input.keyImage ≠ m.keyImage

/-- It has no output with one of the keys either. -/
def Mark.Spared (m : Mark) (tx : Tx) : Prop := m.NotSpentBy tx ∧ ∀ out ∈ tx.vout, out.key ∉ m.keys

variable {env : Env} {c : Circumstances} {entry : TxEntry} {m : Mark}

variable {w w' : Wallet}

lemma Mark.Kept.of_same (h : m.Kept w) (hchain : w'.blockchain = w.blockchain)
    (htransfers : w'.transfers = w.transfers) (hki : w'.keyImages = w.keyImages)
    (hpub : w'.pubKeys = w.pubKeys)
    (hpending : ∀ {txid d}, w'.unconfirmedTxs.get? txid = some d → ∀ input ∈ d.tx.vin,
      input.keyImage ≠ m.keyImage) : m.Kept w' where
  consistent := h.consistent.of_sameOutputs (by rw [htransfers]; rfl) hpub hki
  spent := by
    rw [htransfers]
    exact h.spent
  earlier := by
    rw [htransfers]
    exact h.earlier
  pending := hpending
  length := h.length
  chain := by
    rw [hchain]
    exact h.chain

lemma Mark.Kept.modify (h : m.Kept w) {j : ℕ} {f : TransferDetails → TransferDetails}
    (hj : j ≠ m.idx) (hf : ∀ td,
      ((f td).key, (f td).keyImage, (f td).keyImageKnown) =
        (td.key, td.keyImage, td.keyImageKnown))
    (hheight : m.idx < j ∨ ∀ td, (f td).blockHeight = td.blockHeight) :
    m.Kept { w with transfers := w.transfers.modify j f } where
  consistent := h.consistent.of_sameOutputs (sameOutputs_modify j hf) rfl rfl
  spent := by
    obtain ⟨td, htd, hrest⟩ := h.spent
    refine ⟨td, ?_, hrest⟩
    simp [getElem?_modify, htd, if_neg hj]
  earlier := by
    intro i td hi htd
    rw [getElem?_modify] at htd
    obtain ⟨old, hold, rfl⟩ := Option.map_eq_some_iff.mp htd
    obtain ⟨hmem, hle⟩ := h.earlier hi hold
    split
    next hij =>
      have hkey : (f old).key = old.key := congrArg Prod.fst (hf old)
      refine ⟨by rwa [hkey], ?_⟩
      rcases hheight with hlt | hsame
      · omega
      · rwa [hsame]
    next => exact ⟨hmem, hle⟩
  pending := h.pending
  length := h.length
  chain := h.chain

lemma Mark.Kept.ne_of_keyImage (h : m.Kept w) {j k : ℕ} (hj : w.keyImages.get? k = some j)
    (hk : k ≠ m.keyImage) : j ≠ m.idx := by
  rintro rfl
  obtain ⟨td, htd, -, hki, -⟩ := h.spent
  obtain ⟨td', htd', rfl, -⟩ := h.consistent.keyImages hj
  rw [htd] at htd'
  cases htd'
  exact hk hki

lemma Change.kept (hspared : m.NotSpentBy entry.tx)
    (hkeys : c.pool = false → ∀ out ∈ entry.tx.vout, out.key ∉ m.keys)
    (h : Change env c entry w w') (hw : m.Kept w) : m.Kept w' := by
  cases h with
  | unconfirmed =>
    obtain ⟨_, heq⟩ := processUnconfirmed_eq env w entry.txid c.height
    rw [heq]
    refine hw.of_same rfl rfl rfl rfl fun {txid d} hd ↦ ?_
    rw [Table.get?_erase] at hd
    split at hd
    next => cases hd
    next => exact hw.pending hd
  | background =>
    obtain ⟨_, heq⟩ := addToBackground_eq c entry w
    rw [heq]
    exact hw.of_same rfl rfl rfl rfl hw.pending
  | expand =>
    obtain ⟨_, _, -, heq⟩ := expandOnReceipt_eq env w _
    rw [heq]
    exact hw.of_same rfl rfl rfl rfl hw.pending
  | track => exact hw.of_same rfl rfl rfl rfl hw.pending
  | push =>
    have hold : ∀ {j : ℕ}, j ≤ m.idx → ∀ td, (w.transfers ++ [td])[j]? = w.transfers[j]? := by
      intro j hj td
      obtain ⟨t, ht, -⟩ := hw.spent
      have hlt := (List.getElem?_eq_some_iff.mp ht).1
      exact getElem?_append_left (hj.trans_lt hlt)
    refine ⟨hw.consistent.addTransfer _, ?_, fun hj htd ↦ ?_, hw.pending, hw.length, hw.chain⟩
    · simp only [addTransfer, hold le_rfl]
      exact hw.spent
    · simp only [addTransfer, hold hj] at htd
      exact hw.earlier hj htd
  | @replace idx _ td out txOut hpool hout hidx htd _ =>
    have hlt : m.idx < idx := by
      by_contra hle
      obtain ⟨td', htd', hkey⟩ := hw.consistent.pubKeys hidx
      have hmem := (hw.earlier (Nat.le_of_not_lt hle) htd').1
      rw [hkey] at hmem
      exact hkeys hpool txOut (mem_of_getElem? hout) hmem
    exact hw.modify hlt.ne' (fun _ ↦ rfl) (.inl hlt)
  | spend hinput hidx htd =>
    exact hw.modify (hw.ne_of_keyImage hidx (hspared _ hinput)) (fun _ ↦ rfl) (.inr fun _ ↦ rfl)
  | outgoing =>
    unfold keepOutgoing
    split
    · split
      · exact hw
      · refine hw.of_same rfl rfl rfl rfl fun {txid d} hd ↦ ?_
        simp only [addUnconfirmedTx, Table.get?_set] at hd
        split at hd
        next =>
          cases hd
          exact hspared
        next => exact hw.pending hd
    · simp only
      split
      · exact hw.of_same rfl rfl rfl rfl hw.pending
      · exact hw.of_same rfl rfl rfl rfl hw.pending
  | payment =>
    obtain ⟨_, _, heq⟩ := addPayment_eq c entry _ _ w _
    rw [heq]
    exact hw.of_same rfl rfl rfl rfl hw.pending

/-! ## Blocks -/

lemma takeWhile_getElem? {α : Type} {p : α → Bool} {l : List α} {i : ℕ}
    (h : ∀ {j a}, j ≤ i → l[j]? = some a → p a = true) : (l.takeWhile p)[i]? = l[i]? := by
  induction l generalizing i with
  | nil => rfl
  | cons a l ih =>
    rw [takeWhile_cons_of_pos (h (Nat.zero_le i) rfl)]
    cases i with
    | zero => rfl
    | succ i => exact ih fun {j x} hj hx ↦ h (j := j + 1) (Nat.succ_le_succ hj) hx

lemma Detached.kept {n : ℕ} (h : Detached n w w') (hn : m.height < n) (hw : m.Kept w) :
    m.Kept w' := by
  have hplace : ∀ {j : ℕ}, j ≤ m.idx →
      w'.transfers[j]? = (w.transfers[j]?).map (TransferDetails.reset n) := by
    intro j hj
    rw [h.transfers, keptTransfers, takeWhile_getElem?, getElem?_map]
    intro i td hi htd
    rw [getElem?_map, Option.map_eq_some_iff] at htd
    obtain ⟨old, hold, rfl⟩ := htd
    have := (hw.earlier (hi.trans hj) hold).2
    simp only [reset_output, decide_eq_true_eq]
    omega
  refine ⟨h.consistent hw.consistent, ?_, fun {j td} hj htd ↦ ?_, ?_, hw.length, ?_⟩
  · obtain ⟨td, htd, hkey, hki, hspent, hheight⟩ := hw.spent
    have hreset : td.reset n = td := by
      rw [TransferDetails.reset, if_neg]
      omega
    refine ⟨td, ?_, hkey, hki, hspent, hheight⟩
    rw [hplace le_rfl, htd, Option.map_some, hreset]
  · rw [hplace hj, Option.map_eq_some_iff] at htd
    obtain ⟨old, hold, rfl⟩ := htd
    simpa using hw.earlier hj hold
  · rw [h.unconfirmedTxs]
    exact hw.pending
  · rw [h.blockchain, take_take, min_eq_left hn, hw.chain]

lemma processNewBlockchainEntry_kept {table : List SubaddressIndex} {b : Block} {height : ℕ}
    (hspared : ∀ e ∈ b.processed env, m.Spared e.2.tx) (hw : m.Kept w)
    (h : processNewBlockchainEntry env table b height w = .ok w') : m.Kept w' := by
  obtain ⟨-, v, hv, hchain, rfl⟩ := processNewBlockchainEntry_invariant (P := m.Kept)
    (fun e he {_ _} hchange hv ↦ hchange.kept (hspared e he).1 (fun _ ↦ (hspared e he).2) hv) hw h
  have hlength : m.height + 1 ≤ v.blockchain.length := by
    have := congrArg length hv.chain
    rw [length_take, hv.length] at this
    omega
  refine ⟨hv.consistent.of_sameOutputs rfl rfl rfl, hv.spent, hv.earlier, hv.pending, hv.length,
    ?_⟩
  rw [← hchain]
  simp only
  rw [take_append_of_le_length hlength, hv.chain]

/-! ## Runs -/

/-- The event brings no other transaction with the key image, no output with one of the keys in a
block, and no other chain up to the height of the spend. -/
def Event.Spares (env : Env) (m : Mark) : Event → Prop
  | .block _ _ b height => (height ≤ m.height ∧ m.hashes[height]? = some b.hash) ∨
      (m.height < height ∧ ∀ e ∈ b.processed env, m.Spared e.2.tx)
  | .poolData _ _ _ => True
  | .poolQuery _ _ _ _ => True
  | .poolTx _ t => m.NotSpentBy t.entry.tx
  | .commit _ ptx => m.idx ∉ ptx.selectedTransfers ∧ m.NotSpentBy ptx.tx

lemma step_kept {event : Event} (hspares : event.Spares env m) (hw : m.Kept w)
    (h : step env event w = .ok w') : m.Kept w' := by
  have hstate : ∀ {w : Wallet} {txid d} state, w.unconfirmedTxs.get? txid = some d → m.Kept w →
      m.Kept (setState w txid d state) := by
    intro w txid d state hd hw
    refine hw.of_same rfl rfl rfl rfl fun {txid' d'} hd' ↦ ?_
    simp only [setState, Table.get?_set] at hd'
    split at hd'
    next =>
      cases hd'
      intro input hinput
      exact hw.pending hd input hinput
    next => exact hw.pending hd'
  have hspent : ∀ {w : Wallet} {txid d}, w.unconfirmedTxs.get? txid = some d → m.Kept w →
      ∀ input ∈ d.tx.vin, IgnoresSpent m.Kept input := by
    intro w txid d hd hw input hinput v i td hi htd hv
    have hne := hv.ne_of_keyImage hi (hw.pending hd input hinput)
    exact ⟨hv.modify hne (fun _ ↦ rfl) (.inr fun _ ↦ rfl),
      hv.modify hne (fun _ ↦ rfl) (.inr fun _ ↦ rfl)⟩
  have hremove : ∀ {w : Wallet} hashes found, m.Kept w →
      m.Kept (removeObsoletePoolTxs hashes found w) :=
    fun _ _ hw ↦ hw.of_same rfl rfl rfl rfl hw.pending
  cases event with
  | block table startHeight b height =>
    rcases hspares with ⟨hle, hhash⟩ | ⟨hlt, hspared⟩
    · -- The block is known.
      have hknown : w.blockchain[height]? = some b.hash := by
        rw [← hhash, ← hw.chain, getElem?_take_of_lt (Nat.lt_succ_of_le hle)]
      rcases placeBlock_eq_ok h with ⟨hnone, -⟩ | ⟨-, rfl⟩ | ⟨-, hne, -⟩
      · rw [hknown] at hnone
        cases hnone
      · exact hw
      · exact absurd hknown hne
    · rcases placeBlock_eq_ok h with ⟨-, hnew⟩ | ⟨-, rfl⟩ | ⟨-, -, v, hreorg, hnew⟩
      · exact processNewBlockchainEntry_kept hspared hw hnew
      · exact hw
      · exact processNewBlockchainEntry_kept hspared ((handleReorg_eq_ok hreorg).kept hlt hw) hnew
  | poolData p removed added =>
    cases h
    exact updatePoolStateFromPoolData_invariant hstate hspent hremove hw
  | poolQuery now refreshed hashes answer =>
    cases h
    exact updatePoolStateByPoolQuery_invariant hstate hspent hremove hw
  | poolTx now t =>
    obtain ⟨v, scanned, hv, rfl⟩ := processPoolTx_eq_ok h
    have hkept := processNewTransaction_invariant (P := m.Kept)
      (fun hchange hw ↦ Change.kept hspares (fun hblock ↦ by cases hblock) hchange hw) hw hv
    exact hkept.of_same rfl rfl rfl rfl hkept.pending
  | commit now ptx =>
    refine commitTx_invariant (P := m.Kept) (fun d hd hw ↦ ?_) (fun i hi hw ↦ ?_) hw h
    · refine hw.of_same rfl rfl rfl rfl fun {txid' d'} hd' ↦ ?_
      simp only [Table.get?_set] at hd'
      split at hd'
      next =>
        cases hd'
        rw [hd]
        exact hspares.2
      next => exact hw.pending hd'
    · refine hw.modify ?_ (fun _ ↦ rfl) (.inr fun _ ↦ rfl)
      rintro rfl
      exact hspares.1 hi

lemma run_kept {events : List Event} (hspares : ∀ event ∈ events, event.Spares env m)
    (hw : m.Kept w) (h : runEvents env events w = .ok w') : m.Kept w' :=
  foldlM_rel (R := fun a b ↦ m.Kept a → m.Kept b) (fun _ h ↦ h) (fun h h' ha ↦ h' (h ha))
    (fun event hevent _ _ hstep ha ↦ step_kept (hspares event hevent) ha hstep) h hw

/-- A spend that was confirmed stays as long as no event brings another transaction with the key
image, another chain up to its height, or a larger output under an old key. -/
theorem confirmed_spend_stays {genesis : ℕ} {labels : List ℕ} {subaddresses : List SubaddressIndex}
    {idx : ℕ} {td : TransferDetails} {events : List Event}
    (hreach : Reaches env (Wallet.init genesis labels subaddresses) w)
    (htd : w.transfers[idx]? = some td) (hspent : td.spent = true)
    (htip : w.blockchain.length = td.spentHeight + 1)
    (hpending : ∀ {txid d}, w.unconfirmedTxs.get? txid = some d → ∀ input ∈ d.tx.vin,
      input.keyImage ≠ td.keyImage)
    (hspares : ∀ event ∈ events, event.Spares env (Mark.of w idx td))
    (hrun : runEvents env events w = .ok w') :
    ∃ td', w'.transfers[idx]? = some td' ∧ td'.key = td.key ∧ td'.keyImage = td.keyImage ∧
      td'.spent = true ∧ td'.spentHeight = td.spentHeight := by
  have hsound := hreach.sound (init_sound genesis labels subaddresses)
  refine (run_kept hspares ⟨hsound.consistent, ⟨td, htd, rfl, rfl, hspent, rfl⟩,
    fun {j t} hj ht ↦ ?_, hpending, htip, take_of_length_le htip.le⟩ hrun).spent
  refine ⟨mem_map_of_mem (mem_of_getElem? (i := j) ?_), ?_⟩
  · rw [getElem?_take_of_lt (show j < idx + 1 from Nat.lt_succ_of_le hj), ht]
  · have hbelow := hsound.below t (mem_of_getElem? ht)
    simp only [Mark.of]
    omega

/-! ## A spend and what follows -/

def later : Event :=
  .block [⟨0, 0⟩] 0 (sampleBlock 103 102 [⟨3, sampleTx [sampleIn 6 [2]] [sampleOut 8 1], [4]⟩]) 3

def spentTransfer : TransferDetails :=
  ⟨1, 1, 1, 3, 7, 1007, true, 5, true, 0, ⟨0, 0⟩, true, 2, false⟩

def afterLater : Wallet := ((runEvents sampleEnv [later] afterSpending).toOption).getD sampleWallet

lemma later_spares :
    ∀ event ∈ [later], event.Spares sampleEnv (Mark.of afterSpending 1 spentTransfer) := by
  intro event hevent
  rw [mem_singleton.mp hevent]
  exact .inr ⟨by decide, by unfold Mark.Spared Mark.NotSpentBy; decide⟩

lemma afterSpending_transfer : afterSpending.transfers[1]? = some spentTransfer := rfl

theorem confirmed_spend_stays_sample : ∃ td, afterLater.transfers[1]? = some td ∧ td.key = 7 ∧
    td.keyImage = 1007 ∧ td.spent = true ∧ td.spentHeight = 2 :=
  confirmed_spend_stays afterSpending_reached afterSpending_transfer rfl rfl (fun {txid d} hd ↦ by
      have hempty : afterSpending.unconfirmedTxs = Table.empty := rfl
      rw [hempty] at hd
      cases hd) later_spares rfl

/-- How an output is spent after a run, if it is there. -/
def spentAfter (events : List Event) (idx : ℕ) : Option (Option (Bool × ℕ)) :=
  (runEvents sampleEnv events sampleWallet).toOption.map fun w ↦
    w.transfers[idx]?.map fun td ↦ (td.spent, td.spentHeight)

/-- Another transaction of the wallet that spends the same output. -/
def conflicting : PendingTx := ⟨4, sampleTx [sampleIn 7 [3]] [], [1], [], 0, 0, 0, [0]⟩

/-- The first output again, with a larger amount, and a block in place of that one. -/
def replacing : Event :=
  .block [⟨0, 0⟩] 0 (sampleBlock 103 102 [⟨3, sampleTx [] [sampleOut 6 9], [4]⟩]) 3

def reorganising : Event := .block [⟨0, 0⟩] 0 (sampleBlock 203 102 []) 3

/-- A spend at height 2 is undone when a pending transaction with the same key image times out,
loses its height when a copy of the transaction is in the pool, and goes with a chain that is
detached above it when the first transfer was replaced. -/
theorem confirmed_spend_forgotten :
    spentAfter [receiving, .commit 0 conflicting, spending] 1 = some (some (true, 2)) ∧
    spentAfter [receiving, .commit 0 conflicting, spending, .poolData ⟨1000, false, true⟩ [] []]
      1 = some (some (false, 0)) ∧
    spentAfter [receiving, spending, .poolTx 0 ⟨⟨2, sampleTx [sampleIn 7 [3]] [], []⟩, false⟩] 1 =
      some (some (true, 0)) ∧
    spentAfter [receiving, spending, replacing] 1 = some (some (true, 2)) ∧
    spentAfter [receiving, spending, replacing, reorganising] 1 = some none := by
  decide +kernel

end Monero.Scanning
