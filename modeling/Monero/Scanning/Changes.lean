import Monero.Scanning.Blocks

/-!
# What processing a transaction can change

Every change that `process_new_transaction` makes to a wallet is one of a few, and each
invariant of the wallet is shown for these.
-/

namespace Monero.Scanning

open Monero.Lib
open Relation (ReflTransGen)

inductive Change (env : Env) (c : Circumstances) (entry : TxEntry) : Wallet → Wallet → Prop
  | unconfirmed {w : Wallet} : c.pool = false →
      Change env c entry w (processUnconfirmed env w entry.txid c.height)
  | background {w : Wallet} : c.pool = false → Change env c entry w (addToBackground c entry w)
  | expand {w : Wallet} {index : SubaddressIndex} :
      Change env c entry w (expandOnReceipt env w index)
  | track {w : Wallet} {txOut : TxOut} {globalIndex idx : ℕ} :
      Change env c entry w (track w txOut globalIndex idx)
  | push {w : Wallet} {pk : ℕ} {out : Out} {txOut : TxOut} : c.pool = false →
      entry.tx.vout[out.o]? = some txOut → w.pubKeys.get? txOut.key = none →
      Change env c entry w (addTransfer w (newTransfer env c entry w pk out txOut))
  | replace {w : Wallet} {idx pk : ℕ} {td : TransferDetails} {out : Out} {txOut : TxOut} :
      c.pool = false → entry.tx.vout[out.o]? = some txOut → w.pubKeys.get? txOut.key = some idx →
      w.transfers[idx]? = some td → td.spent = false →
      Change env c entry w { w with
        transfers := w.transfers.modify idx (replacement c entry pk out txOut) }
  | spend {w : Wallet} {input : TxIn} {idx : ℕ} {td : TransferDetails} : input ∈ entry.tx.vin →
      w.keyImages.get? input.keyImage = some idx → w.transfers[idx]? = some td →
      Change env c entry w { w with
        transfers := w.transfers.modify idx (·.spentBy input c.height) }
  | outgoing {w : Wallet} {spent received account : ℕ} {indices : List ℕ} :
      Change env c entry w (keepOutgoing c entry w spent received account indices)
  | payment {w : Wallet} {paymentId spent : ℕ} {r : SubaddressIndex × ℕ × List ℕ} :
      Change env c entry w (addPayment c entry paymentId spent w r)

variable {env : Env} {c : Circumstances} {entry : TxEntry}

lemma expandOnReceipt_eq (env : Env) (w : Wallet) (index : SubaddressIndex) :
    ∃ labels subaddresses, w.subaddresses ⊆ subaddresses ∧ expandOnReceipt env w index =
      { w with subaddressLabels := labels, subaddresses := subaddresses } := by
  unfold expandOnReceipt
  split
  next => exact ⟨_, _, List.subset_append_left _ _, rfl⟩
  next => exact ⟨_, _, fun _ h ↦ h, rfl⟩

variable {w w' : Wallet} {pk : ℕ} {out : Out} {s s' : Scan} {pre : Precomputed} {txOut : TxOut}

section

variable (hpool : c.pool = false) (hout : entry.tx.vout[out.o]? = some txOut)

include hpool hout

lemma pushTransfer_changes (hnew : w.pubKeys.get? txOut.key = none) :
    ReflTransGen (Change env c entry) w (pushTransfer env c entry w pk out txOut) := by
  obtain ⟨labels, subaddresses, -, heq⟩ := expandOnReceipt_eq env w out.index
  have hpush : Change env c entry (expandOnReceipt env w out.index)
      (addTransfer (expandOnReceipt env w out.index)
        (newTransfer env c entry w pk out txOut)) := by
    rw [heq]
    exact .push hpool hout hnew
  exact .tail (.tail (.single .expand) hpush) .track

lemma replaceTransfer_changes {idx : ℕ} {td : TransferDetails}
    (hidx : w.pubKeys.get? txOut.key = some idx) (htd : w.transfers[idx]? = some td)
    (hspent : td.spent = false) :
    ReflTransGen (Change env c entry) w (replaceTransfer env c entry w idx pk out txOut) := by
  obtain ⟨labels, subaddresses, -, heq⟩ := expandOnReceipt_eq env w out.index
  have hreplace : Change env c entry (expandOnReceipt env w out.index)
      { expandOnReceipt env w out.index with
        transfers := (expandOnReceipt env w out.index).transfers.modify idx
          (replacement c entry pk out txOut) } := by
    rw [heq]
    exact .replace hpool hout hidx htd hspent
  exact .tail (.tail (.single .expand) hreplace) .track

end

lemma scanOutput_wallet {i : ℕ} {index : SubaddressIndex} {amount : ℕ} {scanned : Option ℕ}
    (h : scanOutput s i index amount = .ok (s', scanned)) : s'.wallet = s.wallet := by
  unfold scanOutput at h
  split at h
  · cases h
    rfl
  · obtain ⟨_, -, h⟩ := bind_eq_ok.mp h
    cases h
    rfl

lemma scanOutputs_wallet {outs : List Out}
    (h : scanOutputs env c entry pre s pk = .ok (s', outs)) : s'.wallet = s.wallet := by
  obtain ⟨_, -, h⟩ := bind_eq_ok.mp h
  refine foldlM_rel (R := fun (a b : Scan × List Out) ↦ b.1.wallet = a.1.wallet) (fun _ ↦ rfl)
    (fun h h' ↦ h'.trans h) (fun i _ {a b} hstep ↦ ?_) h
  split at hstep
  next => cases hstep; rfl
  next =>
    obtain ⟨⟨s₁, amount⟩, hscan, hstep⟩ := bind_eq_ok.mp hstep
    cases hstep
    exact scanOutput_wallet hscan

section

variable (h : receiveOutput env c entry pk s out = .ok s')

include h

/-- The key of an output is new, or the output is ignored, or it replaces a smaller one. -/
theorem receiveOutput_cases :
    ∃ txOut, entry.tx.vout[out.o]? = some txOut ∧
      ((s.wallet.pubKeys.get? txOut.key = none ∧ s' = { s with
          wallet := if c.pool then s.wallet else pushTransfer env c entry s.wallet pk out txOut
          totalReceived := (s.totalReceived +
            if txOut.amount ≠ 0 then txOut.amount else out.amount) % 2 ^ 64 }) ∨
        ∃ idx td, s.wallet.pubKeys.get? txOut.key = some idx ∧ s.wallet.transfers[idx]? = some td ∧
          out.amount ≤ s.received.sumAt out.index ∧
          (((td.spent ∨ out.amount ≤ td.amount) ∧
              (∃ r ∈ s.received, r.1 = out.index ∧ out.amount ∈ r.2.2) ∧
              s' = { s with received := s.received.update out.index fun x ↦
                (x.1 - out.amount, x.2.erase out.amount) }) ∨
            td.spent = false ∧ td.amount < out.amount ∧ s' = { s with
              wallet := if c.pool then s.wallet
                else replaceTransfer env c entry s.wallet idx pk out txOut
              received := s.received.update out.index fun x ↦ (x.1 - td.amount, x.2)
              totalReceived := (s.totalReceived +
                sub64 (if txOut.amount ≠ 0 then txOut.amount else out.amount) td.amount) %
                  2 ^ 64 })) := by
  unfold receiveOutput at h
  split at h
  next => cases h
  next txOut hout =>
    refine ⟨txOut, hout, ?_⟩
    simp only at h
    split at h
    next hnew =>
      cases h
      exact .inl ⟨hnew, rfl⟩
    next idx hidx =>
      split at h
      next => cases h
      next td htd =>
        split at h
        next hlarger =>
          obtain ⟨_, hle, h⟩ := bind_eq_ok.mp h
          obtain ⟨_, hmem, h⟩ := bind_eq_ok.mp h
          cases h
          exact .inr ⟨idx, td, hidx, htd, of_check_eq_ok hle,
            .inl ⟨hlarger, of_check_eq_ok hmem, rfl⟩⟩
        next hsmaller =>
          obtain ⟨hspent, hamount⟩ := not_or.mp hsmaller
          obtain ⟨_, hle, h⟩ := bind_eq_ok.mp h
          cases h
          exact .inr ⟨idx, td, hidx, htd, of_check_eq_ok hle,
            .inr ⟨by simpa using hspent, not_le.mp hamount, rfl⟩⟩

lemma receiveOutput_changes : ReflTransGen (Change env c entry) s.wallet s'.wallet := by
  obtain ⟨txOut, hout, ⟨hnew, rfl⟩ | ⟨idx, td, hidx, htd, -, ⟨-, -, rfl⟩ | ⟨hspent, -, rfl⟩⟩⟩ :=
    receiveOutput_cases h
  · by_cases hpool : c.pool = true
    · simp only [if_pos hpool]
      exact .refl
    · simp only [if_neg hpool]
      exact pushTransfer_changes (by simpa using hpool) hout hnew
  · exact .refl
  · by_cases hpool : c.pool = true
    · simp only [if_pos hpool]
      exact .refl
    · simp only [if_neg hpool]
      exact replaceTransfer_changes (by simpa using hpool) hout hidx htd hspent

end

lemma scanPubKey_changes (h : scanPubKey env c entry pre s pk = .ok s') :
    ReflTransGen (Change env c entry) s.wallet s'.wallet := by
  obtain ⟨⟨s₁, outs⟩, hscan, h⟩ := bind_eq_ok.mp h
  have hwallet := scanOutputs_wallet hscan
  simp only at h
  split at h
  next =>
    cases h
    rw [hwallet]
  next =>
    obtain ⟨_, -, h⟩ := bind_eq_ok.mp h
    have hrest :=
      foldlM_rel (R := fun (a b : Scan) ↦ ReflTransGen (Change env c entry) a.wallet b.wallet)
      (fun _ ↦ .refl) (fun h h' ↦ h.trans h') (fun _ _ ↦ receiveOutput_changes) h
    refine .trans ?_ hrest
    rw [← hwallet]
    by_cases hpool : c.pool = true
    · simp only [if_pos hpool]
      exact .refl
    · simp only [if_neg hpool]
      exact .single (.background (by simpa using hpool))

lemma receiveOutputs_changes (h : receiveOutputs env c entry pre w = .ok s) :
    ReflTransGen (Change env c entry) w s.wallet :=
  foldlM_rel (R := fun (a b : Scan) ↦ ReflTransGen (Change env c entry) a.wallet b.wallet)
    (fun _ ↦ .refl) (fun h h' ↦ h.trans h') (fun _ _ ↦ scanPubKey_changes) h

lemma trackUse_changes {known : Bool} {input : TxIn}
    (h : trackUse env c entry w known input = .ok w') :
    ReflTransGen (Change env c entry) w w' := by
  unfold trackUse at h
  split at h
  next hcond =>
    obtain ⟨may, -, h⟩ := bind_eq_ok.mp h
    cases may with
    | false => cases h; exact .refl
    | true => cases h; exact .single (.background (by simpa using hcond.1))
  next => cases h; exact .refl

lemma spendInput_changes {s s' : Spend} {input : TxIn} (hinput : input ∈ entry.tx.vin)
    (h : spendInput env c entry s input = .ok s') :
    ReflTransGen (Change env c entry) s.wallet s'.wallet := by
  unfold spendInput at h
  split at h
  next =>
    obtain ⟨w, htrack, h⟩ := bind_eq_ok.mp h
    cases h
    exact trackUse_changes htrack
  next idx hidx =>
    split at h
    next => cases h
    next td htd =>
      obtain ⟨w, htrack, h⟩ := bind_eq_ok.mp h
      cases h
      refine .trans ?_ (trackUse_changes htrack)
      have hspend : Change env c entry _ _ := .spend hinput hidx htd
      simp only [spendKnown]
      by_cases hpool : c.pool = true
      · simp only [if_pos hpool]
        exact .single hspend
      · simp only [if_neg hpool]
        exact .tail (.single hspend) (.background (by simpa using hpool))

lemma keepPayments_changes {spent : ℕ} {account : Option ℕ}
    (h : keepPayments c entry w s spent account = .ok w') :
    ReflTransGen (Change env c entry) w w' := by
  have hfold : ∀ (got : Received) (w : Wallet), ReflTransGen (Change env c entry) w
      (got.foldl (addPayment c entry s.paymentId spent) w) := by
    intro got
    induction got with
    | nil => exact fun w ↦ .refl
    | cons r got ih => exact fun w ↦ .trans (.single .payment) (ih _)
  unfold keepPayments at h
  simp only at h
  split at h
  next => cases h; exact .refl
  next =>
    obtain ⟨_, -, h⟩ := bind_eq_ok.mp h
    cases h
    exact hfold _ w

section

variable (h : processNewTransaction env c entry pre w = .ok w')

include h

lemma processNewTransaction_changes_after :
    ReflTransGen (Change env c entry)
      (if c.minerTx ∨ c.pool then w else processUnconfirmed env w entry.txid c.height) w' := by
  obtain ⟨s, hreceive, h⟩ := bind_eq_ok.mp h
  obtain ⟨t, hspend, h⟩ := bind_eq_ok.mp h
  have hinputs :=
    foldlM_rel (R := fun (a b : Spend) ↦ ReflTransGen (Change env c entry) a.wallet b.wallet)
    (fun _ ↦ .refl) (fun h h' ↦ h.trans h') (fun _ hinput ↦ spendInput_changes hinput) hspend
  refine (receiveOutputs_changes hreceive).trans (hinputs.trans ?_)
  refine .trans ?_ (keepPayments_changes h)
  split
  next =>
    split
    next => exact .single .outgoing
    next => exact .refl
  next => exact .refl

lemma processNewTransaction_changes : ReflTransGen (Change env c entry) w w' := by
  refine .trans ?_ (processNewTransaction_changes_after h)
  split
  next => exact .refl
  next hblock => exact .single (.unconfirmed (by simpa using fun h ↦ hblock (.inr h)))

end

end Monero.Scanning
