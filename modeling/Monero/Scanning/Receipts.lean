import Monero.Scanning.Events

/-!
# What a transaction pays

While the outputs of a transaction are received a total is counted, and a sum for each
subaddress.  An output under a key that the wallet has already is taken out of the sum
again, or it replaces a smaller one, whose amount is taken out.
-/

namespace Monero.Scanning

open Monero.Lib List

/-! ## Sums over subaddresses -/

def Received.total (r : Received) : ℕ := (r.map fun x ↦ x.2.1).sum

def outsTotal (outs : List Out) : ℕ := (outs.map Out.amount).sum

section Total

variable {r : Received} {index : SubaddressIndex} {f : ℕ × List ℕ → ℕ × List ℕ} {a : ℕ}

lemma Received.total_cons (x : SubaddressIndex × ℕ × List ℕ) (r : Received) :
    Received.total (x :: r) = x.2.1 + Received.total r := sum_cons

lemma Received.total_update_add (hf : ∀ x, (f x).1 = x.1 + a) :
    (r.update index f).total = r.total + a := by
  induction r with
  | nil => simp [Received.update, hf, Received.total]
  | cons x r ih =>
    rw [Received.update]
    split
    next =>
      rw [Received.total_cons, Received.total_cons, hf]
      omega
    next => rw [Received.total_cons, Received.total_cons, ih, Nat.add_assoc]

lemma Received.total_update_sub (hf : ∀ x, (f x).1 = x.1 - a) (ha : a ≤ r.sumAt index) :
    (r.update index f).total + a = r.total := by
  induction r with
  | nil =>
    have hzero : a = 0 := by simpa [Received.sumAt] using ha
    simp [Received.update, hf, Received.total, hzero]
  | cons x r ih =>
    rw [Received.update]
    split
    next hx =>
      have hle : a ≤ x.2.1 := by simpa [Received.sumAt, hx] using ha
      rw [Received.total_cons, Received.total_cons, hf]
      omega
    next hx =>
      rw [Received.total_cons, Received.total_cons, Nat.add_assoc,
        ih (by simpa [Received.sumAt, hx] using ha)]

end Total

/-! ## The receive loops -/

variable {env : Env} {c : Circumstances} {entry : TxEntry} {pre : Precomputed} {pk : ℕ}
  {w : Wallet} {s s' : Scan} {out : Out} {outs : List Out}

/-- An output has the amount that it states, if it states one. -/
def Out.Decoded (entry : TxEntry) (out : Out) : Prop :=
  ∀ {txOut}, entry.tx.vout[out.o]? = some txOut →
    (if txOut.amount ≠ 0 then txOut.amount else out.amount) = out.amount

/-- The total and the sums differ by what is still to be received. -/
structure Counted (entry : TxEntry) (s : Scan) (outs : List Out) : Prop where
  lt : s.totalReceived < 2 ^ 64
  eq : (s.totalReceived + outsTotal outs) % 2 ^ 64 = s.received.total % 2 ^ 64
  decoded : ∀ out ∈ outs, out.Decoded entry

lemma Counted.scanOutput {i decoded : ℕ} {index : SubaddressIndex} {scanned : Option ℕ}
    (hs : Counted entry s outs)
    (h : scanOutput s i index (moneyTransfered c entry i decoded) = .ok (s', scanned)) :
    Counted entry s' (outs ++ (scanned.map fun a ↦ (⟨i, index, a⟩ : Out)).toList) := by
  have hdecoded : Out.Decoded entry ⟨i, index, moneyTransfered c entry i decoded⟩ := by
    intro txOut hout
    split
    next hne => simp [moneyTransfered, hout, hne]
    next => rfl
  have hcount := hs.eq
  unfold Scanning.scanOutput at h
  split at h
  · cases h
    exact ⟨hs.lt, by simpa using hcount, by simpa using hs.decoded⟩
  · obtain ⟨_, -, h⟩ := bind_eq_ok.mp h
    cases h
    refine ⟨hs.lt, ?_, ?_⟩
    · rw [Received.total_update_add fun _ ↦ rfl]
      simp only [outsTotal, Option.map_some, Option.toList_some, map_append, map_cons, map_nil,
        sum_append, sum_cons, sum_nil] at hcount ⊢
      omega
    · exact forall_mem_append.mpr ⟨hs.decoded, forall_mem_singleton.mpr hdecoded⟩

lemma Counted.receiveOutput (hs : Counted entry s (out :: outs))
    (h : receiveOutput env c entry pk s out = .ok s') : Counted entry s' outs := by
  obtain ⟨hdecoded, hothers⟩ := forall_mem_cons.mp hs.decoded
  have hcount : (s.totalReceived + (out.amount + outsTotal outs)) % 2 ^ 64 =
      s.received.total % 2 ^ 64 := hs.eq
  obtain ⟨txOut, hout, ⟨-, rfl⟩ | ⟨idx, td, -, -, hle, ⟨-, -, rfl⟩ | ⟨-, hsmaller, rfl⟩⟩⟩ :=
    receiveOutput_cases h
  · rw [hdecoded hout]
    refine ⟨Nat.mod_lt _ (by decide), ?_, hothers⟩
    simp only
    omega
  · refine ⟨hs.lt, ?_, hothers⟩
    have htotal := @Received.total_update_sub _ _
      (fun x ↦ (x.1 - out.amount, x.2.erase out.amount)) _ (fun _ ↦ rfl) hle
    simp only
    omega
  · rw [hdecoded hout]
    refine ⟨Nat.mod_lt _ (by decide), ?_, hothers⟩
    have htotal := @Received.total_update_sub _ _ (fun x ↦ (x.1 - td.amount, x.2)) _
      (fun _ ↦ rfl) (hsmaller.le.trans hle)
    simp only [sub64]
    omega

lemma Counted.receiveAll (hs : Counted entry s outs)
    (h : outs.foldlM (Scanning.receiveOutput env c entry pk) s = .ok s') :
    Counted entry s' [] := by
  induction outs generalizing s with
  | nil =>
    cases h
    exact hs
  | cons out outs ih =>
    rw [foldlM_cons] at h
    obtain ⟨s₁, hout, hrest⟩ := bind_eq_ok.mp h
    exact ih (hs.receiveOutput hout) hrest

lemma Counted.scanPubKey (hs : Counted entry s [])
    (h : Scanning.scanPubKey env c entry pre s pk = .ok s') : Counted entry s' [] := by
  obtain ⟨⟨s₁, outs⟩, hscan, h⟩ := bind_eq_ok.mp h
  have hs₁ : Counted entry s₁ outs := by
    obtain ⟨_, -, hscan⟩ := bind_eq_ok.mp hscan
    refine foldlM_rel
      (R := fun (a b : Scan × List Out) ↦ Counted entry a.1 a.2 → Counted entry b.1 b.2)
      (fun _ ↦ id) (fun h h' ha ↦ h' (h ha)) (fun i _ {a b} hstep ha ↦ ?_) hscan hs
    split at hstep
    next =>
      cases hstep
      exact ha
    next =>
      obtain ⟨⟨s₂, scanned⟩, hout, hstep⟩ := bind_eq_ok.mp hstep
      cases hstep
      exact ha.scanOutput hout
  simp only at h
  split at h
  next hnil =>
    cases h
    rwa [hnil] at hs₁
  next =>
    obtain ⟨_, -, h⟩ := bind_eq_ok.mp h
    refine Counted.receiveAll ?_ h
    exact ⟨hs₁.lt, hs₁.eq, hs₁.decoded⟩

/-- Whenever the two counts of a transaction are compared they are equal, and the payments are
recorded. -/
theorem totalReceived_eq_sum (h : receiveOutputs env c entry pre w = .ok s) :
    s.totalReceived = (s.received.map fun r ↦ r.2.1).sum % 2 ^ 64 ∧
      ∀ w₁ spent account, ∃ w₂, keepPayments c entry w₁ s spent account = .ok w₂ := by
  have hcounted : Counted entry s [] :=
    foldlM_rel (R := fun a b ↦ Counted entry a [] → Counted entry b []) (fun _ ↦ id)
      (fun h h' ↦ h' ∘ h) (fun _ _ {_ _} hstep ha ↦ ha.scanPubKey hstep) h
      ⟨Nat.two_pow_pos 64, rfl, fun _ hout ↦ absurd hout not_mem_nil⟩
  have heq : s.totalReceived = (s.received.map fun r ↦ r.2.1).sum % 2 ^ 64 := by
    have hcount := hcounted.eq
    rwa [outsTotal, map_nil, sum_nil, Nat.add_zero, Nat.mod_eq_of_lt hcounted.lt] at hcount
  refine ⟨heq, fun w₁ spent account ↦ ?_⟩
  unfold keepPayments
  simp only
  split
  · exact ⟨w₁, rfl⟩
  · exact ⟨_, check_bind heq _ _⟩

def inBlock : Circumstances := ⟨2, 16, 0, false, false, false⟩

def payTo (key : ℕ) : TxEntry := ⟨2, sampleTx [] [sampleOut key 8], [4]⟩

/-- A wallet with an output of 5 under the key 7. -/
def ownerOfSeven : Wallet :=
  { sampleWallet with
    transfers := [⟨1, 1, 0, 3, 7, 1007, true, 5, true, 0, ⟨0, 0⟩, false, 0, false⟩]
    pubKeys := Table.empty.set 7 0 }

theorem totalReceived_eq_sum_reused :
    ∃ s, receiveOutputs sampleEnv inBlock (payTo 7) .none ownerOfSeven = .ok s ∧
      s.totalReceived = 3 ∧ s.totalReceived = (s.received.map fun r ↦ r.2.1).sum % 2 ^ 64 :=
  ⟨_, rfl, rfl, (totalReceived_eq_sum
    (show receiveOutputs sampleEnv inBlock (payTo 7) .none ownerOfSeven = .ok _ from rfl)).1⟩

end Monero.Scanning
