import Monero.Multisig.Exchange

/-!
# The exchange ends in an M-of-N account

All signers run the exchange on each other's messages.  After the main rounds they
have one multisig key, the sum of one share for every group of `N - M + 1`
signers, and each share is with exactly the members of its group.
-/

namespace Monero.Multisig

open Monero.Lib Finset

namespace Parties

variable {ι F P : Type} [Fintype ι] [DecidableEq ι] [Field F] [LinearOrder F] [AddCommGroup P]
  [Module F P] [LinearOrder P] {p : Parties ι F} {c : Crypto F P}

/-! ## Shares and signers -/

lemma Generic.finalShare_mem (g : p.Generic c) {S : Finset ι} (hS : S ∈ groups ι p.rounds)
    (i : ι) : p.finalShare c S ∈ p.finalShares c i ↔ i ∈ S := by
  rw [mem_finalShares]
  constructor
  · rintro ⟨S', hS', heq⟩
    have hSS' := g.finalShare_injOn (mem_coe.mpr (groupsWith_subset i _ hS')) (mem_coe.mpr hS) heq
    rw [← hSS']
    exact (mem_groupsWith.mp hS').2
  · intro hi
    exact ⟨S, mem_groupsWith.mpr ⟨mem_groups.mp hS, hi⟩, rfl⟩

omit [Field F] [LinearOrder F] in
lemma exists_mem_of_threshold_le {A S : Finset ι} (hA : p.threshold ≤ A.card)
    (hS : S ∈ groups ι p.rounds) : ∃ i ∈ A, i ∈ S := by
  by_contra hnone
  have hdisj : Disjoint A S := disjoint_left.mpr fun i hi hi' ↦ hnone ⟨i, hi, hi'⟩
  have hle := card_le_univ (A ∪ S)
  rw [card_union_of_disjoint hdisj, mem_groups.mp hS, rounds] at hle
  have h₁ := p.threshold_le
  omega

omit [Field F] [LinearOrder F] in
lemma exists_group_of_card_lt {A : Finset ι} (hA : A.card < p.threshold) :
    ∃ S ∈ groups ι p.rounds, ∀ i ∈ A, i ∉ S := by
  have hcard : p.rounds ≤ (univ \ A).card := by
    rw [card_sdiff_of_subset (subset_univ A), card_univ, rounds]
    have h₁ := p.threshold_le
    omega
  obtain ⟨S, hsub, hS⟩ := exists_subset_card_eq hcard
  exact ⟨S, mem_groups.mpr hS, fun i hi hiS ↦ (mem_sdiff.mp (hsub hiS)).2 hi⟩

/-! ## The run -/

/-- What the signers are given in each round, as lists of the senders: all the others, and in the
first round each of them once. -/
structure Delivered (feed : ℕ → ι → List ι) : Prop where
  all : ∀ r i j, j ≠ i → j ∈ feed r i
  once : ∀ i j, j ≠ i → (feed 1 i).count j = 1

def accounts (p : Parties ι F) (c : Crypto F P) (feed : ℕ → ι → List ι) (r : ℕ) (i : ι) :
    Account F P :=
  if r = 0 then p.fresh c i
  else p.account c r i (p.kexMap c (min r p.rounds) i (feed (min r p.rounds) i).toFinset)

variable {feed : ℕ → ι → List ι} {r : ℕ}

lemma nextRoundKexMessage_accounts (hr : r ≤ p.rounds) (i : ι) :
    (p.accounts c feed r i).nextRoundKexMessage = p.message c (r + 1) i := by
  cases r with
  | zero => rfl
  | succ r =>
    rw [accounts, if_neg (Nat.succ_ne_zero r), account, min_eq_left hr]

def deliveries (p : Parties ι F) (c : Crypto F P) (r : ℕ) (l : List ι) : Deliveries ι F P :=
  l.map fun j ↦ (j, p.message c r j)

lemma honest_deliveries (l : List ι) : p.Honest c r (p.deliveries c r l) := by
  intro d hd
  obtain ⟨j, _, rfl⟩ := List.mem_map.mp hd
  exact isMsg_message r j

lemma senders_deliveries (l : List ι) : senders (p.deliveries c r l) = l.toFinset := by
  rw [senders, deliveries, List.map_map]
  exact congrArg List.toFinset (List.map_id l)

lemma map_nextRoundKexMessage (hr : r ≤ p.rounds) (l : List ι) :
    l.map (fun j ↦ (p.accounts c feed r j).nextRoundKexMessage) =
      (p.deliveries c (r + 1) l).map Prod.snd := by
  rw [deliveries, List.map_map]
  exact List.map_congr_left fun j _ ↦ nextRoundKexMessage_accounts hr j

lemma Delivered.ne_nil (h : Delivered feed) (hN : 2 ≤ Fintype.card ι) (r : ℕ) (i : ι) :
    feed r i ≠ [] := by
  intro hnil
  obtain ⟨j, hj⟩ := Fintype.exists_ne_of_one_lt_card hN i
  have := h.all r i j hj
  rw [hnil] at this
  exact absurd this List.not_mem_nil

lemma Generic.initializeKex_accounts (g : p.Generic c) (h : Delivered feed) {signers : List P}
    (hsigners : signers.Perm (p.signers c)) (i : ι) :
    (p.accounts c feed 0 i).initializeKex c p.threshold signers
        ((feed 1 i).map fun j ↦ (p.accounts c feed 0 j).nextRoundKexMessage) =
      .ok (p.accounts c feed 1 i) := by
  have honce : ∀ j, j ≠ i → ((p.deliveries c 1 (feed 1 i)).map Prod.fst).count j = 1 := by
    intro j hj
    rw [deliveries, List.map_map]
    exact (congrArg (List.count j) (List.map_id (feed 1 i))).trans (h.once i j hj)
  have hstep := g.initializeKex hsigners (honest_deliveries (feed 1 i)) honce
  rw [senders_deliveries] at hstep
  rw [map_nextRoundKexMessage (Nat.zero_le _), accounts, if_pos rfl, hstep, accounts,
    if_neg one_ne_zero, min_eq_left p.rounds_pos]

lemma Generic.kexUpdate_accounts (g : p.Generic c) (h : Delivered feed) (hr : 1 ≤ r)
    (hrR : r ≤ p.rounds) (i : ι) :
    (p.accounts c feed r i).kexUpdate c
        ((feed (r + 1) i).map fun j ↦ (p.accounts c feed r j).nextRoundKexMessage) false =
      .ok (p.accounts c feed (r + 1) i) := by
  have hall : ∀ j, j ≠ i → j ∈ senders (p.deliveries c (r + 1) (feed (r + 1) i)) := by
    intro j hj
    rw [senders_deliveries, List.mem_toFinset]
    exact h.all (r + 1) i j hj
  have hne : p.deliveries c (r + 1) (feed (r + 1) i) ≠ [] :=
    fun hnil ↦ h.ne_nil p.two_le_card (r + 1) i (List.map_eq_nil_iff.mp hnil)
  rw [map_nextRoundKexMessage hrR, accounts, if_neg (by omega), g.kexUpdate_eq hr hrR, accounts,
    if_neg (by omega)]
  rcases eq_or_lt_of_le hrR with rfl | hlt
  · rw [g.kexUpdateImpl_post (honest_deliveries _) hall hne, min_self,
      min_eq_right (Nat.le_succ _)]
  · have hcovers : Covers r i (feed r i).toFinset :=
      covers_of_forall hr fun j hj ↦ List.mem_toFinset.mpr (h.all r i j hj)
    rw [min_eq_left hrR, g.kexUpdateImpl_main hr hlt (honest_deliveries _) hne
      ⟨covers_of_forall (by omega) hall, fun _ ↦ hall⟩ (keys_kexMap hr hlt hcovers),
      senders_deliveries, min_eq_left (Nat.succ_le_of_lt hlt)]

omit [DecidableEq ι] in
lemma generic_of_forall
    (hkeys : ∀ r ∈ Finset.range (p.rounds + 1), 1 ≤ r → ∀ S ∈ groups ι r, p.kexKey c r S ≠ 0 ∧
      ∀ S' ∈ groups ι r, p.kexKey c r S = p.kexKey c r S' → S = S')
    (hcommon : ∀ i, p.baseCommonPrivkey i ≠ 0)
    (hshares : ∀ S ∈ groups ι p.rounds, p.finalShare c S ≠ 0 ∧
      ∀ S' ∈ groups ι p.rounds, p.finalShare c S = p.finalShare c S' → S = S')
    (hpair : p.commonPrivkey c ≠ 0 ∧ p.commonPubkey c ≠ 0 ∧ p.multisigPubkey c ≠ 0 ∧
      p.multisigPubkey c ≠ p.commonPubkey c) : p.Generic c where
  kexKey_injOn := fun r hr hrR S hS S' hS' heq ↦
    (hkeys r (mem_range.mpr (Nat.lt_succ_of_le hrR)) hr S hS).2 S' hS' heq
  kexKey_ne_zero := fun r hr hrR S hS ↦
    (hkeys r (mem_range.mpr (Nat.lt_succ_of_le hrR)) hr S hS).1
  baseCommonPrivkey_ne_zero := hcommon
  commonPrivkey_ne_zero := hpair.1
  commonPubkey_ne_zero := hpair.2.1
  finalShare_injOn := fun S hS S' hS' heq ↦ (hshares S hS).2 S' hS' heq
  finalShare_ne_zero := fun S hS ↦ (hshares S hS).1
  multisigPubkey_ne_zero := hpair.2.2.1
  multisigPubkey_ne_commonPubkey := hpair.2.2.2

end Parties

/-! ## Small exchanges -/

abbrev SampleScalar := ZMod 103

instance prime_103 : Fact (Nat.Prime 103) := ⟨by norm_num⟩

instance linearOrderSampleScalar :
    LinearOrder SampleScalar := inferInstanceAs (LinearOrder (Fin 103))

def sampleCrypto : Crypto SampleScalar SampleScalar where
  basePoint := 1
  getMultisigBlindedSecretKey := fun d ↦ d * d + (7 : ℕ)
  hashToScalar := fun l ↦ l.foldl (fun a k ↦ (3 : ℕ) * a + k) 1
  hashAggregation := fun key _ ↦ key + (11 : ℕ)

/-- Two signers out of three. -/
def sampleParties : Parties (Fin 3) SampleScalar where
  basePrivkey := fun i ↦ (![2, 3, 5] i : ℕ)
  baseCommonPrivkey := fun i ↦ (![4, 6, 8] i : ℕ)
  threshold := 2
  one_le_threshold := by decide
  threshold_le := by decide
  two_le_card := by decide
  card_le := by decide

/-- Two signers out of two. -/
def sampleCouple : Parties (Fin 2) SampleScalar where
  basePrivkey := fun i ↦ (![2, 3] i : ℕ)
  baseCommonPrivkey := fun i ↦ (![4, 6] i : ℕ)
  threshold := 2
  one_le_threshold := by decide
  threshold_le := by decide
  two_le_card := by decide
  card_le := by decide

/-- One signer out of three. -/
def sampleAny : Parties (Fin 3) SampleScalar where
  basePrivkey := fun i ↦ (![2, 3, 5] i : ℕ)
  baseCommonPrivkey := fun i ↦ (![4, 6, 8] i : ℕ)
  threshold := 1
  one_le_threshold := by decide
  threshold_le := by decide
  two_le_card := by decide
  card_le := by decide

/-- One signer out of two. -/
def sampleEither : Parties (Fin 2) SampleScalar where
  basePrivkey := fun i ↦ (![2, 3] i : ℕ)
  baseCommonPrivkey := fun i ↦ (![4, 6] i : ℕ)
  threshold := 1
  one_le_threshold := by decide
  threshold_le := by decide
  two_le_card := by decide
  card_le := by decide

lemma generic_sampleParties : sampleParties.Generic sampleCrypto :=
  Parties.generic_of_forall (by decide +kernel) (by decide +kernel) (by decide +kernel)
    (by decide +kernel)

lemma generic_sampleCouple : sampleCouple.Generic sampleCrypto :=
  Parties.generic_of_forall (by decide +kernel) (by decide +kernel) (by decide +kernel)
    (by decide +kernel)

/-! ## The account at the end -/

/-- Every call succeeds, all accounts agree, and the shares are spread as an M-of-N account
asks. -/
theorem Parties.exchange_ends {ι F P : Type} [Fintype ι] [DecidableEq ι] [Field F] [LinearOrder F]
    [AddCommGroup P] [Module F P] [LinearOrder P] {p : Parties ι F} {c : Crypto F P}
    (g : p.Generic c) (signers : ι → List P)
    (hsigners : ∀ i, (signers i : Multiset P) = univ.val.map (p.pubkey c)) (feed : ℕ → ι → List ι)
    (h : Parties.Delivered feed) :
    ∃ accs : ℕ → ι → Account F P,
      (∀ i, Account.new c (p.basePrivkey i) (p.baseCommonPrivkey i) = .ok (accs 0 i)) ∧
      (∀ i, (accs 0 i).initializeKex c p.threshold (signers i)
        ((feed 1 i).map fun j ↦ (accs 0 j).nextRoundKexMessage) = .ok (accs 1 i)) ∧
      (∀ r, 1 ≤ r → r ≤ p.rounds → ∀ i, (accs r i).kexUpdate c
        ((feed (r + 1) i).map fun j ↦ (accs r j).nextRoundKexMessage) false =
          .ok (accs (r + 1) i)) ∧
      ∃ (multisigPubkey : P) (commonPrivkey : F) (share : Finset ι → F),
        (∀ i, (accs p.rounds i).multisigPubkey = multisigPubkey ∧
          (accs p.rounds i).commonPrivkey = commonPrivkey ∧
          (accs p.rounds i).commonPubkey = commonPrivkey • c.basePoint) ∧
        multisigPubkey = ∑ S ∈ groups ι p.rounds, share S • c.basePoint ∧
        (∀ i, ∀ k ∈ (accs p.rounds i).multisigPrivkeys, ∃ S ∈ groups ι p.rounds, share S = k) ∧
        (∀ S ∈ groups ι p.rounds, ∀ i, share S ∈ (accs p.rounds i).multisigPrivkeys ↔ i ∈ S) ∧
        (∀ A : Finset ι, p.threshold ≤ A.card → ∀ S ∈ groups ι p.rounds,
          ∃ i ∈ A, share S ∈ (accs p.rounds i).multisigPrivkeys) ∧
        (∀ A : Finset ι, A.card < p.threshold → ∃ S ∈ groups ι p.rounds,
          ∀ i ∈ A, share S ∉ (accs p.rounds i).multisigPrivkeys) ∧
        ∀ i, (accs (p.rounds + 1) i).multisigIsReady = .ok true := by
  have hsorted : ∀ i, (signers i).Perm (p.signers c) := by
    intro i
    refine Multiset.coe_eq_coe.mp ((hsigners i).trans ?_)
    rw [Parties.signers, ascending, coe_sorted, image_val_of_injOn g.pubkey_injective.injOn]
  have hpos : p.rounds ≠ 0 := Nat.one_le_iff_ne_zero.mp p.rounds_pos
  have hprivkeys : ∀ i, (p.accounts c feed p.rounds i).multisigPrivkeys = p.finalShares c i := by
    intro i
    simp [Parties.accounts, hpos, Parties.account]
  have hmember : ∀ S ∈ groups ι p.rounds, ∀ i,
      p.finalShare c S ∈ (p.accounts c feed p.rounds i).multisigPrivkeys ↔ i ∈ S := by
    intro S hS i
    rw [hprivkeys]
    exact g.finalShare_mem hS i
  refine ⟨p.accounts c feed, g.new, fun i ↦ g.initializeKex_accounts h (hsorted i) i,
    fun r hr hrR i ↦ g.kexUpdate_accounts h hr hrR i, p.multisigPubkey c, p.commonPrivkey c,
    p.finalShare c, ?_, rfl, ?_, hmember, ?_, ?_, ?_⟩
  · intro i
    simp [Parties.accounts, hpos, Parties.account, Parties.commonPubkey]
  · intro i k hk
    rw [hprivkeys] at hk
    obtain ⟨S, hS, rfl⟩ := Parties.mem_finalShares.mp hk
    exact ⟨S, Parties.groupsWith_subset i _ hS, rfl⟩
  · intro A hA S hS
    obtain ⟨i, hi, hiS⟩ := Parties.exists_mem_of_threshold_le hA hS
    exact ⟨i, hi, (hmember S hS i).mpr hiS⟩
  · intro A hA
    obtain ⟨S, hS, hmiss⟩ := Parties.exists_group_of_card_lt hA
    exact ⟨S, hS, fun i hi hmem ↦ hmiss i hi ((hmember S hS i).mp hmem)⟩
  · intro i
    rw [Parties.accounts, if_neg (Nat.succ_ne_zero _),
      g.multisigIsReady_account (Nat.le_add_left 1 _)]
    simp

theorem exchange_ends_sample : ∃ accs : ℕ → Fin 3 → Account SampleScalar SampleScalar,
      (∀ i, Account.new sampleCrypto (sampleParties.basePrivkey i)
        (sampleParties.baseCommonPrivkey i) = .ok (accs 0 i)) ∧
      ∀ i, (accs 3 i).multisigIsReady = .ok true := by
  obtain ⟨accs, hnew, _, _, _, _, _, _, _, _, _, _, _, hready⟩ :=
    Parties.exchange_ends generic_sampleParties (fun _ ↦ [5, 2, 3]) (by decide +kernel)
      (fun _ _ ↦ [2, 0, 1]) ⟨fun _ ↦ by decide, by decide⟩
  exact ⟨accs, hnew, hready⟩

/-- If one account is given the other's first message twice, it hashes that private key twice: both
first calls succeed with different common keys, and the next round throws. -/
theorem repeated_message_splits : sampleCouple.Generic sampleCrypto ∧
    ∃ a b a' b' : Account SampleScalar SampleScalar,
      Account.new sampleCrypto (sampleCouple.basePrivkey 0) (sampleCouple.baseCommonPrivkey 0) =
        .ok a ∧
      Account.new sampleCrypto (sampleCouple.basePrivkey 1) (sampleCouple.baseCommonPrivkey 1) =
        .ok b ∧
      a.initializeKex sampleCrypto 2 [2, 3]
        [a.nextRoundKexMessage, b.nextRoundKexMessage, b.nextRoundKexMessage] = .ok a' ∧
      b.initializeKex sampleCrypto 2 [2, 3] [a.nextRoundKexMessage, b.nextRoundKexMessage] =
        .ok b' ∧
      a'.commonPrivkey ≠ b'.commonPrivkey ∧ a'.commonPubkey ≠ b'.commonPubkey ∧
      (a'.kexUpdate sampleCrypto [a'.nextRoundKexMessage, b'.nextRoundKexMessage] false).isOk =
        false := by
  refine ⟨generic_sampleCouple, _, _, _, _, rfl, rfl, rfl, rfl, ?_, ?_, ?_⟩
  · decide +kernel
  · decide +kernel
  · decide +kernel

end Monero.Multisig
