import Monero.Multisig.Agreement

/-!
# Rounds without everyone's messages

A forced update needs only so many messages that every group the account is not in
has a sender, and its result is that of the regular update.  A booster is the
next message, made ahead of the update.
-/

namespace Monero.Multisig

open Monero.Lib Finset List
open Fintype (card)

namespace Parties

variable {ι F P : Type} [Fintype ι] [DecidableEq ι] [Field F] [LinearOrder F] [AddCommGroup P]
  [Module F P] [LinearOrder P]

/-- The honest accounts after some rounds, each of which was made by every signer for itself, from
all messages or forced with enough of them. -/
inductive Reached (p : Parties ι F) (c : Crypto F P) : ℕ → (ι → Account F P) → Prop
  | start {accs : ι → Account F P}
      (hnew : ∀ i, Account.new c (p.basePrivkey i) (p.baseCommonPrivkey i) = .ok (accs i)) :
      Reached p c 0 accs
  | first {accs accs' : ι → Account F P} {signers : ι → List P} {feed : ι → List ι}
      (hstart : Reached p c 0 accs)
      (hsigners : ∀ i, (signers i).Perm (p.signers c))
      (honce : ∀ i j, j ≠ i → (feed i).count j = 1)
      (hcall : ∀ i, (accs i).initializeKex c p.threshold (signers i)
        ((feed i).map fun j ↦ (accs j).nextRoundKexMessage) = .ok (accs' i)) :
      Reached p c 1 accs'
  | next {r : ℕ} {accs accs' : ι → Account F P} {feed : ι → List ι} {force : ι → Bool}
      (hbefore : Reached p c r accs) (hr : 1 ≤ r) (hrR : r + 1 ≤ p.rounds)
      (hne : ∀ i, feed i ≠ [])
      (hs : ∀ i, Sufficient (r + 1) i (force i) (feed i).toFinset)
      (hcall : ∀ i, (accs i).kexUpdate c ((feed i).map fun j ↦ (accs j).nextRoundKexMessage)
        (force i) = .ok (accs' i)) :
      Reached p c (r + 1) accs'

variable {p : Parties ι F} {c : Crypto F P} {r : ℕ} {accs : ι → Account F P} {i : ι}
  {feed : List ι} {a : Account F P}

def AtRound (p : Parties ι F) (c : Crypto F P) (r : ℕ) (i : ι) (a : Account F P) : Prop :=
  (r = 0 ∧ a = p.fresh c i) ∨ (1 ≤ r ∧ r ≤ p.rounds ∧ ∃ m : KeysetMap P, a = p.account c r i m ∧
    (r < p.rounds → m.keys = p.ownKeys c (r + 1) i))

lemma AtRound.nextRoundKexMessage (h : p.AtRound c r i a) :
    a.nextRoundKexMessage = p.message c (r + 1) i := by
  rcases h with ⟨rfl, rfl⟩ | ⟨_, hrR, m, rfl, _⟩
  · rfl
  · rw [account, min_eq_left hrR]

lemma map_message (h : ∀ i, p.AtRound c r i (accs i)) (l : List ι) :
    l.map (fun j ↦ (accs j).nextRoundKexMessage) = (p.deliveries c (r + 1) l).map Prod.snd := by
  rw [deliveries, List.map_map]
  exact map_congr_left fun j _ ↦ (h j).nextRoundKexMessage

lemma AtRound.kexUpdate (g : p.Generic c) (h : ∀ i, p.AtRound c r i (accs i)) (hr : 1 ≤ r)
    (hrR : r + 1 ≤ p.rounds) (hne : feed ≠ []) (force : Bool)
    (hs : Sufficient (r + 1) i force feed.toFinset) :
    (accs i).kexUpdate c (feed.map fun j ↦ (accs j).nextRoundKexMessage) force =
      .ok (p.account c (r + 1) i (p.kexMap c (r + 1) i feed.toFinset)) := by
  rw [map_message h]
  rcases h i with ⟨h₀, _⟩ | ⟨_, _, m, ha, hm⟩
  · omega
  · rw [ha, g.kexUpdate_eq hr (by omega), g.kexUpdateImpl_main hr hrR (honest_deliveries feed)
      (fun hnil ↦ hne (map_eq_nil_iff.mp hnil)) (by rwa [senders_deliveries]) (hm hrR),
      senders_deliveries]

lemma AtRound.initializeKex (g : p.Generic c) (h : ∀ i, p.AtRound c 0 i (accs i))
    {signers : List P}
    (hsigners : signers.Perm (p.signers c)) (honce : ∀ j, j ≠ i → feed.count j = 1) :
    (accs i).initializeKex c p.threshold signers (feed.map fun j ↦ (accs j).nextRoundKexMessage) =
      .ok (p.account c 1 i (p.kexMap c 1 i feed.toFinset)) := by
  have hcount : ∀ j, j ≠ i → ((p.deliveries c 1 feed).map Prod.fst).count j = 1 := by
    intro j hj
    rw [deliveries, List.map_map]
    exact (congrArg (count j) (map_id feed)).trans (honce j hj)
  rw [map_message h]
  rcases h i with ⟨_, ha⟩ | ⟨h₀, _⟩
  · rw [ha, g.initializeKex hsigners (honest_deliveries feed) hcount, senders_deliveries]
  · omega

lemma Reached.atRound (g : p.Generic c) (h : p.Reached c r accs) (i : ι) :
    p.AtRound c r i (accs i) := by
  induction h generalizing i with
  | start hnew =>
    exact .inl ⟨rfl, Except.ok.inj ((hnew i).symm.trans (g.new i))⟩
  | @first accs accs' signers feed _ hsigners honce hcall ih =>
    have hall : ∀ j, j ≠ i → j ∈ (feed i).toFinset := fun j hj ↦
      mem_toFinset.mpr (count_pos_iff.mp (by rw [honce i j hj]; exact zero_lt_one))
    have hresult := AtRound.initializeKex g ih (hsigners i) (honce i)
    exact .inr ⟨le_rfl, p.rounds_pos, _, Except.ok.inj ((hcall i).symm.trans hresult),
      fun hlt ↦ keys_kexMap le_rfl hlt (covers_of_forall le_rfl hall)⟩
  | @next r accs accs' feed force _ hr hrR hne hs hcall ih =>
    have hresult := AtRound.kexUpdate g ih hr hrR (hne i) _ (hs i)
    exact .inr ⟨by omega, hrR, _, Except.ok.inj ((hcall i).symm.trans hresult),
      fun hlt ↦ keys_kexMap (by omega) hlt (hs i).covers⟩

lemma account_origins (m m' : KeysetMap P) :
    p.account c r i m = { p.account c r i m' with kexKeysToOrigins := m } := rfl

/-! ## Boosters -/

lemma AtRound.getKexExcludePubkeys (hr : r < p.rounds) (h : p.AtRound c r i a) :
    a.getKexExcludePubkeys = p.ownKeys c (r + 1) i := by
  rcases h with ⟨rfl, rfl⟩ | ⟨_, _, m, rfl, hm⟩
  · exact (ownKeys_one i).symm
  · exact getKexExcludePubkeys_account fun _ ↦ hm hr

lemma AtRound.getMultisigKexRoundBooster (g : p.Generic c) (h : ∀ i, p.AtRound c r i (accs i))
    (hrR : r + 2 ≤ p.rounds) (hcovers : Covers (r + 1) i feed.toFinset) :
    (accs i).getMultisigKexRoundBooster c p.threshold (card ι)
        (feed.map fun j ↦ (accs j).nextRoundKexMessage) =
      .ok (p.message c (r + 2) i) := by
  have hfields : (accs i).kexRoundsComplete = r ∧ (accs i).basePrivkey = p.basePrivkey i ∧
      (accs i).basePubkey = p.pubkey c i := by
    rcases h i with ⟨rfl, ha⟩ | ⟨_, _, m, ha, _⟩
    · rw [ha]
      exact ⟨rfl, rfl, rfl⟩
    · rw [ha]
      exact ⟨rfl, rfl, rfl⟩
  obtain ⟨hcomplete, hprivkey, hpubkey⟩ := hfields
  have hne : p.deliveries c (r + 1) feed ≠ [] := by
    intro hnil
    have hfeed : feed = [] := map_eq_nil_iff.mp hnil
    have hle := p.rounds_le_card
    rw [hfeed, Covers, toFinset_nil, erase_empty, card_empty] at hcovers
    omega
  obtain ⟨m, hsan, hm⟩ := (honest_deliveries (p := p) (c := c) (r := r + 1) feed).sanitizePubkeys
    (by omega) hne (p.ownKeys c (r + 1) i)
  have hremove := g.removeKey_sanitized (by omega) (by omega) hm
  rw [senders_deliveries] at hremove
  have hN : 1 < card ι := p.two_le_card
  have hlt : r + 1 < p.rounds := hrR
  have hlength : 0 < ((p.deliveries c (r + 1) feed).map Prod.snd).length := by
    rw [length_map]
    exact length_pos_of_ne_nil hne
  have hkeys : (if r + 1 + 1 = p.rounds then
      (ascending ((groupsWith i (r + 1 + 1)).image (p.groupKey c))).map
        fun d ↦ c.getMultisigBlindedSecretKey d • c.basePoint
      else ascending ((groupsWith i (r + 1 + 1)).image (p.groupKey c))) =
        p.msgList c (r + 2) i := by
    by_cases hlast : r + 2 = p.rounds
    · rw [if_pos hlast, msgList, if_neg (by omega), if_neg (by omega), if_pos hlast, preShares,
        if_neg (by omega), List.map_map, hlast]
      rfl
    · have hkey : p.kexKey c (r + 2) = p.groupKey c := funext fun S ↦ kexKey_of_lt (by omega) S
      rw [if_neg hlast, msgList, if_neg (by omega), if_pos (by omega), ownKeys, hkey]
  rw [map_message h, Account.getMultisigKexRoundBooster, hcomplete, multisigKexRoundsRequired_ok,
    ok_bind, check_bind hN, check_bind p.card_le, check_bind hlt,
    check_bind hlength, (h i).getKexExcludePubkeys (by omega), hsan, ok_bind]
  simp only [hprivkey, hpubkey, hremove, keys_makeRoundKeys (Nat.le_add_left 1 r) hlt hcovers,
    hkeys]
  rw [check_bind trivial]
  exact g.make_message (by omega) i

end Parties

/-! ## A sufficient subset is as good as all -/

/-- From every state that honest signers reach: with messages of so many others that every
group without the signer has one, a forced update ends as the regular one with all
messages, and the booster is the message of the next round. -/
theorem Parties.sufficient_subset {ι F P : Type} [Fintype ι] [DecidableEq ι] [Field F]
    [LinearOrder F] [AddCommGroup P] [Module F P] [LinearOrder P] {p : Parties ι F}
    {c : Crypto F P} (g : p.Generic c) (r : ℕ) (accs : ι → Account F P) (h : p.Reached c r accs)
    (i : ι) (all part : List ι) (hall : ∀ j, j ≠ i → j ∈ all) (hpart : part ≠ [])
    (hcovers : card ι ≤ (part.toFinset.erase i).card + (r + 1)) :
    (1 ≤ r → r + 1 ≤ p.rounds → ∃ a b : Account F P,
      (accs i).kexUpdate c (all.map fun j ↦ (accs j).nextRoundKexMessage) false = .ok a ∧
      (accs i).kexUpdate c (part.map fun j ↦ (accs j).nextRoundKexMessage) true = .ok b ∧
      b.nextRoundKexMessage = a.nextRoundKexMessage ∧
      b.kexKeysToOrigins.keys = a.kexKeysToOrigins.keys ∧
      b.multisigPrivkeys = a.multisigPrivkeys ∧ b.multisigPubkey = a.multisigPubkey) ∧
    (r + 2 ≤ p.rounds → ∃ booster : KexMsg F P,
      (accs i).getMultisigKexRoundBooster c p.threshold (card ι)
        (part.map fun j ↦ (accs j).nextRoundKexMessage) = .ok booster ∧
      (r = 0 → (∀ j, j ≠ i → all.count j = 1) → ∃ a : Account F P,
        (accs i).initializeKex c p.threshold (p.signers c)
          (all.map fun j ↦ (accs j).nextRoundKexMessage) = .ok a ∧
        booster.kexRound = a.nextRoundKexMessage.kexRound ∧
        booster.msgPubkeys.Perm a.nextRoundKexMessage.msgPubkeys) ∧
      (1 ≤ r → ∃ a : Account F P,
        (accs i).kexUpdate c (all.map fun j ↦ (accs j).nextRoundKexMessage) false = .ok a ∧
        booster.kexRound = a.nextRoundKexMessage.kexRound ∧
        booster.msgPubkeys.Perm a.nextRoundKexMessage.msgPubkeys)) := by
  have hat := fun j ↦ h.atRound g j
  have hmem : ∀ j, j ≠ i → j ∈ all.toFinset := fun j hj ↦ mem_toFinset.mpr (hall j hj)
  have hne : all ≠ [] := by
    rintro rfl
    obtain ⟨j, hj⟩ := Fintype.exists_ne_of_one_lt_card p.two_le_card i
    exact absurd (hall j hj) not_mem_nil
  have hfull : Parties.Covers (r + 1) i all.toFinset := Parties.covers_of_forall (by omega) hmem
  have hmessage : ∀ m : KeysetMap P, r + 1 ≤ p.rounds →
      (p.account c (r + 1) i m).nextRoundKexMessage = p.message c (r + 2) i := by
    intro m hr
    rw [Parties.account, min_eq_left hr]
  refine ⟨fun hr hrR ↦ ?_, fun hrR ↦ ?_⟩
  · have hregular := Parties.AtRound.kexUpdate g hat hr hrR hne false ⟨hfull, fun _ ↦ hmem⟩
    have hforced := Parties.AtRound.kexUpdate g hat hr hrR hpart true
      ⟨hcovers, fun h ↦ absurd h (by decide)⟩
    rw [Parties.account_origins _ (p.kexMap c (r + 1) i all.toFinset)] at hforced
    refine ⟨_, _, hregular, hforced, rfl, ?_, rfl, rfl⟩
    · show (p.kexMap c (r + 1) i part.toFinset).keys = (p.kexMap c (r + 1) i all.toFinset).keys
      rcases eq_or_lt_of_le hrR with hlast | hlt
      · rw [Parties.kexMap, if_neg (by omega), if_neg (by omega), Parties.kexMap,
          if_neg (by omega), if_neg (by omega)]
      · rw [Parties.keys_kexMap (by omega) hlt hcovers, Parties.keys_kexMap (by omega) hlt hfull]
  · refine ⟨_, Parties.AtRound.getMultisigKexRoundBooster g hat hrR hcovers, ?_, fun hr ↦ ?_⟩
    · rintro rfl honce
      refine ⟨_, Parties.AtRound.initializeKex g hat (Perm.refl _) honce, ?_, ?_⟩
      · rw [hmessage _ (by omega)]
      · rw [hmessage _ (by omega)]
    · refine ⟨_, Parties.AtRound.kexUpdate g hat hr (by omega) hne _ ⟨hfull, fun _ ↦ hmem⟩, ?_, ?_⟩
      · rw [hmessage _ (by omega)]
      · rw [hmessage _ (by omega)]

lemma generic_sampleAny : sampleAny.Generic sampleCrypto :=
  Parties.generic_of_forall (by decide +kernel) (by decide +kernel) (by decide +kernel)
    (by decide +kernel)

lemma generic_sampleEither : sampleEither.Generic sampleCrypto :=
  Parties.generic_of_forall (by decide +kernel) (by decide +kernel) (by decide +kernel)
    (by decide +kernel)

/-- In the second round of three signers the first one goes on without the third. -/
theorem sufficient_subset_sample : ∃ (accs : Fin 3 → Account SampleScalar SampleScalar)
    (a b : Account SampleScalar SampleScalar) (booster : KexMsg SampleScalar SampleScalar),
      (∀ i, (sampleAny.fresh sampleCrypto i).initializeKex sampleCrypto 1 [2, 3, 5]
        ([0, 1, 2].map fun j ↦ (sampleAny.fresh sampleCrypto j).nextRoundKexMessage) =
          .ok (accs i)) ∧
      (accs 0).kexUpdate sampleCrypto ([2, 1].map fun j ↦ (accs j).nextRoundKexMessage) false =
        .ok a ∧
      (accs 0).kexUpdate sampleCrypto [(accs 1).nextRoundKexMessage] true = .ok b ∧
      b.nextRoundKexMessage = a.nextRoundKexMessage ∧
      (accs 0).getMultisigKexRoundBooster sampleCrypto 1 3 [(accs 1).nextRoundKexMessage] =
        .ok booster ∧
      booster.kexRound = a.nextRoundKexMessage.kexRound := by
  have hstart : sampleAny.Reached sampleCrypto 0 (sampleAny.fresh sampleCrypto) :=
    .start fun i ↦ generic_sampleAny.new i
  have hsigners : [2, 3, 5].Perm (sampleAny.signers sampleCrypto) := by decide +kernel
  have honce : ∀ i j : Fin 3, j ≠ i → [0, 1, 2].count j = 1 := by decide
  have hfirst := fun i ↦ Parties.AtRound.initializeKex generic_sampleAny
    (fun j ↦ hstart.atRound generic_sampleAny j) hsigners (honce i)
  have hreached := Parties.Reached.first hstart (fun _ ↦ hsigners) honce hfirst
  obtain ⟨hupdate, hbooster⟩ := Parties.sufficient_subset generic_sampleAny 1 _ hreached 0 [2, 1]
    [1] (by decide) (by decide) (by decide)
  obtain ⟨a, b, hregular, hforced, hmessage, _⟩ := hupdate le_rfl (by decide)
  obtain ⟨booster, hcall, _, hnext⟩ := hbooster (by decide)
  obtain ⟨a', hregular', hround, _⟩ := hnext le_rfl
  cases hregular.symm.trans hregular'
  exact ⟨_, a, b, booster, hfirst, hregular, hforced, hmessage, hcall, hround⟩

/-- In the last round of a 1-of-2 exchange no message of the other signer is needed, but a forced
update throws if it gets no message at all. -/
theorem forced_update_empty : sampleEither.Generic sampleCrypto ∧
    card (Fin 2) ≤ ((∅ : Finset (Fin 2)).erase 0).card + 2 ∧
    ∃ a b a' b' : Account SampleScalar SampleScalar,
      Account.new sampleCrypto (sampleEither.basePrivkey 0) (sampleEither.baseCommonPrivkey 0) =
        .ok a ∧
      Account.new sampleCrypto (sampleEither.basePrivkey 1) (sampleEither.baseCommonPrivkey 1) =
        .ok b ∧
      a.initializeKex sampleCrypto 1 [2, 3] [a.nextRoundKexMessage, b.nextRoundKexMessage] =
        .ok a' ∧
      b.initializeKex sampleCrypto 1 [2, 3] [a.nextRoundKexMessage, b.nextRoundKexMessage] =
        .ok b' ∧
      (a'.kexUpdate sampleCrypto [a'.nextRoundKexMessage, b'.nextRoundKexMessage] false).isOk =
        true ∧
      (a'.kexUpdate sampleCrypto [] true).isOk = false := by
  refine ⟨generic_sampleEither, by decide, _, _, _, _, rfl, rfl, rfl, rfl, ?_, ?_⟩
  · decide +kernel
  · decide +kernel

end Monero.Multisig
