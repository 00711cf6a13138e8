import Monero.Multisig.SharedKeys

/-!
# Accounts along an exchange

The state of an honest account after any number of rounds, and that each update
with sufficient messages leads from one to the next.
-/

namespace Monero.Multisig

open Monero.Lib Finset Nat Fintype

namespace Parties

variable {ι F P : Type} [Fintype ι] [DecidableEq ι] [Field F] [LinearOrder F] [AddCommGroup P]
  [Module F P] [LinearOrder P]

/-! ## Shares of one signer -/

variable (p : Parties ι F)

/-- The private keys of a signer's groups of the last round, in the order they are found. -/
def preShares (c : Crypto F P) (i : ι) : List F :=
  if p.rounds = 1 then [p.basePrivkey i]
  else (ascending ((groupsWith i p.rounds).image (p.groupKey c))).map c.getMultisigBlindedSecretKey

def finalShares (c : Crypto F P) (i : ι) : List F :=
  (p.preShares c i).map (converted c (p.finalKeys c))

variable {p : Parties ι F} {c : Crypto F P} {i : ι}

omit [LinearOrder F] in
lemma mem_preShares {k : F} :
    k ∈ p.preShares c i ↔ ∃ S ∈ groupsWith i p.rounds, p.share c S = k := by
  by_cases h : p.rounds = 1
  · simp [preShares, h, groupsWith_one, share, eq_comm]
  · simp only [preShares, h, if_false, List.mem_map, mem_ascending, mem_image, share,
      exists_exists_and_eq_and]

omit [LinearOrder F] in
lemma mem_finalShares {k : F} :
    k ∈ p.finalShares c i ↔ ∃ S ∈ groupsWith i p.rounds, p.finalShare c S = k := by
  simp only [finalShares, List.mem_map, mem_preShares, exists_exists_and_eq_and, finalShare]

omit [LinearOrder F] in
lemma toFinset_preShares (i : ι) : ((p.preShares c i).map (· • c.basePoint)).toFinset =
      (groupsWith i p.rounds).image (p.kexKey c p.rounds) := by
  ext key
  simp only [List.mem_toFinset, List.mem_map, mem_preShares, mem_image, exists_exists_and_eq_and]
  exact exists_congr fun S ↦ and_congr_right fun hS ↦ by rw [share_smul (groupsWith_subset i _ hS)]

lemma Generic.nodup_preShares (g : p.Generic c) (i : ι) :
    ((p.preShares c i).map (· • c.basePoint)).Nodup := by
  by_cases h : p.rounds = 1
  · rw [preShares, if_pos h]
    exact List.nodup_singleton _
  · rw [preShares, if_neg h, List.map_map]
    refine List.Nodup.map_on ?_ (nodup_ascending _)
    intro d hd d' hd' heq
    obtain ⟨S, hS, rfl⟩ := mem_image.mp (mem_ascending.mp hd)
    obtain ⟨S', hS', rfl⟩ := mem_image.mp (mem_ascending.mp hd')
    have hlast : 1 < p.rounds := by
      have := p.rounds_pos
      omega
    have hkeys : p.kexKey c p.rounds S = p.kexKey c p.rounds S' := by
      rw [kexKey_rounds hlast, kexKey_rounds hlast]
      exact heq
    rw [g.kexKey_inj p.rounds_pos le_rfl (mem_groupsWith.mp hS).1 (mem_groupsWith.mp hS').1 hkeys]

lemma groupsWithout_union_groupsWith (i : ι) (n : ℕ) :
    groupsWithout i n ∪ groupsWith i n = groups ι n := by
  ext S
  simp only [mem_union, mem_groupsWithout, mem_groupsWith, mem_groups]
  tauto

variable (p) in
/-- The keys of the last round that the others have found. -/
def otherKeys (c : Crypto F P) (i : ι) : List P :=
  ascending ((groupsWithout i p.rounds).image (p.kexKey c p.rounds))

lemma Generic.generateMultisigAggregateKey (g : p.Generic c) (i : ι) :
    generateMultisigAggregateKey c (p.otherKeys c i) (p.preShares c i) =
      .ok (p.multisigPubkey c, p.finalShares c i) := by
  have hinj := g.kexKey_injOn p.rounds p.rounds_pos le_rfl
  have hfinal : (p.otherKeys c i ++ (p.preShares c i).map (· • c.basePoint)).toFinset =
      (groups ι p.rounds).image (p.kexKey c p.rounds) := by
    rw [List.toFinset_append, otherKeys, toFinset_ascending, toFinset_preShares, ← image_union,
      groupsWithout_union_groupsWith]
  have hnodup : (p.otherKeys c i ++ (p.preShares c i).map (· • c.basePoint)).Nodup := by
    refine List.Nodup.append (nodup_ascending _) (g.nodup_preShares i) fun key hout hin ↦ ?_
    rw [← List.mem_toFinset, toFinset_preShares] at hin
    obtain ⟨S, hS, rfl⟩ := mem_image.mp (mem_ascending.mp hout)
    obtain ⟨S', hS', heq⟩ := mem_image.mp hin
    rw [mem_groupsWithout] at hS
    rw [mem_groupsWith] at hS'
    rw [g.kexKey_inj p.rounds_pos le_rfl hS'.1 hS.1 heq] at hS'
    exact hS.2 hS'.2
  have hne : ∀ k ∈ p.preShares c i, converted c (p.finalKeys c) k ≠ 0 := by
    intro k hk
    obtain ⟨S, hS, rfl⟩ := mem_preShares.mp hk
    exact g.finalShare_ne_zero S (groupsWith_subset i _ hS)
  rw [generateMultisigAggregateKey_ok hnodup hfinal hne, sum_image hinj, multisigPubkey]
  refine congrArg (fun K ↦ Except.ok (K, p.finalShares c i)) (sum_congr rfl fun S hS ↦ ?_)
  rw [finalShare, converted, mul_smul, share_smul hS, finalKeys]

/-! ## Accounts and their messages -/

def msgList (c : Crypto F P) (r : ℕ) (i : ι) : List P :=
  if r = 1 then []
  else if r < p.rounds then p.ownKeys c r i
  else if r = p.rounds then (p.preShares c i).map (· • c.basePoint)
  else [p.multisigPubkey c, p.commonPubkey c]

def message (c : Crypto F P) (r : ℕ) (i : ι) : KexMsg F P where
  kexRound := r
  signingPubkey := p.pubkey c i
  msgPubkeys := p.msgList c r i
  msgPrivkey := if r = 1 then p.baseCommonPrivkey i else 0

lemma msgList_post {r : ℕ} (hr : p.rounds < r) :
    p.msgList c r i = [p.multisigPubkey c, p.commonPubkey c] := by
  have := p.rounds_pos
  rw [msgList, if_neg (by omega), if_neg (by omega), if_neg (by omega)]

lemma toFinset_msgList {r : ℕ} (hr : 1 < r) (i : ι) :
    (p.msgList c r i).toFinset = p.msgKeys c r i := by
  rcases lt_trichotomy r p.rounds with hlt | rfl | hgt
  · rw [msgList, if_neg hr.ne', if_pos hlt, msgKeys, if_pos hlt.le, ownKeys, toFinset_ascending]
  · rw [msgList, if_neg hr.ne', if_neg (lt_irrefl _), if_pos rfl, msgKeys, if_pos le_rfl,
      toFinset_preShares]
  · rw [msgList_post hgt, msgKeys, if_neg hgt.not_ge]
    simp

lemma isMsg_message (r : ℕ) (i : ι) : p.IsMsg c r i (p.message c r i) where
  kexRound := rfl
  signingPubkey := rfl
  msgPubkeys := fun hr ↦ toFinset_msgList hr i
  msgPrivkey := fun hr ↦ if_pos hr

lemma Generic.msgList_ne_zero (g : p.Generic c) {r : ℕ} (hr : 1 < r) {key : P}
    (hkey : key ∈ p.msgList c r i) : key ≠ 0 := by
  rw [← List.mem_toFinset, toFinset_msgList hr, msgKeys] at hkey
  split at hkey
  next hle =>
    obtain ⟨S, hS, rfl⟩ := mem_image.mp hkey
    exact g.kexKey_ne_zero r hr.le hle S (groupsWith_subset i r hS)
  next =>
    rcases mem_insert.mp hkey with rfl | h
    · exact g.multisigPubkey_ne_zero
    · rw [mem_singleton.mp h]
      exact g.commonPubkey_ne_zero

lemma Generic.make_message (g : p.Generic c) {r : ℕ} (hr : 1 < r) (i : ι) :
    KexMsg.make c r (p.basePrivkey i) (p.msgList c r i) 0 = .ok (p.message c r i) := by
  rw [KexMsg.make, check_bind (zero_lt_one.trans hr),
    check_bind (g.basePrivkey_ne_zero i), if_neg hr.ne',
    check_bind fun key hkey ↦ g.msgList_ne_zero hr hkey, message, if_neg hr.ne']
  rfl

/-- An account after `r` rounds of the exchange, once the first round's messages are known. -/
def account (c : Crypto F P) (r : ℕ) (i : ι) (m : KeysetMap P) : Account F P where
  threshold := p.threshold
  signers := p.signers c
  basePrivkey := p.basePrivkey i
  basePubkey := p.pubkey c i
  baseCommonPrivkey := p.baseCommonPrivkey i
  multisigPrivkeys :=
    if r + 1 < p.rounds then []
    else if r + 1 = p.rounds then p.preShares c i else p.finalShares c i
  commonPrivkey := p.commonPrivkey c
  multisigPubkey := if r < p.rounds then 0 else p.multisigPubkey c
  commonPubkey := p.commonPubkey c
  kexRoundsComplete := r
  kexKeysToOrigins := m
  nextRoundKexMessage := p.message c (min r p.rounds + 1) i

/-- The keys of the next round with their origins, from the senders of the last messages. -/
def kexMap (c : Crypto F P) (r : ℕ) (i : ι) (T : Finset ι) : KeysetMap P :=
  if r + 1 < p.rounds then makeRoundKeys (p.basePrivkey i) (p.recommended c r i T)
  else if r + 1 = p.rounds then
    (makeRoundKeys (p.basePrivkey i) (p.recommended c r i T)).image
      fun e ↦ (c.blindedPubkey e.1, e.2)
  else ∅

variable {r : ℕ} {i : ι} {ds : Deliveries ι F P} {T : Finset ι} {m results : KeysetMap P}
  {force : Bool} {signers : List P}

section

variable (hr : 1 ≤ r) (hrR : r < p.rounds) (h : Covers r i T)

include hr hrR h

omit [LinearOrder F] in
lemma image_fst_makeRoundKeys :
    (makeRoundKeys (p.basePrivkey i) (p.recommended c r i T)).image Prod.fst =
      (groupsWith i (r + 1)).image (p.groupKey c) := by
  have hfst : (makeRoundKeys (p.basePrivkey i) (p.recommended c r i T)).image Prod.fst =
      ((p.recommended c r i T).image Prod.fst).image fun key ↦ 8 • p.basePrivkey i • key := by
    rw [makeRoundKeys, image_image, image_image]
    rfl
  rw [hfst, image_fst_recommended h, image_image, groupsWith_succ, image_image]
  refine image_congr fun S hS ↦ ?_
  obtain ⟨hcard, hi⟩ := mem_groupsWithout.mp (mem_coe.mp hS)
  have hne : S.Nonempty := card_pos.mp (by omega)
  rw [Function.comp_apply, Function.comp_apply, kexKey_of_lt hrR, groupKey_insert hi hne]

omit [LinearOrder F] in
lemma keys_makeRoundKeys :
    KeysetMap.keys (makeRoundKeys (p.basePrivkey i) (p.recommended c r i T)) =
      ascending ((groupsWith i (r + 1)).image (p.groupKey c)) := by
  rw [KeysetMap.keys, image_fst_makeRoundKeys hr hrR h]

omit [LinearOrder F] in
lemma keys_kexMap : (p.kexMap c r i T).keys = p.ownKeys c (r + 1) i := by
  rcases eq_or_lt_of_le (succ_le_of_lt hrR) with heq | hlt
  · have hkey : p.kexKey c (r + 1) = c.blindedPubkey ∘ p.groupKey c := by
      funext S
      have hlast : 1 < p.rounds := by omega
      rw [show r + 1 = p.rounds from heq, kexKey_rounds hlast, Function.comp_apply]
    have hfst : (p.kexMap c r i T).image Prod.fst =
        ((makeRoundKeys (p.basePrivkey i) (p.recommended c r i T)).image Prod.fst).image
          c.blindedPubkey := by
      rw [kexMap, if_neg (by omega), if_pos heq, image_image, image_image]
      rfl
    rw [KeysetMap.keys, hfst, image_fst_makeRoundKeys hr hrR h, image_image, ownKeys, hkey]
  · have hkey : p.kexKey c (r + 1) = p.groupKey c := funext fun S ↦ kexKey_of_lt hlt S
    rw [kexMap, if_pos hlt, keys_makeRoundKeys hr hrR h, ownKeys, hkey]

end

/-! ## The main rounds -/

omit [DecidableEq ι] [Field F] [LinearOrder F] in
lemma multisigKexRoundsRequired_ok :
    multisigKexRoundsRequired (card ι) p.threshold = .ok p.rounds := by
  rw [multisigKexRoundsRequired, check_bind p.threshold_le,
    check_bind p.one_le_threshold]
  rfl

omit [DecidableEq ι] [Field F] [LinearOrder F] in
lemma multisigSetupRoundsRequired_ok :
    multisigSetupRoundsRequired (card ι) p.threshold = .ok (p.rounds + 1) := by
  rw [multisigSetupRoundsRequired, multisigKexRoundsRequired_ok, ok_bind]
  rfl

omit [DecidableEq ι] [Field F] [LinearOrder F] in
lemma checkMultisigConfig_ok (hr : 1 ≤ r) (hrR : r ≤ p.rounds + 1) :
    checkMultisigConfig r p.threshold (card ι) = .ok () := by
  have hN : 1 < card ι := p.two_le_card
  have hM : 0 < p.threshold := p.one_le_threshold
  have hpos : 0 < r := hr
  rw [checkMultisigConfig, check_bind hN, check_bind p.card_le,
    check_bind p.threshold_le, check_bind hM, check_bind hpos,
    multisigSetupRoundsRequired_ok, ok_bind, check_of_pos hrR]

def roundResults (p : Parties ι F) (c : Crypto F P) (r : ℕ) (i : ι) (T : Finset ι) : KeysetMap P :=
  if r < p.rounds then makeRoundKeys (p.basePrivkey i) (p.recommended c r i T)
  else if p.threshold = 1 then ∅ else p.recommended c r i T

lemma Generic.processRoundMsgs (g : p.Generic c) (hr : 1 ≤ r) (hrR : r ≤ p.rounds)
    (h : p.Honest c r ds) (hne : ds ≠ []) (hs : Sufficient r i force (senders ds)) :
    processRoundMsgs (p.basePrivkey i) (p.pubkey c i) r p.threshold (p.signers c)
        (ds.map Prod.snd) (p.ownKeys c r i) force =
      .ok (p.roundResults c r i (senders ds)) := by
  rw [Multisig.processRoundMsgs, g.length_signers, checkMultisigConfig_ok hr (by omega), ok_bind,
    multisigKexRoundsRequired_ok, ok_bind]
  by_cases hskip : p.threshold = 1 ∧ r = p.rounds
  · obtain ⟨hM, rfl⟩ := hskip
    simp [roundResults, hM, pure, Except.pure]
  · -- There is a group of `r` that leaves the account out.
    have hrN : r + 1 ≤ card ι := by
      have h₁ := p.one_le_threshold
      have h₂ := p.threshold_le
      unfold rounds at hrR hskip
      omega
    rw [if_neg hskip, if_pos hrR, g.evaluateKexRoundMsgs hr hrR hrN h hne hs, ok_bind]
    by_cases hlt : r < p.rounds
    · rw [roundResults, if_pos hlt, if_pos hlt]
      rfl
    · have hM : p.threshold ≠ 1 := fun hM ↦ hskip ⟨hM, by omega⟩
      rw [roundResults, if_neg hlt, if_neg hlt, if_neg hM]
      rfl

omit [LinearOrder F] in
lemma keys_roundResults_last (h : Covers p.rounds i T) :
    (p.roundResults c p.rounds i T).keys = p.otherKeys c i := by
  rw [roundResults, otherKeys, if_neg (lt_irrefl _)]
  by_cases hM : p.threshold = 1
  · have hnone : groupsWithout i p.rounds = ∅ := by
      refine filter_eq_empty_iff.mpr fun S hS ↦ not_not.mpr ?_
      have hcard : S.card = card ι := by
        have := p.two_le_card
        rw [mem_groups.mp hS, rounds, hM]
        omega
      rw [(card_eq_iff_eq_univ S).mp hcard]
      exact mem_univ i
    rw [if_pos hM, hnone, image_empty, KeysetMap.keys, image_empty]
  · rw [if_neg hM, KeysetMap.keys, image_fst_recommended h]

/-- The account after round `r + 1`, before the round is counted and the next message is made. -/
def halfway (p : Parties ι F) (c : Crypto F P) (r : ℕ) (i : ι) (T : Finset ι) : Account F P :=
  { p.account c (r + 1) i (p.kexMap c (r + 1) i T) with
    kexRoundsComplete := r
    nextRoundKexMessage := p.message c (min r p.rounds + 1) i }

/-- What round `r + 1` found is taken over. -/
def Applied (p : Parties ι F) (c : Crypto F P) (r : ℕ) (i : ι) (T : Finset ι) (m : KeysetMap P) :
    Prop :=
  (p.account c r i m).applyResults c p.rounds (p.roundResults c (r + 1) i T) =
    .ok (p.halfway c r i T, p.msgList c (r + 2) i)

lemma kexRoundsComplete_account (m : KeysetMap P) :
    (p.account c r i m).kexRoundsComplete = r := rfl

lemma Generic.finalizeKexUpdate_eq (g : p.Generic c) {a a' : Account F P}
    (hround : min (a'.kexRoundsComplete + 1) p.rounds + 1 = r) (hr : 1 < r)
    (hkey : a'.basePrivkey = p.basePrivkey i)
    (happly : a.applyResults c p.rounds results = .ok (a', p.msgList c r i)) :
    a.finalizeKexUpdate c p.rounds results = .ok { a' with
      kexRoundsComplete := a'.kexRoundsComplete + 1
      nextRoundKexMessage := p.message c r i } := by
  rw [Account.finalizeKexUpdate, happly, ok_bind]
  simp only [hround, hkey, g.make_message hr, ok_bind]
  rfl

section Results

variable (h : Covers (r + 1) i T) (m : KeysetMap P)

include h

lemma Generic.applyResults_last (g : p.Generic c) (hr : r + 1 = p.rounds) :
    p.Applied c r i T m := by
  have hown : (p.account c r i m).multisigPrivkeys = p.preShares c i := by
    simp [account, hr]
  have hkeys : (p.roundResults c (r + 1) i T).keys = p.otherKeys c i := by
    rw [hr] at h ⊢
    exact keys_roundResults_last h
  rw [Applied, Account.applyResults, kexRoundsComplete_account, if_neg (by omega), if_pos hr,
    hkeys, hown, g.generateMultisigAggregateKey, ok_bind, msgList_post (by omega)]
  simp [halfway, account, kexMap, ← hr, pure, Except.pure]

lemma applyResults_blind (hr : r + 2 = p.rounds) : p.Applied c r i T m := by
  have hresults : p.roundResults c (r + 1) i T =
      makeRoundKeys (p.basePrivkey i) (p.recommended c (r + 1) i T) := if_pos (by omega)
  have hprivkeys : (KeysetMap.keys (makeRoundKeys (p.basePrivkey i)
      (p.recommended c (r + 1) i T))).map c.getMultisigBlindedSecretKey = p.preShares c i := by
    rw [keys_makeRoundKeys (by omega) (by omega) h, preShares, if_neg (by omega), hr]
  have hmsg : p.msgList c (r + 2) i = (p.preShares c i).map (· • c.basePoint) := by
    rw [msgList, if_neg (by omega), if_neg (by omega), if_pos hr]
  rw [Applied, Account.applyResults, kexRoundsComplete_account, if_neg (by omega),
    if_neg (by omega), if_pos hr, hresults]
  simp only [hprivkeys, hmsg]
  simp [halfway, account, kexMap, ← hr, pure, Except.pure, Crypto.blindedPubkey]

lemma applyResults_middle (hr : r + 3 ≤ p.rounds) : p.Applied c r i T m := by
  have hresults : p.roundResults c (r + 1) i T = p.kexMap c (r + 1) i T := by
    rw [roundResults, if_pos (by omega), kexMap, if_pos (by omega)]
  have hmsg : p.msgList c (r + 2) i = (p.kexMap c (r + 1) i T).keys := by
    rw [msgList, if_neg (by omega), if_pos (by omega), keys_kexMap (by omega) (by omega) h]
  rw [Applied, Account.applyResults, kexRoundsComplete_account, if_neg (by omega),
    if_neg (by omega), if_neg (by omega), hresults, hmsg]
  have h₁ : r + 1 < p.rounds := by omega
  have h₂ : r + 1 + 1 < p.rounds := by omega
  have h₃ : r < p.rounds := by omega
  simp [halfway, account, h₁, h₂, h₃, pure, Except.pure]

lemma Generic.finalizeKexUpdate (g : p.Generic c) (hrR : r + 1 ≤ p.rounds) :
    (p.account c r i m).finalizeKexUpdate c p.rounds (p.roundResults c (r + 1) i T) =
      .ok (p.account c (r + 1) i (p.kexMap c (r + 1) i T)) := by
  have happly : p.Applied c r i T m := by
    by_cases hlast : r + 1 = p.rounds
    · exact Generic.applyResults_last h m g hlast
    · by_cases hblind : r + 2 = p.rounds
      · exact applyResults_blind h m hblind
      · exact applyResults_middle h m (by omega)
  have hround : min (r + 1) p.rounds + 1 = r + 2 := by omega
  rw [g.finalizeKexUpdate_eq hround (le_add_left 2 r) rfl happly]
  simp only [halfway, account, hround]

end Results

lemma getKexExcludePubkeys_account (hm : 1 ≤ r → m.keys = p.ownKeys c (r + 1) i) :
    (p.account c r i m).getKexExcludePubkeys = p.ownKeys c (r + 1) i := by
  cases r with
  | zero => exact (ownKeys_one i).symm
  | succ r => exact hm (le_add_left 1 r)

lemma Generic.kexUpdateImpl_eq (g : p.Generic c) {a a' : Account F P}
    (hsigners : a.signers = p.signers c) (hthreshold : a.threshold = p.threshold)
    (hle : a.kexRoundsComplete ≤ p.rounds) (h : p.Honest c (a.kexRoundsComplete + 1) ds)
    (hne : ds ≠ []) (hinit : a.initializeKexUpdate c (ds.map Prod.snd) p.rounds = .ok a')
    (hprocess : Multisig.processRoundMsgs a'.basePrivkey a'.basePubkey (a'.kexRoundsComplete + 1)
      a'.threshold a'.signers (ds.map Prod.snd) a'.getKexExcludePubkeys force = .ok results) :
    a.kexUpdateImpl c (ds.map Prod.snd) force = a'.finalizeKexUpdate c p.rounds results := by
  have hrequired : multisigKexRoundsRequired a.signers.length a.threshold = .ok p.rounds := by
    rw [hsigners, g.length_signers, hthreshold, multisigKexRoundsRequired_ok]
  have hpos : 0 < p.rounds := p.rounds_pos
  rw [Account.kexUpdateImpl, h.checkMessagesRound hne, ok_bind, hrequired, ok_bind,
    check_bind hpos, check_bind (lt_succ_of_le hle), hinit, ok_bind, hprocess, ok_bind]

lemma Generic.kexUpdateImpl_main (g : p.Generic c) (hr : 1 ≤ r) (hrR : r + 1 ≤ p.rounds)
    (h : p.Honest c (r + 1) ds) (hne : ds ≠ []) (hs : Sufficient (r + 1) i force (senders ds))
    (hm : m.keys = p.ownKeys c (r + 1) i) :
    (p.account c r i m).kexUpdateImpl c (ds.map Prod.snd) force =
      .ok (p.account c (r + 1) i (p.kexMap c (r + 1) i (senders ds))) := by
  have hprocess := g.processRoundMsgs (by omega) hrR h hne hs
  rw [← getKexExcludePubkeys_account fun _ ↦ hm] at hprocess
  have hle : (p.account c r i m).kexRoundsComplete ≤ p.rounds := le_of_succ_le hrR
  rw [g.kexUpdateImpl_eq rfl rfl hle h hne (if_pos hr) hprocess]
  exact Generic.finalizeKexUpdate hs.covers m g hrR

/-! ## The first round -/

def fresh (p : Parties ι F) (c : Crypto F P) (i : ι) : Account F P where
  threshold := 0
  signers := []
  basePrivkey := p.basePrivkey i
  basePubkey := p.pubkey c i
  baseCommonPrivkey := p.baseCommonPrivkey i
  multisigPrivkeys := []
  commonPrivkey := 0
  multisigPubkey := 0
  commonPubkey := 0
  kexRoundsComplete := 0
  kexKeysToOrigins := ∅
  nextRoundKexMessage := p.message c 1 i

lemma Generic.new (g : p.Generic c) (i : ι) :
    Account.new c (p.basePrivkey i) (p.baseCommonPrivkey i) = .ok (p.fresh c i) := by
  rw [Account.new, KexMsg.make, check_bind zero_lt_one,
    check_bind (g.basePrivkey_ne_zero i), if_pos rfl,
    check_of_pos (g.baseCommonPrivkey_ne_zero i)]
  rfl

def configured (p : Parties ι F) (c : Crypto F P) (i : ι) : Account F P :=
  { p.fresh c i with threshold := p.threshold, signers := p.signers c }

lemma Generic.setMultisigConfig (g : p.Generic c) (hsigners : signers.Perm (p.signers c)) (i : ι) :
    (p.fresh c i).setMultisigConfig p.threshold signers = .ok (p.configured c i) := by
  have hlength : signers.length = card ι := hsigners.length_eq.trans g.length_signers
  have hnodup : signers.Nodup := hsigners.nodup_iff.mpr (nodup_ascending _)
  have hsort : signers.insertionSort (· ≤ ·) = p.signers c := by
    rw [insertionSort_eq_ascending hnodup, List.toFinset_eq_of_perm _ _ hsigners, Parties.signers,
      toFinset_ascending]
  have hthreshold : 0 < p.threshold ∧ p.threshold ≤ card ι :=
    ⟨p.one_le_threshold, p.threshold_le⟩
  have hnonzero : ∀ signer ∈ signers, signer ≠ 0 := by
    intro signer hsigner
    obtain ⟨j, _, rfl⟩ := mem_image.mp (mem_ascending.mp (hsigners.mem_iff.mp hsigner))
    exact g.pubkey_ne_zero j
  have hown : (p.fresh c i).basePubkey ∈ signers := hsigners.mem_iff.mpr (pubkey_mem_signers i)
  rw [Account.setMultisigConfig, hlength, check_bind hthreshold,
    check_bind ⟨p.two_le_card, p.card_le⟩, check_bind hnonzero,
    check_bind hown]
  simp only [hsort]
  rw [check_bind (hsort ▸ (List.perm_insertionSort (· ≤ ·) signers).nodup_iff.mpr hnodup)]
  rfl

lemma Honest.filter_msgPrivkey (g : p.Generic c) (h : p.Honest c 1 ds) (i : ι) :
    ((ds.map Prod.snd).filter (·.signingPubkey ≠ p.pubkey c i)).map KexMsg.msgPrivkey =
      ((ds.map Prod.fst).filter (· ≠ i)).map p.baseCommonPrivkey := by
  induction ds with
  | nil => rfl
  | cons d ds ih =>
    have hd := h d List.mem_cons_self
    have hsame : d.2.signingPubkey ≠ p.pubkey c i ↔ d.1 ≠ i := by
      rw [hd.signingPubkey]
      exact g.pubkey_injective.ne_iff
    have ih := ih fun d' hd' ↦ h d' (List.mem_cons_of_mem d hd')
    by_cases hdi : d.1 = i
    · have hsig : d.2.signingPubkey = p.pubkey c i := not_not.mp fun hne ↦ hsame.mp hne hdi
      simpa [List.filter_cons, hsig, hdi] using ih
    · have hsig : d.2.signingPubkey ≠ p.pubkey c i := hsame.mpr hdi
      simpa [List.filter_cons, hsig, hdi, hd.msgPrivkey rfl] using ih

omit [Field F] [LinearOrder F] in
lemma cons_filter_eq_univ {senders : List ι} (honce : ∀ j, j ≠ i → senders.count j = 1) :
    ((i :: senders.filter (· ≠ i) : List ι) : Multiset ι) = univ.val := by
  ext j
  rw [Multiset.coe_count, Multiset.count_eq_one_of_mem univ.nodup (mem_univ j)]
  by_cases hj : j = i
  · subst hj
    rw [List.count_cons_self, List.count_eq_zero_of_not_mem (by simp)]
  · rw [List.count_cons_of_ne (Ne.symm hj), List.count_filter (by simpa using hj), honce j hj]

lemma Generic.initializeKexUpdate (g : p.Generic c) (h : p.Honest c 1 ds)
    (honce : ∀ j, j ≠ i → (ds.map Prod.fst).count j = 1) :
    (p.configured c i).initializeKexUpdate c (ds.map Prod.snd) p.rounds =
      .ok (p.account c 0 i ∅) := by
  have hcommon : makeMultisigCommonPrivkey c ((p.configured c i).baseCommonPrivkey ::
      ((ds.map Prod.snd).filter (·.signingPubkey ≠ (p.configured c i).basePubkey)).map
        KexMsg.msgPrivkey) = .ok (p.commonPrivkey c) := by
    have hothers : ((ds.map Prod.snd).filter
        (·.signingPubkey ≠ (p.configured c i).basePubkey)).map KexMsg.msgPrivkey =
          ((ds.map Prod.fst).filter (· ≠ i)).map p.baseCommonPrivkey := h.filter_msgPrivkey g i
    have hsort : (p.baseCommonPrivkey i ::
        ((ds.map Prod.fst).filter (· ≠ i)).map p.baseCommonPrivkey).insertionSort (· ≤ ·) =
          sorted (univ.val.map p.baseCommonPrivkey) := by
      rw [← cons_filter_eq_univ honce, Multiset.map_coe, List.map_cons, sorted_coe]
    rw [hothers, show (p.configured c i).baseCommonPrivkey = p.baseCommonPrivkey i from rfl,
      makeMultisigCommonPrivkey]
    simp only [hsort]
    exact (congrArg (· >>= _) (check_of_pos g.commonPrivkey_ne_zero _)).trans rfl
  have hnot : ¬0 < (p.configured c i).kexRoundsComplete := lt_irrefl 0
  rw [Account.initializeKexUpdate, if_neg hnot]
  simp only [hcommon, ok_bind]
  have hpos : 0 < p.rounds := p.rounds_pos
  by_cases hR : p.rounds = 1
  · simp [hR, account, configured, fresh, preShares, commonPubkey, pure, Except.pure]
  · have hlt : 1 < p.rounds := by omega
    simp [hR, hlt, account, configured, fresh, commonPubkey, pure, Except.pure, hpos]

lemma Generic.initializeKex (g : p.Generic c) (hsigners : signers.Perm (p.signers c))
    (h : p.Honest c 1 ds) (honce : ∀ j, j ≠ i → (ds.map Prod.fst).count j = 1) :
    (p.fresh c i).initializeKex c p.threshold signers (ds.map Prod.snd) =
      .ok (p.account c 1 i (p.kexMap c 1 i (senders ds))) := by
  have hall : ∀ j, j ≠ i → j ∈ senders ds := by
    intro j hj
    refine List.mem_toFinset.mpr (List.count_pos_iff.mp ?_)
    rw [honce j hj]
    exact zero_lt_one
  have hne : ds ≠ [] := by
    rintro rfl
    obtain ⟨j, hj⟩ := exists_ne_of_one_lt_card p.two_le_card i
    exact absurd (hall j hj) (by simp [senders])
  have hcovers : Covers 1 i (senders ds) := covers_of_forall le_rfl hall
  have hsufficient : Sufficient 1 i false (senders ds) := ⟨hcovers, fun _ ↦ hall⟩
  have hprocess := g.processRoundMsgs le_rfl p.rounds_pos h hne hsufficient
  rw [← getKexExcludePubkeys_account (r := 0) (m := ∅) fun h ↦ absurd h (by omega)] at hprocess
  have hactive : (p.fresh c i).accountIsActive = false := rfl
  have hle : (p.configured c i).kexRoundsComplete ≤ p.rounds := zero_le _
  rw [Account.initializeKex, check_bind hactive, g.setMultisigConfig hsigners, ok_bind,
    g.kexUpdateImpl_eq rfl rfl hle h hne (g.initializeKexUpdate h honce) hprocess]
  exact Generic.finalizeKexUpdate hcovers ∅ g p.rounds_pos

/-! ## The round after the last -/

lemma Honest.keys_post (hne : ds ≠ []) (hm : ∀ e, e ∈ m ↔ ∃ j ∈ senders ds, e.2 = p.pubkey c j ∧
      e.1 ∈ p.msgKeys c (p.rounds + 1) j ∧ (p.rounds + 1 = 1 ∨ e.1 ∉ ([] : List P))) :
    m.image Prod.fst = {p.multisigPubkey c, p.commonPubkey c} ∧
      ∀ key ∈ m.image Prod.fst, m.mapped key = (senders ds).image (p.pubkey c) := by
  have hkeys : ∀ j, p.msgKeys c (p.rounds + 1) j = {p.multisigPubkey c, p.commonPubkey c} :=
    fun j ↦ if_neg (by omega)
  simp only [hkeys, List.not_mem_nil, not_false_eq_true, or_true, and_true] at hm
  obtain ⟨d, hd⟩ := List.exists_mem_of_ne_nil ds hne
  have hfst : m.image Prod.fst = {p.multisigPubkey c, p.commonPubkey c} := by
    ext key
    rw [mem_image]
    constructor
    · rintro ⟨e, he, rfl⟩
      obtain ⟨_, _, _, hkey⟩ := (hm e).mp he
      exact hkey
    · intro hkey
      exact ⟨(key, p.pubkey c d.1), (hm _).mpr ⟨d.1, mem_senders.mpr ⟨d, hd, rfl⟩, rfl, hkey⟩, rfl⟩
  refine ⟨hfst, fun key hkey ↦ ?_⟩
  rw [hfst] at hkey
  ext origin
  simp only [KeysetMap.mapped, mem_image, mem_filter, Prod.exists]
  constructor
  · rintro ⟨_, _, ⟨he, rfl⟩, rfl⟩
    obtain ⟨j, hj, horigin, _⟩ := (hm _).mp he
    exact ⟨j, hj, horigin.symm⟩
  · rintro ⟨j, hj, rfl⟩
    exact ⟨key, _, ⟨(hm _).mpr ⟨j, hj, rfl, hkey⟩, rfl⟩, rfl⟩

section

variable (g : p.Generic c) (h : p.Honest c (p.rounds + 1) ds) (hall : ∀ j, j ≠ i → j ∈ senders ds)
  (hne : ds ≠ [])

include g h hall hne

lemma Generic.evaluatePostKexRoundMsgs :
    ∃ m, evaluatePostKexRoundMsgs (p.pubkey c i) (p.rounds + 1) (p.signers c) (ds.map Prod.snd)
        false = .ok m ∧ p.multisigPubkey c ∈ m.keys ∧ p.commonPubkey c ∈ m.keys := by
  obtain ⟨m, hsan, hm⟩ := h.sanitizePubkeys (le_add_left 1 _) hne []
  obtain ⟨hfst, hmapped⟩ := Honest.keys_post hne hm
  have hlength : m.keys.length = 2 := by
    rw [KeysetMap.keys, length_ascending, hfst, card_pair g.multisigPubkey_ne_commonPubkey]
  obtain ⟨key₁, key₂, hkeys⟩ := List.length_eq_two.mp hlength
  have hmem : ∀ key ∈ m.keys, m.mapped key = (senders ds).image (p.pubkey c) :=
    fun key hkey ↦ hmapped key (mem_ascending.mp hkey)
  have h₁ : m.mapped key₁ = (senders ds).image (p.pubkey c) := hmem key₁ (by simp [hkeys])
  have h₂ : m.mapped key₂ = (senders ds).image (p.pubkey c) := hmem key₂ (by simp [hkeys])
  have horigins : insert (p.pubkey c i) ((senders ds).image (p.pubkey c)) =
      univ.image (p.pubkey c) := by
    rw [← image_insert]
    refine congrArg (image (p.pubkey c)) (eq_univ_iff_forall.mpr fun j ↦ mem_insert.mpr ?_)
    exact (eq_or_ne j i).imp_right (hall j)
  have hcard : (p.signers c).length ≤ (univ.image (p.pubkey c)).card := by
    rw [signers, length_ascending]
  refine ⟨m, ?_, ?_, ?_⟩
  · rw [Multisig.evaluatePostKexRoundMsgs, hsan, ok_bind]
    simp only [hkeys, h₁, h₂, horigins]
    rw [check_bind trivial, check_bind trivial, check_bind ?hsigners, check_bind ?hknown]
    · rfl
    case hsigners => exact hcard
    case hknown => exact fun origin horigin ↦ mem_ascending.mpr horigin
  · exact mem_ascending.mpr (by simp [hfst])
  · exact mem_ascending.mpr (by simp [hfst])

lemma Generic.kexUpdateImpl_post (m : KeysetMap P) :
    (p.account c p.rounds i m).kexUpdateImpl c (ds.map Prod.snd) false =
      .ok (p.account c (p.rounds + 1) i m) := by
  have hpos : 0 < p.rounds := p.rounds_pos
  obtain ⟨results, heval, hmultisig, hcommon⟩ := g.evaluatePostKexRoundMsgs h hall hne
  have hprocess : Multisig.processRoundMsgs (p.basePrivkey i) (p.pubkey c i) (p.rounds + 1)
      p.threshold (p.signers c) (ds.map Prod.snd) (p.account c p.rounds i m).getKexExcludePubkeys
        false = .ok results := by
    rw [Multisig.processRoundMsgs, g.length_signers, checkMultisigConfig_ok (by omega) le_rfl,
      ok_bind, multisigKexRoundsRequired_ok, ok_bind, if_neg (by omega), if_neg (by omega), heval,
      ok_bind, if_neg (by omega)]
    rfl
  have happly : (p.account c p.rounds i m).applyResults c p.rounds results =
      .ok (p.account c p.rounds i m, p.msgList c (p.rounds + 1) i) := by
    have hkey : (p.account c p.rounds i m).multisigPubkey = p.multisigPubkey c :=
      if_neg (lt_irrefl _)
    have hkey' : (p.account c p.rounds i m).commonPubkey = p.commonPubkey c := rfl
    rw [Account.applyResults, kexRoundsComplete_account, if_pos rfl, hkey, hkey',
      check_bind hmultisig, check_bind hcommon, msgList_post (lt_succ_self _)]
    rfl
  have hround : min (p.rounds + 1) p.rounds + 1 = p.rounds + 1 := by omega
  have hle : (p.account c p.rounds i m).kexRoundsComplete ≤ p.rounds := le_rfl
  rw [g.kexUpdateImpl_eq rfl rfl hle h hne (if_pos hpos) hprocess,
    g.finalizeKexUpdate_eq hround (succ_lt_succ hpos) rfl happly]
  have h₁ : ¬p.rounds + 1 + 1 < p.rounds := by omega
  have h₂ : p.rounds + 1 + 1 ≠ p.rounds := by omega
  simp [account, h₁, h₂]

end

/-! ## Calls on an active account -/

lemma Generic.multisigIsReady_account (g : p.Generic c) (hr : 1 ≤ r) (m : KeysetMap P) :
    (p.account c r i m).multisigIsReady = .ok (decide (p.rounds + 1 ≤ r)) := by
  have hactive : (p.account c r i m).accountIsActive = true := decide_eq_true hr
  have hlength : (p.account c r i m).signers.length = card ι := g.length_signers
  have hthreshold : (p.account c r i m).threshold = p.threshold := rfl
  have hcomplete : (p.account c r i m).kexRoundsComplete = r := rfl
  rw [Account.multisigIsReady, Account.mainKexRoundsDone, if_pos hactive, hlength, hthreshold,
    multisigKexRoundsRequired_ok, ok_bind, hcomplete, multisigSetupRoundsRequired_ok]
  by_cases hle : p.rounds ≤ r
  · simp [hle, pure, Except.pure, bind, Except.bind]
  · have hnot : ¬p.rounds + 1 ≤ r := by omega
    simp [hle, hnot, pure, Except.pure, bind, Except.bind]

lemma Generic.kexUpdate_eq (g : p.Generic c) (hr : 1 ≤ r) (hrR : r ≤ p.rounds) (m : KeysetMap P)
    (msgs : List (KexMsg F P)) (force : Bool) :
    (p.account c r i m).kexUpdate c msgs force =
      (p.account c r i m).kexUpdateImpl c msgs force := by
  have hactive : (p.account c r i m).accountIsActive = true := decide_eq_true hr
  have hready : decide (p.rounds + 1 ≤ r) = false := decide_eq_false (by omega)
  rw [Account.kexUpdate, check_bind hactive, g.multisigIsReady_account hr, ok_bind,
    check_bind hready]

end Parties

end Monero.Multisig
