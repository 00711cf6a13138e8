import Monero.Lib.Groups
import Monero.Multisig.Account

/-!
# The keys that groups of signers share

In round `r` of the key exchange every group of `r` signers has a key, which each
of its members finds on its own.  An account that evaluates messages of the round
obtains the keys of exactly the groups it is not in.
-/

namespace Monero.Multisig

open Monero.Lib Finset Fintype

def Crypto.blindedPubkey {F P : Type} [SMul F P] (c : Crypto F P) (derivation : P) : P :=
  c.getMultisigBlindedSecretKey derivation • c.basePoint

/-- The secret keys of the signers and a threshold that an exchange accepts. -/
structure Parties (ι F : Type) [Fintype ι] where
  basePrivkey : ι → F
  baseCommonPrivkey : ι → F
  threshold : ℕ
  one_le_threshold : 1 ≤ threshold
  threshold_le : threshold ≤ card ι
  two_le_card : 2 ≤ card ι
  card_le : card ι ≤ multisigMaxSigners

namespace Parties

section Rounds

variable {ι F : Type} [Fintype ι]

def rounds (p : Parties ι F) : ℕ := card ι - p.threshold + 1

variable {p : Parties ι F}

lemma rounds_pos : 1 ≤ p.rounds := Nat.le_add_left 1 _

lemma rounds_le_card : p.rounds ≤ card ι := by
  have h₁ := p.one_le_threshold
  have h₂ := p.threshold_le
  unfold rounds
  omega

end Rounds

section Keys

variable {ι F P : Type} [Fintype ι] [Field F] [AddCommGroup P] [Module F P]
  (p : Parties ι F) (c : Crypto F P)

def pubkey (i : ι) : P := p.basePrivkey i • c.basePoint

def groupKey (S : Finset ι) : P := 8 ^ (S.card - 1) • (∏ i ∈ S, p.basePrivkey i) • c.basePoint

/-- The key of a group of `r` in round `r`: in the last of several rounds it is blinded. -/
def kexKey (r : ℕ) (S : Finset ι) : P :=
  if 1 < r ∧ r = p.rounds then c.blindedPubkey (p.groupKey c S) else p.groupKey c S

def share (S : Finset ι) : F :=
  if p.rounds = 1 then ∏ i ∈ S, p.basePrivkey i
  else c.getMultisigBlindedSecretKey (p.groupKey c S)

def converted (finalKeys : List P) (privkey : F) : F :=
  c.hashAggregation (privkey • c.basePoint) finalKeys * privkey

variable {p c}

@[simp] lemma groupKey_singleton (i : ι) : p.groupKey c {i} = p.pubkey c i := by
  simp [groupKey, pubkey]

lemma groupKey_insert [DecidableEq ι] {i : ι} {S : Finset ι} (hi : i ∉ S) (hS : S.Nonempty) :
    p.groupKey c (insert i S) = 8 • p.basePrivkey i • p.groupKey c S := by
  have hcard : (insert i S).card - 1 = S.card - 1 + 1 := by
    rw [card_insert_of_notMem hi, Nat.add_sub_cancel]
    exact (Nat.sub_add_cancel hS.card_pos).symm
  calc
    p.groupKey c (insert i S) = 8 ^ (S.card - 1 + 1) •
        (p.basePrivkey i * ∏ j ∈ S, p.basePrivkey j) • c.basePoint := by
      rw [groupKey, hcard, prod_insert hi]
    _ = 8 • 8 ^ (S.card - 1) • p.basePrivkey i • (∏ j ∈ S, p.basePrivkey j) • c.basePoint := by
      rw [pow_succ', mul_smul, mul_smul]
    _ = 8 • p.basePrivkey i • p.groupKey c S := by rw [smul_comm (8 ^ _), groupKey]

lemma kexKey_of_lt {r : ℕ} (hr : r < p.rounds) (S : Finset ι) : p.kexKey c r S = p.groupKey c S :=
  if_neg fun h ↦ hr.ne h.2

lemma kexKey_rounds (h : 1 < p.rounds) (S : Finset ι) :
    p.kexKey c p.rounds S = c.blindedPubkey (p.groupKey c S) :=
  if_pos ⟨h, rfl⟩

@[simp] lemma kexKey_one (S : Finset ι) : p.kexKey c 1 S = p.groupKey c S :=
  if_neg fun h ↦ absurd h.1 (lt_irrefl 1)

lemma share_smul {S : Finset ι} (hS : S ∈ groups ι p.rounds) :
    p.share c S • c.basePoint = p.kexKey c p.rounds S := by
  rw [mem_groups] at hS
  by_cases h : p.rounds = 1
  · rw [share, if_pos h, h, kexKey_one, groupKey, hS, h, Nat.sub_self, pow_zero, one_smul]
  · rw [share, if_neg h, kexKey_rounds (by have := p.rounds_pos; omega), Crypto.blindedPubkey]

end Keys

lemma groupsWith_one {ι : Type} [Fintype ι] [DecidableEq ι] (i : ι) : groupsWith i 1 = {{i}} := by
  ext S
  rw [mem_groupsWith, mem_singleton, card_eq_one]
  constructor
  · rintro ⟨⟨j, rfl⟩, hi⟩
    rw [mem_singleton.mp hi]
  · rintro rfl
    exact ⟨⟨i, rfl⟩, mem_singleton_self i⟩

abbrev Deliveries (ι F P : Type) := List (ι × KexMsg F P)

def senders {ι F P : Type} [DecidableEq ι] (ds : Deliveries ι F P) : Finset ι :=
  (ds.map Prod.fst).toFinset

lemma mem_senders {ι F P : Type} [DecidableEq ι] {ds : Deliveries ι F P} {j : ι} :
    j ∈ senders ds ↔ ∃ d ∈ ds, d.1 = j := by
  simp [senders]

section OwnKeys

variable {ι F P : Type} [Fintype ι] [DecidableEq ι] [Field F] [AddCommGroup P] [Module F P]
  [LinearOrder P]

/-- The keys of its own groups, in round `r`. -/
def ownKeys (p : Parties ι F) (c : Crypto F P) (r : ℕ) (i : ι) : List P :=
  ascending ((groupsWith i r).image (p.kexKey c r))

variable {p : Parties ι F} {c : Crypto F P}

lemma ownKeys_one (i : ι) : p.ownKeys c 1 i = [p.pubkey c i] := by
  rw [ownKeys, groupsWith_one, image_singleton, kexKey_one, groupKey_singleton]
  rfl

lemma mem_ownKeys {r : ℕ} {i : ι} {key : P} :
    key ∈ p.ownKeys c r i ↔ ∃ S, (S.card = r ∧ i ∈ S) ∧ p.kexKey c r S = key := by
  simp [ownKeys]

end OwnKeys

variable {ι F P : Type} [Fintype ι] [Field F] [LinearOrder F] [AddCommGroup P] [Module F P]
  [LinearOrder P] (p : Parties ι F) (c : Crypto F P)

def finalKeys : List P := ascending ((groups ι p.rounds).image (p.kexKey c p.rounds))

def finalShare (S : Finset ι) : F := converted c (p.finalKeys c) (p.share c S)

def multisigPubkey : P := ∑ S ∈ groups ι p.rounds, p.finalShare c S • c.basePoint

def commonPrivkey : F := c.hashToScalar (sorted (univ.val.map p.baseCommonPrivkey))

def commonPubkey : P := p.commonPrivkey c • c.basePoint

/-- Keys of different groups are different, and no key is null. -/
structure Generic : Prop where
  kexKey_injOn : ∀ r, 1 ≤ r → r ≤ p.rounds →
    Set.InjOn (p.kexKey c r) (groups ι r : Set (Finset ι))
  kexKey_ne_zero : ∀ r, 1 ≤ r → r ≤ p.rounds → ∀ S ∈ groups ι r, p.kexKey c r S ≠ 0
  baseCommonPrivkey_ne_zero : ∀ i, p.baseCommonPrivkey i ≠ 0
  commonPrivkey_ne_zero : p.commonPrivkey c ≠ 0
  commonPubkey_ne_zero : p.commonPubkey c ≠ 0
  finalShare_injOn : Set.InjOn (p.finalShare c) (groups ι p.rounds : Set (Finset ι))
  finalShare_ne_zero : ∀ S ∈ groups ι p.rounds, p.finalShare c S ≠ 0
  multisigPubkey_ne_zero : p.multisigPubkey c ≠ 0
  multisigPubkey_ne_commonPubkey : p.multisigPubkey c ≠ p.commonPubkey c

variable {p c} {r : ℕ} {S : Finset ι}

lemma Generic.kexKey_inj (g : p.Generic c) (hr : 1 ≤ r) (hrR : r ≤ p.rounds) {S' : Finset ι}
    (hS : S.card = r) (hS' : S'.card = r) (heq : p.kexKey c r S = p.kexKey c r S') : S = S' :=
  g.kexKey_injOn r hr hrR (mem_coe.mpr (mem_groups.mpr hS)) (mem_coe.mpr (mem_groups.mpr hS')) heq

lemma Generic.pubkey_injective (g : p.Generic c) : Function.Injective (p.pubkey c) := by
  intro i j hij
  have heq : p.kexKey c 1 {i} = p.kexKey c 1 {j} := by simpa using hij
  exact singleton_injective
    (g.kexKey_inj le_rfl p.rounds_pos (card_singleton i) (card_singleton j) heq)

lemma Generic.pubkey_ne_zero (g : p.Generic c) (i : ι) : p.pubkey c i ≠ 0 := by
  have h := g.kexKey_ne_zero 1 le_rfl p.rounds_pos {i} (by simp)
  simpa using h

lemma Generic.basePrivkey_ne_zero (g : p.Generic c) (i : ι) : p.basePrivkey i ≠ 0 := by
  intro h
  exact g.pubkey_ne_zero i (by rw [pubkey, h, zero_smul])

def signers (p : Parties ι F) (c : Crypto F P) : List P := ascending (univ.image (p.pubkey c))

lemma Generic.length_signers (g : p.Generic c) : (p.signers c).length = card ι := by
  rw [signers, length_ascending, card_image_of_injective _ g.pubkey_injective, card_univ]

omit [LinearOrder F] in
lemma pubkey_mem_signers (j : ι) : p.pubkey c j ∈ p.signers c :=
  mem_ascending.mpr (mem_image_of_mem _ (mem_univ j))

variable [DecidableEq ι] {ds : Deliveries ι F P} {i : ι}

lemma groupsWith_subset (i : ι) (r : ℕ) : groupsWith i r ⊆ groups ι r := filter_subset _ _

lemma Generic.length_ownKeys (g : p.Generic c) (hr : r + 1 ≤ p.rounds) (i : ι) :
    (p.ownKeys c (r + 1) i).length = (card ι - 1).choose r := by
  rw [ownKeys, length_ascending, card_image_of_injOn, card_groupsWith]
  exact (g.kexKey_injOn (r + 1) (Nat.le_add_left 1 r) hr).mono
    (coe_subset.mpr (groupsWith_subset i (r + 1)))

lemma Generic.kexKey_notMem_ownKeys (g : p.Generic c) (hr : 1 ≤ r) (hrR : r ≤ p.rounds)
    (hS : S.card = r) : p.kexKey c r S ∉ p.ownKeys c r i ↔ i ∉ S := by
  rw [not_iff_not, mem_ownKeys]
  constructor
  · rintro ⟨S', ⟨hcard, hi⟩, heq⟩
    rwa [← g.kexKey_inj hr hrR hcard hS heq]
  · intro hi
    exact ⟨S, ⟨hS, hi⟩, rfl⟩

/-! ## Honest messages -/

/-- The keys that a signer sends for round `r`, the round after the last included. -/
def msgKeys (p : Parties ι F) (c : Crypto F P) (r : ℕ) (i : ι) : Finset P :=
  if r ≤ p.rounds then (groupsWith i r).image (p.kexKey c r)
  else {p.multisigPubkey c, p.commonPubkey c}

/-- A message of an honest signer; the keys may be in any order. -/
structure IsMsg (p : Parties ι F) (c : Crypto F P) (r : ℕ) (i : ι) (msg : KexMsg F P) : Prop where
  kexRound : msg.kexRound = r
  signingPubkey : msg.signingPubkey = p.pubkey c i
  msgPubkeys : 1 < r → msg.msgPubkeys.toFinset = p.msgKeys c r i
  msgPrivkey : r = 1 → msg.msgPrivkey = p.baseCommonPrivkey i

lemma IsMsg.mem_sanitizeMsg {msg : KexMsg F P} (h : p.IsMsg c r i msg) (hr : 1 ≤ r)
    {exclude : List P} {e : P × P} :
    e ∈ sanitizeMsg r exclude msg ↔
      e.2 = p.pubkey c i ∧ e.1 ∈ p.msgKeys c r i ∧ (r = 1 ∨ e.1 ∉ exclude) := by
  obtain ⟨key, origin⟩ := e
  rcases eq_or_lt_of_le hr with rfl | hlt
  · have hkeys : p.msgKeys c 1 i = {p.pubkey c i} := by
      rw [msgKeys, if_pos p.rounds_pos, groupsWith_one, image_singleton, kexKey_one,
        groupKey_singleton]
    rw [sanitizeMsg, if_pos rfl, hkeys, h.signingPubkey]
    simp [and_comm]
  · have hmem : ∀ k, k ∈ msg.msgPubkeys ↔ k ∈ p.msgKeys c r i := fun k ↦ by
      rw [← h.msgPubkeys hlt, List.mem_toFinset]
    rw [sanitizeMsg, if_neg hlt.ne', h.signingPubkey]
    simp only [List.mem_toFinset, List.mem_map, List.mem_filter, decide_eq_true_eq, Prod.mk.injEq,
      hmem, hlt.ne', false_or]
    constructor
    · rintro ⟨k, ⟨hk, hex⟩, rfl, rfl⟩
      exact ⟨rfl, hk, hex⟩
    · rintro ⟨rfl, hk, hex⟩
      exact ⟨key, ⟨hk, hex⟩, rfl, rfl⟩

lemma mem_foldl_union {α β : Type} [DecidableEq β] (f : α → Finset β) (l : List α) (s : Finset β)
    (b : β) : b ∈ l.foldl (fun m a ↦ m ∪ f a) s ↔ b ∈ s ∨ ∃ a ∈ l, b ∈ f a := by
  induction l generalizing s with
  | nil => simp
  | cons a l ih =>
    rw [List.foldl_cons, ih, mem_union, or_assoc]
    simp

def Honest (p : Parties ι F) (c : Crypto F P) (r : ℕ) (ds : Deliveries ι F P) : Prop :=
  ∀ d ∈ ds, p.IsMsg c r d.1 d.2

lemma Honest.checkMessagesRound (h : p.Honest c r ds) (hne : ds ≠ []) :
    checkMessagesRound (ds.map Prod.snd) r = .ok () := by
  cases ds with
  | nil => exact absurd rfl hne
  | cons d ds =>
    have hround : ∀ m ∈ (d :: ds).map Prod.snd, m.kexRound = r := by
      intro m hm
      obtain ⟨d', hd', rfl⟩ := List.mem_map.mp hm
      exact (h d' hd').kexRound
    have hfirst : d.2.kexRound = r := hround d.2 (List.mem_cons_self)
    rw [List.map_cons, Multisig.checkMessagesRound, check_bind hfirst]
    exact check_of_pos (fun m hm ↦ (hround m hm).trans hfirst.symm) _

lemma Honest.sanitizePubkeys (h : p.Honest c r ds) (hr : 1 ≤ r) (hne : ds ≠ [])
    (exclude : List P) :
    ∃ m, sanitizePubkeys (ds.map Prod.snd) exclude = .ok (r, m) ∧ ∀ e, e ∈ m ↔
      ∃ j ∈ senders ds, e.2 = p.pubkey c j ∧ e.1 ∈ p.msgKeys c r j ∧ (r = 1 ∨ e.1 ∉ exclude) := by
  have hcheck := h.checkMessagesRound hne
  cases ds with
  | nil => exact absurd rfl hne
  | cons d ds =>
    have hfirst : d.2.kexRound = r := (h d List.mem_cons_self).kexRound
    rw [List.map_cons] at hcheck ⊢
    rw [Multisig.sanitizePubkeys, hfirst, hcheck, ok_bind]
    refine ⟨_, rfl, fun e ↦ ?_⟩
    rw [mem_foldl_union, ← List.map_cons (f := Prod.snd)]
    simp only [notMem_empty, false_or, List.mem_map, mem_senders]
    constructor
    · rintro ⟨_, ⟨d', hd', rfl⟩, he⟩
      exact ⟨d'.1, ⟨d', hd', rfl⟩, ((h d' hd').mem_sanitizeMsg hr).mp he⟩
    · rintro ⟨_, ⟨d', hd', rfl⟩, he⟩
      exact ⟨d'.2, ⟨d', hd', rfl⟩, ((h d' hd').mem_sanitizeMsg hr).mpr he⟩

/-! ## Evaluating a round -/

/-- The keys of the groups without `i` that a sender is in, with those senders. -/
def recommended (p : Parties ι F) (c : Crypto F P) (r : ℕ) (i : ι) (T : Finset ι) : KeysetMap P :=
  ((groupsWithout i r ×ˢ T).filter fun x ↦ x.2 ∈ x.1).image
    fun x ↦ (p.kexKey c r x.1, p.pubkey c x.2)

omit [LinearOrder F] in
lemma mem_recommended {T : Finset ι} {e : P × P} :
    e ∈ p.recommended c r i T ↔ ∃ S, S.card = r ∧ i ∉ S ∧ ∃ j ∈ T, j ∈ S ∧
      p.kexKey c r S = e.1 ∧ p.pubkey c j = e.2 := by
  obtain ⟨key, origin⟩ := e
  simp only [recommended, mem_image, mem_filter, mem_product, mem_groupsWithout, Prod.exists,
    Prod.mk.injEq]
  constructor
  · rintro ⟨S, j, ⟨⟨⟨hcard, hi⟩, hj⟩, hjS⟩, hkey, horigin⟩
    exact ⟨S, hcard, hi, j, hj, hjS, hkey, horigin⟩
  · rintro ⟨S, hcard, hi, j, hj, hjS, hkey, horigin⟩
    exact ⟨S, j, ⟨⟨⟨hcard, hi⟩, hj⟩, hjS⟩, hkey, horigin⟩

variable {r : ℕ} {i : ι} {ds : Deliveries ι F P} {T : Finset ι}

lemma Generic.removeKey_sanitized (g : p.Generic c) (hr : 1 ≤ r) (hrR : r ≤ p.rounds)
    {m : KeysetMap P} (hm : ∀ e, e ∈ m ↔ ∃ j ∈ T, e.2 = p.pubkey c j ∧
      e.1 ∈ p.msgKeys c r j ∧ (r = 1 ∨ e.1 ∉ p.ownKeys c r i)) :
    removeKeyFromMappedSets (p.pubkey c i) m = p.recommended c r i T := by
  have hkeys : ∀ j, p.msgKeys c r j = (groupsWith j r).image (p.kexKey c r) := fun j ↦ if_pos hrR
  ext ⟨key, origin⟩
  rw [removeKeyFromMappedSets, mem_filter, hm, mem_recommended]
  simp only [hkeys, mem_image, mem_groupsWith]
  constructor
  · rintro ⟨⟨j, hj, rfl, ⟨S, ⟨hcard, hjS⟩, rfl⟩, hex⟩, hne⟩
    refine ⟨S, hcard, ?_, j, hj, hjS, rfl, rfl⟩
    rcases hex with rfl | hex
    · -- In the first round the group is the sender alone.
      obtain ⟨x, rfl⟩ := card_eq_one.mp hcard
      rw [mem_singleton] at hjS ⊢
      rintro rfl
      exact hne (by rw [hjS])
    · exact (g.kexKey_notMem_ownKeys hr hrR hcard).mp hex
  · rintro ⟨S, hcard, hi, j, hj, hjS, rfl, rfl⟩
    refine ⟨⟨j, hj, rfl, ⟨S, ⟨hcard, hjS⟩, rfl⟩, .inr ?_⟩, ?_⟩
    · exact (g.kexKey_notMem_ownKeys hr hrR hcard).mpr hi
    · intro heq
      exact hi (g.pubkey_injective heq ▸ hjS)

/-- Enough senders, so that every group without `i` has one in it. -/
def Covers (r : ℕ) (i : ι) (T : Finset ι) : Prop := card ι ≤ (T.erase i).card + r

lemma Covers.exists_mem (h : Covers r i T) (hcard : S.card = r) (hi : i ∉ S) : ∃ j ∈ T, j ∈ S := by
  obtain ⟨j, hj, hjS⟩ := exists_mem_of_card_le (notMem_erase i T) h
    (mem_groupsWithout.mpr ⟨hcard, hi⟩)
  exact ⟨j, mem_of_mem_erase hj, hjS⟩

lemma covers_of_forall (hr : 1 ≤ r) (h : ∀ j, j ≠ i → j ∈ T) : Covers r i T := by
  have hsub : univ.erase i ⊆ T.erase i := fun j hj ↦
    mem_erase.mpr ⟨ne_of_mem_erase hj, h j (ne_of_mem_erase hj)⟩
  have hle := card_le_card hsub
  rw [card_erase_of_mem (mem_univ i), card_univ] at hle
  unfold Covers
  omega

omit [LinearOrder F] in
lemma image_fst_recommended (h : Covers r i T) :
    (p.recommended c r i T).image Prod.fst = (groupsWithout i r).image (p.kexKey c r) := by
  ext key
  rw [mem_image, mem_image]
  constructor
  · rintro ⟨e, he, rfl⟩
    obtain ⟨S, hcard, hi, _, _, _, hkey, _⟩ := mem_recommended.mp he
    exact ⟨S, mem_groupsWithout.mpr ⟨hcard, hi⟩, hkey⟩
  · rintro ⟨S, hS, rfl⟩
    obtain ⟨hcard, hi⟩ := mem_groupsWithout.mp hS
    obtain ⟨j, hj, hjS⟩ := h.exists_mem hcard hi
    exact ⟨(p.kexKey c r S, p.pubkey c j),
      mem_recommended.mpr ⟨S, hcard, hi, j, hj, hjS, rfl, rfl⟩, rfl⟩

lemma Generic.mapped_recommended (g : p.Generic c) (hr : 1 ≤ r) (hrR : r ≤ p.rounds)
    (hcard : S.card = r) (hi : i ∉ S) :
    (p.recommended c r i T).mapped (p.kexKey c r S) = (S ∩ T).image (p.pubkey c) := by
  ext origin
  simp only [KeysetMap.mapped, mem_image, mem_filter, Prod.exists, mem_inter]
  constructor
  · rintro ⟨_, _, ⟨he, rfl⟩, rfl⟩
    obtain ⟨S', hcard', _, j, hj, hjS, hkey, horigin⟩ := mem_recommended.mp he
    rw [g.kexKey_inj hr hrR hcard' hcard hkey] at hjS
    exact ⟨j, ⟨hjS, hj⟩, horigin⟩
  · rintro ⟨j, ⟨hjS, hj⟩, rfl⟩
    exact ⟨_, _, ⟨mem_recommended.mpr ⟨S, hcard, hi, j, hj, hjS, rfl, rfl⟩, rfl⟩, rfl⟩

omit [LinearOrder F] in
lemma origins_recommended (hr : 1 ≤ r) (hrN : r + 1 ≤ card ι) :
    (p.recommended c r i T).origins = (T.erase i).image (p.pubkey c) := by
  ext origin
  simp only [KeysetMap.origins, mem_image, mem_erase]
  constructor
  · rintro ⟨e, he, rfl⟩
    obtain ⟨S, _, hi, j, hj, hjS, _, horigin⟩ := mem_recommended.mp he
    exact ⟨j, ⟨fun h ↦ hi (h ▸ hjS), hj⟩, horigin⟩
  · rintro ⟨j, ⟨hne, hj⟩, rfl⟩
    obtain ⟨S, hS, hjS⟩ := exists_group_without hne (n := r - 1) (by omega)
    obtain ⟨hcard, hi⟩ := mem_groupsWithout.mp hS
    rw [Nat.sub_add_cancel hr] at hcard
    exact ⟨(p.kexKey c r S, p.pubkey c j),
      mem_recommended.mpr ⟨S, hcard, hi, j, hj, hjS, rfl, rfl⟩, rfl⟩

lemma Generic.card_keysOf_recommended (g : p.Generic c) (hr : 1 ≤ r) (hrR : r ≤ p.rounds) {j : ι}
    (hj : j ∈ T) (hne : j ≠ i) :
    ((p.recommended c r i T).keysOf (p.pubkey c j)).card = (card ι - 2).choose (r - 1) := by
  have heq : (p.recommended c r i T).keysOf (p.pubkey c j) =
      ((groupsWith j r).filter (i ∉ ·)).image (p.kexKey c r) := by
    ext key
    simp only [KeysetMap.keysOf, mem_image, mem_filter, Prod.exists, mem_groupsWith]
    constructor
    · rintro ⟨_, _, ⟨he, rfl⟩, rfl⟩
      obtain ⟨S, hcard, hi, j', _, hjS, hkey, horigin⟩ := mem_recommended.mp he
      rw [g.pubkey_injective horigin] at hjS
      exact ⟨S, ⟨⟨hcard, hjS⟩, hi⟩, hkey⟩
    · rintro ⟨S, ⟨⟨hcard, hjS⟩, hi⟩, rfl⟩
      exact ⟨_, _, ⟨mem_recommended.mpr ⟨S, hcard, hi, j, hj, hjS, rfl, rfl⟩, rfl⟩, rfl⟩
  have hinj : Set.InjOn (p.kexKey c r) ((groupsWith j r).filter (i ∉ ·) : Set (Finset ι)) :=
    (g.kexKey_injOn r hr hrR).mono
      (coe_subset.mpr ((filter_subset _ _).trans (groupsWith_subset j r)))
  obtain ⟨n, rfl⟩ : ∃ n, r = n + 1 := ⟨r - 1, (Nat.sub_add_cancel hr).symm⟩
  rw [heq, card_image_of_injOn hinj, card_groupsWith_without hne, Nat.add_sub_cancel]

lemma nChooseK_eq {n : ℕ} (hn : n ≤ multisigMaxSigners) (k : ℕ) : nChooseK n k = n.choose k := by
  have hle : n.choose k ≤ 2 ^ 16 :=
    (Nat.choose_le_two_pow n k).trans (Nat.pow_le_pow_right (by decide) hn)
  exact if_neg (by omega)

/-- What an update needs of the messages: some message, and either of all others or, if it is
forced, of enough of them. -/
structure Sufficient (r : ℕ) (i : ι) (force : Bool) (T : Finset ι) : Prop where
  covers : Covers r i T
  full : force = false → ∀ j, j ≠ i → j ∈ T

lemma Generic.evaluateKexRoundMsgs (g : p.Generic c) (hr : 1 ≤ r) (hrR : r ≤ p.rounds)
    (hrN : r + 1 ≤ card ι) (h : p.Honest c r ds) (hne : ds ≠ []) {force : Bool}
    (hs : Sufficient r i force (senders ds)) :
    evaluateKexRoundMsgs (p.pubkey c i) r (p.signers c) (ds.map Prod.snd) (p.ownKeys c r i) force =
      .ok (p.recommended c r i (senders ds)) := by
  obtain ⟨m, hsan, hm⟩ := h.sanitizePubkeys hr hne (p.ownKeys c r i)
  have hnodup : (p.ownKeys c r i).Nodup := nodup_ascending _
  have hremove := g.removeKey_sanitized hr hrR hm
  have hothers : (p.recommended c r i (senders ds)).origins.card =
      ((senders ds).erase i).card := by
    rw [origins_recommended hr hrN, card_image_of_injective _ g.pubkey_injective]
  have hN := p.card_le
  have hchoose₁ : nChooseK (card ι - 2) (r - 1) = (card ι - 2).choose (r - 1) :=
    nChooseK_eq (by omega) _
  have hchoose₂ : nChooseK (card ι - 1) (r - 1) = (card ι - 1).choose (r - 1) :=
    nChooseK_eq (by omega) _
  have hown : (p.ownKeys c r i).length = (card ι - 1).choose (r - 1) := by
    have hlen := g.length_ownKeys (r := r - 1) (by omega) i
    rwa [Nat.sub_add_cancel hr] at hlen
  rw [Multisig.evaluateKexRoundMsgs, check_bind hnodup, hsan, ok_bind]
  simp only [hremove, g.length_signers, hchoose₁, hchoose₂, hothers]
  rw [check_bind trivial, check_bind ?hrecommendations, check_bind ?hsigners, check_bind ?hlimits,
    check_bind hown, forM_ok ?heach, ok_bind]
  · rfl
  case hrecommendations =>
    intro key hkey
    have hkey' := mem_ascending.mp hkey
    rw [image_fst_recommended hs.covers, mem_image] at hkey'
    obtain ⟨S, hS, rfl⟩ := hkey'
    obtain ⟨hcard, hi⟩ := mem_groupsWithout.mp hS
    rw [g.mapped_recommended hr hrR hcard hi, card_image_of_injective _ g.pubkey_injective]
    cases force with
    | true =>
      obtain ⟨j, hj, hjS⟩ := hs.covers.exists_mem hcard hi
      exact card_pos.mpr ⟨j, mem_inter.mpr ⟨hjS, hj⟩⟩
    | false =>
      have hall : S ∩ senders ds = S :=
        inter_eq_left.mpr fun j hj ↦ hs.full rfl j fun h ↦ hi (h ▸ hj)
      rw [hall, hcard]
      exact le_rfl
  case hsigners =>
    cases force with
    | true =>
      have hcovers := hs.covers
      unfold Covers at hcovers
      simp only [if_true]
      omega
    | false =>
      have hcovers := covers_of_forall le_rfl (hs.full rfl)
      unfold Covers at hcovers
      simp only [Bool.false_eq_true, if_false]
      omega
  case hlimits => exact ⟨Nat.choose_pos (by omega), Nat.choose_pos (by omega)⟩
  case heach =>
    intro origin horigin
    rw [mem_ascending, origins_recommended hr hrN, mem_image] at horigin
    obtain ⟨j, hj, rfl⟩ := horigin
    obtain ⟨hji, hj⟩ := mem_erase.mp hj
    rw [check_bind (g.card_keysOf_recommended hr hrR hj hji)]
    exact check_of_pos (pubkey_mem_signers j) _

end Parties

/-! ## Merging the keys of the last round

Each key is multiplied by its aggregation coefficient and added to the multisig key; an
account that holds the private key of one converts it too. -/

open List

lemma exists_getD_set_idxOf {α β γ : Type} [DecidableEq γ] (h : α → γ) (f : α → β) (default : β)
    {key : γ} {l : List α} (hnodup : (l.map h).Nodup) (hkey : key ∈ l.map h) :
    ∃ a ∈ l, h a = key ∧ (l.map f).getD ((l.map h).idxOf key) default = f a ∧
      ∀ g : α → β, (∀ b, h b ≠ key → g b = f b) →
        (l.map f).set ((l.map h).idxOf key) (g a) = l.map g := by
  induction l with
  | nil => exact absurd hkey not_mem_nil
  | cons a l ih =>
    obtain ⟨hnot, hnodup⟩ := nodup_cons.mp hnodup
    by_cases ha : h a = key
    · refine ⟨a, mem_cons_self, ha, ?_, fun g hg ↦ ?_⟩
      · simp only [List.map_cons]
        rw [ha, idxOf_cons_self, getD_cons_zero]
      · have hrest : l.map f = l.map g := map_congr_left fun b hb ↦
          (hg b fun hb' ↦ hnot (ha ▸ hb' ▸ mem_map_of_mem hb)).symm
        simp only [List.map_cons]
        rw [ha, idxOf_cons_self, set_cons_zero, hrest]
    · have hkey' : key ∈ l.map h := (mem_cons.mp hkey).resolve_left (Ne.symm ha)
      obtain ⟨b, hb, hbkey, hget, hset⟩ := ih hnodup hkey'
      refine ⟨b, mem_cons_of_mem a hb, hbkey, ?_, fun g hg ↦ ?_⟩
      · simp only [List.map_cons]
        rw [idxOf_cons_ne _ ha, getD_cons_succ, hget]
      · simp only [List.map_cons]
        rw [idxOf_cons_ne _ ha, set_cons_succ, hset g hg, hg a ha]

namespace Parties

variable {F P : Type} [Field F] [LinearOrder F] [AddCommGroup P] [Module F P] [LinearOrder P]
  {c : Crypto F P}

/-- A private key while the keys `done` are merged. -/
noncomputable def convertedIf (c : Crypto F P) (finalKeys done : List P) (privkey : F) : F :=
  @ite F (privkey • c.basePoint ∈ done) (Classical.propDecidable _) (converted c finalKeys privkey)
    privkey

section

variable {finalKeys : List P} {privkeys : List F} (hsorted : finalKeys.Pairwise (· ≤ ·))
  (hnodup : (privkeys.map (· • c.basePoint)).Nodup)
  (hne : ∀ k ∈ privkeys, converted c finalKeys k ≠ 0)

include hsorted hnodup hne

lemma aggregateStep_ok {done : List P} {key : P} (hkey : key ∈ finalKeys)
    (hnew : key ∉ done) (sum : P) :
    aggregateStep c finalKeys (privkeys.map (· • c.basePoint))
        (privkeys.map (convertedIf c finalKeys done), sum) key =
      .ok (privkeys.map (convertedIf c finalKeys (key :: done)),
        sum + c.hashAggregation key finalKeys • key) := by
  have hsame : ∀ k, k • c.basePoint ≠ key →
      convertedIf c finalKeys (key :: done) k = convertedIf c finalKeys done k := by
    intro k hk
    simp only [convertedIf, List.mem_cons, hk, false_or]
    congr
  rw [aggregateStep, computeMultisigAggregationCoefficient, check_bind hsorted, check_bind hkey,
    pure_bind]
  by_cases hown : key ∈ privkeys.map (· • c.basePoint)
  · obtain ⟨k, hk, hkkey, hget, hset⟩ := exists_getD_set_idxOf (· • c.basePoint)
      (convertedIf c finalKeys done) 0 hnodup hown
    have hold : convertedIf c finalKeys done k = k := if_neg (by rwa [hkkey])
    have hconv :
        c.hashAggregation key finalKeys * k = convertedIf c finalKeys (key :: done) k := by
      rw [convertedIf, if_pos (by rw [hkkey]; exact mem_cons_self), converted, hkkey]
    have hnonzero : convertedIf c finalKeys (key :: done) k ≠ 0 := by
      rw [convertedIf, if_pos (by rw [hkkey]; exact mem_cons_self)]
      exact hne k hk
    rw [if_pos hown]
    simp only [hget, hold, hconv]
    rw [check_bind hnonzero, hset _ hsame]
    rfl
  · have hmap : privkeys.map (convertedIf c finalKeys (key :: done)) =
        privkeys.map (convertedIf c finalKeys done) :=
      map_congr_left fun k hk ↦ hsame k fun h ↦ hown (h ▸ mem_map_of_mem hk)
    rw [if_neg hown, hmap]
    rfl

lemma foldlM_aggregateStep {keys done : List P} (hkeys : ∀ key ∈ keys, key ∈ finalKeys)
    (hkeysNodup : keys.Nodup) (hnew : ∀ key ∈ keys, key ∉ done) (sum : P) :
    keys.foldlM (aggregateStep c finalKeys (privkeys.map (· • c.basePoint)))
        (privkeys.map (convertedIf c finalKeys done), sum) =
      .ok (privkeys.map (convertedIf c finalKeys (keys.reverse ++ done)),
        sum + (keys.map fun key ↦ c.hashAggregation key finalKeys • key).sum) := by
  induction keys generalizing done sum with
  | nil => simp [pure, Except.pure]
  | cons key keys ih =>
    obtain ⟨hnot, hkeysNodup⟩ := nodup_cons.mp hkeysNodup
    rw [foldlM_cons, aggregateStep_ok hsorted hnodup hne (hkeys key mem_cons_self)
      (hnew key mem_cons_self), ok_bind, ih (fun k hk ↦ hkeys k (mem_cons_of_mem key hk))
      hkeysNodup]
    · simp [add_assoc]
    · intro k hk hmem
      rcases mem_cons.mp hmem with rfl | hdone
      · exact hnot hk
      · exact hnew k (mem_cons_of_mem key hk) hdone

end

lemma generateMultisigAggregateKey_ok {otherKeys : List P} {privkeys : List F}
    (hnodup : (otherKeys ++ privkeys.map (· • c.basePoint)).Nodup) {finalKeys : Finset P}
    (hfinal : (otherKeys ++ privkeys.map (· • c.basePoint)).toFinset = finalKeys)
    (hne : ∀ k ∈ privkeys, converted c (ascending finalKeys) k ≠ 0) :
    generateMultisigAggregateKey c otherKeys privkeys =
      .ok (∑ key ∈ finalKeys, c.hashAggregation key (ascending finalKeys) • key,
        privkeys.map (converted c (ascending finalKeys))) := by
  have hsorted := insertionSort_eq_ascending hnodup
  rw [hfinal] at hsorted
  have hstart : privkeys.map (convertedIf c (ascending finalKeys) []) = privkeys := by
    refine map_id'' (fun k ↦ if_neg not_mem_nil) privkeys
  have hrun := foldlM_aggregateStep (pairwise_ascending finalKeys)
    (Nodup.of_append_right hnodup) hne (fun key hkey ↦ hkey) (nodup_ascending finalKeys)
    (fun key _ ↦ (not_mem_nil : key ∉ [])) 0
  have hend : privkeys.map
      (convertedIf c (ascending finalKeys) ((ascending finalKeys).reverse ++ []))
      = privkeys.map (converted c (ascending finalKeys)) := by
    refine map_congr_left fun k hk ↦ if_pos ?_
    rw [append_nil, mem_reverse, mem_ascending, ← hfinal, mem_toFinset]
    exact mem_append_right _ (mem_map_of_mem hk)
  rw [hstart, hend, zero_add, sum_map_ascending] at hrun
  rw [generateMultisigAggregateKey]
  simp only [hsorted]
  rw [check_bind (nodup_ascending finalKeys), hrun, ok_bind]
  rfl

end Parties

end Monero.Multisig
