import Monero.Lib.Result
import Monero.Outputs.Recognised

/-!
# The key image of an output of a multisig group

`generate_multisig_composite_key_image` and the key image helpers it calls.  The
shares of the local account enter through their sum, in the partial key image,
and those of the other signers one component at a time.
-/

namespace Monero.Outputs

open List Monero.Lib

structure SpendingKeys {F P T : Type} [Field F] [AddCommGroup P] [Module F P]
    (c : Primitives F P T) extends AccountKeys c where
  spendSecretKey : F
  multisigKeys : List F

variable {F P T : Type} [Field F] [AddCommGroup P] [Module F P] {c : Primitives F P T}
  (hashToEc : P → P)

def generateKeyImage (pub : P) (sec : F) : P := sec • hashToEc pub

/-- The share of the spend key that the account has. -/
def SpendingKeys.spendSkey (ack : SpendingKeys c) : F :=
  if ack.multisigKeys = [] then ack.spendSecretKey
  else ack.multisigKeys.foldl (fun spendSkey key ↦ key + spendSkey) 0

/-- The part of a subaddress in the secret key of an output. -/
def subaddressPart (keys : AccountKeys c) (index : SubaddressIndex) : F :=
  if index.isZero then 0 else c.getSubaddressSecretKey keys.viewSecretKey index

def generateMultisigKeyImage (keys : SpendingKeys c) (multisigKeyIndex : ℕ) (outKey : P) :
    Option P :=
  keys.multisigKeys[multisigKeyIndex]?.map (generateKeyImage hashToEc outKey)

/-- The output is to the address `index` of the account, with the derivation of a
transaction public key. -/
structure AccountKeys.Receives (keys : AccountKeys c) (outKey txPublicKey : P)
    (additionalTxPublicKeys : List P) (i : ℕ) (index : SubaddressIndex) (derivation : P) :
    Prop where
  outKey_eq : outKey = derivePublicKey c derivation i (getSubaddressSpendPublicKey c keys index)
  derivation_eq : derivation = generateKeyDerivation txPublicKey keys.viewSecretKey ∨
    (additionalTxPublicKeys.map (generateKeyDerivation · keys.viewSecretKey))[i]? =
      some derivation

/-- The account of a signer of the group, and a table of its addresses with `index`. -/
structure SpendingKeys.Signer (keys : SpendingKeys c) (group : AccountKeys c)
    (subaddresses : P → Option SubaddressIndex) (index : SubaddressIndex) : Prop where
  group_eq : keys.toAccountKeys = group
  /-- The base key of the account: it is no view-only wallet. -/
  spendSecretKey_ne : keys.spendSecretKey ≠ 0
  multisigKeys_ne : keys.multisigKeys ≠ []
  /-- The account holds each of its shares once. -/
  nodup : keys.multisigKeys.Nodup
  sound : ∀ D index, subaddresses D = some index → getSubaddressSpendPublicKey c group index = D
  listed : subaddresses (getSubaddressSpendPublicKey c group index) = some index

variable {outKey txPublicKey derivation : P} {additionalTxPublicKeys : List P} {i : ℕ}
  {index : SubaddressIndex} {group : AccountKeys c} {keys : SpendingKeys c}
  {subaddresses : P → Option SubaddressIndex}

lemma getSubaddressSpendPublicKey_eq (keys : AccountKeys c) (index : SubaddressIndex) :
    getSubaddressSpendPublicKey c keys index =
      keys.accountAddress.spendPublicKey + subaddressPart keys index • c.basePoint := by
  rw [getSubaddressSpendPublicKey, subaddressPart]
  split_ifs <;> simp

lemma mapM_generateMultisigKeyImage (keys : SpendingKeys c) (outKey : P) :
    ((range keys.multisigKeys.length).mapM fun m ↦
        generateMultisigKeyImage hashToEc keys m outKey) =
      some (keys.multisigKeys.map (generateKeyImage hashToEc outKey)) := by
  rw [mapM_eq_some_iff, forall₂_iff_get]
  refine ⟨by simp, fun m _ hm ↦ ?_⟩
  rw [length_map] at hm
  simp [generateMultisigKeyImage, getElem?_eq_getElem hm]

variable [DecidableEq T]

/-- The table may lead to the output by another derivation or another address: the
output is theirs too. -/
theorem isOutToAccPrecomp_received (hsigner : keys.Signer group subaddresses index)
    (h : group.Receives outKey txPublicKey additionalTxPublicKeys i index derivation) :
    ∃ info, isOutToAccPrecomp c subaddresses outKey
        (generateKeyDerivation txPublicKey keys.viewSecretKey)
        (additionalTxPublicKeys.map (generateKeyDerivation · keys.viewSecretKey)) i none =
          some info ∧
      outKey = derivePublicKey c info.derivation i
        (getSubaddressSpendPublicKey c group info.index) := by
  have hfound : ∀ derivation info, receivedWith c subaddresses outKey derivation i none =
      some info → outKey = derivePublicKey c info.derivation i
        (getSubaddressSpendPublicKey c group info.index) := by
    intro derivation info hinfo
    obtain ⟨index, hindex, rfl⟩ := Option.map_eq_some_iff.mp hinfo
    rw [hsigner.sound _ _ hindex, derivePublicKey, deriveSubaddressPublicKey, sub_add_cancel]
  have hown : receivedWith c subaddresses outKey derivation i none = some ⟨index, derivation⟩ := by
    rw [h.outKey_eq]
    exact receivedWith_own hsigner.listed derivation i false
  rw [isOutToAccPrecomp, hsigner.group_eq]
  cases hshared : receivedWith c subaddresses outKey
      (generateKeyDerivation txPublicKey group.viewSecretKey) i none with
  | some info => exact ⟨info, rfl, hfound _ _ hshared⟩
  | none =>
    obtain rfl | hadditional := h.derivation_eq
    · cases hown.symm.trans hshared
    · exact ⟨⟨index, derivation⟩, by simp [hadditional, hown], h.outKey_eq⟩

variable [DecidableEq F] [DecidableEq P]

/-- The pair `in_ephemeral` and the key image. -/
def generateKeyImageHelperPrecomp (ack : SpendingKeys c) (outKey recvDerivation : P)
    (realOutputIndex : ℕ) (receivedIndex : SubaddressIndex) : Option ((P × F) × P) :=
  if ack.spendSecretKey = 0 then some ((outKey, 0), generateKeyImage hashToEc outKey (0 : F))
  else
    let subaddrSk := subaddressPart ack.toAccountKeys receivedIndex
    let sec := c.derivationToScalar recvDerivation realOutputIndex + ack.spendSkey + subaddrSk
    let pub :=
      if ack.multisigKeys = [] then sec • c.basePoint
      else derivePublicKey c recvDerivation realOutputIndex ack.accountAddress.spendPublicKey +
        subaddrSk • c.basePoint
    if pub = outKey then some ((pub, sec), generateKeyImage hashToEc pub sec) else none

def generateKeyImageHelper (ack : SpendingKeys c) (subaddresses : P → Option SubaddressIndex)
    (outKey txPublicKey : P) (additionalTxPublicKeys : List P) (realOutputIndex : ℕ) :
    Option ((P × F) × P) :=
  match isOutToAccPrecomp c subaddresses outKey
      (generateKeyDerivation txPublicKey ack.viewSecretKey)
      (additionalTxPublicKeys.map (generateKeyDerivation · ack.viewSecretKey)) realOutputIndex
      none with
  | none => none
  | some info =>
    generateKeyImageHelperPrecomp hashToEc ack outKey info.derivation realOutputIndex info.index

/-- The view key part and the subaddress part of the received output. -/
theorem generateKeyImageHelper_received (hbase : c.basePoint ≠ 0)
    (hsigner : keys.Signer group subaddresses index)
    (h : group.Receives outKey txPublicKey additionalTxPublicKeys i index derivation) :
    ∃ inEphemeral, generateKeyImageHelper hashToEc keys subaddresses outKey txPublicKey
        additionalTxPublicKeys i = some (inEphemeral, generateKeyImage hashToEc outKey
          (c.derivationToScalar derivation i + subaddressPart group index +
            keys.multisigKeys.sum)) := by
  obtain ⟨info, hinfo, hout⟩ := isOutToAccPrecomp_received hsigner h
  -- both ways to the output give the same point, so the scalars agree
  have hscalar : c.derivationToScalar info.derivation i + subaddressPart group info.index =
      c.derivationToScalar derivation i + subaddressPart group index := by
    apply smul_left_injective F hbase
    have heq := hout.symm.trans h.outKey_eq
    simp only [derivePublicKey, getSubaddressSpendPublicKey_eq, add_assoc, add_right_inj] at heq
    simpa [add_smul, add_comm] using heq
  have hpub : derivePublicKey c info.derivation i group.accountAddress.spendPublicKey +
      subaddressPart group info.index • c.basePoint = outKey := by
    rw [hout, getSubaddressSpendPublicKey_eq, derivePublicKey, derivePublicKey, add_right_comm]
  have hspend : keys.spendSkey = keys.multisigKeys.sum := by
    rw [SpendingKeys.spendSkey, if_neg hsigner.multisigKeys_ne, sum_eq_foldl]
    simp [add_comm]
  rw [generateKeyImageHelper, hinfo]
  simp only [generateKeyImageHelperPrecomp, if_neg hsigner.spendSecretKey_ne,
    if_neg hsigner.multisigKeys_ne, hsigner.group_eq, if_pos hpub]
  rw [hpub, hspend, add_right_comm, hscalar]
  exact ⟨_, rfl⟩

/-! ## The composite key image -/

/-- The set `used` and the key image after a component of another signer. -/
def addComponent (s : Finset P × P) (pki : P) : Finset P × P :=
  if pki ∈ s.1 then s else (insert pki s.1, s.2 + pki)

def generateMultisigCompositeKeyImage (keys : SpendingKeys c)
    (subaddresses : P → Option SubaddressIndex) (outKey txPublicKey : P)
    (additionalTxPublicKeys : List P) (realOutputIndex : ℕ) (pkis : List P) : Option P :=
  match generateKeyImageHelper hashToEc keys subaddresses outKey txPublicKey additionalTxPublicKeys
      realOutputIndex with
  | none => none
  | some (_, ki) =>
    match (range keys.multisigKeys.length).mapM fun m ↦
        generateMultisigKeyImage hashToEc keys m outKey with
    | none => none
    | some used => some (pkis.foldl addComponent (used.toFinset, ki)).2

/-- A component counts once, and not at all if it was used before. -/
theorem foldl_addComponent (pkis : List P) (used : Finset P) (ki : P) :
    (pkis.foldl addComponent (used, ki)).2 = ki + ∑ pki ∈ pkis.toFinset \ used, pki := by
  induction pkis generalizing used ki with
  | nil => simp
  | cons pki pkis ih =>
    rw [foldl_cons, addComponent]
    by_cases hused : pki ∈ used
    · rw [if_pos hused, ih, toFinset_cons, Finset.insert_sdiff_of_mem _ hused]
    · have hsplit : (pki :: pkis).toFinset \ used =
          insert pki (pkis.toFinset \ insert pki used) := by
        ext key
        by_cases hkey : key = pki <;> simp [hkey, hused]
      rw [if_neg hused, ih, hsplit, Finset.sum_insert (by simp), add_assoc]

/-- The components that are added are those of the shares that the account lacks. -/
theorem foreign_components {α β : Type} [DecidableEq α] [DecidableEq β] {f : α → β}
    {own others : List α} {shares : Finset α}
    (hshares : own.toFinset ∪ others.toFinset = shares) (hinjective : Set.InjOn f shares) :
    (others.map f).toFinset \ (own.map f).toFinset = (shares \ own.toFinset).image f := by
  have hmem (share : α) : share ∈ shares ↔ share ∈ own ∨ share ∈ others := by simp [← hshares]
  ext pki
  simp only [Finset.mem_sdiff, mem_toFinset, mem_map, Finset.mem_image]
  constructor
  · rintro ⟨⟨share, hshare, rfl⟩, hforeign⟩
    exact ⟨share, ⟨(hmem _).mpr (.inr hshare), fun hown ↦ hforeign ⟨share, hown, rfl⟩⟩, rfl⟩
  · rintro ⟨share, ⟨hshare, hforeign⟩, rfl⟩
    refine ⟨⟨share, ((hmem _).mp hshare).resolve_left hforeign, rfl⟩, ?_⟩
    rintro ⟨ownShare, hown, heq⟩
    exact hforeign (hinjective ((hmem _).mpr (.inl hown)) hshare heq ▸ hown)

/-- Whoever computes it, from components of the other shares in any order and with
any repetitions: the key image of the view key part, the subaddress part and the sum of
all shares. -/
theorem generateMultisigCompositeKeyImage_eq (hbase : c.basePoint ≠ 0)
    (h : group.Receives outKey txPublicKey additionalTxPublicKeys i index derivation)
    (hsigner : keys.Signer group subaddresses index) {shares : Finset F} {others : List F}
    (hshares : keys.multisigKeys.toFinset ∪ others.toFinset = shares)
    (hinjective : Set.InjOn (generateKeyImage hashToEc outKey) (shares : Set F)) :
    generateMultisigCompositeKeyImage hashToEc keys subaddresses outKey txPublicKey
        additionalTxPublicKeys i (others.map (generateKeyImage hashToEc outKey)) =
      some (generateKeyImage hashToEc outKey (c.derivationToScalar derivation i +
        subaddressPart group index + ∑ share ∈ shares, share)) := by
  obtain ⟨inEphemeral, hhelper⟩ := generateKeyImageHelper_received hashToEc hbase hsigner h
  rw [generateMultisigCompositeKeyImage, hhelper]
  simp only [mapM_generateMultisigKeyImage]
  have hown : keys.multisigKeys.toFinset ⊆ shares := hshares ▸ Finset.subset_union_left
  have hsum : keys.multisigKeys.sum = ∑ share ∈ keys.multisigKeys.toFinset, share := by
    rw [sum_toFinset _ hsigner.nodup, map_id']
  rw [foldl_addComponent, foreign_components hshares hinjective,
    Finset.sum_image (hinjective.mono (by simp)), hsum, ← Finset.sum_sdiff hown]
  simp only [generateKeyImage, ← Finset.sum_smul, ← add_smul, add_assoc]
  rw [add_comm (∑ share ∈ keys.multisigKeys.toFinset, share)]

/-- The shares are `2`, `3` and `5`, and the signer has the first two. -/
theorem generateMultisigCompositeKeyImage_eq_sample :
    generateMultisigCompositeKeyImage (· + 1) ⟨(sampleWallet 10 1).keys, 4, [2, 3]⟩
        (sampleWallet 10 1).subaddresses 67 7 [] 0
        ([5, 3, 5].map (generateKeyImage (F := ZMod 101) (· + 1) 67)) =
      some (generateKeyImage (· + 1) 67 (56 + 1 + (2 + 3 + 5) : ZMod 101)) := by
  have hreceived : (sampleWallet 10 1).keys.Receives 67 7 [] 0 ⟨0, 1⟩ 56 :=
    ⟨by decide +kernel, .inl (by decide +kernel)⟩
  have hsigner : SpendingKeys.Signer ⟨(sampleWallet 10 1).keys, 4, [2, 3]⟩ (sampleWallet 10 1).keys
      (sampleWallet 10 1).subaddresses ⟨0, 1⟩ := by
    refine ⟨rfl, by decide, by decide, by decide, fun D index h ↦ ?_, by decide +kernel⟩
    have hfound := find?_some h
    exact of_decide_eq_true hfound
  refine (generateMultisigCompositeKeyImage_eq _ (by decide) hreceived hsigner rfl ?_).trans
    (by decide +kernel)
  intro share _ share' _ h
  exact mul_right_cancel₀ (by decide : (67 + 1 : ZMod 101) ≠ 0) h

end Monero.Outputs
