import Monero.Outputs.Keys

/-!
# Every recipient finds and can open their outputs

Whatever scheme is chosen, the transaction public key a recipient scans with is
the one whose secret key the sender combined with the recipient's view key.  So
both sides have one derivation, and taking its scalar off the output key gives
the spend key of the destination back.
-/

namespace Monero.Outputs

open List Option

/-! ## Counting the recipients -/

section Counting

variable {P : Type*} [DecidableEq P]

/-- The counts are those of the addresses met so far; `sub` is the flag of an address. -/
structure Counted (sub : AccountPublicAddress P → Bool) (k : Classified P) : Prop where
  numStd : k.numStdaddresses = (k.uniqueDstAddresses.filter fun a ↦ !sub a).length
  numSub : k.numSubaddresses = (k.uniqueDstAddresses.filter sub).length
  single : k.singleDestSubaddress = (k.uniqueDstAddresses.filter sub).head?

variable {sub : AccountPublicAddress P → Bool} {k : Classified P}

lemma Counted.step (h : Counted sub k) (changeAddr : Option (AccountPublicAddress P))
    {dst : TxDestinationEntry P} (hflag : dst.isSubaddress = sub dst.addr) :
    Counted sub (classifyStep changeAddr k dst) := by
  rw [classifyStep]
  split_ifs with hchange hmem hsub
  · exact h
  · exact h
  · rw [hflag] at hsub
    exact ⟨by simp [hsub, h.numStd], by simp [hsub, h.numSub], by simp [hsub]⟩
  · rw [hflag] at hsub
    exact ⟨by simp [hsub, h.numStd], by simp [hsub, h.numSub], by simp [hsub, h.single]⟩

variable (changeAddr : Option (AccountPublicAddress P))

lemma subset_classifyStep (k : Classified P) (dst : TxDestinationEntry P) :
    k.uniqueDstAddresses ⊆ (classifyStep changeAddr k dst).uniqueDstAddresses := by
  rw [classifyStep]
  split_ifs
  · exact Subset.refl _
  · exact Subset.refl _
  · exact subset_cons_self _ _
  · exact subset_cons_self _ _

lemma foldl_classifyStep {destinations : List (TxDestinationEntry P)}
    (hflags : ∀ dst ∈ destinations, dst.isSubaddress = sub dst.addr) (hk : Counted sub k) :
    Counted sub (destinations.foldl (classifyStep changeAddr) k) ∧ k.uniqueDstAddresses ⊆
          (destinations.foldl (classifyStep changeAddr) k).uniqueDstAddresses ∧
        ∀ dst ∈ destinations, changeAddr ≠ some dst.addr →
          dst.addr ∈ (destinations.foldl (classifyStep changeAddr) k).uniqueDstAddresses := by
  induction destinations generalizing k with
  | nil => exact ⟨hk, Subset.refl _, fun dst hdst ↦ absurd hdst not_mem_nil⟩
  | cons d destinations ih =>
    obtain ⟨hcounted, hsubset, hmem⟩ :=
      ih (fun dst hdst ↦ hflags dst (mem_cons_of_mem _ hdst))
        (hk.step changeAddr (hflags d mem_cons_self))
    refine ⟨hcounted, Subset.trans (subset_classifyStep changeAddr k d) hsubset, ?_⟩
    intro dst hdst hchange
    rcases mem_cons.mp hdst with rfl | hdst
    · apply hsubset
      rw [classifyStep, if_neg hchange]
      split_ifs with hmem
      · exact hmem
      · exact mem_cons_self
      · exact mem_cons_self
    · exact hmem dst hdst hchange

end Counting

/-! ## The vectors of a transaction -/

section Vectors

variable {F P T : Type*} {txVersion : ℕ} {need : Bool}

/-- A vector with one entry for each of `n` outputs, or with none at all. -/
def Fills {α : Type*} (b : Bool) (l : List α) (n : ℕ) : Prop := l.length = if b then n else 0

lemma Fills.push {α : Type*} {b : Bool} {l : List α} {n : ℕ} (h : Fills b l n) {x : Option α}
    (hx : x.isSome = b) : Fills b (l ++ x.toList) (n + 1) ∧ (l ++ x.toList)[n]? = x := by
  cases x with
  | none =>
    obtain rfl : b = false := hx.symm
    obtain rfl := length_eq_zero_iff.mp h
    exact ⟨rfl, rfl⟩
  | some a =>
    obtain rfl : b = true := hx.symm
    obtain rfl : l.length = n := h
    exact ⟨by simp [Fills], by simp⟩

lemma Fills.getElem?_eq {α : Type*} {b : Bool} {l l' : List α} {n n' i : ℕ} (h : Fills b l n)
    (h' : Fills b l' n') (hpre : l <+: l') (hi : i < n) : l'[i]? = l[i]? := by
  cases b with
  | false =>
    obtain rfl := length_eq_zero_iff.mp h
    obtain rfl := length_eq_zero_iff.mp h'
    rfl
  | true =>
    obtain rfl : l.length = n := h
    obtain ⟨t, rfl⟩ := hpre
    exact getElem?_append_left hi

structure Aligned (txVersion : ℕ) (need : Bool) (tx : TxKeys F P T) : Prop where
  additional : Fills need tx.additionalTxPublicKeys tx.vout.length
  amounts : Fills (decide (1 < txVersion)) tx.amountKeys tx.vout.length

variable (tx : TxKeys F P T)

structure OutputAt (i : ℕ) (dst : TxDestinationEntry P) (keys : OutputKeys F P T) : Prop where
  out : tx.vout[i]? = some ⟨dst.amount, keys.outEphPublicKey, keys.viewTag⟩
  additional : tx.additionalTxPublicKeys[i]? = keys.additionalTxPublicKey
  amount : tx.amountKeys[i]? = keys.amountKey

def TxKeys.push (dst : TxDestinationEntry P) (keys : OutputKeys F P T) : TxKeys F P T :=
  { tx with
    additionalTxPublicKeys := tx.additionalTxPublicKeys ++ keys.additionalTxPublicKey.toList
    amountKeys := tx.amountKeys ++ keys.amountKey.toList
    vout := tx.vout ++ [⟨dst.amount, keys.outEphPublicKey, keys.viewTag⟩] }

/-- What a later stage of the loop has kept. -/
structure Extends (tx tx' : TxKeys F P T) : Prop where
  pub : tx'.txPublicKey = tx.txPublicKey
  vout : tx.vout <+: tx'.vout
  additional : tx.additionalTxPublicKeys <+: tx'.additionalTxPublicKeys
  amounts : tx.amountKeys <+: tx'.amountKeys

lemma Extends.trans {tx tx' tx'' : TxKeys F P T} (h : Extends tx tx') (h' : Extends tx' tx'') :
    Extends tx tx'' where
  pub := h'.pub.trans h.pub
  vout := h.vout.trans h'.vout
  additional := h.additional.trans h'.additional
  amounts := h.amounts.trans h'.amounts

lemma TxKeys.extends_push (dst : TxDestinationEntry P)
    (keys : OutputKeys F P T) : Extends tx (tx.push dst keys) :=
  ⟨rfl, prefix_append _ _, prefix_append _ _, prefix_append _ _⟩

lemma OutputAt.mono {tx tx' : TxKeys F P T} {i : ℕ} {dst : TxDestinationEntry P}
    {keys : OutputKeys F P T} (h : OutputAt tx i dst keys) (htx : Aligned txVersion need tx)
    (htx' : Aligned txVersion need tx') (hext : Extends tx tx') : OutputAt tx' i dst keys := by
  obtain ⟨hi, -⟩ := List.getElem?_eq_some_iff.mp h.out
  constructor
  · have hvout : Fills true tx.vout tx.vout.length := rfl
    exact (hvout.getElem?_eq (show Fills true tx'.vout tx'.vout.length from rfl) hext.vout
      hi).trans h.out
  · exact (htx.additional.getElem?_eq htx'.additional hext.additional hi).trans h.additional
  · exact (htx.amounts.getElem?_eq htx'.amounts hext.amounts hi).trans h.amount

end Vectors

variable {F P T : Type*} [Field F] [AddCommGroup P] [Module F P]

/-! ## The two sides of a derivation -/

lemma generateKeyDerivation_comm (a r : F) (Q : P) :
    generateKeyDerivation (a • Q) r = generateKeyDerivation (r • Q) a := by
  rw [generateKeyDerivation, generateKeyDerivation, smul_comm r a Q]

/-- The destination is an address of the wallet, listed in its table, and flagged as
what it is. -/
structure Wallet.Owns {c : Primitives F P T} (w : Wallet c) (dst : TxDestinationEntry P)
    (index : SubaddressIndex) : Prop where
  address : dst.addr = getSubaddress c w.keys index
  listed : w.subaddresses dst.addr.spendPublicKey = some index
  flagged : dst.isSubaddress = !index.isZero

variable {c : Primitives F P T} {w : Wallet c} {dst : TxDestinationEntry P}
  {index : SubaddressIndex} {base : P} {tx : TxKeys F P T}

lemma Wallet.Owns.viewPublicKey_eq (h : w.Owns dst index) :
    dst.addr.viewPublicKey = w.keys.viewSecretKey •
      if dst.isSubaddress then dst.addr.spendPublicKey else c.basePoint := by
  rw [h.flagged, h.address, getSubaddress]
  cases index.isZero with
  | true => exact w.keys.viewPublicKey_eq
  | false => rfl

lemma receivedWith_own [DecidableEq T] {subaddresses : P → Option SubaddressIndex}
    (h : subaddresses base = some index) (derivation : P) (i : ℕ) (useViewTags : Bool) :
    receivedWith c subaddresses (derivePublicKey c derivation i base) derivation i
      (if useViewTags then some (c.deriveViewTag derivation i) else none) =
        some ⟨index, derivation⟩ := by
  have hbase : deriveSubaddressPublicKey c (derivePublicKey c derivation i base) derivation i =
      base := add_sub_cancel_right _ _
  rw [receivedWith, hbase, h]
  cases useViewTags with
  | false => rfl
  | true => simp [outCanBeToAcc]

/-- An output to a key of the table, made from a derivation. -/
def outFor (c : Primitives F P T) (amount : ℕ) (base derivation : P) (i : ℕ) (useViewTags : Bool) :
    TxOut P T :=
  ⟨amount, derivePublicKey c derivation i base,
    if useViewTags then some (c.deriveViewTag derivation i) else none⟩

lemma Wallet.scan_of_shared [DecidableEq T] {derivation : P}
    (hlisted : w.subaddresses base = some index)
    (h : generateKeyDerivation tx.txPublicKey w.keys.viewSecretKey = derivation) (amount i : ℕ)
    (useViewTags : Bool) :
    w.scan tx i (outFor c amount base derivation i useViewTags) = some ⟨index, derivation⟩ := by
  rw [Wallet.scan, isOutToAccPrecomp, h, outFor, receivedWith_own hlisted]

variable [DecidableEq P] {destinations : List (TxDestinationEntry P)} {i : ℕ}

/-! ## The transaction public key suits every destination -/

structure KeysFit (c : Primitives F P T) (txkeyPub : P) (txKey : F) (need : Bool)
    (changeAddr : Option (AccountPublicAddress P)) (dst : TxDestinationEntry P) : Prop where
  std : changeAddr ≠ some dst.addr → dst.isSubaddress = false → txkeyPub = txKey • c.basePoint
  sub : changeAddr ≠ some dst.addr → dst.isSubaddress = true → need = false →
    txkeyPub = txKey • dst.addr.spendPublicKey

lemma classifyAddresses_keysFit (c : Primitives F P T)
    (changeAddr : Option (AccountPublicAddress P)) (txKey : F)
    {sub : AccountPublicAddress P → Bool}
    (hflags : ∀ dst ∈ destinations, dst.isSubaddress = sub dst.addr) (hdst : dst ∈ destinations) :
    KeysFit c ((classifyAddresses destinations changeAddr).txkeyPub c txKey) txKey
      (classifyAddresses destinations changeAddr).needAdditionalTxkeys changeAddr dst := by
  obtain ⟨hcounted, -, hmem⟩ := foldl_classifyStep changeAddr hflags
    (show Counted sub ⟨0, 0, none, []⟩ from ⟨rfl, rfl, rfl⟩)
  rw [← classifyAddresses] at hcounted hmem
  generalize classifyAddresses destinations changeAddr = k at hcounted hmem
  have hflag := hflags dst hdst
  constructor
  · intro hchange hstd
    have hpos : 0 < k.numStdaddresses := by
      rw [hcounted.numStd]
      refine length_pos_of_mem (mem_filter.mpr ⟨hmem dst hdst hchange, ?_⟩)
      rw [← hflag, hstd]
      rfl
    rw [Classified.txkeyPub]
    split
    · omega
    · rfl
  · intro hchange hsub hneed
    have hin : dst.addr ∈ k.uniqueDstAddresses.filter sub :=
      mem_filter.mpr ⟨hmem dst hdst hchange, hflag ▸ hsub⟩
    have hpos := length_pos_of_mem hin
    rw [← hcounted.numSub] at hpos
    have hone : k.numStdaddresses = 0 ∧ k.numSubaddresses = 1 := by
      simp only [Classified.needAdditionalTxkeys, decide_eq_false_iff_not] at hneed
      omega
    obtain ⟨a, ha⟩ := length_eq_one_iff.mp (hcounted.numSub ▸ hone.2)
    rw [ha, mem_singleton] at hin
    simp [Classified.txkeyPub, hone, hcounted.single, ha, hin]

lemma multisig_keysFit (c : Primitives F P T) (changeAddr : AccountPublicAddress P)
    (txSecretKey : F) (hdst : dst ∈ destinations) :
    KeysFit c (multisigTxPublicKey c destinations changeAddr txSecretKey) txSecretKey
      (needTxAuxKeys destinations changeAddr) (some changeAddr) dst := by
  have hmem : some changeAddr ≠ some dst.addr →
      dst.addr ∈ uniqueRecipients destinations changeAddr dst.isSubaddress := by
    intro hchange
    refine mem_dedup.mpr (mem_map.mpr ⟨dst, mem_filter.mpr ⟨hdst, ?_⟩, rfl⟩)
    exact decide_eq_true ⟨fun h ↦ hchange (congrArg some h.symm), rfl⟩
  constructor
  · intro hchange hstd
    have hin := hmem hchange
    rw [hstd] at hin
    rw [multisigTxPublicKey]
    split
    · rename_i hnil _
      rw [hnil] at hin
      exact absurd hin not_mem_nil
    · rfl
  · intro hchange hsub hneed
    have hin := hmem hchange
    rw [hsub] at hin
    have hpos := length_pos_of_mem hin
    simp only [needTxAuxKeys, decide_eq_false_iff_not] at hneed
    have hone : (uniqueRecipients destinations changeAddr true).length = 1 ∧
        (uniqueRecipients destinations changeAddr false).length = 0 := by
      split_ifs at hneed <;> omega
    obtain ⟨a, ha⟩ := length_eq_one_iff.mp hone.1
    rw [ha, mem_singleton] at hin
    simp [multisigTxPublicKey, ha, length_eq_zero_iff.mp hone.2, hin]

/-! ## The outputs of the loop -/

section Loop

variable {txVersion : ℕ} {sender : AccountKeys c} {txkeyPub : P} {txKey : F}
  {changeAddr : Option (AccountPublicAddress P)} {need : Bool} {additionalTxKeys : List F}
  {useViewTags : Bool} {accept : TxDestinationEntry P → Bool} {keys : OutputKeys F P T}

lemma generateOutputEphemeralKeys_eq
    (h : generateOutputEphemeralKeys txVersion sender txkeyPub txKey dst changeAddr i need
      additionalTxKeys useViewTags = some keys) :
    ∃ additional : Option F, additional.isSome = need ∧
      (need = true → additionalTxKeys[i]? = additional) ∧ keys = outputKeys c txVersion dst
          (outputDerivation sender txkeyPub txKey dst changeAddr additional) i additional
          useViewTags := by
  cases need with
  | false => exact ⟨none, rfl, fun hneed ↦ absurd hneed Bool.false_ne_true,
    (Option.some.inj h).symm⟩
  | true =>
    rw [generateOutputEphemeralKeys] at h
    by_cases hlt : i < additionalTxKeys.length
    · rw [if_neg (by simpa using hlt)] at h
      exact ⟨additionalTxKeys[i]?, by simp [hlt], fun _ ↦ rfl, (Option.some.inj h).symm⟩
    · rw [if_pos ⟨rfl, not_lt.mp hlt⟩] at h
      cases h

lemma Aligned.push (h : Aligned txVersion need tx)
    (hkeys : generateOutputEphemeralKeys txVersion sender txkeyPub txKey dst changeAddr
      tx.vout.length need additionalTxKeys useViewTags = some keys) :
    Aligned txVersion need (tx.push dst keys) ∧
      OutputAt (tx.push dst keys) tx.vout.length dst keys := by
  obtain ⟨additional, hsome, -, rfl⟩ := generateOutputEphemeralKeys_eq hkeys
  have hadditional := h.additional.push
    (show (additional.map (additionalTxPublicKey c dst)).isSome = need by simpa using hsome)
  have hkey : (outputKeys c txVersion dst
      (outputDerivation sender txkeyPub txKey dst changeAddr additional) tx.vout.length additional
        useViewTags).amountKey.isSome = decide (1 < txVersion) := by
    rw [outputKeys]
    by_cases hversion : 1 < txVersion <;> simp [hversion]
  have hamounts := h.amounts.push hkey
  have hlength : ∀ out : TxOut P T, (tx.vout ++ [out]).length = tx.vout.length + 1 := fun out ↦ by
    simp
  refine ⟨⟨?_, ?_⟩, ⟨getElem?_concat_length, hadditional.2, hamounts.2⟩⟩
  · exact (hlength _).symm ▸ hadditional.1
  · exact (hlength _).symm ▸ hamounts.1

lemma fillOutputs_spec {tx' : TxKeys F P T} (htx : Aligned txVersion need tx)
    (h : fillOutputs txVersion sender txkeyPub txKey changeAddr need additionalTxKeys useViewTags
      accept destinations tx = some tx') :
    Aligned txVersion need tx' ∧ Extends tx tx' ∧ ∀ i dst, destinations[i]? = some dst → ∃ keys,
        generateOutputEphemeralKeys txVersion sender txkeyPub txKey dst changeAddr
            (tx.vout.length + i) need additionalTxKeys useViewTags = some keys ∧
          OutputAt tx' (tx.vout.length + i) dst keys := by
  induction destinations generalizing tx with
  | nil =>
    cases h
    exact ⟨htx, ⟨rfl, prefix_rfl, prefix_rfl, prefix_rfl⟩, fun i dst hi ↦ by simp at hi⟩
  | cons d destinations ih =>
    rw [fillOutputs] at h
    split_ifs at h
    split at h
    · cases h
    rename_i keys hkeys
    obtain ⟨hpush, hat⟩ := htx.push hkeys
    obtain ⟨hdone, hext, hrest⟩ := ih hpush h
    have hlength : (tx.push d keys).vout.length = tx.vout.length + 1 := by
      simp [TxKeys.push]
    refine ⟨hdone, (tx.extends_push d keys).trans hext, ?_⟩
    intro i dst hi
    cases i with
    | zero =>
      cases hi
      exact ⟨keys, hkeys, hat.mono hpush hdone hext⟩
    | succ i =>
      have hplace := hrest i dst hi
      rwa [hlength, Nat.add_right_comm, Nat.add_assoc] at hplace

end Loop

/-! ## Scanning -/

section Scan

variable {sender : AccountKeys c} {txKey : F} {changeAddr : Option (AccountPublicAddress P)}
  {need : Bool}

/-- Both sides have the derivation from the shared key, unless the destination has an
additional key. -/
theorem sharedDerivation_eq {txkeyPub : P} (hfit : KeysFit c txkeyPub txKey need changeAddr dst)
    (hown : w.Owns dst index)
    (hself : changeAddr = some dst.addr → w.keys.viewSecretKey = sender.viewSecretKey)
    {additional : Option F} (hadditional : additional.isSome = need)
    (hshared : changeAddr = some dst.addr ∨ dst.isSubaddress = false ∨ need = false) :
    generateKeyDerivation txkeyPub w.keys.viewSecretKey =
      outputDerivation sender txkeyPub txKey dst changeAddr additional := by
  rw [outputDerivation]
  split_ifs with hchange hsub
  · rw [hself hchange]
  · have hneed : need = false := by
      rcases hshared with h | h | h
      · exact absurd h hchange
      · rw [hsub] at h
        cases h
      · exact h
    obtain rfl : additional = none := by
      rw [hneed, isSome_eq_false_iff, isNone_iff_eq_none] at hadditional
      exact hadditional
    rw [hown.viewPublicKey_eq, if_pos hsub, hfit.sub hchange hsub hneed, getD_none,
      generateKeyDerivation_comm]
  · rw [hown.viewPublicKey_eq, if_neg hsub, hfit.std hchange (by simpa using hsub),
      generateKeyDerivation_comm]

variable [DecidableEq T]

/-- The shared key is tried first, so it must not lead to a key of the table by chance. -/
def Wallet.SharedMisses (w : Wallet c) (tx : TxKeys F P T) (i : ℕ) (derivation : P) : Prop :=
  ∀ out, tx.vout[i]? = some out →
    generateKeyDerivation tx.txPublicKey w.keys.viewSecretKey ≠ derivation →
      receivedWith c w.subaddresses out.key
        (generateKeyDerivation tx.txPublicKey w.keys.viewSecretKey) i out.viewTag = none

/-- The wallet finds output `i` at the index with the derivation, and that is the one
the view tag and the amount key are made from. -/
def Wallet.Opens (w : Wallet c) (tx : TxKeys F P T) (i : ℕ) (index : SubaddressIndex)
    (derivation : P) (txVersion : ℕ) (useViewTags : Bool) : Prop :=
  ∃ out, tx.vout[i]? = some out ∧ w.scan tx i out = some ⟨index, derivation⟩ ∧
    out.viewTag = (if useViewTags then some (c.deriveViewTag derivation i) else none) ∧
      tx.amountKeys[i]? =
        if 1 < txVersion then some (c.derivationToScalar derivation i) else none

lemma opens_of_fillOutputs {txkeyPub : P} {additionalTxKeys : List F} {txVersion : ℕ}
    {useViewTags : Bool} {accept : TxDestinationEntry P → Bool}
    (hfit : ∀ dst ∈ destinations, KeysFit c txkeyPub txKey need changeAddr dst)
    (htx : fillOutputs txVersion sender txkeyPub txKey changeAddr need additionalTxKeys useViewTags
      accept destinations ⟨txkeyPub, [], [], []⟩ = some tx)
    (hcount : tx.additionalTxPublicKeys.length = additionalTxKeys.length)
    (hdst : destinations[i]? = some dst) (hown : w.Owns dst index)
    (hself : changeAddr = some dst.addr → w.keys.viewSecretKey = sender.viewSecretKey)
    (hmiss : changeAddr ≠ some dst.addr → dst.isSubaddress = true →
      tx.additionalTxPublicKeys ≠ [] → w.SharedMisses tx i
        (outputDerivation sender tx.txPublicKey txKey dst changeAddr additionalTxKeys[i]?)) :
    w.Opens tx i index
      (outputDerivation sender tx.txPublicKey txKey dst changeAddr additionalTxKeys[i]?) txVersion
      useViewTags := by
  have hstart : Aligned txVersion need (⟨txkeyPub, [], [], []⟩ : TxKeys F P T) :=
    ⟨by simp [Fills], by simp [Fills]⟩
  obtain ⟨halign, hext, hall⟩ := fillOutputs_spec hstart htx
  obtain ⟨keys, hkeys, hat⟩ := hall i dst hdst
  rw [length_nil, Nat.zero_add] at hkeys hat
  obtain ⟨additional, hsome, hget, rfl⟩ := generateOutputEphemeralKeys_eq hkeys
  obtain rfl : tx.txPublicKey = txkeyPub := hext.pub
  have hadditional : additionalTxKeys[i]? = additional := by
    cases need with
    | true => exact hget rfl
    | false =>
      have hnil : additionalTxKeys = [] := by
        rw [← length_eq_zero_iff, ← hcount]
        exact halign.additional
      have hnone : additional = none := by simpa using hsome
      rw [hnil, hnone]
      rfl
  rw [hadditional] at hmiss ⊢
  refine ⟨_, hat.out, ?_, rfl, hat.amount⟩
  by_cases hshared : changeAddr = some dst.addr ∨ dst.isSubaddress = false ∨ need = false
  · exact Wallet.scan_of_shared hown.listed
      (sharedDerivation_eq (hfit dst (mem_of_getElem? hdst)) hown hself hsome hshared)
      dst.amount i useViewTags
  -- a subaddress with its additional key
  obtain ⟨hchange, hsub, hneed⟩ : changeAddr ≠ some dst.addr ∧ dst.isSubaddress = true ∧
      need = true := by
    simpa [not_or] using hshared
  obtain ⟨sec, rfl⟩ := Option.isSome_iff_exists.mp (hsome.trans hneed)
  by_cases heq : generateKeyDerivation tx.txPublicKey w.keys.viewSecretKey =
      outputDerivation sender tx.txPublicKey txKey dst changeAddr (some sec)
  · exact Wallet.scan_of_shared hown.listed heq dst.amount i useViewTags
  · have hsecond : tx.additionalTxPublicKeys[i]? = some (additionalTxPublicKey c dst sec) :=
      hat.additional
    have hne : tx.additionalTxPublicKeys ≠ [] := by
      intro hnil
      rw [hnil] at hsecond
      cases hsecond
    have hderivation :
        generateKeyDerivation (additionalTxPublicKey c dst sec) w.keys.viewSecretKey =
        outputDerivation sender tx.txPublicKey txKey dst changeAddr (some sec) := by
      rw [outputDerivation, if_neg hchange, if_pos hsub, hown.viewPublicKey_eq, if_pos hsub,
        additionalTxPublicKey, if_pos hsub, getD_some, generateKeyDerivation_comm]
    rw [Wallet.scan, isOutToAccPrecomp]
    simp only [hmiss hchange hsub hne _ hat.out heq, getElem?_map, hsecond, map_some,
      hderivation]
    exact receivedWith_own hown.listed _ i useViewTags

end Scan

/-! ## Keys in a group of 101 elements -/

instance prime_101 : Fact (Nat.Prime 101) := ⟨by norm_num⟩

def sampleHashes : Primitives (ZMod 101) (ZMod 101) (ZMod 101) where
  basePoint := 1
  derivationToScalar derivation _ := derivation
  deriveViewTag derivation outputIndex := derivation + outputIndex
  getSubaddressSecretKey _ index := 10 * index.major + index.minor
  hashToScalar seed link := seed + link
  hashKeyMultisigTxPrivkeys := 5

/-- The wallet of a spend and a view secret key, with three of its addresses. -/
def sampleWallet (spend view : ZMod 101) : Wallet sampleHashes :=
  let keys : AccountKeys sampleHashes := ⟨⟨spend, view⟩, view, (mul_one view).symm⟩
  ⟨keys, fun D ↦ [⟨0, 0⟩, ⟨0, 1⟩, ⟨0, 2⟩].find? fun index ↦
    getSubaddressSpendPublicKey sampleHashes keys index = D⟩

def sampleChange : TxDestinationEntry (ZMod 101) :=
  ⟨9, getSubaddress _ (sampleWallet 50 6).keys ⟨0, 0⟩, false⟩

def sampleRecipient : TxDestinationEntry (ZMod 101) :=
  ⟨5, getSubaddress _ (sampleWallet 10 1).keys ⟨0, 1⟩, true⟩

def sampleDestinations : List (TxDestinationEntry (ZMod 101)) :=
  [sampleRecipient, ⟨7, getSubaddress _ (sampleWallet 30 4).keys ⟨0, 0⟩, false⟩, sampleChange]

lemma sampleRecipient_owned : (sampleWallet 10 1).Owns sampleRecipient ⟨0, 1⟩ :=
  ⟨rfl, by decide +kernel, rfl⟩

/-! ## Both constructions -/

/-- Over arbitrary hash functions: an output of `construct_tx_with_tx_key` or of the
multisig builder is found by the wallet that owns its destination, at the index of the
destination and with the derivation of the sender.  The wallet that owns the change
address is the sender's.  With additional keys, the shared key, which is tried first,
must not lead a subaddress output to a key of the table by chance. -/
theorem outputs_opened [DecidableEq T] [DecidableEq F] (c : Primitives F P T) (sender : Wallet c)
    (destinations : List (TxDestinationEntry P)) (sub : AccountPublicAddress P → Bool)
    (hflags : ∀ dst ∈ destinations, dst.isSubaddress = sub dst.addr) (useViewTags : Bool)
    (txVersion : ℕ) :
    (∀ changeAddr txKey additionalTxKeys tx, constructTxWithTxKey sender destinations changeAddr
        txKey additionalTxKeys txVersion useViewTags = some tx →
      ∀ (i : ℕ) (dst : TxDestinationEntry P) (w : Wallet c) (index : SubaddressIndex),
        destinations[i]? = some dst → w.Owns dst index →
        (changeAddr = some dst.addr → w.keys.viewSecretKey = sender.keys.viewSecretKey) →
        (changeAddr ≠ some dst.addr → dst.isSubaddress = true → tx.additionalTxPublicKeys ≠ [] →
          w.SharedMisses tx i (outputDerivation sender.keys tx.txPublicKey txKey dst changeAddr
            additionalTxKeys[i]?)) →
        w.Opens tx i index (outputDerivation sender.keys tx.txPublicKey txKey dst changeAddr
          additionalTxKeys[i]?) txVersion useViewTags) ∧
    ∀ subaddrAccount change reconstruction seed txSecretKey txAuxSecretKeys tx,
      computeKeysForDestinations sender.keys subaddrAccount destinations change useViewTags
        reconstruction seed txVersion = some (txSecretKey, txAuxSecretKeys, tx) →
      ∀ (i : ℕ) (dst : TxDestinationEntry P) (w : Wallet c) (index : SubaddressIndex),
        destinations[i]? = some dst → w.Owns dst index →
        (change.addr = dst.addr → w.keys.viewSecretKey = sender.keys.viewSecretKey) →
        (change.addr ≠ dst.addr → dst.isSubaddress = true → tx.additionalTxPublicKeys ≠ [] →
          w.SharedMisses tx i (outputDerivation sender.keys tx.txPublicKey txSecretKey dst
            (some change.addr) txAuxSecretKeys[i]?)) →
        w.Opens tx i index (outputDerivation sender.keys tx.txPublicKey txSecretKey dst
          (some change.addr) txAuxSecretKeys[i]?) txVersion useViewTags := by
  constructor
  · intro changeAddr txKey additionalTxKeys tx htx i dst w index hdst hown hself hmiss
    simp only [constructTxWithTxKey] at htx
    split at htx
    · cases htx
    split at htx
    · cases htx
    rename_i tx' hfill
    split_ifs at htx with hcount
    cases htx
    exact opens_of_fillOutputs (fun d hd ↦ classifyAddresses_keysFit c changeAddr txKey hflags hd)
      hfill hcount hdst hown hself hmiss
  · intro account change reconstruction seed txSecretKey aux tx htx i dst w index hdst hown hself
      hmiss
    simp only [computeKeysForDestinations] at htx
    split at htx
    · cases htx
    split at htx
    · cases htx
    split at htx
    · cases htx
    split at htx
    · cases htx
    rename_i tx' hfill
    split_ifs at htx with hamounts hcount
    cases htx
    refine opens_of_fillOutputs (fun d hd ↦ multisig_keysFit c change.addr txSecretKey hd) hfill
      (not_not.mp hcount) hdst hown (fun h ↦ hself (Option.some.inj h)) fun h ↦ hmiss fun h' ↦ h ?_
    rw [h']

theorem outputs_opened_sample : (sampleWallet 10 1).Opens ⟨7, [44, 9, 3], [49, 22, 33],
        [⟨5, 60, some 49⟩, ⟨7, 52, some 23⟩, ⟨9, 83, some 35⟩]⟩ 0 ⟨0, 1⟩ 49 2 true ∧
      (sampleWallet 10 1).Opens ⟨25, [91, 65, 85], [21, 93, 89],
        [⟨5, 32, some 21⟩, ⟨7, 22, some 94⟩, ⟨9, 38, some 91⟩]⟩ 0 ⟨0, 1⟩ 21 2 true := by
  have hopened := outputs_opened sampleHashes (sampleWallet 50 6) sampleDestinations
    (· = sampleRecipient.addr) (by decide +kernel) true 2
  constructor
  · refine hopened.1 (some sampleChange.addr) 7 [4, 9, 3] _ (by decide +kernel) 0 sampleRecipient
      (sampleWallet 10 1) ⟨0, 1⟩ rfl sampleRecipient_owned (by decide +kernel)
      fun _ _ _ out hout ↦ ?_
    cases hout
    decide +kernel
  · refine hopened.2 0 sampleChange none 20 25 [45, 65, 85] _ (by decide +kernel) 0 sampleRecipient
      (sampleWallet 10 1) ⟨0, 1⟩ rfl sampleRecipient_owned (by decide +kernel)
      fun _ _ _ out hout ↦ ?_
    cases hout
    decide +kernel

/-- The shared key leads the output to another address of the recipient, and its
derivation is not the one the amount key `49` is from. -/
theorem shared_key_first :
    ∃ tx out, constructTxWithTxKey (sampleWallet 50 6) sampleDestinations
      (some sampleChange.addr) 6
        [4, 9, 3] 2 false = some tx ∧ tx.vout[0]? = some out ∧ tx.amountKeys[0]? = some 49 ∧
      (sampleWallet 10 1).Owns sampleRecipient ⟨0, 1⟩ ∧
        (sampleWallet 10 1).scan tx 0 out = some ⟨⟨0, 2⟩, 48⟩ :=
  ⟨⟨6, [44, 9, 3], [49, 91, 86], [⟨5, 60, none⟩, ⟨7, 20, none⟩, ⟨9, 35, none⟩]⟩, ⟨5, 60, none⟩,
    by decide +kernel, rfl, rfl, sampleRecipient_owned, by decide +kernel⟩

end Monero.Outputs
