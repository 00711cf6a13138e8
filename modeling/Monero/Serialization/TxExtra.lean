import Monero.Serialization.Format
import Monero.Lib.Sorted

/-!
# The extra field of a transaction

A transaction has a byte string in which fields of several types stand one after the
other.  `parse_tx_extra` reads them, `sort_tx_extra` puts them in a fixed order,
`remove_field_from_tx_extra` drops a type, and the `add_` functions append one.
-/

namespace Monero.Serialization

open Monero.Lib Codec List

def txExtraPaddingMaxCount : ℕ := 255

def txExtraNonceMaxCount : ℕ := 255

inductive TxExtraField where
  | padding (size : ℕ)
  | pubKey (pubKey : Key)
  | nonce (nonce : List UInt8)
  | mergeMiningTag (depth : ℕ) (merkleRoot : Key)
  | additionalPubKeys (data : List Key)
  | mysteriousMinergate (data : List UInt8)
  deriving DecidableEq

inductive TxExtraType where
  | padding
  | pubKey
  | nonce
  | mergeMiningTag
  | additionalPubKeys
  | mysteriousMinergate
  deriving DecidableEq

namespace TxExtraField

def type : TxExtraField → TxExtraType
  | padding _ => .padding
  | pubKey _ => .pubKey
  | nonce _ => .nonce
  | mergeMiningTag _ _ => .mergeMiningTag
  | additionalPubKeys _ => .additionalPubKeys
  | mysteriousMinergate _ => .mysteriousMinergate

def tag : TxExtraField → UInt8
  | padding _ => 0x00
  | pubKey _ => 0x01
  | nonce _ => 0x02
  | mergeMiningTag _ _ => 0x03
  | additionalPubKeys _ => 0x04
  | mysteriousMinergate _ => 0xDE

end TxExtraField

/-- The loop that loads a padding; it goes up to the end of the input. -/
def readPadding : ℕ → List UInt8 → Option ℕ
  | size, [] => if size ≤ txExtraPaddingMaxCount then some size else none
  | size, zero :: rest =>
    if size ≤ txExtraPaddingMaxCount then
      if zero ≠ 0 then none else readPadding (size + 1) rest
    else none

def txExtraPadding : Codec ℕ where
  read b := (readPadding 1 b).map fun size ↦ (size, [])
  write size :=
    if txExtraPaddingMaxCount < size then none else some (replicate (size - 1) 0)

/-- The depth and the root are in a string of their own. -/
def txExtraMergeMiningTag : Codec (ℕ × Key) := ((varint 64).seq key).nested

def txExtraAlternative (t : UInt8) : Option (Codec TxExtraField) :=
  if t = 0x00 then some (txExtraPadding.map .padding fun
    | .padding size => some size
    | _ => none)
  else if t = 0x01 then some (key.map .pubKey fun
    | .pubKey pubKey => some pubKey
    | _ => none)
  else if t = 0x02 then
    some ((byte.container.guard fun nonce ↦ nonce.length ≤ txExtraNonceMaxCount).map .nonce fun
      | .nonce nonce => some nonce
      | _ => none)
  else if t = 0x03 then some (txExtraMergeMiningTag.map (fun p ↦ .mergeMiningTag p.1 p.2) fun
    | .mergeMiningTag depth merkleRoot => some (depth, merkleRoot)
    | _ => none)
  else if t = 0x04 then some (key.container.map .additionalPubKeys fun
    | .additionalPubKeys data => some data
    | _ => none)
  else if t = 0xDE then some (byte.container.map .mysteriousMinergate fun
    | .mysteriousMinergate data => some data
    | _ => none)
  else none

def txExtraField : Codec TxExtraField := variant TxExtraField.tag txExtraAlternative

/-! ## The functions -/

variable (txExtra : List UInt8)

/-- The fields that were read are there also if the result is false. -/
def parseTxExtra : Bool × List TxExtraField :=
  if txExtra = [] then (true, [])
  else
    let (fields, rest) := txExtraField.readMany txExtra.length txExtra
    (rest = [], fields)

/-- Writes and erases the first field of the type, until there is none. -/
def pick (type : TxExtraType) : ℕ → List TxExtraField → Option (List UInt8 × List TxExtraField)
  | 0, fields => some ([], fields)
  | fuel + 1, fields =>
    match fields.find? (·.type = type) with
    | none => some ([], fields)
    | some field =>
      (txExtraField.write field).bind fun w ↦
        (pick type fuel (fields.eraseP (·.type = type))).map fun p ↦ (w ++ p.1, p.2)

def sortOrder : List TxExtraType :=
  [.pubKey, .additionalPubKeys, .nonce, .mergeMiningTag, .mysteriousMinergate, .padding]

def pickAll (types : List TxExtraType) (fields : List TxExtraField) :
    Option (List UInt8 × List TxExtraField) :=
  types.foldlM (fun p type ↦ (pick type p.2.length p.2).map fun q ↦ (p.1 ++ q.1, q.2)) ([], fields)

def sortTxExtra (allowPartial : Bool) : Option (List UInt8) :=
  if txExtra = [] then some []
  else
    let (fields, rest) := txExtraField.readMany txExtra.length txExtra
    let processed := txExtra.length - rest.length
    if rest ≠ [] ∧ ¬allowPartial then none
    else
      (pickAll sortOrder fields).bind fun p ↦
        if p.2 ≠ [] then none
        else if allowPartial ∧ processed < txExtra.length then some (p.1 ++ txExtra.drop processed)
        else some p.1

/-- On failure the string is left as it is.  A field that was read can be written. -/
def removeFieldFromTxExtra (type : TxExtraType) : Bool × List UInt8 :=
  if txExtra = [] then (true, txExtra)
  else
    let (fields, rest) := txExtraField.readMany txExtra.length txExtra
    if rest ≠ [] then (false, txExtra)
    else
      (true, fields.flatMap fun field ↦
        if field.type ≠ type then (txExtraField.write field).getD [] else [])

def addTxPubKeyToExtra (txPubKey : Key) : List UInt8 :=
  txExtra ++ 0x01 :: txPubKey.toList

def addAdditionalTxPubKeysToExtra (additionalPubKeys : List Key) : Option (List UInt8) :=
  (txExtraField.write (.additionalPubKeys additionalPubKeys)).map (txExtra ++ ·)

def addExtraNonceToTxExtra (txExtra extraNonce : List UInt8) : Option (List UInt8) :=
  if extraNonce.length ≤ txExtraNonceMaxCount then
    some (txExtra ++ 0x02 :: (writeVarint extraNonce.length ++ extraNonce))
  else none

/-- The size is one byte, since the depth takes at most ten. -/
def addMmMerkleRootToTxExtra (mmMerkleRoot : Key) (mmMerkleTreeDepth : ℕ) : List UInt8 :=
  txExtra ++ 0x03 :: UInt8.ofNat (32 + (writeVarint mmMerkleTreeDepth).length) ::
    (writeVarint mmMerkleTreeDepth ++ mmMerkleRoot.toList)

/-! ## Reading what was written -/

def TxExtraField.Valid : TxExtraField → Prop
  | .padding size => 1 ≤ size ∧ size ≤ txExtraPaddingMaxCount
  | .pubKey _ => True
  | .nonce bytes => bytes.length ≤ txExtraNonceMaxCount
  | .mergeMiningTag depth _ => depth < 2 ^ 64
  | .additionalPubKeys data => data.length < 2 ^ 64
  | .mysteriousMinergate data => data.length < 2 ^ 64

lemma readPadding_eq_some {start size : ℕ} {b : List UInt8} : readPadding start b = some size ↔
      b = replicate (size - start) 0 ∧ start ≤ size ∧ size ≤ txExtraPaddingMaxCount := by
  induction b generalizing start with
  | nil =>
    rw [readPadding, Option.ite_none_right_eq_some, Option.some_inj]
    constructor
    · rintro ⟨hle, rfl⟩
      rw [Nat.sub_self]
      exact ⟨rfl, le_rfl, hle⟩
    · rintro ⟨hnil, hle, hmax⟩
      have hzero := congrArg length hnil
      rw [length_nil, length_replicate] at hzero
      exact ⟨by omega, by omega⟩
  | cons zero b ih =>
    rw [readPadding, Option.ite_none_right_eq_some, Option.ite_none_left_eq_some, not_not, ih]
    constructor
    · rintro ⟨-, rfl, rfl, hle, hmax⟩
      refine ⟨?_, by omega, hmax⟩
      rw [← replicate_succ]
      congr 1
      omega
    · rintro ⟨hb, hle, hmax⟩
      have hlength := congrArg length hb
      rw [length_cons, length_replicate] at hlength
      obtain ⟨k, hk⟩ : ∃ k, size - start = k + 1 := ⟨b.length, hlength.symm⟩
      rw [hk, replicate_succ] at hb
      obtain ⟨rfl, rfl⟩ := cons.inj hb
      refine ⟨by omega, rfl, ?_, by omega, hmax⟩
      congr 1
      omega

lemma txExtraPadding_lenient :
    txExtraPadding.Lenient (fun size ↦ 1 ≤ size ∧ size ≤ txExtraPaddingMaxCount) fun _ ↦ True where
  read_write size h := by
    refine ⟨replicate (size - 1) 0, if_neg (not_lt.mpr h.2), fun rest hrest ↦ ?_⟩
    have hread := readPadding_eq_some.mpr ⟨rfl, h.1, h.2⟩
    rw [hrest trivial, append_nil, txExtraPadding]
    simp [hread]
  of_read b size rest hread := by
    obtain ⟨size', hpadding, heq⟩ := Option.map_eq_some_iff.mp hread
    cases heq
    obtain ⟨-, hpos, hle⟩ := readPadding_eq_some.mp hpadding
    exact ⟨⟨hpos, hle⟩, fun _ ↦ rfl, nil_suffix⟩

lemma txExtraMergeMiningTag_lenient :
    txExtraMergeMiningTag.Lenient (fun p ↦ p.1 < 2 ^ 64) fun _ ↦ False := by
  have hexact : ((varint 64).seq key).Exact fun p ↦ p.1 < 2 ^ 64 :=
    ((varint_lawful (by decide)).seq_exact (blob_exact 32) (blob_productive (by decide))).congr
      fun p ↦ and_iff_left trivial
  refine hexact.nested_lenient fun p w hp hw ↦ ?_
  obtain ⟨v, u, hv, hu, rfl⟩ := bind_write_eq_some.mp hw
  cases hv
  cases hu
  have hvarint := writeVarint_length_le (k := 9) (hp.trans (by norm_num))
  rw [length_append, Vector.toList_length]
  omega

lemma txExtraAlternative_lenient {t : UInt8} {c : Codec TxExtraField}
    (h : txExtraAlternative t = some c) :
    c.Lenient (fun field ↦ field.Valid ∧ field.tag = t) fun field ↦ field.type = .padding := by
  have hstring := byte_exact.container_lenient byte_productive
  rw [txExtraAlternative] at h
  split_ifs at h with h₀ h₁ h₂ h₃ h₄ h₅ <;> cases h <;> subst t
  · refine txExtraPadding_lenient.map (.of_tag (fun _ ↦ .rfl) fun x hx ↦ ?_)
      fun s ↦ by simp [TxExtraField.type]
    cases x with
    | padding size => exact ⟨_, rfl⟩
    | _ => simp [TxExtraField.tag] at hx
  · refine (blob_exact 32).lenient.map (.of_tag (fun _ ↦ .rfl) fun x hx ↦ ?_)
      fun s ↦ by simp [TxExtraField.type]
    cases x with
    | pubKey pubKey => exact ⟨_, rfl⟩
    | _ => simp [TxExtraField.tag] at hx
  · refine (hstring.guard _).map (.of_tag (fun nonce ↦ ?_) fun x hx ↦ ?_)
      fun s ↦ by simp [TxExtraField.type]
    · simp only [TxExtraField.Valid, txExtraNonceMaxCount]
      exact ⟨fun h ↦ ⟨⟨by omega, fun _ _ ↦ trivial⟩, decide_eq_true h⟩,
        of_decide_eq_true ∘ And.right⟩
    cases x with
    | nonce nonce => exact ⟨_, rfl⟩
    | _ => simp [TxExtraField.tag] at hx
  · refine txExtraMergeMiningTag_lenient.map
      (.of_tag (fun _ ↦ .rfl) fun x hx ↦ ?_) fun s ↦ by simp [TxExtraField.type]
    cases x with
    | mergeMiningTag depth merkleRoot => exact ⟨(depth, merkleRoot), rfl⟩
    | _ => simp [TxExtraField.tag] at hx
  · refine ((blob_exact 32).container_lenient (blob_productive (by decide))).map
      (.of_tag (fun _ ↦ by simp [TxExtraField.Valid]) fun x hx ↦ ?_)
      fun s ↦ by simp [TxExtraField.type]
    cases x with
    | additionalPubKeys data => exact ⟨_, rfl⟩
    | _ => simp [TxExtraField.tag] at hx
  · refine hstring.map
      (.of_tag (fun _ ↦ by simp [TxExtraField.Valid]) fun x hx ↦ ?_)
      fun s ↦ by simp [TxExtraField.type]
    cases x with
    | mysteriousMinergate data => exact ⟨_, rfl⟩
    | _ => simp [TxExtraField.tag] at hx

lemma txExtraField_lenient :
    txExtraField.Lenient TxExtraField.Valid fun field ↦ field.type = .padding := by
  refine variant_lenient (fun a _ ↦ ?_) fun t c h ↦ txExtraAlternative_lenient h
  cases a <;> rfl

lemma txExtraField_consumes : txExtraField.Consumes := variant_consumes fun _ _ h b a rest hread ↦
    ((txExtraAlternative_lenient h).of_read b a rest hread).2.2

/-! ## Editing the list of fields -/

/-- The bytes of a field that can be written. -/
def TxExtraField.bytes (field : TxExtraField) : List UInt8 := (txExtraField.write field).getD []

def sortFields (fields : List TxExtraField) : List TxExtraField :=
  fields.insertionSort fun a b ↦ sortOrder.idxOf a.type ≤ sortOrder.idxOf b.type

variable {e rest : List UInt8} {fields : List TxExtraField} {additions : List Addition}

lemma parseTxExtra_iff : parseTxExtra e = (true, fields) ↔ txExtraField.Values e fields [] := by
  have hnil := txExtraField_consumes.read_nil
  obtain ⟨l, rest, hvalues, hstop⟩ := txExtraField_consumes.exists_values e
  have hread := txExtraField_consumes.readMany_eq le_rfl hvalues hstop
  rw [parseTxExtra]
  split_ifs with he
  · subst he
    constructor
    · intro h
      cases h
      exact Values.nil []
    · intro h
      cases h with
      | nil => rfl
      | cons hread _ => cases hnil.symm.trans hread
  · dsimp only
    constructor
    · intro h
      rw [hread] at h
      obtain ⟨hrest, rfl⟩ := Prod.mk.inj h
      obtain rfl : rest = [] := of_decide_eq_true hrest
      exact hvalues
    · intro h
      rw [txExtraField_consumes.readMany_eq le_rfl h hnil]
      rfl

/-- The fields of a string that can be read. -/
structure Readable (fields : List TxExtraField) : Prop where
  valid : ∀ field ∈ fields, field.Valid
  padding_last : fields.Pairwise fun field _ ↦ field.type ≠ .padding

lemma Readable.of_values (h : txExtraField.Values e fields rest) : Readable fields := by
  obtain ⟨hvalid, hlast, -⟩ := h.of_lenient txExtraField_lenient txExtraField_consumes
  exact ⟨hvalid, hlast⟩

lemma Readable.write (h : Readable fields) :
    ∀ field ∈ fields, txExtraField.write field = some field.bytes := by
  intro field hfield
  obtain ⟨w, hw⟩ := (txExtraField_lenient.exists_write_many h.valid h.padding_last).1 field hfield
  rw [TxExtraField.bytes, hw, Option.getD_some]

lemma Readable.parse (h : Readable fields) :
    parseTxExtra (fields.flatMap TxExtraField.bytes) = (true, fields) :=
  parseTxExtra_iff.mpr (txExtraField_lenient.exists_write_many h.valid h.padding_last).2

/-! ## Sorting -/

lemma mem_sortOrder : ∀ type : TxExtraType, type ∈ sortOrder
  | .padding => by decide
  | .pubKey => by decide
  | .nonce => by decide
  | .mergeMiningTag => by decide
  | .additionalPubKeys => by decide
  | .mysteriousMinergate => by decide

lemma sortFields_eq (fields : List TxExtraField) :
    sortFields fields = byKeys TxExtraField.type sortOrder fields :=
  (byKeys_eq_insertionSort (by decide) fun field _ ↦ mem_sortOrder field.type).symm

lemma Readable.sortFields (h : Readable fields) : Readable (sortFields fields) := by
  constructor
  · intro field hfield
    rw [sortFields_eq] at hfield
    exact h.valid field (mem_byKeys.mp hfield).2
  · have hsplit : sortOrder =
        [.pubKey, .additionalPubKeys, .nonce, .mergeMiningTag, .mysteriousMinergate] ++
          [.padding] := rfl
    rw [sortFields_eq, byKeys, hsplit, flatMap_append, pairwise_append]
    have hfirst : ∀ field ∈ byKeys TxExtraField.type
        [.pubKey, .additionalPubKeys, .nonce, .mergeMiningTag, .mysteriousMinergate] fields,
        field.type ≠ .padding := by
      intro field hfield hbad
      have hmem := (mem_byKeys.mp hfield).1
      rw [hbad] at hmem
      exact absurd hmem (by decide)
    refine ⟨Pairwise.imp_of_mem (fun ha _ _ ↦ hfirst _ ha) (pairwise_of_forall fun _ _ ↦ trivial),
      ?_, fun field hfield _ _ ↦ hfirst field hfield⟩
    rw [flatMap_singleton]
    exact h.padding_last.filter _

lemma eraseP_spec {p : TxExtraField → Bool} {field : TxExtraField}
    (h : fields.find? p = some field) :
    fields.filter p = field :: (fields.eraseP p).filter p ∧
      (fields.eraseP p).filter (fun f ↦ !p f) = fields.filter (fun f ↦ !p f) := by
  induction fields with
  | nil => cases h
  | cons f fields ih =>
    by_cases hf : p f = true
    · rw [find?_cons_of_pos hf] at h
      cases h
      rw [eraseP_cons_of_pos hf, filter_cons_of_pos hf,
        filter_cons_of_neg (by simp [hf])]
      exact ⟨rfl, rfl⟩
    · rw [find?_cons_of_neg hf] at h
      obtain ⟨hsame, hother⟩ := ih h
      have hneg : (!p f) = true := by simpa using hf
      rw [eraseP_cons_of_neg hf, filter_cons_of_neg hf, filter_cons_of_neg hf,
        filter_cons_of_pos (p := fun f ↦ !p f) hneg,
        filter_cons_of_pos (p := fun f ↦ !p f) hneg, hother]
      exact ⟨hsame, rfl⟩

lemma pick_eq {type : TxExtraType} {fuel : ℕ} (hfuel : fields.length ≤ fuel)
    (hwrite : ∀ field ∈ fields, txExtraField.write field = some field.bytes) :
    pick type fuel fields = some ((fields.filter (·.type = type)).flatMap TxExtraField.bytes,
      fields.filter fun field ↦ !decide (field.type = type)) := by
  induction fuel generalizing fields with
  | zero =>
    rw [eq_nil_of_length_eq_zero (Nat.le_zero.mp hfuel)]
    rfl
  | succ fuel ih =>
    rw [pick]
    cases hfind : fields.find? (fun field ↦ decide (field.type = type)) with
    | none =>
      have hnone := find?_eq_none.mp hfind
      rw [filter_eq_nil_iff.mpr hnone, filter_eq_self.mpr]
      · rfl
      · intro field hfield
        simpa using hnone field hfield
    | some field =>
      obtain ⟨hsame, hother⟩ := eraseP_spec hfind
      have hmem : field ∈ fields := mem_of_find?_eq_some hfind
      have hlength : (fields.eraseP fun field ↦ decide (field.type = type)).length ≤ fuel := by
        rw [length_eraseP_of_mem hmem (find?_some hfind)]
        omega
      dsimp only
      rw [hwrite field hmem, Option.bind_some,
        ih hlength fun f hf ↦ hwrite f (mem_of_mem_eraseP hf), hother, hsame, Option.map_some,
        flatMap_cons]

lemma pickAll_eq {types : List TxExtraType} (htypes : types.Nodup)
    (hwrite : ∀ field ∈ fields, txExtraField.write field = some field.bytes) :
    pickAll types fields =
      some ((byKeys TxExtraField.type types fields).flatMap TxExtraField.bytes,
      fields.filter fun field ↦ field.type ∉ types) := by
  suffices hloop : ∀ out, types.foldlM
      (fun p type ↦ (pick type p.2.length p.2).map fun q ↦ (p.1 ++ q.1, q.2)) (out, fields) =
        some (out ++ (byKeys TxExtraField.type types fields).flatMap TxExtraField.bytes,
          fields.filter fun field ↦ field.type ∉ types) by
    exact hloop []
  induction types generalizing fields with
  | nil =>
    intro out
    rw [foldlM_nil, byKeys, flatMap_nil, flatMap_nil, append_nil,
      filter_eq_self.mpr fun field _ ↦ by simp]
    rfl
  | cons type types ih =>
    intro out
    obtain ⟨htype, htypes⟩ := nodup_cons.mp htypes
    have hrest : ∀ field ∈ fields.filter (fun field ↦ !decide (field.type = type)),
        txExtraField.write field = some field.bytes :=
      fun field hfield ↦ hwrite field (mem_of_mem_filter hfield)
    have hothers : byKeys TxExtraField.type types
        (fields.filter fun field ↦ !decide (field.type = type)) =
          byKeys TxExtraField.type types fields := by
      refine flatMap_congr fun t ht ↦ ?_
      rw [filter_filter]
      refine filter_congr fun field _ ↦ ?_
      by_cases hfield : field.type = t
      · have hne : field.type ≠ type := fun hbad ↦ htype (hbad ▸ hfield ▸ ht)
        simp [hfield, hfield ▸ hne]
      · simp [hfield]
    rw [foldlM_cons, pick_eq le_rfl hwrite, Option.map_some, Option.bind_eq_bind, Option.bind_some,
      ih htypes hrest, hothers, append_assoc, ← flatMap_append, filter_filter]
    congr 2
    refine filter_congr fun field _ ↦ ?_
    simp [mem_cons, not_or, Bool.and_comm]

lemma sortTxExtra_eq (hvalues : txExtraField.Values e fields rest)
    (hstop : txExtraField.read rest = none) (allowPartial : Bool)
    (hallow : rest = [] ∨ allowPartial = true) :
    sortTxExtra e allowPartial =
      some ((sortFields fields).flatMap TxExtraField.bytes ++ rest) := by
  have hreadable := Readable.of_values hvalues
  obtain ⟨-, -, w, rfl⟩ := hvalues.of_lenient txExtraField_lenient txExtraField_consumes
  rw [sortTxExtra]
  split_ifs with he
  · obtain ⟨-, rfl⟩ := append_eq_nil_iff.mp he
    cases he ▸ hvalues with
    | nil => rfl
    | cons hread _ => cases txExtraField_consumes.read_nil.symm.trans hread
  · have hprocessed : (w ++ rest).length - rest.length = w.length := by
      rw [length_append, Nat.add_sub_cancel]
    have hleft : fields.filter (fun field ↦ decide (field.type ∉ sortOrder)) = [] :=
      filter_eq_nil_iff.mpr fun field _ ↦ by simp [mem_sortOrder field.type]
    have hpick := pickAll_eq (by decide : sortOrder.Nodup) hreadable.write
    rw [hleft, ← sortFields_eq] at hpick
    rw [txExtraField_consumes.readMany_eq le_rfl hvalues hstop]
    dsimp only
    rw [hprocessed, drop_left, hpick, Option.bind_some, if_neg (not_not.mpr rfl)]
    rcases hallow with rfl | rfl
    · simp
    · rw [if_neg (fun hbad ↦ hbad.2 rfl)]
      split_ifs with hlt
      · rfl
      · -- everything was read
        have hzero : rest.length = 0 := by
          rw [length_append] at hlt
          by_contra hne
          exact hlt ⟨rfl, by omega⟩
        rw [eq_nil_of_length_eq_zero hzero, append_nil]

lemma sortFields_sortFields (fields : List TxExtraField) :
    sortFields (sortFields fields) = sortFields fields := by
  have : Std.Total fun a b : TxExtraField ↦ sortOrder.idxOf a.type ≤ sortOrder.idxOf b.type :=
    ⟨fun a b ↦ le_total _ _⟩
  have : IsTrans TxExtraField fun a b ↦ sortOrder.idxOf a.type ≤ sortOrder.idxOf b.type :=
    ⟨fun a b c ↦ le_trans⟩
  exact (pairwise_insertionSort _ fields).insertionSort_eq

lemma sortTxExtra_spec (h : parseTxExtra e = (true, fields)) (allowPartial : Bool) :
    ∃ sorted, sortTxExtra e allowPartial = some sorted ∧
      parseTxExtra sorted = (true, sortFields fields) ∧
      sortTxExtra sorted allowPartial = some sorted := by
  have hvalues := parseTxExtra_iff.mp h
  have hreadable := Readable.of_values hvalues
  have hstop := txExtraField_consumes.read_nil
  have hsort := sortTxExtra_eq hvalues hstop allowPartial (.inl rfl)
  have hparse := hreadable.sortFields.parse
  have hagain := sortTxExtra_eq (parseTxExtra_iff.mp hparse) hstop allowPartial (.inl rfl)
  rw [append_nil] at hsort hagain
  rw [sortFields_sortFields] at hagain
  exact ⟨_, hsort, hparse, hagain⟩

/-! ## Removing a type -/

lemma flatMap_ite_bytes (fields : List TxExtraField) (type : TxExtraType) :
    (fields.flatMap fun field ↦
      if field.type ≠ type then (txExtraField.write field).getD [] else []) =
      (fields.filter (·.type ≠ type)).flatMap TxExtraField.bytes := by
  induction fields with
  | nil => rfl
  | cons field fields ih =>
    rw [flatMap_cons, ih]
    by_cases h : field.type ≠ type
    · rw [if_pos h, filter_cons_of_pos (by simpa using h), flatMap_cons]
      rfl
    · rw [if_neg h, filter_cons_of_neg (by simpa using h), nil_append]

lemma removeFieldFromTxExtra_spec (h : parseTxExtra e = (true, fields)) (type : TxExtraType) :
    ∃ left, removeFieldFromTxExtra e type = (true, left) ∧
      parseTxExtra left = (true, fields.filter (·.type ≠ type)) := by
  have hvalues := parseTxExtra_iff.mp h
  have hreadable := Readable.of_values hvalues
  have hleft : Readable (fields.filter (·.type ≠ type)) :=
    ⟨fun field hfield ↦ hreadable.valid field (mem_of_mem_filter hfield),
      hreadable.padding_last.filter _⟩
  refine ⟨_, ?_, hleft.parse⟩
  rw [removeFieldFromTxExtra]
  split_ifs with he
  · subst he
    cases h
    rfl
  · rw [txExtraField_consumes.readMany_eq le_rfl hvalues txExtraField_consumes.read_nil]
    dsimp only
    rw [if_neg (not_not.mpr rfl), flatMap_ite_bytes]

/-! ## Adding fields -/

inductive Addition where
  | txPubKey (txPubKey : Key)
  | additionalTxPubKeys (additionalPubKeys : List Key)
  | extraNonce (extraNonce : List UInt8)
  | mmMerkleRoot (mmMerkleRoot : Key) (mmMerkleTreeDepth : UInt64)

namespace Addition

def add : Addition → Option (List UInt8)
  | txPubKey key => some (addTxPubKeyToExtra txExtra key)
  | additionalTxPubKeys keys => addAdditionalTxPubKeysToExtra txExtra keys
  | extraNonce nonce => addExtraNonceToTxExtra txExtra nonce
  | mmMerkleRoot root depth => some (addMmMerkleRootToTxExtra txExtra root depth.toNat)

def field : Addition → TxExtraField
  | txPubKey key => .pubKey key
  | additionalTxPubKeys keys => .additionalPubKeys keys
  | extraNonce nonce => .nonce nonce
  | mmMerkleRoot root depth => .mergeMiningTag depth.toNat root

/-- A nonce has at most 255 bytes, and a vector a size. -/
def Sized : Addition → Prop
  | additionalTxPubKeys keys => keys.length < 2 ^ 64
  | extraNonce nonce => nonce.length ≤ txExtraNonceMaxCount
  | _ => True

lemma valid_field {a : Addition} (h : a.Sized) : a.field.Valid ∧ a.field.type ≠ .padding := by
  cases a with
  | txPubKey key => exact ⟨trivial, TxExtraType.noConfusion⟩
  | additionalTxPubKeys keys => exact ⟨h, TxExtraType.noConfusion⟩
  | extraNonce nonce => exact ⟨h, TxExtraType.noConfusion⟩
  | mmMerkleRoot root depth => exact ⟨depth.toNat_lt, TxExtraType.noConfusion⟩

end Addition

lemma byteList_write (b : List UInt8) : (byte.list b.length).write b = some b := by
  induction b with
  | nil => rfl
  | cons x b ih =>
    rw [length_cons, list_succ_write, ih]
    rfl

lemma byteContainer_write (b : List UInt8) :
    byte.container.write b = some (writeVarint b.length ++ b) := by
  have hwrite : ((varint 64).bind byte.list).write (b.length, b) =
      some (writeVarint b.length ++ b) :=
    bind_write_eq_some.mpr ⟨_, b, rfl, byteList_write b, rfl⟩
  exact hwrite

lemma Addition.add_eq {a : Addition} (h : a.Sized) (txExtra : List UInt8) :
    a.add txExtra = some (txExtra ++ a.field.bytes) := by
  cases a with
  | txPubKey key => rfl
  | additionalTxPubKeys keys =>
    have hreadable : Readable [.additionalPubKeys keys] :=
      ⟨fun field hfield ↦ (mem_singleton.mp hfield) ▸ h, pairwise_singleton _ _⟩
    rw [add, addAdditionalTxPubKeysToExtra, hreadable.write _ (mem_singleton_self _)]
    rfl
  | extraNonce nonce =>
    have hle : nonce.length ≤ txExtraNonceMaxCount := h
    have hbytes :
        TxExtraField.bytes (.nonce nonce) = 0x02 :: (writeVarint nonce.length ++ nonce) := by
      have hwrite : txExtraField.write (.nonce nonce) =
          (if decide (nonce.length ≤ txExtraNonceMaxCount) then byte.container.write nonce
            else none).map (0x02 :: ·) := rfl
      rw [TxExtraField.bytes, hwrite, if_pos (decide_eq_true hle), byteContainer_write]
      rfl
    rw [field, hbytes]
    exact if_pos h
  | mmMerkleRoot root depth =>
    have hdepth : (writeVarint depth.toNat).length ≤ 10 :=
      writeVarint_length_le (k := 9) (depth.toNat_lt.trans (by norm_num))
    have hsize : writeVarint (writeVarint depth.toNat ++ root.toList).length =
        [UInt8.ofNat (32 + (writeVarint depth.toNat).length)] := by
      rw [length_append, Vector.toList_length, writeVarint_eq, if_pos (by omega), Nat.add_comm]
    have hwrite : txExtraField.write (.mergeMiningTag depth.toNat root) =
        (byte.container.write (writeVarint depth.toNat ++ root.toList)).map (0x03 :: ·) := rfl
    rw [add, addMmMerkleRootToTxExtra, field, TxExtraField.bytes, hwrite, byteContainer_write,
      hsize]
    rfl

lemma foldlM_add (h : ∀ a ∈ additions, a.Sized) (txExtra : List UInt8) :
    additions.foldlM Addition.add txExtra =
      some (txExtra ++ (additions.map Addition.field).flatMap TxExtraField.bytes) := by
  induction additions generalizing txExtra with
  | nil => rw [map_nil, flatMap_nil, append_nil, foldlM_nil, Option.pure_def]
  | cons a additions ih =>
    obtain ⟨ha, h⟩ := forall_mem_cons.mp h
    rw [foldlM_cons, Addition.add_eq ha, Option.bind_eq_bind, Option.bind_some, ih h,
      map_cons, flatMap_cons, append_assoc]

lemma parse_additions (h : ∀ a ∈ additions, a.Sized) :
    ∃ e, additions.foldlM Addition.add [] = some e ∧
      parseTxExtra e = (true, additions.map Addition.field) := by
  have hfields : ∀ field ∈ additions.map Addition.field, field.Valid ∧ field.type ≠ .padding := by
    intro field hfield
    obtain ⟨a, ha, rfl⟩ := mem_map.mp hfield
    exact Addition.valid_field (h a ha)
  have hreadable : Readable (additions.map Addition.field) :=
    ⟨fun field hfield ↦ (hfields field hfield).1,
      Pairwise.imp_of_mem (fun ha _ _ ↦ (hfields _ ha).2) (pairwise_of_forall fun _ _ ↦ trivial)⟩
  exact ⟨_, foldlM_add h [], hreadable.parse⟩

/-- The fields added are the fields parsed; sorting permutes them and is idempotent, removing
a type leaves the others; and of bytes that parse only in part, the fields of the longest
readable beginning are sorted and the rest is kept behind them. -/
theorem txExtra_editing : (∀ additions : List Addition, (∀ a ∈ additions, a.Sized) →
      ∃ e, additions.foldlM Addition.add [] = some e ∧
        parseTxExtra e = (true, additions.map Addition.field)) ∧
    (∀ e fields, parseTxExtra e = (true, fields) →
      (∀ allowPartial, ∃ sorted, sortTxExtra e allowPartial = some sorted ∧
        parseTxExtra sorted = (true, sortFields fields) ∧
        sortTxExtra sorted allowPartial = some sorted) ∧
      ∀ type, ∃ left, removeFieldFromTxExtra e type = (true, left) ∧
        parseTxExtra left = (true, fields.filter (·.type ≠ type))) ∧
    ∀ e, ∃ fields rest, txExtraField.Values e fields rest ∧
      (∀ fields' rest', txExtraField.Values e fields' rest' → fields' <+: fields) ∧
      parseTxExtra ((sortFields fields).flatMap TxExtraField.bytes) = (true, sortFields fields) ∧
      sortTxExtra e true = some ((sortFields fields).flatMap TxExtraField.bytes ++ rest) := by
  refine ⟨fun additions ↦ parse_additions, fun e fields h ↦
    ⟨sortTxExtra_spec h, removeFieldFromTxExtra_spec h⟩, fun e ↦ ?_⟩
  obtain ⟨fields, rest, hvalues, hstop⟩ := txExtraField_consumes.exists_values e
  exact ⟨fields, rest, hvalues, fun fields' rest' h' ↦ h'.isPrefix hvalues hstop,
    (Readable.of_values hvalues).sortFields.parse, sortTxExtra_eq hvalues hstop true (.inr rfl)⟩

theorem txExtra_editing_sample :
    (∃ e, [Addition.extraNonce [7], .txPubKey zeroKey].foldlM Addition.add [] = some e ∧
      parseTxExtra e = (true, [.nonce [7], .pubKey zeroKey])) ∧
      ∃ sorted, sortTxExtra (0x02 :: 0x01 :: 0x07 :: 0x01 :: zeroKey.toList) false = some sorted ∧
        parseTxExtra sorted = (true, sortFields [.nonce [7], .pubKey zeroKey]) := by
  obtain ⟨hadd, hedit, -⟩ := txExtra_editing
  refine ⟨hadd _ ?_, ?_⟩
  · intro a ha
    rcases mem_pair.mp ha with rfl | rfl
    · exact (by decide : [7].length ≤ 255)
    · trivial
  · obtain ⟨hsort, -⟩ := hedit (0x02 :: 0x01 :: 0x07 :: 0x01 :: zeroKey.toList)
      [.nonce [7], .pubKey zeroKey] (by decide +kernel)
    obtain ⟨sorted, hsorted, hparse, -⟩ := hsort false
    exact ⟨sorted, hsorted, hparse⟩

end Monero.Serialization
