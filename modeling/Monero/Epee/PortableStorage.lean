import Monero.Lib.Codec
import Monero.Lib.Table

/-!
# Portable storage

The tree of named values in which all messages between peers are written, and its
binary form.  The reader bounds its recursion with a counter that every helper
raises, and the number of elements of an array by the bytes that are left.
-/

namespace Monero.Epee.PortableStorage

open Lib Codec

abbrev Bytes := List UInt8

/-- Bytes are compared as `char_traits` does, so names are in lexicographic order. -/
instance linearOrderUInt8 : LinearOrder UInt8 where
  le_refl := UInt8.le_refl
  le_trans _ _ _ := UInt8.le_trans
  le_antisymm _ _ := UInt8.le_antisymm
  le_total := UInt8.le_total
  lt_iff_le_not_ge _ _ := Std.LawfulOrderLT.lt_iff _ _
  toDecidableLE := inferInstance

/-! ## Types of values -/

inductive PodType
  | int64
  | int32
  | int16
  | int8
  | uint64
  | uint32
  | uint16
  | uint8
  | double
  deriving DecidableEq

def PodType.size : PodType → ℕ
  | int64 | uint64 | double => 8
  | int32 | uint32 => 4
  | int16 | uint16 => 2
  | int8 | uint8 => 1

inductive EntryType
  | pod (t : PodType)
  | string
  | bool
  | object
  | array
  deriving DecidableEq

/-- The numbers `SERIALIZE_TYPE_*`. -/
def EntryType.code : EntryType → UInt8
  | pod .int64 => 1
  | pod .int32 => 2
  | pod .int16 => 3
  | pod .int8 => 4
  | pod .uint64 => 5
  | pod .uint32 => 6
  | pod .uint16 => 7
  | pod .uint8 => 8
  | pod .double => 9
  | string => 10
  | bool => 11
  | object => 12
  | array => 13

def EntryType.ofCode? (c : UInt8) : Option EntryType :=
  [pod .int64, pod .int32, pod .int16, pod .int8, pod .uint64, pod .uint32, pod .uint16,
    pod .uint8, pod .double, string, bool, object, array].find? fun t ↦ t.code = c

def serializeFlagArray : UInt8 := 0x80

/-! ## Trees -/

mutual

/-- A value is a number by its bits, a Boolean, a string, a section or an array. -/
inductive StorageEntry
  | pod (t : PodType) (v : BitVec (8 * t.size))
  | bool (b : Bool)
  | string (s : Bytes)
  | object (s : Section)
  | array (a : ArrayEntry)

inductive ArrayEntry
  | pods (t : PodType) (vs : List (BitVec (8 * t.size)))
  | bools (bs : List Bool)
  | strings (ss : List Bytes)
  | objects (ss : List Section)
  | arrays (as : List ArrayEntry)

inductive Section
  | mk (entries : List (Bytes × StorageEntry))

end

def Section.entries : Section → List (Bytes × StorageEntry)
  | mk entries => entries

/-! ## Writing -/

/-- The two lowest bits tell how many bytes the number takes. -/
def packVarint (val : ℕ) : Option Bytes :=
  if val ≤ 63 then some (toLittleEndian 1 (val <<< 2 ||| 0))
  else if val ≤ 16383 then some (toLittleEndian 2 (val <<< 2 ||| 1))
  else if val ≤ 1073741823 then some (toLittleEndian 4 (val <<< 2 ||| 2))
  else if val >>> 31 >>> 31 ≠ 0 then none
  else some (toLittleEndian 8 (val <<< 2 ||| 3))

def packPod (t : PodType) (v : BitVec (8 * t.size)) : Bytes := toLittleEndian t.size v.toNat

def packBool (b : Bool) : Bytes := [if b then 1 else 0]

def putString (s : Bytes) : Option Bytes := do
  let len ← packVarint s.length
  some (len ++ s)

/-- The pieces one after the other, unless writing one of them throws. -/
def packAll {α : Type} (pack : α → Option Bytes) : List α → Option Bytes
  | [] => some []
  | a :: as => do
    let x ← pack a
    let xs ← packAll pack as
    some (x ++ xs)

/-- The array flag, the number of elements and the elements. -/
def packArrayOf (t : EntryType) (n : ℕ) (elements : Option Bytes) : Option Bytes := do
  let len ← packVarint n
  let elements ← elements
  some ((t.code ||| serializeFlagArray) :: (len ++ elements))

mutual

def packSection : Section → Option Bytes
  | .mk entries => do
    let len ← packVarint entries.length
    let fields ← packEntries entries
    some (len ++ fields)

def packEntries : List (Bytes × StorageEntry) → Option Bytes
  | [] => some []
  | (name, e) :: es => do
    if 255 ≤ name.length then none
    else if name.isEmpty then none
    else
      let value ← packEntry e
      let rest ← packEntries es
      some (UInt8.ofNat name.length :: (name ++ value) ++ rest)

def packEntry : StorageEntry → Option Bytes
  | .pod t v => some ((EntryType.pod t).code :: packPod t v)
  | .bool b => some (EntryType.bool.code :: packBool b)
  | .string s => (putString s).map (EntryType.string.code :: ·)
  | .object s => (packSection s).map (EntryType.object.code :: ·)
  | .array a => packArray a

def packArray : ArrayEntry → Option Bytes
  | .pods t vs => packArrayOf (.pod t) vs.length (some (vs.flatMap (packPod t)))
  | .bools bs => packArrayOf .bool bs.length (some (bs.flatMap packBool))
  | .strings ss => packArrayOf .string ss.length (packAll putString ss)
  | .objects ss => packArrayOf .object ss.length (packSections ss)
  | .arrays as => packArrayOf .array as.length (packArrays as)

def packSections : List Section → Option Bytes
  | [] => some []
  | s :: ss => do
    let x ← packSection s
    let xs ← packSections ss
    some (x ++ xs)

def packArrays : List ArrayEntry → Option Bytes
  | [] => some []
  | a :: as => do
    let x ← packArray a
    let xs ← packArrays as
    some (x ++ xs)

end

/-- `PORTABLE_STORAGE_SIGNATUREA`, `PORTABLE_STORAGE_SIGNATUREB` and the version. -/
def storageBlockHeader : Bytes := toLittleEndian 4 0x01011101 ++ toLittleEndian 4 0x01020101 ++ [1]

def storeToBinary (root : Section) : Option Bytes :=
  (packSection root).map (storageBlockHeader ++ ·)

/-! ## Reading -/

structure Limits where
  objects : ℕ
  fields : ℕ
  strings : ℕ

structure ReadState where
  buf : Bytes
  objects : ℕ
  fields : ℕ
  strings : ℕ

def maxStringLenPossible : ℕ := 2000000000

/-- The recursion counter of the source is kept as what is left of its limit; every
guard takes one. -/
def guarded {α : Type} (read : ℕ → ReadState → Option (α × ReadState)) :
    ℕ → ReadState → Option (α × ReadState)
  | 0, _ => none
  | left + 1, s => read left s

def readBytes (count : ℕ) : ℕ → ReadState → Option (Bytes × ReadState) := guarded fun _ s ↦
    if s.buf.length < count then none
    else some (s.buf.take count, { s with buf := s.buf.drop count })

def readUint (size : ℕ) : ℕ → ReadState → Option (ℕ × ReadState) := guarded fun left s ↦ do
    let (x, s) ← readBytes size left s
    some (ofLittleEndian x, s)

def readUint8 (left : ℕ) (s : ReadState) : Option (UInt8 × ReadState) :=
  (readUint 1 left s).map fun p ↦ (UInt8.ofNat p.1, p.2)

def readPod (t : PodType) (left : ℕ) (s : ReadState) :
    Option (BitVec (8 * t.size) × ReadState) :=
  (readUint t.size left s).map fun p ↦ (BitVec.ofNat _ p.1, p.2)

def readBool : ℕ → ReadState → Option (Bool × ReadState) := guarded fun left s ↦ do
    let (x, s) ← readBytes 1 left s
    let t := ofLittleEndian x
    if 1 < t then none else some (t ≠ 0, s)

/-- The bytes that a number takes, by `PORTABLE_RAW_SIZE_MARK_*`. -/
def markSize : ℕ → ℕ
  | 0 => 1
  | 1 => 2
  | 2 => 4
  | _ => 8

def readVarint : ℕ → ReadState → Option (ℕ × ReadState) := guarded fun left s ↦
    match s.buf with
    | [] => none
    | m :: _ => do
      let (v, s) ← guarded (readUint (markSize (m.toNat % 4))) left s
      some (v >>> 2, s)

def readString : ℕ → ReadState → Option (Bytes × ReadState) := guarded fun left s ↦ do
    let (len, s) ← readVarint left s
    if maxStringLenPossible ≤ len then none
    else if s.buf.length < len then none
    else some (s.buf.take len, { s with buf := s.buf.drop len })

def readSecName : ℕ → ReadState → Option (Bytes × ReadState) := guarded fun left s ↦ do
    let (nameLen, s) ← readUint 1 left s
    if nameLen = 0 then none else readBytes nameLen left s

/-- The loop that reads the elements of an array. -/
def readTimes {α : Type} (read : ReadState → Option (α × ReadState)) :
    ℕ → ReadState → Option (List α × ReadState)
  | 0, s => some ([], s)
  | n + 1, s => do
    let (a, s) ← read s
    let (as, s) ← readTimes read n s
    some (a :: as, s)

/-- The loop that reads the entries of a section and files each under its name. -/
def readEntries (readName : ReadState → Option (Bytes × ReadState))
    (load : ReadState → Option (StorageEntry × ReadState)) :
    ℕ → List (Bytes × StorageEntry) → ReadState → Option (Section × ReadState)
  | 0, entries, s => some (.mk entries, s)
  | n + 1, entries, s => do
    let (name, s) ← readName s
    if name ∈ entries.map Prod.fst then none
    else
      let (e, s) ← load s
      readEntries readName load n (Table.insertRow name e entries) s

/-- The number of elements is bounded by the bytes left over `minBytes`, and by the
limit of their kind. -/
def readAe {α : Type} (minBytes : ℕ) (count : ℕ → ReadState → Option ReadState) (left : ℕ)
    (read : ReadState → Option (α × ReadState)) (s : ReadState) :
    Option (List α × ReadState) := do
  let (size, s) ← readVarint left s
  if s.buf.length / minBytes < size then none
  else
    let s ← count size s
    readTimes read size s

section

variable (lim : Limits)

def countObjects (n : ℕ) (s : ReadState) : Option ReadState :=
  if lim.objects - s.objects < n then none else some { s with objects := s.objects + n }

def countStrings (n : ℕ) (s : ReadState) : Option ReadState :=
  if lim.strings - s.strings < n then none else some { s with strings := s.strings + n }

def readSeString : ℕ → ReadState → Option (Bytes × ReadState) := guarded fun left s ↦
    if s.strings + 1 ≤ lim.strings then
      guarded readString left { s with strings := s.strings + 1 }
    else none

mutual

def readSection : ℕ → ReadState → Option (Section × ReadState)
  | 0, _ => none
  | left + 1, s => do
    let (count, s) ← readVarint left s
    if lim.fields - s.fields < count then none
    else
      readEntries (readSecName left) (loadStorageEntry left) count []
        { s with fields := s.fields + count }

def loadStorageEntry : ℕ → ReadState → Option (StorageEntry × ReadState)
  | 0, _ => none
  | left + 1, s => do
    let (entType, s) ← readUint8 left s
    if entType &&& serializeFlagArray ≠ 0 then
      (loadStorageArrayEntry left entType s).map fun p ↦ (.array p.1, p.2)
    else
      match EntryType.ofCode? entType with
      | none => none
      | some (.pod t) => (guarded (readPod t) left s).map fun p ↦ (.pod t p.1, p.2)
      | some .string => (readSeString lim left s).map fun p ↦ (.string p.1, p.2)
      | some .bool => (guarded readBool left s).map fun p ↦ (.bool p.1, p.2)
      | some .object => (readSeSection left s).map fun p ↦ (.object p.1, p.2)
      | some .array => (readSeArray left s).map fun p ↦ (.array p.1, p.2)

def readSeSection : ℕ → ReadState → Option (Section × ReadState)
  | 0, _ => none
  | left + 1, s =>
    if s.objects < lim.objects then readSection left { s with objects := s.objects + 1 } else none

def readSeArray : ℕ → ReadState → Option (ArrayEntry × ReadState)
  | 0, _ => none
  | left + 1, s => do
    let (entType, s) ← readUint8 left s
    if entType &&& serializeFlagArray = 0 then none else loadStorageArrayEntry left entType s

/-- The least sizes are `ps_min_bytes`. -/
def loadStorageArrayEntry : ℕ → UInt8 → ReadState → Option (ArrayEntry × ReadState)
  | 0, _, _ => none
  | left + 1, type, s =>
    match EntryType.ofCode? (type &&& ~~~ serializeFlagArray) with
    | none => none
    | some (.pod t) =>
      (guarded (fun left ↦ readAe t.size (fun _ s ↦ some s) left
        (guarded (readPod t) left)) left s).map fun p ↦ (.pods t p.1, p.2)
    | some .bool =>
      (guarded (fun left ↦ readAe 1 (fun _ s ↦ some s) left
        (guarded readBool left)) left s).map fun p ↦ (.bools p.1, p.2)
    | some .string =>
      (guarded (fun left ↦ readAe 2 (countStrings lim) left
        (guarded readString left)) left s).map fun p ↦ (.strings p.1, p.2)
    | some .object => (readAeSection left s).map fun p ↦ (.objects p.1, p.2)
    -- each element would be refused: "Reading array entry is not supported"
    | some .array =>
      (guarded (fun left ↦ readAe 1 (fun _ s ↦ some s) left
        (fun _ ↦ (none : Option (ArrayEntry × ReadState)))) left s).map fun p ↦ (.arrays p.1, p.2)

def readAeSection : ℕ → ReadState → Option (List Section × ReadState)
  | 0, _ => none
  | left + 1, s => readAe 1 (countObjects lim) left (readValueSection left) s

/-- `read<section>()`. -/
def readValueSection : ℕ → ReadState → Option (Section × ReadState)
  | 0, _ => none
  | left + 1, s => readSection left s

end

end

/-- `EPEE_PORTABLE_STORAGE_RECURSION_LIMIT` is 100, and the counter stays below it. -/
def recursionLimit : ℕ := 99

/-- `size_t` at its largest, which stands for no limit. -/
def noLimits : Limits := ⟨2 ^ 64 - 1, 2 ^ 64 - 1, 2 ^ 64 - 1⟩

def loadFromBinary (source : Bytes) (limits : Limits) : Option Section :=
  if source.length < 9 then none
  else if source.take 9 ≠ storageBlockHeader then none
  else if (source.drop 9).isEmpty then none
  else (readSection limits recursionLimit ⟨source.drop 9, 0, 0, 0⟩).map Prod.fst

end Monero.Epee.PortableStorage
