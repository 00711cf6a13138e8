import Monero.Epee.PortableStorage

/-!
# Reading back a stored tree

Every reader is shown to take exactly the bytes its writer wrote and to raise the
counters by amounts that those bytes pay for.  The bounds of the reader are then
met by every tree whose nesting the recursion counter allows, except that an array
of strings is refused where less than two bytes for each of them are left.
-/

namespace Monero.Epee.PortableStorage

open Lib Codec List
open Nat (add_assoc zero_le add_zero)
open Option (map_some bind_eq_bind bind_some)

/-! ## Trees to be stored -/

def sizeBound : ℕ := 2 ^ 62

/-- No arrays of arrays. -/
def ValidEntry (nested : Section → Prop) : StorageEntry → Prop
  | .pod _ _ => True
  | .bool _ => True
  | .string s => s.length < maxStringLenPossible
  | .object s => nested s
  | .array (.pods _ vs) => vs.length < sizeBound
  | .array (.bools bs) => bs.length < sizeBound
  | .array (.strings ss) =>
    ss.length < sizeBound ∧ ∀ s ∈ ss, s.length < maxStringLenPossible
  | .array (.objects ss) => ss.length < sizeBound ∧ ∀ s ∈ ss, nested s
  | .array (.arrays _) => False

/-- A section with at most `depth` levels of sections below it. -/
def ValidSection : ℕ → Section → Prop
  | depth, .mk entries =>
    entries.length < sizeBound ∧ (entries.Pairwise fun e f ↦ e.1 < f.1) ∧
      ∀ e ∈ entries, (1 ≤ e.1.length ∧ e.1.length ≤ 254) ∧ ValidEntry (match depth with
          | 0 => fun _ ↦ False
          | depth + 1 => ValidSection depth) e.2

/-! ## Room for arrays of strings -/

def writtenLength (w : Option Bytes) : ℕ := (w.map length).getD 0

mutual

/-- With `rest` bytes after the section, every array of strings in it has two bytes for
each string from its first string to the end of all the bytes. -/
def RoomySection (rest : ℕ) : Section → Prop
  | .mk entries => RoomyEntries rest entries

def RoomyEntries (rest : ℕ) : List (Bytes × StorageEntry) → Prop
  | [] => True
  | (_, e) :: es => RoomyEntry (writtenLength (packEntries es) + rest) e ∧ RoomyEntries rest es

def RoomyEntry (rest : ℕ) : StorageEntry → Prop
  | .pod _ _ | .bool _ | .string _ => True
  | .object s => RoomySection rest s
  | .array a => RoomyArray rest a

def RoomyArray (rest : ℕ) : ArrayEntry → Prop
  | .pods _ _ | .bools _ | .arrays _ => True
  | .strings ss => ss.length * 2 ≤ writtenLength (packAll putString ss) + rest
  | .objects ss => RoomySections rest ss

def RoomySections (rest : ℕ) : List Section → Prop
  | [] => True
  | s :: ss => RoomySection (writtenLength (packSections ss) + rest) s ∧ RoomySections rest ss

end

/-- The same for the elements of any array. -/
def RoomyAll {α : Type} (pack : α → Option Bytes) (room : α → ℕ → Prop) (rest : ℕ) :
    List α → Prop
  | [] => True
  | a :: as => room a (writtenLength (packAll pack as) + rest) ∧ RoomyAll pack room rest as

/-! ## Readers that take what was written -/

/-- In front of any further input the reader takes `w`, returns `a` and counts nothing. -/
def Reads {α : Type} (read : ReadState → Option (α × ReadState)) (a : α) (w : Bytes) : Prop :=
  ∀ s : ReadState, read { s with buf := w ++ s.buf } = some (a, s)

section

variable {lim : Limits} {α : Type}

lemma reads_readBytes (left : ℕ) (w : Bytes) : Reads (readBytes w.length (left + 1)) w w := by
  intro s
  simp [readBytes, guarded]

lemma reads_readUint (left : ℕ) {size v : ℕ} (hv : v < 256 ^ size) :
    Reads (readUint size (left + 2)) v (toLittleEndian size v) := by
  intro s
  have hbytes := reads_readBytes left (toLittleEndian size v) s
  rw [toLittleEndian_length] at hbytes
  simp [readUint, guarded, hbytes, ofLittleEndian_toLittleEndian hv]

variable {a : α} {w s : Bytes} {t o f least left : ℕ}
  {read : ℕ → ReadState → Option (α × ReadState)} {written : Option Bytes}
    {nested : Section → Prop}

lemma Reads.bind {β : Type} {read : ReadState → Option (α × ReadState)}
    {k : α → ReadState → Option (β × ReadState)} {b : β} {w' : Bytes} (h : Reads read a w)
    (hnext : Reads (k a) b w') :
    Reads (fun s ↦ (read s).bind fun p ↦ k p.1 p.2) b (w ++ w') := by
  intro s
  have hfirst := h { s with buf := w' ++ s.buf }
  simp only [append_assoc, hfirst, bind_some]
  exact hnext s

lemma Reads.map {β : Type} {read : ReadState → Option (α × ReadState)} (h : Reads read a w)
    (g : α → β) : Reads (fun s ↦ (read s).map fun p ↦ (g p.1, p.2)) (g a) w := by
  intro s
  simp only [h s, map_some]

lemma reads_readUint8 (left : ℕ) (c : UInt8) : Reads (readUint8 (left + 2)) c [c] := by
  have hc : c.toNat < 256 ^ 1 := c.toNat_lt
  have hread := (reads_readUint left hc).map UInt8.ofNat
  simp only [toLittleEndian, UInt8.ofNat_toNat] at hread
  exact hread

lemma reads_readPod (left : ℕ) (t : PodType) (v : BitVec (8 * t.size)) :
    Reads (readPod t (left + 2)) v (packPod t v) := by
  have hv : v.toNat < 256 ^ t.size := by
    have hpow : (256 : ℕ) ^ t.size = 2 ^ (8 * t.size) := by rw [Nat.pow_mul]
    rw [hpow]
    exact v.isLt
  have hread := (reads_readUint left hv).map (BitVec.ofNat (8 * t.size))
  simp only [BitVec.ofNat_toNat, BitVec.setWidth_eq] at hread
  exact hread

lemma reads_readBool (left : ℕ) (b : Bool) : Reads (readBool (left + 2)) b (packBool b) := by
  intro s
  have hbytes := reads_readBytes left (packBool b) s
  have hlen : (packBool b).length = 1 := rfl
  rw [hlen] at hbytes
  simp only [readBool, guarded, hbytes, bind_eq_bind, bind_some]
  cases b <;> rfl

/-! ## Numbers, strings and names -/

lemma reads_marked (left : ℕ) {n mark : ℕ} (hmark : mark < 4)
    (hn : 4 * n + mark < 256 ^ markSize mark) :
    Reads (readVarint (left + 4)) n (toLittleEndian (markSize mark) (4 * n + mark)) := by
  intro s
  have hread := reads_readUint left hn s
  obtain ⟨size, hsize⟩ : ∃ size, markSize mark = size + 1 := by
    interval_cases mark <;> exact ⟨_, rfl⟩
  have hbuf : toLittleEndian (markSize mark) (4 * n + mark) ++ s.buf =
      UInt8.ofNat (4 * n + mark) :: (toLittleEndian size ((4 * n + mark) / 256) ++ s.buf) := by
    rw [hsize]
    rfl
  have hlow : (UInt8.ofNat (4 * n + mark)).toNat % 4 = mark := by
    rw [UInt8.toNat_ofNat']
    omega
  have hshift : (4 * n + mark) >>> 2 = n := by
    rw [Nat.shiftRight_eq_div_pow]
    omega
  rw [hbuf] at hread ⊢
  simp only [readVarint, guarded, hlow, hread, bind_eq_bind, bind_some, hshift]

lemma packVarint_reads {n : ℕ} (hn : n < sizeBound) :
    ∃ v, packVarint n = some v ∧ 1 ≤ v.length ∧ ∀ left, Reads (readVarint (left + 4)) n v := by
  have hor : ∀ mark < 4, n <<< 2 ||| mark = 4 * n + mark := by
    intro mark hmark
    rw [← Nat.shiftLeft_add_eq_or_of_lt (i := 2) hmark, Nat.shiftLeft_eq]
    omega
  have hmarked : ∀ mark < 4, 4 * n + mark < 256 ^ markSize mark →
      1 ≤ (toLittleEndian (markSize mark) (n <<< 2 ||| mark)).length ∧ ∀ left,
        Reads (readVarint (left + 4)) n (toLittleEndian (markSize mark) (n <<< 2 ||| mark)) := by
    intro mark hmark hlt
    rw [hor mark hmark, toLittleEndian_length]
    refine ⟨?_, fun left ↦ reads_marked left hmark hlt⟩
    interval_cases mark <;> decide
  rw [sizeBound] at hn
  rw [packVarint]
  split_ifs with h₀ h₁ h₂ h₃
  · exact ⟨_, rfl, hmarked 0 (by omega) (by simp [markSize]; omega)⟩
  · exact ⟨_, rfl, hmarked 1 (by omega) (by simp [markSize]; omega)⟩
  · exact ⟨_, rfl, hmarked 2 (by omega) (by simp [markSize]; omega)⟩
  · rw [← Nat.shiftRight_add, Nat.shiftRight_eq_div_pow] at h₃
    exact absurd (Nat.div_eq_of_lt hn) h₃
  · exact ⟨_, rfl, hmarked 3 (by omega) (by simp [markSize]; omega)⟩

lemma putString_reads (hs : s.length < maxStringLenPossible) :
    ∃ w, putString s = some w ∧ 1 ≤ w.length ∧ ∀ left, Reads (readString (left + 5)) s w := by
  have hbound : s.length < sizeBound := hs.trans (by decide)
  obtain ⟨v, hv, hlen, hread⟩ := packVarint_reads hbound
  refine ⟨v ++ s, by simp [putString, hv], by simp; omega, fun left ↦ ?_⟩
  have htake : Reads (fun st ↦ if maxStringLenPossible ≤ s.length then none
      else if st.buf.length < s.length then none
      else some (st.buf.take s.length, { st with buf := st.buf.drop s.length })) s s := by
    intro st
    simp [not_le.mpr hs]
  exact (hread left).bind (k := fun len st ↦ if maxStringLenPossible ≤ len then none
    else if st.buf.length < len then none
    else some (st.buf.take len, { st with buf := st.buf.drop len })) htake

lemma readSecName_reads (left : ℕ) {name : Bytes} (hpos : 1 ≤ name.length)
    (hlen : name.length ≤ 254) :
    Reads (readSecName (left + 3)) name (UInt8.ofNat name.length :: name) := by
  have hlt : name.length < 256 ^ 1 := by omega
  have hname : Reads (fun st ↦ if name.length = 0 then none
      else readBytes name.length (left + 2) st) name name := by
    simp only [Nat.ne_of_gt hpos, if_false]
    exact reads_readBytes (left + 1) name
  exact (reads_readUint left hlt).bind
    (k := fun n st ↦ if n = 0 then none else readBytes n (left + 2) st) hname

/-! ## Readers that ask for room -/

variable (lim) in
/-- In front of as many bytes as `room` asks for the reader takes `w`, returns `a` and
counts the given numbers of objects, fields and strings; in front of fewer it fails. -/
def ReadsWhen (read : ReadState → Option (α × ReadState)) (a : α) (w : Bytes) (room : ℕ → Prop)
    (o f t : ℕ) : Prop :=
  ∀ rest objects fields strings, objects + o ≤ lim.objects → fields + f ≤ lim.fields →
    strings + t ≤ lim.strings →
    (room rest.length → read ⟨w ++ rest, objects, fields, strings⟩ =
      some (a, ⟨rest, objects + o, fields + f, strings + t⟩)) ∧
    (¬ room rest.length → read ⟨w ++ rest, objects, fields, strings⟩ = none)

variable {room : ℕ → Prop}

lemma Reads.when {read : ReadState → Option (α × ReadState)} (h : Reads read a w) :
    ReadsWhen lim read a w (fun _ ↦ True) 0 0 0 :=
  fun rest objects fields strings _ _ _ ↦
    ⟨fun _ ↦ h ⟨rest, objects, fields, strings⟩, fun hno ↦ absurd trivial hno⟩

lemma ReadsWhen.congr {read : ReadState → Option (α × ReadState)} {room' : ℕ → Prop}
    (h : ReadsWhen lim read a w room o f t) (hroom : ∀ n, room n ↔ room' n) :
    ReadsWhen lim read a w room' o f t :=
  (funext fun n ↦ propext (hroom n) : room = room') ▸ h

lemma ReadsWhen.bind {β : Type} {read : ReadState → Option (α × ReadState)}
    {k : α → ReadState → Option (β × ReadState)} {b : β} {w' : Bytes} {room' : ℕ → Prop}
    {o' f' t' : ℕ} (h : ReadsWhen lim read a w room o f t)
    (hnext : ReadsWhen lim (k a) b w' room' o' f' t') :
    ReadsWhen lim (fun s ↦ (read s).bind fun p ↦ k p.1 p.2) b (w ++ w')
      (fun n ↦ room (w'.length + n) ∧ room' n) (o + o') (f + f') (t + t') := by
  intro rest objects fields strings ho hf ht
  obtain ⟨hfirst, hfails⟩ := h (w' ++ rest) objects fields strings (by omega) (by omega) (by omega)
  obtain ⟨hsecond, hfails'⟩ := hnext rest (objects + o) (fields + f) (strings + t) (by omega)
    (by omega) (by omega)
  rw [length_append] at hfirst hfails
  simp only [append_assoc, ← add_assoc]
  refine ⟨fun hroom ↦ by simp [hfirst hroom.1, hsecond hroom.2], fun hno ↦ ?_⟩
  by_cases hroom : room (w'.length + rest.length)
  · simp [hfirst hroom, hfails' fun hroom' ↦ hno ⟨hroom, hroom'⟩]
  · simp [hfails hroom]

lemma ReadsWhen.map {β : Type} {read : ReadState → Option (α × ReadState)}
    (h : ReadsWhen lim read a w room o f t) (g : α → β) :
    ReadsWhen lim (fun s ↦ (read s).map fun p ↦ (g p.1, p.2)) (g a) w room o f t := by
  intro rest objects fields strings ho hf ht
  obtain ⟨hread, hfails⟩ := h rest objects fields strings ho hf ht
  exact ⟨fun hroom ↦ by simp only [hread hroom, map_some], fun hno ↦ by simp [hfails hno]⟩

variable (lim) in
/-- The value is written, the bytes written pay for what the reader counts, and where
there is room a reader with `least` of the recursion limit left reads it back. -/
def RoundTrips (written : Option Bytes) (room : ℕ → Prop) (least : ℕ)
    (read : ℕ → ReadState → Option (α × ReadState)) (a : α) : Prop :=
  ∃ w o f t, written = some w ∧ (o < w.length ∧ f < w.length ∧ t < w.length) ∧
    ∀ left, least ≤ left → ReadsWhen lim (read left) a w room o f t

lemma RoundTrips.congr {room' : ℕ → Prop} (h : RoundTrips lim written room least read a)
    (hroom : ∀ n, room n ↔ room' n) : RoundTrips lim written room' least read a :=
  (funext fun n ↦ propext (hroom n) : room = room') ▸ h

/-! ## Arrays -/

variable {pack : α → Option Bytes} {rooms : α → ℕ → Prop} {minBytes : ℕ}

lemma roomyAll_true (rest : ℕ) (as : List α) : RoomyAll pack (fun _ _ ↦ True) rest as := by
  induction as with
  | nil => trivial
  | cons a as ih => exact ⟨trivial, ih⟩

lemma packAll_reads (as : List α)
    (h : ∀ a ∈ as, RoundTrips lim (pack a) (rooms a) least read a) :
    ∃ w o f t, packAll pack as = some w ∧
      (as.length + o ≤ w.length ∧ as.length + f ≤ w.length ∧ as.length + t ≤ w.length) ∧
      ∀ left, least ≤ left → ReadsWhen lim (readTimes (read left) as.length) as w
        (fun n ↦ RoomyAll pack rooms n as) o f t := by
  induction as with
  | nil =>
    refine ⟨[], 0, 0, 0, rfl, ⟨le_rfl, le_rfl, le_rfl⟩, ?_⟩
    intro left _ rest objects fields strings _ _ _
    exact ⟨fun _ ↦ rfl, fun hno ↦ absurd trivial hno⟩
  | cons a as ih =>
    obtain ⟨w, o, f, t, hw, ⟨ho, hf, ht⟩, hread⟩ := h a mem_cons_self
    obtain ⟨ws, os, fs, ts, hws, ⟨hos, hfs, hts⟩, hreads⟩ :=
      ih fun b hb ↦ h b (mem_cons_of_mem a hb)
    refine ⟨w ++ ws, o + os, f + fs, t + ts, by simp [packAll, hw, hws], ?_, ?_⟩
    · simp only [length_cons, length_append]
      omega
    · intro left hleft
      have hothers := (hreads left hleft).map (a :: ·)
      simp only [Option.map_eq_bind, Function.comp_def] at hothers
      refine ((hread left hleft).bind (k := fun a s ↦
        (readTimes (read left) as.length s).bind fun p ↦ some (a :: p.1, p.2)) hothers).congr ?_
      simp [RoomyAll, writtenLength, hws]

lemma packAll_some {f : α → Bytes} (as : List α) :
    packAll (fun a ↦ some (f a)) as = some (as.flatMap f) := by
  induction as with
  | nil => rfl
  | cons a as ih => simp [packAll, ih]

lemma length_packAll {f : α → Bytes} {size : ℕ} (hf : ∀ a, (f a).length = size) (as : List α) :
    as.length * size ≤ writtenLength (packAll (fun a ↦ some (f a)) as) := by
  simp [packAll_some, writtenLength, length_flatMap, hf]

lemma readAe_reads {count : ℕ → ReadState → Option ReadState}
    {read : ReadState → Option (α × ReadState)} {as : List α} {v : Bytes} (co ct : ℕ)
    (hcount : ∀ s : ReadState, s.objects + co ≤ lim.objects → s.strings + ct ≤ lim.strings →
      count as.length s = some { s with objects := s.objects + co, strings := s.strings + ct })
    (hpos : 0 < minBytes) (hv : Reads (readVarint left) as.length v)
    (hw : ReadsWhen lim (readTimes read as.length) as w room o f t) :
    ReadsWhen lim (readAe minBytes count left read) as (v ++ w)
      (fun n ↦ as.length * minBytes ≤ w.length + n ∧ room n) (co + o) f (ct + t) := by
  intro rest objects fields strings ho hf ht
  have hsize := hv ⟨w ++ rest, objects, fields, strings⟩
  obtain ⟨helements, hfails⟩ :=
    hw rest (objects + co) fields (strings + ct) (by omega) hf (by omega)
  have hlack : (w ++ rest).length / minBytes < as.length ↔
      ¬ as.length * minBytes ≤ w.length + rest.length := by
    rw [← not_le, Nat.le_div_iff_mul_le hpos, length_append]
  have hcounted := hcount ⟨w ++ rest, objects, fields, strings⟩ (by simp only; omega)
    (by simp only; omega)
  simp only [readAe, append_assoc, hsize, bind_eq_bind, bind_some, hlack, hcounted,
    ← add_assoc]
  refine ⟨fun hroom ↦ ?_, fun hno ↦ ?_⟩
  · rw [if_neg (not_not.mpr hroom.1), helements hroom.2]
  · split_ifs with hmin
    · exact hfails fun hroom ↦ hno ⟨hmin, hroom⟩
    · rfl

/-! ## The type byte -/

lemma code_plain (ty : EntryType) :
    ty.code &&& serializeFlagArray = 0 ∧ EntryType.ofCode? ty.code = some ty := by
  rcases ty with (_ | _ | _ | _ | _ | _ | _ | _ | _) | _ | _ | _ | _ <;> decide

lemma code_array (ty : EntryType) : (ty.code ||| serializeFlagArray) &&& serializeFlagArray ≠ 0 ∧
      EntryType.ofCode? ((ty.code ||| serializeFlagArray) &&& ~~~ serializeFlagArray) =
        some ty := by
  rcases ty with (_ | _ | _ | _ | _ | _ | _ | _ | _) | _ | _ | _ | _ <;> decide

lemma readUint8_cons (left : ℕ) (c : UInt8) (s : ReadState) :
    readUint8 (left + 2) { s with buf := c :: s.buf } = some (c, s) := reads_readUint8 left c s

lemma loadStorageEntry_plain (left : ℕ) (ty : EntryType) (s : ReadState) :
    loadStorageEntry lim (left + 3) { s with buf := ty.code :: s.buf } =
      match ty with
      | .pod t => (guarded (readPod t) (left + 2) s).map fun p ↦ (.pod t p.1, p.2)
      | .string => (readSeString lim (left + 2) s).map fun p ↦ (.string p.1, p.2)
      | .bool => (guarded readBool (left + 2) s).map fun p ↦ (.bool p.1, p.2)
      | .object => (readSeSection lim (left + 2) s).map fun p ↦ (.object p.1, p.2)
      | .array => (readSeArray lim (left + 2) s).map fun p ↦ (.array p.1, p.2) := by
  obtain ⟨hflag, hcode⟩ := code_plain ty
  rw [loadStorageEntry]
  simp only [readUint8_cons, bind_eq_bind, bind_some, hflag, ne_eq,
    not_true_eq_false, if_false, hcode]
  cases ty <;> rfl

lemma loadStorageEntry_array (left : ℕ) (ty : EntryType) (s : ReadState) :
    loadStorageEntry lim (left + 3) { s with buf := (ty.code ||| serializeFlagArray) :: s.buf } =
      (loadStorageArrayEntry lim (left + 2) (ty.code ||| serializeFlagArray) s).map
        fun p ↦ (.array p.1, p.2) := by
  rw [loadStorageEntry]
  simp only [readUint8_cons, bind_eq_bind, bind_some, ne_eq, (code_array ty).1,
    not_false_eq_true, if_true]

lemma roundTrips_array (count : ℕ → ReadState → Option ReadState) {ty : EntryType} {as : List α}
    {g : List α → ArrayEntry} (co ct : ℕ) (hlen : as.length < sizeBound) (hco : co ≤ as.length)
    (hct : ct ≤ as.length)
    (hcount : ∀ s : ReadState, s.objects + co ≤ lim.objects → s.strings + ct ≤ lim.strings →
      count as.length s = some { s with objects := s.objects + co, strings := s.strings + ct })
    (hpos : 0 < minBytes)
    (helements : ∀ x ∈ as, RoundTrips lim (pack x) (rooms x) least read x)
    (hload : ∀ left s, loadStorageArrayEntry lim (left + 2) (ty.code ||| serializeFlagArray) s =
      (readAe minBytes count left (read left) s).map fun p ↦ (g p.1, p.2)) :
    RoundTrips lim (packArrayOf ty as.length (packAll pack as))
      (fun n ↦ as.length * minBytes ≤ writtenLength (packAll pack as) + n ∧
        RoomyAll pack rooms n as) (max least 4 + 3) (loadStorageEntry lim) (.array (g as)) := by
  obtain ⟨w, o, f, t, hw, ⟨ho, hf, ht⟩, hread⟩ := packAll_reads as helements
  obtain ⟨v, hv, hvlen, hvread⟩ := packVarint_reads hlen
  refine ⟨(ty.code ||| serializeFlagArray) :: (v ++ w), co + o, f, ct + t,
    by simp [packArrayOf, hv, hw], ?_, ?_⟩
  · simp only [length_cons, length_append]
    omega
  · intro left hleft rest objects fields strings hobjects hfields hstrings
    obtain ⟨left, rfl⟩ : ∃ l, left = l + 4 + 3 := ⟨left - 7, by omega⟩
    have harray := ((readAe_reads co ct hcount hpos (hvread left) (hread (left + 4)
      (by omega))).map g).map StorageEntry.array rest objects fields strings hobjects hfields
        hstrings
    rw [cons_append, loadStorageEntry_array _ _ ⟨_, objects, fields, strings⟩, hload, hw]
    exact harray

lemma packSections_eq (ss : List Section) : packSections ss = packAll packSection ss := by
  induction ss with
  | nil => rw [packSections, packAll]
  | cons s ss ih => rw [packSections, packAll, ih]

lemma roomySections_iff (ss : List Section) (rest : ℕ) :
    RoomySections rest ss ↔ RoomyAll packSection (fun s n ↦ RoomySection n s) rest ss := by
  induction ss with
  | nil => rw [RoomySections, RoomyAll]
  | cons s ss ih => rw [RoomySections, RoomyAll, ih, packSections_eq]

lemma guarded_roundTrips (h : RoundTrips lim written room least read a) :
    RoundTrips lim written room (least + 1) (guarded read) a := by
  obtain ⟨w, o, f, t, hw, hpaid, hread⟩ := h
  refine ⟨w, o, f, t, hw, hpaid, ?_⟩
  intro left hleft
  obtain ⟨left, rfl⟩ : ∃ l, left = l + 1 := ⟨left - 1, by omega⟩
  exact hread left (by omega)

lemma putString_roundTrips (hs : s.length < maxStringLenPossible) :
    RoundTrips lim (putString s) (fun _ ↦ True) 5 readString s := by
  obtain ⟨w, hw, hlen, hread⟩ := putString_reads hs
  refine ⟨w, 0, 0, 0, hw, ⟨hlen, hlen, hlen⟩, ?_⟩
  intro left hleft
  obtain ⟨left, rfl⟩ := Nat.exists_eq_add_of_le' hleft
  exact (hread left).when

lemma packPod_length (t : PodType) (v : BitVec (8 * t.size)) :
    (packPod t v).length = t.size := toLittleEndian_length t.size v.toNat

lemma PodType.size_pos (t : PodType) : 0 < t.size := by
  cases t <;> decide

lemma packPod_roundTrips (t : PodType) (v : BitVec (8 * t.size)) :
    RoundTrips lim (some (packPod t v)) (fun _ ↦ True) 2 (readPod t) v := by
  have hlen : 0 < (packPod t v).length := by
    rw [packPod_length]
    exact t.size_pos
  refine ⟨_, 0, 0, 0, rfl, ⟨hlen, hlen, hlen⟩, ?_⟩
  intro left hleft
  obtain ⟨left, rfl⟩ := Nat.exists_eq_add_of_le' hleft
  exact (reads_readPod left t v).when

lemma packBool_roundTrips (b : Bool) :
    RoundTrips lim (some (packBool b)) (fun _ ↦ True) 2 readBool b := by
  refine ⟨_, 0, 0, 0, rfl, ⟨Nat.one_pos, Nat.one_pos, Nat.one_pos⟩, ?_⟩
  intro left hleft
  obtain ⟨left, rfl⟩ := Nat.exists_eq_add_of_le' hleft
  exact (reads_readBool left b).when

/-- An entry that is no array, from how its value is read; the type byte pays for one
object or string more. -/
theorem roundTrips_plain (ty : EntryType) {g : α → StorageEntry} {x : α}
    (hw : written = some w) (hpaid : o ≤ w.length ∧ f ≤ w.length ∧ t ≤ w.length)
    (hread : ∀ left, least ≤ left → ReadsWhen lim (read left) x w room o f t)
    (hload : ∀ left (s : ReadState), loadStorageEntry lim (left + 3)
      { s with buf := ty.code :: s.buf } = (read (left + 2) s).map fun p ↦ (g p.1, p.2)) :
    RoundTrips lim (written.map (ty.code :: ·)) room (max least 2 + 1) (loadStorageEntry lim)
      (g x) := by
  refine ⟨ty.code :: w, o, f, t, by rw [hw, map_some], ?_, ?_⟩
  · rw [length_cons]
    omega
  · intro left hleft rest objects fields strings ho hf ht
    obtain ⟨left, rfl⟩ : ∃ l, left = l + 3 := ⟨left - 3, by omega⟩
    rw [cons_append, hload _ ⟨_, objects, fields, strings⟩]
    exact (hread (left + 2) (by omega)).map g rest objects fields strings ho hf ht

lemma readSeString_reads (h : ReadsWhen lim (readString left) s w room o f t) :
    ReadsWhen lim (readSeString lim (left + 2)) s w room o f (1 + t) := by
  intro rest objects fields strings ho hf ht
  have hle : strings + 1 ≤ lim.strings := by omega
  have hread := h rest objects fields (strings + 1) ho hf (by omega)
  simpa only [readSeString, guarded, if_pos hle, add_assoc] using hread

lemma readSeSection_reads {s : Section} (h : ReadsWhen lim (readSection lim left) s w room o f t) :
    ReadsWhen lim (readSeSection lim (left + 1)) s w room (1 + o) f t := by
  intro rest objects fields strings ho hf ht
  have hlt : objects < lim.objects := by omega
  have hread := h rest (objects + 1) fields strings (by omega) hf ht
  simpa only [readSeSection, if_pos hlt, add_assoc] using hread

/-! ## Entries and sections -/

lemma RoundTrips.mono {least' : ℕ} (h : RoundTrips lim written room least read a)
    (hle : least ≤ least') : RoundTrips lim written room least' read a := by
  obtain ⟨w, o, f, t, hw, hpaid, hread⟩ := h
  exact ⟨w, o, f, t, hw, hpaid, fun left hleft ↦ hread left (hle.trans hleft)⟩

section

variable (hnested : ∀ s, nested s →
  RoundTrips lim (packSection s) (RoomySection · s) least (readSection lim) s)

include hnested

lemma packArray_roundTrips (a : ArrayEntry) (ha : ValidEntry nested (.array a)) :
    RoundTrips lim (packArray a) (RoomyArray · a) (max least 5 + 4) (loadStorageEntry lim)
      (.array a) := by
  cases a with
  | pods t vs =>
    rw [packArray, ← packAll_some]
    refine ((roundTrips_array (g := .pods t) (fun _ s ↦ some s) 0 0 ha (zero_le _) (zero_le _)
      (fun s _ _ ↦ rfl) t.size_pos (fun v _ ↦ guarded_roundTrips (packPod_roundTrips t v))
      fun left s ↦ ?_).mono (by omega)).congr fun n ↦ ?_
    · simp [loadStorageArrayEntry, (code_array (.pod t)).2, guarded]
    · rw [RoomyArray, iff_true]
      exact ⟨(length_packAll (packPod_length t) vs).trans (Nat.le_add_right _ _),
        roomyAll_true n vs⟩
  | bools bs =>
    rw [packArray, ← packAll_some]
    refine ((roundTrips_array (g := .bools) (fun _ s ↦ some s) 0 0 ha (zero_le _) (zero_le _)
      (fun s _ _ ↦ rfl) Nat.one_pos (fun b _ ↦ guarded_roundTrips (packBool_roundTrips b))
      fun left s ↦ ?_).mono (by omega)).congr fun n ↦ ?_
    · simp [loadStorageArrayEntry, (code_array .bool).2, guarded]
    · rw [RoomyArray, iff_true]
      exact ⟨(length_packAll (f := packBool) (fun _ ↦ rfl) bs).trans (Nat.le_add_right _ _),
        roomyAll_true n bs⟩
  | strings ss =>
    obtain ⟨hlen, hstrings⟩ := ha
    rw [packArray]
    refine ((roundTrips_array (g := .strings) (countStrings lim) 0 ss.length hlen (zero_le _)
      le_rfl (fun s _ hs ↦ ?_) Nat.two_pos
      (fun s hs ↦ guarded_roundTrips (putString_roundTrips (hstrings s hs)))
      fun left s ↦ ?_).mono (by omega)).congr fun n ↦ ?_
    · rw [countStrings, if_neg (by omega), add_zero]
    · simp [loadStorageArrayEntry, (code_array .string).2, guarded]
    · rw [RoomyArray]
      exact and_iff_left (roomyAll_true n ss)
  | objects ss =>
    obtain ⟨hlen, hsections⟩ := ha
    have helements : ∀ s ∈ ss, RoundTrips lim (packSection s) (RoomySection · s) (least + 1)
        (readValueSection lim) s := by
      have hguarded : readValueSection lim = guarded (readSection lim) := by
        funext left s
        cases left <;> rfl
      rw [hguarded]
      exact fun s hs ↦ guarded_roundTrips (hnested s (hsections s hs))
    have hmin : ss.length * 1 ≤ writtenLength (packAll packSection ss) := by
      obtain ⟨w, o, f, t, hw, ⟨ho, -, -⟩, -⟩ := packAll_reads ss helements
      rw [hw, writtenLength, map_some, Option.getD_some]
      omega
    rw [packArray, packSections_eq]
    refine ((roundTrips_array (g := .objects) (countObjects lim) ss.length 0 hlen le_rfl
      (zero_le _) (fun s hs _ ↦ ?_) Nat.one_pos helements fun left s ↦ ?_).mono
        (by omega)).congr fun n ↦ ?_
    · rw [countObjects, if_neg (by omega), add_zero]
    · simp only [loadStorageArrayEntry, (code_array .object).2, readAeSection]
    · rw [RoomyArray, roomySections_iff]
      exact and_iff_right (hmin.trans (Nat.le_add_right _ _))
  | arrays as => exact ha.elim

lemma packEntry_roundTrips (e : StorageEntry) (he : ValidEntry nested e) :
    RoundTrips lim (packEntry e) (RoomyEntry · e) (max least 5 + 4) (loadStorageEntry lim) e := by
  cases e with
  | pod t v =>
    obtain ⟨w, o, f, t', hw, hpaid, hread⟩ : RoundTrips lim _ _ _ _ v :=
      guarded_roundTrips (packPod_roundTrips t v)
    simp only [RoomyEntry]
    exact (roundTrips_plain (.pod t) (g := .pod t) hw (by omega) hread
      fun left ↦ loadStorageEntry_plain left (.pod t)).mono (by omega)
  | bool b =>
    obtain ⟨w, o, f, t, hw, hpaid, hread⟩ : RoundTrips lim _ _ _ _ b :=
      guarded_roundTrips (packBool_roundTrips b)
    simp only [RoomyEntry]
    exact (roundTrips_plain .bool (g := .bool) hw (by omega) hread
      fun left ↦ loadStorageEntry_plain left .bool).mono (by omega)
  | string s =>
    obtain ⟨w, o, f, t, hw, hpaid, hread⟩ : RoundTrips lim _ _ _ _ s := putString_roundTrips he
    simp only [RoomyEntry]
    have hse : ∀ left, 7 ≤ left →
        ReadsWhen lim (readSeString lim left) s w (fun _ ↦ True) o f (1 + t) := by
      intro left hleft
      obtain ⟨left, rfl⟩ : ∃ l, left = l + 2 := ⟨left - 2, by omega⟩
      exact readSeString_reads (hread left (by omega))
    exact (roundTrips_plain .string (g := .string) hw (by omega) hse
      fun left ↦ loadStorageEntry_plain left .string).mono (by omega)
  | object s =>
    obtain ⟨w, o, f, t, hw, hpaid, hread⟩ := hnested s he
    simp only [RoomyEntry]
    have hse : ∀ left, least + 1 ≤ left →
        ReadsWhen lim (readSeSection lim left) s w (RoomySection · s) (1 + o) f t := by
      intro left hleft
      obtain ⟨left, rfl⟩ : ∃ l, left = l + 1 := ⟨left - 1, by omega⟩
      exact readSeSection_reads (hread left (by omega))
    exact (roundTrips_plain .object (g := .object) hw (by omega) hse
      fun left ↦ loadStorageEntry_plain left .object).mono (by omega)
  | array a =>
    simp only [RoomyEntry]
    exact packArray_roundTrips hnested a he

end

lemma packEntries_reads (entries : List (Bytes × StorageEntry))
    (hnames : ∀ e ∈ entries, 1 ≤ e.1.length ∧ e.1.length ≤ 254)
    (hround : ∀ e ∈ entries,
      RoundTrips lim (packEntry e.2) (RoomyEntry · e.2) least (loadStorageEntry lim) e.2) :
    ∃ w o f t, packEntries entries = some w ∧
      (o ≤ w.length ∧ entries.length + f ≤ w.length ∧ t ≤ w.length) ∧
      ∀ left, max least 3 ≤ left → ∀ before : List (Bytes × StorageEntry),
        ((before ++ entries).Pairwise fun e f ↦ e.1 < f.1) →
        ReadsWhen lim
          (readEntries (readSecName left) (loadStorageEntry lim left) entries.length before)
          (.mk (before ++ entries)) w (RoomyEntries · entries) o f t := by
  induction entries with
  | nil =>
    refine ⟨[], 0, 0, 0, by rw [packEntries], ⟨le_rfl, le_rfl, le_rfl⟩, ?_⟩
    intro left _ before _ rest objects fields strings _ _ _
    simp only [append_nil, RoomyEntries]
    exact ⟨fun _ ↦ rfl, fun hno ↦ absurd trivial hno⟩
  | cons e entries ih =>
    obtain ⟨name, value⟩ := e
    obtain ⟨hpos, hlen⟩ := hnames _ mem_cons_self
    obtain ⟨w, o, f, t, hw, hpaid, hread⟩ := hround _ mem_cons_self
    obtain ⟨ws, os, fs, ts, hws, hpaids, hreads⟩ :=
      ih (fun e he ↦ hnames e (mem_cons_of_mem _ he)) (fun e he ↦ hround e (mem_cons_of_mem _ he))
    simp only at hpos hlen hw hread
    refine ⟨(UInt8.ofNat name.length :: name) ++ (w ++ ws), o + os, f + fs, t + ts, ?_, ?_, ?_⟩
    · have hlong : ¬ 255 ≤ name.length := by omega
      have hempty : ¬ name.isEmpty := by
        rw [isEmpty_iff_length_eq_zero]
        omega
      simp [packEntries, hlong, hempty, hw, hws]
    · simp only [length_cons, length_append]
      omega
    · intro left hleft before hsorted
      obtain ⟨left, rfl⟩ : ∃ l, left = l + 3 := ⟨left - 3, by omega⟩
      have hbelow : ∀ r ∈ before, r.1 < name := by
        intro r hr
        exact (pairwise_append.mp hsorted).2.2 r hr (name, value) mem_cons_self
      have hnew : name ∉ before.map Prod.fst := by
        rw [mem_map]
        rintro ⟨r, hr, rfl⟩
        exact (hbelow r hr).ne rfl
      have hsplit : before ++ (name, value) :: entries =
          (before ++ [(name, value)]) ++ entries := by
        simp
      rw [hsplit] at hsorted ⊢
      -- the name, the value, and the entries after it
      have hrest : ReadsWhen lim (fun s ↦ if name ∈ before.map Prod.fst then none
          else (loadStorageEntry lim (left + 3) s).bind fun p ↦ readEntries
            (readSecName (left + 3)) (loadStorageEntry lim (left + 3)) entries.length
            (Table.insertRow name p.1 before) p.2) (.mk (before ++ [(name, value)] ++ entries))
          (w ++ ws) (fun n ↦ RoomyEntry (ws.length + n) value ∧ RoomyEntries n entries)
          (o + os) (f + fs) (t + ts) := by
        simp only [if_neg hnew]
        refine (hread (left + 3) (by omega)).bind (k := fun e ↦ readEntries
          (readSecName (left + 3)) (loadStorageEntry lim (left + 3)) entries.length
          (Table.insertRow name e before)) ?_
        rw [Table.insertRow_eq_append value hbelow]
        exact hreads (left + 3) (by omega) _ hsorted
      have hall := (readSecName_reads left hpos hlen).when.bind (k := fun name s ↦
        if name ∈ before.map Prod.fst then none
        else (loadStorageEntry lim (left + 3) s).bind fun p ↦ readEntries
          (readSecName (left + 3)) (loadStorageEntry lim (left + 3)) entries.length
          (Table.insertRow name p.1 before) p.2) hrest
      simp only [Nat.zero_add, true_and] at hall
      exact hall.congr fun n ↦ by simp [RoomyEntries, writtenLength, hws]

lemma roundTrips_section
    (hnested : ∀ s, nested s →
      RoundTrips lim (packSection s) (RoomySection · s) least (readSection lim) s)
    {entries : List (Bytes × StorageEntry)} (hlen : entries.length < sizeBound)
    (hsorted : entries.Pairwise fun e f ↦ e.1 < f.1)
    (hentries : ∀ e ∈ entries, (1 ≤ e.1.length ∧ e.1.length ≤ 254) ∧ ValidEntry nested e.2) :
    RoundTrips lim (packSection (.mk entries)) (RoomySection · (.mk entries)) (max least 5 + 5)
      (readSection lim) (.mk entries) := by
  obtain ⟨v, hv, hvlen, hvread⟩ := packVarint_reads hlen
  obtain ⟨w, o, f, t, hw, hpaid, hread⟩ := packEntries_reads entries (fun e he ↦ (hentries e he).1)
    fun e he ↦ packEntry_roundTrips hnested e.2 (hentries e he).2
  refine ⟨v ++ w, o, entries.length + f, t, by simp [packSection, hv, hw], ?_, ?_⟩
  · rw [length_append]
    omega
  · intro left hleft rest objects fields strings ho hf ht
    obtain ⟨left, rfl⟩ : ∃ l, left = l + 5 := ⟨left - 5, by omega⟩
    have hcount := hvread left ⟨w ++ rest, objects, fields, strings⟩
    have hloop := hread (left + 4) (by omega) [] hsorted rest objects (fields + entries.length)
      strings ho (by omega) ht
    have hroom : ¬ lim.fields - fields < entries.length := by omega
    simpa [readSection, hcount, if_neg hroom, RoomySection, add_assoc] using hloop

/-- A level of nesting takes five of the recursion limit, the innermost section ten. -/
theorem packSection_roundTrips (depth : ℕ) (s : Section) (hs : ValidSection depth s) :
    RoundTrips lim (packSection s) (RoomySection · s) (5 * depth + 10) (readSection lim) s := by
  induction depth generalizing s with
  | zero =>
    obtain ⟨entries⟩ := s
    obtain ⟨hlen, hsorted, hentries⟩ := hs
    have hnone : ∀ s, False →
        RoundTrips lim (packSection s) (RoomySection · s) 5 (readSection lim) s :=
      fun _ hfalse ↦ hfalse.elim
    exact roundTrips_section hnone hlen hsorted hentries
  | succ depth ih =>
    obtain ⟨entries⟩ := s
    obtain ⟨hlen, hsorted, hentries⟩ := hs
    exact (roundTrips_section ih hlen hsorted hentries).mono (by omega)

end

/-- A tree with at most fifteen levels of sections below the root is read back as it
was stored, exactly when from the first string of each array of strings on there are two
bytes for each of them. -/
theorem loadFromBinary_storeToBinary {root : Section} (h : ValidSection 15 root) :
    ∃ blob, storeToBinary root = some blob ∧
      (blob.length < 2 ^ 64 →
        (loadFromBinary blob noLimits = some root ↔ RoomySection 0 root)) := by
  obtain ⟨w, o, f, t, hw, hpaid, hread⟩ : RoundTrips noLimits _ _ _ _ root :=
    packSection_roundTrips 15 root h
  refine ⟨storageBlockHeader ++ w, by rw [storeToBinary, hw, map_some], ?_⟩
  intro hsize
  have hheader : storageBlockHeader.length = 9 := rfl
  have hne : w ≠ [] := length_pos_iff.mp (by omega)
  rw [length_append] at hsize
  obtain ⟨hroot, hfails⟩ := hread recursionLimit (by decide) [] 0 0 0 (by simp [noLimits]; omega)
    (by simp [noLimits]; omega) (by simp [noLimits]; omega)
  rw [append_nil] at hroot hfails
  have htake : (storageBlockHeader ++ w).take 9 = storageBlockHeader := take_left' hheader
  have hdrop : (storageBlockHeader ++ w).drop 9 = w := drop_left' hheader
  have hlong : ¬ (storageBlockHeader ++ w).length < 9 := by
    rw [length_append]
    omega
  rw [loadFromBinary, if_neg hlong, htake, hdrop, if_neg (not_not.mpr rfl),
    if_neg (by rwa [List.isEmpty_iff])]
  refine ⟨fun hload ↦ ?_, fun hroom ↦ by rw [hroot hroom, map_some]⟩
  by_contra hno
  rw [hfails hno] at hload
  cases hload

def sampleTree : Section := .mk [([97], .pod .uint32 7), ([97, 98], .array (.objects
    [.mk [], .mk [([99], .array (.strings [[], [], []])), ([100], .bool true)]]))]

theorem loadFromBinary_storeToBinary_sample :
    ValidSection 15 sampleTree ∧ ∃ blob, storeToBinary sampleTree = some blob ∧
      loadFromBinary blob noLimits = some sampleTree := by
  have hless : ([99] : Bytes) < [100] := by decide
  have hvalid : ValidSection 15 sampleTree := by
    simp [sampleTree, ValidSection, ValidEntry, sizeBound, maxStringLenPossible, hless]
  have hroomy : RoomySection 0 sampleTree := by
    simp only [sampleTree, RoomySection, RoomyEntries, RoomyEntry, RoomyArray, RoomySections,
      true_and, and_true]
    decide +kernel
  have hlen : (storeToBinary sampleTree).map length = some 35 := by decide +kernel
  obtain ⟨blob, hstore, hload⟩ := loadFromBinary_storeToBinary hvalid
  rw [hstore, map_some, Option.some_inj] at hlen
  exact ⟨hvalid, blob, hstore, (hload (by omega)).mpr hroomy⟩

/-- The one string of the array takes one byte, and the reader asks for two. -/
theorem loadFromBinary_empty_string :
    ValidSection 15 (.mk [([97], .array (.strings [[]]))]) ∧
      ∃ blob, storeToBinary (.mk [([97], .array (.strings [[]]))]) = some blob ∧
        loadFromBinary blob noLimits = none := by
  refine ⟨?_, storageBlockHeader ++ [4, 1, 97, 0x8a, 4, 0], ?_, ?_⟩
  · simp [ValidSection, ValidEntry, sizeBound, maxStringLenPossible]
  · decide +kernel
  · exact Option.isNone_iff_eq_none.mp (by decide +kernel)

end Monero.Epee.PortableStorage
