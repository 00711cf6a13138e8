import Monero.Lib.Codec

/-!
# Prefixes and canonical forms of words

Words are strings of bytes that are read as UTF-8.  The bit operations of the
source are on disjoint bits and are written as arithmetic.
-/

namespace Monero.Mnemonics

open List

abbrev Word := List UInt8

/-- The byte `10xxxxxx` goes on with a character. -/
def isContinuation (c : UInt8) : Bool := 0x80 ≤ c.toNat ∧ c.toNat < 0xc0

/-- The first `count` characters. -/
def utf8Prefix : Word → ℕ → Word
  | _, 0 => []
  | [], _ + 1 => []
  | c :: s, count + 1 =>
    c :: (s.takeWhile isContinuation ++ utf8Prefix (s.dropWhile isContinuation) count)

/-- The bytes of a code point, unless it is above `0x10ffff`. -/
def encodePoint (cp : ℕ) : Option Word :=
  if cp ≤ 0x7f then some [UInt8.ofNat cp]
  else if cp ≤ 0x7ff then some [UInt8.ofNat (0xc0 + cp / 64), UInt8.ofNat (0x80 + cp % 64)]
  else if cp ≤ 0xffff then
    some [UInt8.ofNat (0xe0 + cp / 4096), UInt8.ofNat (0x80 + cp / 64 % 64),
      UInt8.ofNat (0x80 + cp % 64)]
  else if cp ≤ 0x10ffff then
    some [UInt8.ofNat (0xf0 + cp / 262144), UInt8.ofNat (0x80 + cp / 4096 % 64),
      UInt8.ofNat (0x80 + cp / 64 % 64), UInt8.ofNat (0x80 + cp % 64)]
  else none

/-- `none` stands for the exception "Invalid UTF-8".  The bytes after the first one of a
character are not checked to be continuation bytes. -/
def utf8Canonical (t : ℕ → ℕ) : Word → Option Word
  | [] => some []
  | c :: s =>
    if c.toNat < 0x80 then do
      let e ← encodePoint (t c.toNat)
      let r ← utf8Canonical t s
      some (e ++ r)
    else if 0xc0 ≤ c.toNat ∧ c.toNat < 0xe0 then
      match s with
      | b₁ :: s => do
        let e ← encodePoint (t (c.toNat % 32 * 64 + b₁.toNat % 64))
        let r ← utf8Canonical t s
        some (e ++ r)
      | _ => none
    else if 0xe0 ≤ c.toNat ∧ c.toNat < 0xf0 then
      match s with
      | b₁ :: b₂ :: s => do
        let e ← encodePoint (t (c.toNat % 16 * 4096 + b₁.toNat % 64 * 64 + b₂.toNat % 64))
        let r ← utf8Canonical t s
        some (e ++ r)
      | _ => none
    else if 0xf0 ≤ c.toNat ∧ c.toNat < 0xf8 then
      match s with
      | b₁ :: b₂ :: b₃ :: s => do
        let e ← encodePoint (t (c.toNat % 8 * 262144 + b₁.toNat % 64 * 4096 + b₂.toNat % 64 * 64 +
          b₃.toNat % 64))
        let r ← utf8Canonical t s
        some (e ++ r)
      | _ => none
    else none

/-! ## Well-formed words -/

/-- How many continuation bytes follow a first byte. -/
def continuations (c : UInt8) : Option ℕ :=
  if c.toNat < 0x80 then some 0
  else if 0xc0 ≤ c.toNat ∧ c.toNat < 0xe0 then some 1
  else if 0xe0 ≤ c.toNat ∧ c.toNat < 0xf0 then some 2
  else if 0xf0 ≤ c.toNat ∧ c.toNat < 0xf8 then some 3
  else none

/-- One character after the other, each with its continuation bytes. -/
inductive WellFormed : Word → Prop
  | nil : WellFormed []
  | cons {c : UInt8} {cs s : Word} (hlead : continuations c = some cs.length)
      (hcs : ∀ b ∈ cs, isContinuation b) (hs : WellFormed s) : WellFormed (c :: (cs ++ s))

lemma not_isContinuation_of_lead {c : UInt8} {k : ℕ} (h : continuations c = some k) :
    ¬ isContinuation c := by
  simp only [isContinuation, decide_eq_true_eq]
  simp only [continuations] at h
  split_ifs at h <;> omega

lemma WellFormed.takeWhile_eq_nil {s : Word} (h : WellFormed s) :
    s.takeWhile isContinuation = [] := by
  cases h with
  | nil => rfl
  | cons hlead _ _ => rw [takeWhile_cons_of_neg (not_isContinuation_of_lead hlead)]

lemma WellFormed.dropWhile_eq_self {s : Word} (h : WellFormed s) :
    s.dropWhile isContinuation = s := by
  have hsplit := takeWhile_append_dropWhile (p := isContinuation) (l := s)
  rwa [h.takeWhile_eq_nil, nil_append] at hsplit

lemma utf8Prefix_character {c : UInt8} {cs s : Word} (hcs : ∀ b ∈ cs, isContinuation b)
    (hs : WellFormed s) (count : ℕ) :
    utf8Prefix (c :: (cs ++ s)) (count + 1) = c :: (cs ++ utf8Prefix s count) := by
  rw [utf8Prefix, takeWhile_append_of_pos hcs, dropWhile_append_of_pos hcs,
    hs.takeWhile_eq_nil, hs.dropWhile_eq_self, append_nil]

lemma utf8Prefix_of_length_le (s : Word) {count : ℕ} (h : s.length ≤ count) :
    utf8Prefix s count = s := by
  induction count generalizing s with
  | zero =>
    rw [length_eq_zero_iff.mp (Nat.le_zero.mp h), utf8Prefix]
  | succ count ih =>
    cases s with
    | nil => rfl
    | cons c s =>
      have hle : (s.dropWhile isContinuation).length ≤ count :=
        (dropWhile_suffix _).length_le.trans (Nat.le_of_succ_le_succ h)
      rw [utf8Prefix, ih _ hle, takeWhile_append_dropWhile]

def codePoint (c : UInt8) : Word → ℕ
  | [] => c.toNat
  | [b₁] => c.toNat % 32 * 64 + b₁.toNat % 64
  | [b₁, b₂] => c.toNat % 16 * 4096 + b₁.toNat % 64 * 64 + b₂.toNat % 64
  | [b₁, b₂, b₃] =>
    c.toNat % 8 * 262144 + b₁.toNat % 64 * 4096 + b₂.toNat % 64 * 64 + b₃.toNat % 64
  | _ => 0

lemma utf8Canonical_character (t : ℕ → ℕ) {c : UInt8} {cs : Word}
    (hlead : continuations c = some cs.length) (s : Word) :
    utf8Canonical t (c :: (cs ++ s)) = (do
      let e ← encodePoint (t (codePoint c cs))
      let r ← utf8Canonical t s
      some (e ++ r)) := by
  rw [continuations] at hlead
  split_ifs at hlead with h₀ h₁ h₂ h₃
  · have hcs : cs = [] := length_eq_zero_iff.mp (Option.some.inj hlead).symm
    rw [hcs, nil_append, utf8Canonical.eq_def]
    simp [if_pos h₀, codePoint]
  · obtain ⟨b₁, rfl⟩ := length_eq_one_iff.mp (Option.some.inj hlead).symm
    simp [utf8Canonical, if_neg h₀, if_pos h₁, codePoint]
  · obtain ⟨b₁, b₂, rfl⟩ := length_eq_two.mp (Option.some.inj hlead).symm
    simp [utf8Canonical, if_neg h₀, if_neg h₁, if_pos h₂, codePoint]
  · obtain ⟨b₁, b₂, b₃, rfl⟩ := length_eq_three.mp (Option.some.inj hlead).symm
    simp [utf8Canonical, if_neg h₀, if_neg h₁, if_neg h₂, if_pos h₃, codePoint]

lemma toNat_ofNat_byte {n : ℕ} (hn : n < 256) : (UInt8.ofNat n).toNat = n := by
  rw [UInt8.toNat_ofNat']
  exact Nat.mod_eq_of_lt hn

lemma encodePoint_character {cp : ℕ} {e : Word} (h : encodePoint cp = some e) :
    ∃ c cs, e = c :: cs ∧ continuations c = some cs.length ∧ ∀ b ∈ cs, isContinuation b := by
  have hnext : ∀ n, isContinuation (UInt8.ofNat (0x80 + n % 64)) := by
    intro n
    simp only [isContinuation, decide_eq_true_eq]
    rw [toNat_ofNat_byte (by omega)]
    omega
  rw [encodePoint] at h
  split_ifs at h with h₀ h₁ h₂ h₃
  · cases h
    refine ⟨_, _, rfl, ?_, by simp⟩
    rw [continuations, toNat_ofNat_byte (by omega), if_pos (by omega)]
    rfl
  · cases h
    refine ⟨_, _, rfl, ?_, forall_mem_singleton.mpr (hnext _)⟩
    rw [continuations, toNat_ofNat_byte (by omega), if_neg (by omega), if_pos (by omega)]
    rfl
  · cases h
    refine ⟨_, _, rfl, ?_, forall_mem_cons.mpr ⟨hnext _, forall_mem_singleton.mpr (hnext _)⟩⟩
    rw [continuations, toNat_ofNat_byte (by omega), if_neg (by omega), if_neg (by omega),
      if_pos (by omega)]
    rfl
  · cases h
    refine ⟨_, _, rfl, ?_, forall_mem_cons.mpr ⟨hnext _, forall_mem_cons.mpr
      ⟨hnext _, forall_mem_singleton.mpr (hnext _)⟩⟩⟩
    rw [continuations, toNat_ofNat_byte (by omega), if_neg (by omega), if_neg (by omega),
      if_neg (by omega), if_pos (by omega)]
    rfl

lemma codePoint_of_encode {cp : ℕ} {c : UInt8} {cs : Word} (h : encodePoint cp = some (c :: cs)) :
    codePoint c cs = cp := by
  rw [encodePoint] at h
  split_ifs at h with h₀ h₁ h₂ h₃
  · cases h
    exact toNat_ofNat_byte (by omega)
  · cases h
    rw [codePoint, toNat_ofNat_byte (by omega), toNat_ofNat_byte (by omega)]
    omega
  · cases h
    rw [codePoint, toNat_ofNat_byte (by omega), toNat_ofNat_byte (by omega),
      toNat_ofNat_byte (by omega)]
    omega
  · cases h
    rw [codePoint, toNat_ofNat_byte (by omega), toNat_ofNat_byte (by omega),
      toNat_ofNat_byte (by omega), toNat_ofNat_byte (by omega)]
    omega

lemma WellFormed.canonical_prefix_eq {t : ℕ → ℕ} {s r : Word} (hs : WellFormed s)
    (hr : utf8Canonical t s = some r) :
    WellFormed r ∧ ∀ count, utf8Canonical t (utf8Prefix s count) = some (utf8Prefix r count) := by
  induction hs generalizing r with
  | nil =>
    cases hr
    refine ⟨.nil, fun count ↦ ?_⟩
    cases count <;> rfl
  | cons hlead hcs hs ih =>
    rename_i c cs s
    rw [utf8Canonical_character t hlead] at hr
    obtain ⟨e, he, hr⟩ := Option.bind_eq_some_iff.mp hr
    obtain ⟨r', hr', hr⟩ := Option.bind_eq_some_iff.mp hr
    cases hr
    obtain ⟨hwell, hprefixes⟩ := ih hr'
    obtain ⟨d, ds, rfl, hlead', hds⟩ := encodePoint_character he
    refine ⟨.cons hlead' hds hwell, fun count ↦ ?_⟩
    cases count with
    | zero => rfl
    | succ count =>
      rw [utf8Prefix_character hcs hs, utf8Canonical_character t hlead, he, hprefixes count,
        cons_append, utf8Prefix_character hds hwell]
      rfl

end Monero.Mnemonics
