import Mathlib

/-!
# Readers and writers of byte strings

A codec is a reader of a value from the front of a byte string together with
a writer.  `Lawful` says that the two agree wherever the reader stops before
the end of the input; a reader may be more lenient at the very end, where it
cannot look at another byte.  `Exact` says that they agree there as well, and
a lawful codec followed by an exact one that writes at least one byte is exact.
-/

namespace Monero.Lib

open List Option

structure Codec (α : Type*) where
  read : List UInt8 → Option (α × List UInt8)
  write : α → Option (List UInt8)

namespace Codec

variable {α β : Type*} {c : Codec α} {P : α → Prop} {Q : β → Prop}

/-- Every value with `P` is written, and read back whatever follows; what is
read in front of further input has `P` and is what the writer writes. -/
structure Lawful (c : Codec α) (P : α → Prop) : Prop where
  read_write : ∀ a, P a → ∃ w, c.write a = some w ∧ ∀ rest, c.read (w ++ rest) = some (a, rest)
  write_read : ∀ b a rest, c.read b = some (a, rest) → rest ≠ [] →
    P a ∧ ∃ w, c.write a = some w ∧ b = w ++ rest

/-- The reader is strict at the end of the input too. -/
structure Exact (c : Codec α) (P : α → Prop) : Prop extends Lawful c P where
  read_end : ∀ b a, c.read b = some (a, []) → P a ∧ c.write a = some b

/-- The writer writes at least one byte. -/
def Productive (c : Codec α) : Prop := ∀ a w, c.write a = some w → w ≠ []

variable {b rest w : List UInt8} {a : α} {n bits shift : ℕ} {l : List α} {P' : α → Prop}

lemma Exact.write_read_any (h : c.Exact P)
    (hread : c.read b = some (a, rest)) : P a ∧ ∃ w, c.write a = some w ∧ b = w ++ rest := by
  by_cases hrest : rest = []
  · subst hrest
    obtain ⟨hP, hwrite⟩ := h.read_end b a hread
    exact ⟨hP, b, hwrite, (append_nil b).symm⟩
  · exact h.write_read b a rest hread hrest

lemma Exact.of_write_read
    (hread : ∀ a, P a → ∃ w, c.write a = some w ∧ ∀ rest, c.read (w ++ rest) = some (a, rest))
    (hwrite : ∀ b a rest, c.read b = some (a, rest) →
      P a ∧ ∃ w, c.write a = some w ∧ b = w ++ rest) :
    c.Exact P where
  read_write := hread
  write_read b a rest h _ := hwrite b a rest h
  read_end b a h := by
    obtain ⟨hP, w, hw, rfl⟩ := hwrite b a [] h
    rw [append_nil]
    exact ⟨hP, hw⟩

lemma Lawful.append_inj (h : c.Lawful P) {a' : α} {w' rest' : List UInt8} (ha : P a) (ha' : P a')
    (hw : c.write a = some w) (hw' : c.write a' = some w') (heq : w ++ rest = w' ++ rest') :
    a = a' ∧ rest = rest' := by
  obtain ⟨v, hv, hread⟩ := h.read_write a ha
  obtain ⟨v', hv', hread'⟩ := h.read_write a' ha'
  cases hw.symm.trans hv
  cases hw'.symm.trans hv'
  have hsame := (hread rest).symm.trans (heq ▸ hread' rest')
  exact Prod.mk.inj (Option.some_inj.mp hsame)

/-- The input is one value. -/
def readAll (c : Codec α) (b : List UInt8) : Option α :=
  (c.read b).bind fun p ↦ if p.2.isEmpty then some p.1 else none

lemma readAll_eq_some : c.readAll b = some a ↔ c.read b = some (a, []) := by
  rw [readAll, bind_eq_some_iff]
  constructor
  · rintro ⟨⟨a', rest⟩, hread, hrest⟩
    simp only [List.isEmpty_iff] at hrest
    split_ifs at hrest with hnil
    cases hrest
    rw [hread, hnil]
  · intro hread
    exact ⟨(a, []), hread, rfl⟩

/-! ## Sequencing -/

/-- One value after the other, the codec of the second depending on the first. -/
def bind (c : Codec α) (d : α → Codec β) : Codec (α × β) where
  read b := (c.read b).bind fun p ↦ ((d p.1).read p.2).map fun q ↦ ((p.1, q.1), q.2)
  write p := (c.write p.1).bind fun w ↦ ((d p.1).write p.2).map (w ++ ·)

def seq (c : Codec α) (d : Codec β) : Codec (α × β) := c.bind fun _ ↦ d

section Bind

variable {d : α → Codec β} {R : α → β → Prop} {p : α × β}

lemma bind_read_eq_some : (c.bind d).read b = some (p, rest) ↔
      ∃ r, c.read b = some (p.1, r) ∧ (d p.1).read r = some (p.2, rest) := by
  simp only [bind, bind_eq_some_iff, map_eq_some_iff, Prod.exists]
  constructor
  · rintro ⟨a, r, hc, x, rest', hd, heq⟩
    cases heq
    exact ⟨r, hc, hd⟩
  · rintro ⟨r, hc, hd⟩
    exact ⟨p.1, r, hc, p.2, rest, hd, rfl⟩

lemma bind_write_eq_some : (c.bind d).write p = some w ↔
      ∃ v u, c.write p.1 = some v ∧ (d p.1).write p.2 = some u ∧ w = v ++ u := by
  simp only [bind, bind_eq_some_iff, map_eq_some_iff]
  constructor
  · rintro ⟨v, hv, u, hu, rfl⟩
    exact ⟨v, u, hv, hu, rfl⟩
  · rintro ⟨v, u, hv, hu, rfl⟩
    exact ⟨v, hv, u, hu, rfl⟩

lemma Lawful.bind_read_write (hc : c.Lawful P) (hd : ∀ a, (d a).Lawful (R a)) (p : α × β)
    (hp : P p.1 ∧ R p.1 p.2) :
    ∃ w, (c.bind d).write p = some w ∧ ∀ rest, (c.bind d).read (w ++ rest) = some (p, rest) := by
  obtain ⟨v, hv, hread⟩ := hc.read_write p.1 hp.1
  obtain ⟨u, hu, hread'⟩ := (hd p.1).read_write p.2 hp.2
  refine ⟨v ++ u, bind_write_eq_some.mpr ⟨v, u, hv, hu, rfl⟩, fun rest ↦ ?_⟩
  apply bind_read_eq_some.mpr
  rw [append_assoc]
  exact ⟨u ++ rest, hread _, hread' rest⟩

lemma bind_write_append {r : List UInt8} (hc : P p.1 ∧ ∃ v, c.write p.1 = some v ∧ b = v ++ r)
    (hd : R p.1 p.2 ∧ ∃ u, (d p.1).write p.2 = some u ∧ r = u ++ rest) :
    (P p.1 ∧ R p.1 p.2) ∧ ∃ w, (c.bind d).write p = some w ∧ b = w ++ rest := by
  obtain ⟨hP, v, hv, hb⟩ := hc
  obtain ⟨hR, u, hu, hr⟩ := hd
  refine ⟨⟨hP, hR⟩, v ++ u, bind_write_eq_some.mpr ⟨v, u, hv, hu, rfl⟩, ?_⟩
  rw [hb, hr, append_assoc]

protected theorem Lawful.bind (hc : c.Lawful P) (hd : ∀ a, (d a).Lawful (R a)) :
    (c.bind d).Lawful fun p ↦ P p.1 ∧ R p.1 p.2 where
  read_write := hc.bind_read_write hd
  write_read b p rest hread hrest := by
    obtain ⟨r, hr, hr'⟩ := bind_read_eq_some.mp hread
    have hsecond := (hd p.1).write_read r p.2 rest hr' hrest
    refine bind_write_append (hc.write_read b p.1 r hr ?_) hsecond
    obtain ⟨-, u, -, rfl⟩ := hsecond
    simp [hrest]

/-- At the end of the input it is enough that the second codec is strict and
writes something, for the first value at hand. -/
theorem Lawful.bind_read_end (hc : c.Lawful P) (hd : (d p.1).Exact (R p.1))
    (hprod : (d p.1).Productive) (hread : (c.bind d).read b = some (p, [])) :
    (P p.1 ∧ R p.1 p.2) ∧ (c.bind d).write p = some b := by
  obtain ⟨r, hr, hr'⟩ := bind_read_eq_some.mp hread
  obtain ⟨hR, hu⟩ := hd.read_end r p.2 hr'
  obtain ⟨hp, w, hw, hb⟩ := bind_write_append (hc.write_read b p.1 r hr (hprod _ _ hu))
    ⟨hR, r, hu, (append_nil r).symm⟩
  rw [append_nil] at hb
  subst hb
  exact ⟨hp, hw⟩

lemma Lawful.bind_exact (hc : c.Lawful P) (hd : ∀ a, (d a).Exact (R a))
    (hprod : ∀ a, (d a).Productive) : (c.bind d).Exact fun p ↦ P p.1 ∧ R p.1 p.2 where
  toLawful := hc.bind fun a ↦ (hd a).toLawful
  read_end _ p hread := hc.bind_read_end (hd p.1) (hprod p.1) hread

lemma Exact.bind_write_read (hc : c.Exact P)
    (hd : (d p.1).Exact (R p.1)) (hread : (c.bind d).read b = some (p, rest)) :
    (P p.1 ∧ R p.1 p.2) ∧ ∃ w, (c.bind d).write p = some w ∧ b = w ++ rest := by
  obtain ⟨r, hr, hr'⟩ := bind_read_eq_some.mp hread
  exact bind_write_append (hc.write_read_any hr) (hd.write_read_any hr')

protected theorem Exact.bind (hc : c.Exact P) (hd : ∀ a, (d a).Exact (R a)) :
    (c.bind d).Exact fun p ↦ P p.1 ∧ R p.1 p.2 :=
  Exact.of_write_read (hc.bind_read_write fun a ↦ (hd a).toLawful)
    fun _ p _ hread ↦ hc.bind_write_read (hd p.1) hread

lemma Productive.bind_left (hc : c.Productive) (d : α → Codec β) : (c.bind d).Productive := by
  intro p w hw
  obtain ⟨v, u, hv, -, rfl⟩ := bind_write_eq_some.mp hw
  simp [hc _ _ hv]

lemma Productive.bind_right (c : Codec α) (hd : ∀ a, (d a).Productive) :
    (c.bind d).Productive := by
  intro p w hw
  obtain ⟨v, u, -, hu, rfl⟩ := bind_write_eq_some.mp hw
  simp [hd _ _ _ hu]

end Bind

section Seq

variable {d : Codec β}

protected theorem Lawful.seq (hc : c.Lawful P) (hd : d.Lawful Q) :
    (c.seq d).Lawful fun p ↦ P p.1 ∧ Q p.2 := hc.bind fun _ ↦ hd

lemma Lawful.seq_exact (hc : c.Lawful P) (hd : d.Exact Q) (hprod : d.Productive) :
    (c.seq d).Exact fun p ↦ P p.1 ∧ Q p.2 := hc.bind_exact (fun _ ↦ hd) fun _ ↦ hprod

protected theorem Exact.seq (hc : c.Exact P) (hd : d.Exact Q) :
    (c.seq d).Exact fun p ↦ P p.1 ∧ Q p.2 := hc.bind fun _ ↦ hd

end Seq

/-! ## Changing the type, and checks -/

/-- `f` builds a value from what is read, and `g` says what is written for it,
`none` where the writer fails. -/
def map (c : Codec α) (f : α → β) (g : β → Option α) : Codec β where
  read b := (c.read b).map fun p ↦ (f p.1, p.2)
  write x := (g x).bind c.write

structure Inverse (f : α → β) (g : β → Option α) (P : α → Prop) (Q : β → Prop) : Prop where
  of_view : ∀ x, Q x → ∃ a, g x = some a ∧ P a ∧ f a = x
  view : ∀ a, P a → Q (f a) ∧ g (f a) = some a

section Map

variable {f : α → β} {g : β → Option α}

lemma map_read_eq_some {x : β} :
    (c.map f g).read b = some (x, rest) ↔ ∃ a, c.read b = some (a, rest) ∧ f a = x := by
  simp only [map, map_eq_some_iff, Prod.exists, Prod.mk.injEq]
  constructor
  · rintro ⟨a, rest', hread, rfl, rfl⟩
    exact ⟨a, hread, rfl⟩
  · rintro ⟨a, hread, rfl⟩
    exact ⟨a, rest, hread, rfl, rfl⟩

lemma map_write_of_view {x : β} (hg : g x = some a) : (c.map f g).write x = c.write a := by
  simp [map, hg]

lemma map_some_write (f : α → β) (view : β → α) (x : β) :
    (c.map f fun x ↦ some (view x)).write x = c.write (view x) := rfl

/-- The alternative of a tag: every value with the tag comes from it. -/
lemma Inverse.of_tag {tag : β → UInt8} {t : UInt8} (hQ : ∀ a, Q (f a) ↔ P a)
    (hall : ∀ x, tag x = t → ∃ a, f a = x)
    (hf : ∀ a, tag (f a) = t ∧ g (f a) = some a := by exact fun _ ↦ ⟨rfl, rfl⟩) :
    Inverse f g P fun x ↦ Q x ∧ tag x = t where
  of_view x hx := by
    obtain ⟨a, rfl⟩ := hall x hx.2
    exact ⟨a, (hf a).2, (hQ a).mp hx.1, rfl⟩
  view a ha := ⟨⟨(hQ a).mpr ha, (hf a).1⟩, (hf a).2⟩

lemma Inverse.map_write (h : Inverse f g P Q) (c : Codec α) (ha : P a) :
    (c.map f g).write (f a) = c.write a := map_write_of_view (h.view a ha).2

protected theorem Lawful.map (hc : c.Lawful P) (h : Inverse f g P Q) : (c.map f g).Lawful Q where
  read_write x hx := by
    obtain ⟨a, hg, ha, rfl⟩ := h.of_view x hx
    obtain ⟨w, hw, hread⟩ := hc.read_write a ha
    refine ⟨w, ?_, fun rest ↦ map_read_eq_some.mpr ⟨a, hread rest, rfl⟩⟩
    rw [map_write_of_view hg, hw]
  write_read b x rest hread hrest := by
    obtain ⟨a, ha, rfl⟩ := map_read_eq_some.mp hread
    obtain ⟨hP, w, hw, hb⟩ := hc.write_read b a rest ha hrest
    exact ⟨(h.view a hP).1, w, (h.map_write c hP).trans hw, hb⟩

protected theorem Exact.map (hc : c.Exact P) (h : Inverse f g P Q) : (c.map f g).Exact Q where
  toLawful := hc.toLawful.map h
  read_end b x hread := by
    obtain ⟨a, ha, rfl⟩ := map_read_eq_some.mp hread
    obtain ⟨hP, hw⟩ := hc.read_end b a ha
    exact ⟨(h.view a hP).1, (h.map_write c hP).trans hw⟩

protected theorem Productive.map (hc : c.Productive) (f : α → β) (g : β → Option α) :
    (c.map f g).Productive := by
  intro x w hw
  obtain ⟨a, -, ha⟩ := Option.bind_eq_some_iff.mp hw
  exact hc a w ha

end Map

/-- Fails, in both directions, on values without `p`. -/
def guard (c : Codec α) (p : α → Bool) : Codec α where
  read b := (c.read b).filter fun q ↦ p q.1
  write a := if p a then c.write a else none

section Guard

variable {p : α → Bool}

lemma guard_read_eq_some :
    (c.guard p).read b = some (a, rest) ↔ c.read b = some (a, rest) ∧ p a = true := by
  simp [guard, filter_eq_some_iff]

lemma guard_write (ha : p a = true) : (c.guard p).write a = c.write a := if_pos ha

protected theorem Lawful.guard (hc : c.Lawful P) (p : α → Bool) :
    (c.guard p).Lawful fun a ↦ P a ∧ p a = true where
  read_write a ha := by
    obtain ⟨w, hw, hread⟩ := hc.read_write a ha.1
    exact ⟨w, (guard_write ha.2).trans hw, fun rest ↦ guard_read_eq_some.mpr ⟨hread rest, ha.2⟩⟩
  write_read b a rest hread hrest := by
    obtain ⟨hread, hp⟩ := guard_read_eq_some.mp hread
    obtain ⟨hP, w, hw, hb⟩ := hc.write_read b a rest hread hrest
    exact ⟨⟨hP, hp⟩, w, (guard_write hp).trans hw, hb⟩

protected theorem Exact.guard (hc : c.Exact P) (p : α → Bool) :
    (c.guard p).Exact fun a ↦ P a ∧ p a = true where
  toLawful := hc.toLawful.guard p
  read_end b a hread := by
    obtain ⟨hread, hp⟩ := guard_read_eq_some.mp hread
    obtain ⟨hP, hw⟩ := hc.read_end b a hread
    exact ⟨⟨hP, hp⟩, (guard_write hp).trans hw⟩

end Guard

lemma Lawful.congr (hc : c.Lawful P) (h : ∀ a, P a ↔ P' a) : c.Lawful P' := by
  rwa [← funext fun a ↦ propext (h a)]

lemma Exact.congr (hc : c.Exact P) (h : ∀ a, P a ↔ P' a) : c.Exact P' := by
  rwa [← funext fun a ↦ propext (h a)]

def pure (a : α) : Codec α where
  read b := some (a, b)
  write _ := some []

lemma pure_exact (a : α) : (pure a).Exact (· = a) := by
  apply Exact.of_write_read
  · rintro _ rfl
    exact ⟨[], rfl, fun _ ↦ rfl⟩
  · intro b a' rest hread
    cases hread
    exact ⟨rfl, [], rfl, rfl⟩

def fail : Codec α where
  read _ := none
  write _ := none

lemma fail_exact : (fail : Codec α).Exact fun _ ↦ False := by
  apply Exact.of_write_read
  · intro a ha
    exact ha.elim
  · intro b a rest hread
    cases hread

lemma fail_productive : (fail : Codec α).Productive := by
  intro a w hw
  cases hw

/-! ## Lists -/

/-- As many values as the length says, which is not written. -/
def list (c : Codec α) : ℕ → Codec (List α)
  | 0 => (pure ()).map (fun _ ↦ []) fun l ↦ if l.isEmpty then some () else none
  | n + 1 =>
    (c.seq (c.list n)).map (fun p ↦ p.1 :: p.2) fun l ↦ l.head?.map fun a ↦ (a, l.tail)

lemma list_zero_inverse : Inverse (fun _ : Unit ↦ ([] : List α))
    (fun l ↦ if l.isEmpty then some () else none) (· = ())
    (fun l ↦ l.length = 0 ∧ ∀ a ∈ l, P a) where
  of_view l hl := by
    cases length_eq_zero_iff.mp hl.1
    exact ⟨(), rfl, rfl, rfl⟩
  view _ _ := by simp

lemma list_succ_inverse : Inverse (fun p : α × List α ↦ p.1 :: p.2)
    (fun l ↦ l.head?.map fun a ↦ (a, l.tail))
    (fun p ↦ P p.1 ∧ p.2.length = n ∧ ∀ a ∈ p.2, P a)
    (fun l ↦ l.length = n + 1 ∧ ∀ a ∈ l, P a) where
  of_view l hl := by
    obtain ⟨hlen, hall⟩ := hl
    cases l with
    | nil => cases hlen
    | cons a l =>
      obtain ⟨ha, hall⟩ := forall_mem_cons.mp hall
      exact ⟨(a, l), rfl, ⟨ha, Nat.succ_inj.mp hlen, hall⟩, rfl⟩
  view p hp := by
    obtain ⟨ha, hlen, hall⟩ := hp
    refine ⟨⟨?_, forall_mem_cons.mpr ⟨ha, hall⟩⟩, rfl⟩
    rw [length_cons, hlen]

protected theorem Lawful.list (hc : c.Lawful P) (n : ℕ) :
    (c.list n).Lawful fun l ↦ l.length = n ∧ ∀ a ∈ l, P a := by
  induction n with
  | zero => exact (pure_exact ()).toLawful.map list_zero_inverse
  | succ n ih => exact (hc.seq ih).map list_succ_inverse

protected theorem Exact.list (hc : c.Exact P) (n : ℕ) :
    (c.list n).Exact fun l ↦ l.length = n ∧ ∀ a ∈ l, P a := by
  induction n with
  | zero => exact (pure_exact ()).map list_zero_inverse
  | succ n ih => exact (hc.seq ih).map list_succ_inverse

protected theorem Productive.list (hc : c.Productive) (hn : n ≠ 0) : (c.list n).Productive := by
  cases n with
  | zero => exact absurd rfl hn
  | succ n => exact (hc.bind_left _).map _ _

lemma Productive.le_length (hc : c.Productive) (hw : (c.list n).write l = some w) :
    n ≤ w.length := by
  induction n generalizing l w with
  | zero => exact Nat.zero_le _
  | succ n ih =>
    obtain ⟨p, -, hp⟩ := Option.bind_eq_some_iff.mp hw
    obtain ⟨v, u, hv, hu, rfl⟩ := bind_write_eq_some.mp hp
    have hpos := length_pos_iff.mpr (hc _ _ hv)
    have hle := ih hu
    rw [length_append]
    omega

lemma list_succ_write (c : Codec α) (n : ℕ) (a : α) (l : List α) :
    (c.list (n + 1)).write (a :: l) =
      (c.write a).bind fun w ↦ ((c.list n).write l).map (w ++ ·) := rfl

lemma list_write_congr {l' : List α} (h : Forall₂ (fun a a' ↦ c.write a' = c.write a) l l')
    (n : ℕ) : (c.list n).write l' = (c.list n).write l := by
  induction n generalizing l l' with
  | zero => cases h <;> rfl
  | succ n ih =>
    cases h with
    | nil => rfl
    | cons ha hl => rw [list_succ_write, list_succ_write, ha, ih hl]

/-! ## Bytes -/

def byte : Codec UInt8 where
  read b := b.head?.map fun x ↦ (x, b.tail)
  write x := some [x]

lemma byte_exact : byte.Exact fun _ ↦ True := by
  apply Exact.of_write_read
  · intro x _
    exact ⟨[x], rfl, fun _ ↦ rfl⟩
  · intro b x rest hread
    cases b with
    | nil => cases hread
    | cons y b =>
      cases hread
      exact ⟨trivial, [x], rfl, rfl⟩

lemma byte_productive : byte.Productive := by
  intro x w hw
  cases hw
  exact cons_ne_nil _ _

def blob (n : ℕ) : Codec (List.Vector UInt8 n) where
  read b := if h : n ≤ b.length then some (⟨b.take n, length_take_of_le h⟩, b.drop n) else none
  write v := some v.toList

lemma blob_exact (n : ℕ) : (blob n).Exact fun _ ↦ True := by
  apply Exact.of_write_read
  · intro v _
    refine ⟨v.toList, rfl, fun rest ↦ ?_⟩
    have hle : n ≤ (v.toList ++ rest).length := by simp
    simp only [blob, dif_pos hle]
    congr 2
    · apply Subtype.ext
      exact take_left' v.toList_length
    · exact drop_left' v.toList_length
  · intro b v rest hread
    simp only [blob] at hread
    split_ifs at hread with hle
    cases hread
    exact ⟨trivial, b.take n, rfl, (take_append_drop n b).symm⟩

lemma blob_productive (hn : n ≠ 0) : (blob n).Productive := by
  intro v w hw hnil
  cases hw
  apply hn
  rw [← v.toList_length, hnil, length_nil]

/-! ## Fixed-width integers, little end first -/

def ofLittleEndian (b : List UInt8) : ℕ := b.foldr (fun x acc ↦ x.toNat + 256 * acc) 0

def toLittleEndian : ℕ → ℕ → List UInt8
  | 0, _ => []
  | size + 1, v => UInt8.ofNat v :: toLittleEndian size (v / 256)

lemma toLittleEndian_length (size v : ℕ) : (toLittleEndian size v).length = size := by
  induction size generalizing v with
  | zero => rfl
  | succ size ih => rw [toLittleEndian, length_cons, ih]

lemma ofLittleEndian_toLittleEndian {size v : ℕ} (hv : v < 256 ^ size) :
    ofLittleEndian (toLittleEndian size v) = v := by
  induction size generalizing v with
  | zero =>
    have hzero : v = 0 := by simpa using hv
    rw [hzero]
    rfl
  | succ size ih =>
    have hdiv : v / 256 < 256 ^ size := by
      apply Nat.div_lt_of_lt_mul
      rwa [Nat.mul_comm, ← Nat.pow_succ]
    have hstep : ofLittleEndian (toLittleEndian (size + 1) v) =
        (UInt8.ofNat v).toNat + 256 * ofLittleEndian (toLittleEndian size (v / 256)) := rfl
    have hbyte : (UInt8.ofNat v).toNat = v % 256 := by simp
    rw [hstep, ih hdiv, hbyte]
    omega

lemma toLittleEndian_ofLittleEndian (b : List UInt8) :
    ofLittleEndian b < 256 ^ b.length ∧ toLittleEndian b.length (ofLittleEndian b) = b := by
  induction b with
  | nil => exact ⟨Nat.one_pos, rfl⟩
  | cons x b ih =>
    have hstep : ofLittleEndian (x :: b) = x.toNat + 256 * ofLittleEndian b := rfl
    have hx : x.toNat < 256 := x.toNat_lt
    have hquot : (x.toNat + 256 * ofLittleEndian b) / 256 = ofLittleEndian b := by omega
    have hbyte : UInt8.ofNat (x.toNat + 256 * ofLittleEndian b) = x := by
      apply UInt8.toNat_inj.mp
      rw [UInt8.toNat_ofNat']
      omega
    rw [hstep, length_cons, toLittleEndian, hquot, hbyte, ih.2, Nat.pow_succ]
    exact ⟨by omega, rfl⟩

def uint (size : ℕ) : Codec ℕ := (blob size).map (fun v ↦ ofLittleEndian v.toList)
    fun v ↦ some ⟨toLittleEndian size v, toLittleEndian_length size v⟩

lemma uint_exact (size : ℕ) : (uint size).Exact (· < 256 ^ size) := by
  apply (blob_exact size).map
  constructor
  · intro v hv
    exact ⟨_, rfl, trivial, ofLittleEndian_toLittleEndian hv⟩
  · rintro ⟨b, rfl⟩ -
    obtain ⟨hlt, hagain⟩ := toLittleEndian_ofLittleEndian b
    refine ⟨hlt, ?_⟩
    congr 1
    exact Subtype.ext hagain

/-! ## Integers of variable length

Seven bits to a byte, the low ones first, with the high bit set on all bytes
but the last.  The bit operations are on disjoint bits and written as
arithmetic. -/

def writeVarintFrom : ℕ → ℕ → List UInt8
  | 0, i => [UInt8.ofNat i]
  | fuel + 1, i =>
    if i < 0x80 then [UInt8.ofNat i]
    else UInt8.ofNat (i % 0x80 + 0x80) :: writeVarintFrom fuel (i / 0x80)

def writeVarint (i : ℕ) : List UInt8 := writeVarintFrom i i

/-- The loop of `read_varint`.  When the input ends, the bits read so far are
the result, as long as there are any. -/
def readVarintFrom (bits : ℕ) : ℕ → ℕ → List UInt8 → Option (ℕ × List UInt8)
  | shift, write, [] => if shift = 0 then none else some (write, [])
  | shift, write, byte :: rest =>
    if bits ≤ shift + 7 ∧ 2 ^ (bits - shift) ≤ byte.toNat then none
    else if byte = 0 ∧ shift ≠ 0 then none
    else
      let write := write + byte.toNat % 0x80 * 2 ^ shift
      if byte.toNat < 0x80 then some (write, rest)
      else readVarintFrom bits (shift + 7) write rest

def varint (bits : ℕ) : Codec ℕ where
  read := readVarintFrom bits 0 0
  write i := some (writeVarint i)

lemma writeVarintFrom_eq {fuel i : ℕ} (h : i ≤ fuel) : writeVarintFrom fuel i = writeVarint i := by
  induction fuel using Nat.strong_induction_on generalizing i with
  | _ fuel ih =>
    cases fuel with
    | zero =>
      cases Nat.le_zero.mp h
      rfl
    | succ fuel =>
      cases i with
      | zero => rfl
      | succ i =>
        rw [writeVarint, writeVarintFrom, writeVarintFrom]
        split_ifs
        · rfl
        · have hdiv : (i + 1) / 0x80 ≤ i := by omega
          rw [ih fuel (Nat.lt_succ_self _) (by omega)]
          rcases Nat.lt_or_ge i (fuel + 1) with hlt | hge
          · rw [ih i hlt hdiv]
          · omega

lemma writeVarint_eq (i : ℕ) : writeVarint i = if i < 0x80 then [UInt8.ofNat i]
      else UInt8.ofNat (i % 0x80 + 0x80) :: writeVarint (i / 0x80) := by
  cases i with
  | zero => rfl
  | succ i =>
    rw [writeVarint, writeVarintFrom]
    split_ifs
    · rfl
    · rw [writeVarintFrom_eq (by omega)]

lemma varint_productive (bits : ℕ) : (varint bits).Productive := by
  intro i w hw
  cases hw
  rw [writeVarint_eq]
  split_ifs <;> exact cons_ne_nil _ _

lemma low_add_high (i shift : ℕ) :
    i % 0x80 * 2 ^ shift + i / 0x80 * 2 ^ (shift + 7) = i * 2 ^ shift := by
  have hsplit : i % 0x80 + i / 0x80 * 2 ^ 7 = i := by omega
  calc i % 0x80 * 2 ^ shift + i / 0x80 * 2 ^ (shift + 7)
      = (i % 0x80 + i / 0x80 * 2 ^ 7) * 2 ^ shift := by ring
    _ = i * 2 ^ shift := by rw [hsplit]

lemma two_pow_digits (h : shift + 7 ≤ bits) :
    2 ^ (bits - shift) = 0x80 * 2 ^ (bits - (shift + 7)) := by
  rw [show bits - shift = 7 + (bits - (shift + 7)) by omega, Nat.pow_add]

/-- A byte with the high bit is never the last one that fits. -/
lemma room_of_high {k : ℕ} (hlast : bits ≤ shift + 7 → k < 2 ^ (bits - shift))
    (hhigh : ¬k < 0x80) : shift + 7 < bits := by
  by_contra hle
  have hpow : 2 ^ (bits - shift) ≤ 2 ^ 7 := Nat.pow_le_pow_right two_pos (by omega)
  have hsmall := hlast (by omega)
  omega

lemma readVarintFrom_write {i : ℕ} (hi : i < 2 ^ (bits - shift)) (hzero : i ≠ 0 ∨ shift = 0)
    (write : ℕ) (rest : List UInt8) :
    readVarintFrom bits shift write (writeVarint i ++ rest) =
      some (write + i * 2 ^ shift, rest) := by
  induction i using Nat.strong_induction_on generalizing shift write with
  | _ i ih =>
    rw [writeVarint_eq]
    split_ifs with hlt
    · have hbyte : (UInt8.ofNat i).toNat = i := by
        rw [UInt8.toNat_ofNat']
        omega
      have hne : ¬(UInt8.ofNat i = 0 ∧ shift ≠ 0) := by
        rintro ⟨hbad, hshift⟩
        rw [hbad] at hbyte
        exact (hzero.resolve_right hshift) hbyte.symm
      rw [singleton_append, readVarintFrom, hbyte, if_neg (by omega), if_neg hne]
      simp only [if_pos hlt, Nat.mod_eq_of_lt hlt]
    · have hbyte : (UInt8.ofNat (i % 0x80 + 0x80)).toNat = i % 0x80 + 0x80 := by
        rw [UInt8.toNat_ofNat']
        omega
      have hroom := room_of_high (fun _ ↦ hi) hlt
      have hne : ¬(UInt8.ofNat (i % 0x80 + 0x80) = 0 ∧ shift ≠ 0) := by
        rintro ⟨hbad, -⟩
        rw [hbad] at hbyte
        simp at hbyte
      have hhigh : i / 0x80 < 2 ^ (bits - (shift + 7)) := by
        rw [two_pow_digits (by omega)] at hi
        exact Nat.div_lt_of_lt_mul hi
      have hlow : (i % 0x80 + 0x80) % 0x80 = i % 0x80 := by omega
      rw [cons_append, readVarintFrom, hbyte, if_neg fun h ↦ hroom.not_ge h.1, if_neg hne, hlow]
      simp only [if_neg (show ¬i % 0x80 + 0x80 < 0x80 by omega)]
      rw [ih (i / 0x80) (by omega) hhigh (.inl (by omega)), Nat.add_assoc, low_add_high]

/-- The bytes are those of the writer, unless the last one that was read asks
for more. -/
theorem write_readVarintFrom (hshift : shift < bits) {write a : ℕ}
    (hread : readVarintFrom bits shift write b = some (a, rest))
    (hend : rest = [] → ∃ x ∈ b.getLast?, x.toNat < 0x80) :
    ∃ i, a = write + i * 2 ^ shift ∧ i < 2 ^ (bits - shift) ∧ (i ≠ 0 ∨ shift = 0) ∧
      b = writeVarint i ++ rest := by
  induction b generalizing shift write with
  | nil =>
    rw [readVarintFrom] at hread
    split_ifs at hread
    cases hread
    obtain ⟨x, hx, -⟩ := hend rfl
    cases hx
  | cons byte b ih =>
    have hbyte : UInt8.ofNat byte.toNat = byte := by simp
    rw [readVarintFrom] at hread
    split at hread
    · cases hread
    rename_i hover
    have hlast : bits ≤ shift + 7 → byte.toNat < 2 ^ (bits - shift) := fun hle ↦
      not_le.mp fun hbig ↦ hover ⟨hle, hbig⟩
    split_ifs at hread with hrepresent hlt
    · cases hread
      refine ⟨byte.toNat, ?_, ?_, ?_, ?_⟩
      · rw [Nat.mod_eq_of_lt hlt]
      · by_cases hle : bits ≤ shift + 7
        · exact hlast hle
        · apply hlt.trans_le
          exact Nat.pow_le_pow_right two_pos (by omega : 7 ≤ bits - shift)
      · by_contra hbad
        rw [not_or, not_not] at hbad
        apply hrepresent
        exact ⟨UInt8.toNat_inj.mp hbad.1, hbad.2⟩
      · rw [writeVarint_eq, if_pos hlt, hbyte]
        rfl
    · have hroom := room_of_high hlast hlt
      have hend' : rest = [] → ∃ x ∈ b.getLast?, x.toNat < 0x80 := by
        intro hrest
        obtain ⟨x, hx, hsmall⟩ := hend hrest
        cases b with
        | nil =>
          cases hx
          exact absurd hsmall hlt
        | cons y b => exact ⟨x, hx, hsmall⟩
      obtain ⟨i, ha, hi, hne, hb⟩ := ih hroom hread hend'
      have hpos : i ≠ 0 := hne.resolve_right (by omega)
      have hbig : byte.toNat < 256 := byte.toNat_lt
      refine ⟨byte.toNat % 0x80 + 0x80 * i, ?_, ?_, .inl (by omega), ?_⟩
      · have hsum := low_add_high (byte.toNat % 0x80 + 0x80 * i) shift
        have hlow : (byte.toNat % 0x80 + 0x80 * i) % 0x80 = byte.toNat % 0x80 := by omega
        have hhigh : (byte.toNat % 0x80 + 0x80 * i) / 0x80 = i := by omega
        rw [hlow, hhigh] at hsum
        rw [ha, Nat.add_assoc, hsum]
      · rw [two_pow_digits hroom.le]
        omega
      · have hagain : (byte.toNat % 0x80 + 0x80 * i) % 0x80 + 0x80 = byte.toNat := by omega
        have hhigh : (byte.toNat % 0x80 + 0x80 * i) / 0x80 = i := by omega
        rw [writeVarint_eq, if_neg (by omega), hagain, hhigh, hbyte, hb]
        rfl

lemma varint_lawful (hbits : 0 < bits) : (varint bits).Lawful (· < 2 ^ bits) where
  read_write i hi := by
    refine ⟨writeVarint i, rfl, fun rest ↦ ?_⟩
    have hread := readVarintFrom_write hi (.inr rfl) 0 rest
    rwa [Nat.zero_add, Nat.pow_zero, Nat.mul_one] at hread
  write_read b a rest hread hrest := by
    obtain ⟨i, ha, hi, -, hb⟩ := write_readVarintFrom hbits hread fun h ↦ absurd h hrest
    rw [Nat.zero_add, Nat.pow_zero, Nat.mul_one] at ha
    subst ha
    exact ⟨hi, writeVarint a, rfl, hb⟩

lemma exists_getLast_writeVarint (i : ℕ) : ∃ x ∈ (writeVarint i).getLast?, x.toNat < 0x80 := by
  induction i using Nat.strong_induction_on with
  | _ i ih =>
    rw [writeVarint_eq]
    split_ifs with hlt
    · refine ⟨UInt8.ofNat i, rfl, ?_⟩
      rw [UInt8.toNat_ofNat']
      omega
    · obtain ⟨x, hx, hsmall⟩ := ih (i / 0x80) (by omega)
      refine ⟨x, ?_, hsmall⟩
      rw [getLast?_cons, Option.mem_def.mp hx]
      rfl

lemma varint_read_end (hbits : 0 < bits) {a : ℕ} (hread : (varint bits).read b = some (a, [])) :
    b = writeVarint a ↔ ∃ x ∈ b.getLast?, x.toNat < 0x80 := by
  constructor
  · rintro rfl
    exact exists_getLast_writeVarint a
  · intro hlast
    obtain ⟨i, ha, -, -, hb⟩ := write_readVarintFrom hbits hread fun _ ↦ hlast
    rw [Nat.zero_add, Nat.pow_zero, Nat.mul_one] at ha
    rw [hb, ha, append_nil]

/-! ## Containers -/

/-- A list after its length.  The reader refuses a length above the number of
bytes that are left. -/
def container (c : Codec α) : Codec (List α) where
  read b := ((varint 64).read b).bind fun p ↦
    if p.2.length < p.1 then none else (c.list p.1).read p.2
  write l := ((varint 64).bind c.list).write (l.length, l)

lemma container_read_eq_some (hread : c.container.read b = some (l, rest)) :
    ∃ cnt, ((varint 64).bind c.list).read b = some ((cnt, l), rest) := by
  obtain ⟨⟨cnt, r⟩, hcnt, hlist⟩ := Option.bind_eq_some_iff.mp hread
  simp only at hlist
  split_ifs at hlist
  exact ⟨cnt, bind_read_eq_some.mpr ⟨r, hcnt, hlist⟩⟩

lemma Lawful.container (hc : c.Lawful P) (hprod : c.Productive) :
    c.container.Lawful fun l ↦ l.length < 2 ^ 64 ∧ ∀ a ∈ l, P a where
  read_write l hl := by
    obtain ⟨v, hv, hcnt⟩ := (@varint_lawful 64 (by decide)).read_write l.length hl.1
    obtain ⟨u, hu, hlist⟩ := (hc.list l.length).read_write l ⟨rfl, hl.2⟩
    have hwrite : ((varint 64).bind c.list).write (l.length, l) = some (v ++ u) :=
      bind_write_eq_some.mpr ⟨v, u, hv, hu, rfl⟩
    refine ⟨v ++ u, hwrite, fun rest ↦ ?_⟩
    have hle : l.length ≤ u.length := hprod.le_length hu
    have henough : ¬(u ++ rest).length < l.length := by
      rw [length_append]
      omega
    rw [Codec.container]
    simp only [append_assoc, hcnt, bind_some, if_neg henough, hlist]
  write_read b l rest hread hrest := by
    obtain ⟨cnt, hboth⟩ := container_read_eq_some hread
    obtain ⟨⟨hlt, hlen, hall⟩, w, hw, hb⟩ :=
      ((varint_lawful (by decide)).bind fun n ↦ hc.list n).write_read b (cnt, l) rest hboth hrest
    simp only at hlt hlen hall
    subst hlen
    exact ⟨⟨hlt, hall⟩, w, hw, hb⟩

/-- At the end of the input a list that is not empty was read strictly, and the
count of an empty one is a zero byte or was cut off. -/
theorem Exact.container_write_iff_of_read_end (hc : c.Exact P) (hprod : c.Productive)
    (hread : c.container.read b = some (l, [])) :
    c.container.write l = some b ↔ (l = [] → b.getLast? = some 0) := by
  obtain ⟨cnt, hboth⟩ := container_read_eq_some hread
  obtain ⟨r, hcnt, hlist⟩ := bind_read_eq_some.mp hboth
  simp only at hcnt hlist
  obtain ⟨⟨hlen, hall⟩, hr⟩ := (hc.list cnt).read_end r l hlist
  subst hlen
  constructor
  · rintro hwrite rfl
    cases hwrite
    rfl
  · intro hlast
    have hb : b = writeVarint l.length ++ r := by
      by_cases hl : l = []
      · subst hl
        cases hr
        rw [append_nil]
        exact (varint_read_end (by decide) hcnt).mpr ⟨0, hlast rfl, by decide⟩
      · have hne : r ≠ [] := hprod.list (fun h ↦ hl (length_eq_zero_iff.mp h)) _ _ hr
        obtain ⟨-, w, hw, hb⟩ := (varint_lawful (by decide)).write_read _ _ _ hcnt hne
        cases hw
        exact hb
    have hwrite : ((varint 64).bind c.list).write (l.length, l) = some b :=
      bind_write_eq_some.mpr ⟨writeVarint l.length, r, rfl, hr, hb⟩
    exact hwrite

lemma container_productive (c : Codec α) : c.container.Productive := by
  intro l w hw
  exact (varint_productive 64).bind_left c.list _ w hw

/-! ## Lenient readers

A reader may take other bytes than the writer writes for a value, and a value may
be one that takes all of the input. -/

/-- Every value with `P` is written, and read back in front of what may follow; what is
read has `P`, and the rest is the end of the input. -/
structure Lenient (c : Codec α) (P last : α → Prop) : Prop where
  read_write : ∀ a, P a → ∃ w, c.write a = some w ∧
    ∀ rest, (last a → rest = []) → c.read (w ++ rest) = some (a, rest)
  of_read : ∀ b a rest, c.read b = some (a, rest) → P a ∧ (last a → rest = []) ∧ rest <:+ b

section Lenient

variable {last : α → Prop}

lemma Lawful.lenient (hc : c.Lawful P)
    (h : ∀ {b a rest}, c.read b = some (a, rest) → P a ∧ rest <:+ b) :
    c.Lenient P fun _ ↦ False where
  read_write a ha := by
    obtain ⟨w, hw, hread⟩ := hc.read_write a ha
    exact ⟨w, hw, fun rest _ ↦ hread rest⟩
  of_read b a rest hread := ⟨(h hread).1, False.elim, (h hread).2⟩

lemma Exact.lenient (hc : c.Exact P) : c.Lenient P fun _ ↦ False := by
  refine hc.toLawful.lenient fun hread ↦ ?_
  obtain ⟨hP, w, -, rfl⟩ := hc.write_read_any hread
  exact ⟨hP, suffix_append w _⟩

lemma readVarintFrom_spec {bits : ℕ} (hshift : shift ≤ bits) {write a : ℕ}
    (hwrite : write < 2 ^ shift) (hread : readVarintFrom bits shift write b = some (a, rest)) :
    a < 2 ^ bits ∧ rest <:+ b := by
  induction b generalizing shift write with
  | nil =>
    rw [readVarintFrom] at hread
    split_ifs at hread
    cases hread
    exact ⟨hwrite.trans_le (Nat.pow_le_pow_right two_pos hshift), suffix_refl _⟩
  | cons byte b ih =>
    rw [readVarintFrom] at hread
    obtain ⟨hover, hread⟩ := Option.ite_none_left_eq_some.mp hread
    obtain ⟨-, hread⟩ := Option.ite_none_left_eq_some.mp hread
    have hlow : bits ≤ shift + 7 → byte.toNat < 2 ^ (bits - shift) := fun hle ↦
      not_le.mp fun hbig ↦ hover ⟨hle, hbig⟩
    -- the digit is below the digits that are left
    have hdigit : byte.toNat % 0x80 < 2 ^ min 7 (bits - shift) := by
      rcases Nat.lt_or_ge (shift + 7) bits with hlt | hle
      · rw [min_eq_left (by omega)]
        exact Nat.mod_lt _ (by decide)
      · rw [min_eq_right (by omega)]
        exact (Nat.mod_le _ _).trans_lt (hlow hle)
    have hnext : write + byte.toNat % 0x80 * 2 ^ shift < 2 ^ (shift + min 7 (bits - shift)) := by
      have hmul := Nat.mul_le_mul_right (2 ^ shift) (Nat.succ_le_of_lt hdigit)
      rw [Nat.succ_mul] at hmul
      rw [Nat.add_comm shift, Nat.pow_add]
      omega
    have hle : shift + min 7 (bits - shift) ≤ bits := by omega
    dsimp only at hread
    split_ifs at hread with hlast
    · cases hread
      exact ⟨hnext.trans_le (Nat.pow_le_pow_right two_pos hle), suffix_cons byte rest⟩
    · have hroom := room_of_high hlow hlast
      rw [min_eq_left (by omega)] at hnext
      obtain ⟨ha, hsuffix⟩ := ih hroom.le hnext hread
      exact ⟨ha, hsuffix.trans (suffix_cons byte b)⟩

lemma varint_lenient {bits : ℕ} (hbits : 0 < bits) :
    (varint bits).Lenient (· < 2 ^ bits) fun _ ↦ False :=
  (varint_lawful hbits).lenient (readVarintFrom_spec (Nat.zero_le _) Nat.one_pos)

lemma Exact.container_lenient (hc : c.Exact P) (hprod : c.Productive) :
    c.container.Lenient (fun l ↦ l.length < 2 ^ 64 ∧ ∀ a ∈ l, P a) fun _ ↦ False := by
  refine (hc.toLawful.container hprod).lenient fun hread ↦ ?_
  obtain ⟨cnt, hboth⟩ := container_read_eq_some hread
  obtain ⟨r, hcnt, hlist⟩ := bind_read_eq_some.mp hboth
  obtain ⟨hlt, -, hsuffix⟩ := (varint_lenient (by decide)).of_read _ cnt r hcnt
  obtain ⟨⟨hlen, hall⟩, w, -, rfl⟩ := (hc.list cnt).write_read_any hlist
  simp only at hlen
  exact ⟨⟨hlen ▸ hlt, hall⟩, (suffix_append w _).trans hsuffix⟩

protected theorem Lenient.map {f : α → β} {g : β → Option α} {last' : β → Prop}
    (hc : c.Lenient P last) (h : Inverse f g P Q) (hlast : ∀ a, last' (f a) ↔ last a) :
    (c.map f g).Lenient Q last' where
  read_write x hx := by
    obtain ⟨a, hg, ha, rfl⟩ := h.of_view x hx
    obtain ⟨w, hw, hread⟩ := hc.read_write a ha
    refine ⟨w, by rw [map_write_of_view hg, hw], fun rest hrest ↦ ?_⟩
    exact map_read_eq_some.mpr ⟨a, hread rest fun ha ↦ hrest ((hlast a).mpr ha), rfl⟩
  of_read b x rest hread := by
    obtain ⟨a, ha, rfl⟩ := map_read_eq_some.mp hread
    obtain ⟨hP, hend, hsuffix⟩ := hc.of_read b a rest ha
    exact ⟨(h.view a hP).1, fun hl ↦ hend ((hlast a).mp hl), hsuffix⟩

protected theorem Lenient.guard (hc : c.Lenient P last) (p : α → Bool) :
    (c.guard p).Lenient (fun a ↦ P a ∧ p a = true) last where
  read_write a ha := by
    obtain ⟨w, hw, hread⟩ := hc.read_write a ha.1
    refine ⟨w, (guard_write ha.2).trans hw, fun rest hrest ↦ ?_⟩
    exact guard_read_eq_some.mpr ⟨hread rest hrest, ha.2⟩
  of_read b a rest hread := by
    obtain ⟨hread, hp⟩ := guard_read_eq_some.mp hread
    obtain ⟨hP, hend⟩ := hc.of_read b a rest hread
    exact ⟨⟨hP, hp⟩, hend⟩

end Lenient

/-- A value that is written as a byte string with its length. -/
def nested (c : Codec α) : Codec α where
  read b := (byte.container.read b).bind fun p ↦ (c.readAll p.1).map fun a ↦ (a, p.2)
  write a := (c.write a).bind byte.container.write

lemma Exact.nested_lenient (hc : c.Exact P)
    (hsize : ∀ a w, P a → c.write a = some w → w.length < 2 ^ 64) :
    c.nested.Lenient P fun _ ↦ False where
  read_write a ha := by
    obtain ⟨w, hw, hread⟩ := hc.read_write a ha
    obtain ⟨v, hv, hstring⟩ := (byte_exact.container_lenient byte_productive).read_write w
      ⟨hsize a w ha hw, fun _ _ ↦ trivial⟩
    have hall : c.readAll w = some a := by
      have hnil := hread []
      rw [append_nil] at hnil
      exact readAll_eq_some.mpr hnil
    refine ⟨v, ?_, fun rest hrest ↦ ?_⟩
    · simp [nested, hw, hv]
    · simp [nested, hstring rest hrest, hall]
  of_read b a rest hread := by
    obtain ⟨⟨w, r⟩, hstring, hread⟩ := Option.bind_eq_some_iff.mp hread
    obtain ⟨a', hall, heq⟩ := Option.map_eq_some_iff.mp hread
    cases heq
    obtain ⟨-, -, hsuffix⟩ := (byte_exact.container_lenient byte_productive).of_read b w _ hstring
    exact ⟨(hc.read_end w a (readAll_eq_some.mp hall)).1, False.elim, hsuffix⟩

/-! ## Sizes -/

def Measures (c : Codec α) (size : α → ℕ) : Prop := ∀ a w, c.write a = some w → w.length = size a

section Measures

variable {size : α → ℕ} {width : ℕ}

protected theorem Measures.bind (hc : c.Measures size) {d : α → Codec β} {size' : α → β → ℕ}
    (hd : ∀ a, (d a).Measures (size' a)) :
    (c.bind d).Measures fun p ↦ size p.1 + size' p.1 p.2 := by
  intro p w hw
  obtain ⟨v, u, hv, hu, rfl⟩ := bind_write_eq_some.mp hw
  rw [length_append, hc _ _ hv, hd _ _ _ hu]

protected theorem Measures.seq (hc : c.Measures size) {d : Codec β} {size' : β → ℕ}
    (hd : d.Measures size') : (c.seq d).Measures fun p ↦ size p.1 + size' p.2 :=
  hc.bind fun _ ↦ hd

protected theorem Measures.map (hc : c.Measures size) (f : α → β) {g : β → Option α}
    {size' : β → ℕ} (h : ∀ x a, g x = some a → size a = size' x) : (c.map f g).Measures size' := by
  intro x w hw
  obtain ⟨a, ha, hwrite⟩ := Option.bind_eq_some_iff.mp hw
  rw [hc a w hwrite, h x a ha]

protected theorem Measures.guard (hc : c.Measures size) (p : α → Bool) :
    (c.guard p).Measures size := by
  intro a w hw
  simp only [Codec.guard] at hw
  split_ifs at hw
  exact hc a w hw

lemma pure_measures (a : α) : (pure a).Measures fun _ ↦ 0 := by
  intro _ w hw
  cases hw
  rfl

protected theorem Measures.list (hc : c.Measures fun _ ↦ width) (n : ℕ) :
    (c.list n).Measures fun _ ↦ n * width := by
  induction n with
  | zero =>
    apply (pure_measures ()).map
    intro l p _
    rw [Nat.zero_mul]
  | succ n ih =>
    apply (hc.seq ih).map
    intro l p _
    rw [Nat.succ_mul, Nat.add_comm]

protected theorem Measures.container (hc : c.Measures fun _ ↦ width) :
    c.container.Measures fun l ↦ (writeVarint l.length).length + l.length * width := by
  intro l w hw
  change ((varint 64).bind c.list).write (l.length, l) = some w at hw
  obtain ⟨v, u, hv, hu, rfl⟩ := bind_write_eq_some.mp hw
  cases hv
  rw [length_append, hc.list _ _ _ hu]

lemma blob_measures (n : ℕ) : (blob n).Measures fun _ ↦ n := by
  intro v w hw
  cases hw
  exact v.toList_length

lemma byte_measures : byte.Measures fun _ ↦ 1 := by
  intro x w hw
  cases hw
  rfl

variable {i : ℕ}

lemma writeVarint_length_succ (h : ¬i < 0x80) :
    (writeVarint i).length = (writeVarint (i / 0x80)).length + 1 := by
  rw [writeVarint_eq, if_neg h, length_cons]

lemma writeVarint_length_of_lt (h : i < 0x80) : (writeVarint i).length = 1 := by
  rw [writeVarint_eq, if_pos h, length_singleton]

lemma writeVarint_length_le {k : ℕ} (h : i < 2 ^ (7 * (k + 1))) :
    (writeVarint i).length ≤ k + 1 := by
  induction k generalizing i with
  | zero => rw [writeVarint_length_of_lt h]
  | succ k ih =>
    by_cases hlt : i < 0x80
    · rw [writeVarint_length_of_lt hlt]
      omega
    · have hdiv : i / 0x80 < 2 ^ (7 * (k + 1)) := by
        apply Nat.div_lt_of_lt_mul
        rwa [show 7 * (k + 1 + 1) = 7 + 7 * (k + 1) by ring, Nat.pow_add] at h
      rw [writeVarint_length_succ hlt]
      exact Nat.succ_le_succ (ih hdiv)

end Measures

/-! ## Variants -/

/-- A tag byte, and then what the alternative with that tag reads or writes. -/
def variant (tag : α → UInt8) (alternative : UInt8 → Option (Codec α)) : Codec α where
  read b := (byte.read b).bind fun p ↦ (alternative p.1).bind fun c ↦ c.read p.2
  write a := (alternative (tag a)).bind fun c ↦ (c.write a).map (tag a :: ·)

section Variant

variable {tag : α → UInt8} {alternative : UInt8 → Option (Codec α)}

lemma variant_read_eq_some (hread : (variant tag alternative).read b = some (a, rest)) :
    ∃ t r c, b = t :: r ∧ alternative t = some c ∧ c.read r = some (a, rest) := by
  cases b with
  | nil => cases hread
  | cons t r =>
    obtain ⟨c, hc, hr⟩ := Option.bind_eq_some_iff.mp hread
    exact ⟨t, r, c, rfl, hc, hr⟩

lemma variant_lawful (hsome : ∀ a, P a → (alternative (tag a)).isSome)
    (h : ∀ t c, alternative t = some c → c.Lawful fun a ↦ P a ∧ tag a = t) :
    (variant tag alternative).Lawful P where
  read_write a ha := by
    obtain ⟨c, hc⟩ := Option.isSome_iff_exists.mp (hsome a ha)
    obtain ⟨w, hw, hread⟩ := (h _ c hc).read_write a ⟨ha, rfl⟩
    refine ⟨tag a :: w, ?_, fun rest ↦ ?_⟩
    · simp [variant, hc, hw]
    · simp [variant, byte, hc, hread]
  write_read b a rest hread hrest := by
    obtain ⟨t, r, c, rfl, hc, hr⟩ := variant_read_eq_some hread
    obtain ⟨⟨hP, rfl⟩, w, hw, rfl⟩ := (h _ c hc).write_read r a rest hr hrest
    refine ⟨hP, tag a :: w, ?_, rfl⟩
    simp [variant, hc, hw]

lemma variant_productive : (variant tag alternative).Productive := by
  intro a w hw
  obtain ⟨c, -, hw⟩ := Option.bind_eq_some_iff.mp hw
  obtain ⟨v, -, rfl⟩ := Option.map_eq_some_iff.mp hw
  exact cons_ne_nil _ _

lemma variant_lenient {last : α → Prop} (hsome : ∀ a, P a → (alternative (tag a)).isSome)
    (h : ∀ t c, alternative t = some c → c.Lenient (fun a ↦ P a ∧ tag a = t) last) :
    (variant tag alternative).Lenient P last where
  read_write a ha := by
    obtain ⟨c, hc⟩ := Option.isSome_iff_exists.mp (hsome a ha)
    obtain ⟨w, hw, hread⟩ := (h _ c hc).read_write a ⟨ha, rfl⟩
    refine ⟨tag a :: w, ?_, fun rest hrest ↦ ?_⟩
    · simp [variant, hc, hw]
    · simp [variant, byte, hc, hread rest hrest]
  of_read b a rest hread := by
    obtain ⟨t, r, c, rfl, hc, hr⟩ := variant_read_eq_some hread
    obtain ⟨⟨hP, -⟩, hend, hsuffix⟩ := (h _ c hc).of_read r a rest hr
    exact ⟨hP, hend, hsuffix.trans (suffix_cons t r)⟩

end Variant

/-! ## Values up to the end of the input -/

/-- Reads one value after the other, until the input ends or a value cannot be read,
with what is left then.  The number bounds the values. -/
def readMany (c : Codec α) : ℕ → List UInt8 → List α × List UInt8
  | 0, b => ([], b)
  | fuel + 1, b =>
    match c.read b with
    | none => ([], b)
    | some (a, rest) =>
      if rest = [] then ([a], [])
      else
        let p := c.readMany fuel rest
        (a :: p.1, p.2)

/-- The values that stand at the front of an input, and what follows them. -/
inductive Values (c : Codec α) : List UInt8 → List α → List UInt8 → Prop
  | nil (b : List UInt8) : c.Values b [] b
  | cons {b : List UInt8} {a : α} {r : List UInt8} {l : List α} {rest : List UInt8} :
    c.read b = some (a, r) → c.Values r l rest → c.Values b (a :: l) rest

/-- Nothing is read without taking a byte. -/
def Consumes (c : Codec α) : Prop := ∀ b a rest, c.read b = some (a, rest) → rest.length < b.length

lemma variant_consumes {tag : α → UInt8} {alternative : UInt8 → Option (Codec α)}
    (h : ∀ t c, alternative t = some c → ∀ b a rest, c.read b = some (a, rest) → rest <:+ b) :
    (variant tag alternative).Consumes := by
  intro b a rest hread
  obtain ⟨t, r, c, rfl, hc, hr⟩ := variant_read_eq_some hread
  exact Nat.lt_succ_of_le (h t c hc r a rest hr).length_le

section Many

variable {last : α → Prop}

lemma Consumes.read_nil (hc : c.Consumes) : c.read [] = none := by
  cases h : c.read [] with
  | none => rfl
  | some p => exact absurd (hc [] p.1 p.2 h) (Nat.not_lt_zero _)

lemma Consumes.readMany_eq (hc : c.Consumes) {fuel : ℕ} (hfuel : b.length ≤ fuel)
    (hvalues : c.Values b l rest) (hstop : c.read rest = none) :
    c.readMany fuel b = (l, rest) := by
  induction hvalues generalizing fuel with
  | nil b =>
    cases fuel with
    | zero => rfl
    | succ fuel => rw [readMany, hstop]
  | @cons b a r l rest hread hl ih =>
    have hlt := hc b a r hread
    cases fuel with
    | zero => omega
    | succ fuel =>
      rw [readMany, hread]
      dsimp only
      split_ifs with hr
      · -- nothing can be read from an empty input
        subst hr
        cases hl with
        | nil => rfl
        | cons hbad _ => cases hc.read_nil.symm.trans hbad
      · rw [ih (by omega) hstop]

lemma Consumes.exists_values (hc : c.Consumes) (b : List UInt8) :
    ∃ l rest, c.Values b l rest ∧ c.read rest = none := by
  induction hn : b.length using Nat.strong_induction_on generalizing b with
  | _ n ih =>
    cases hread : c.read b with
    | none => exact ⟨[], b, Values.nil b, hread⟩
    | some p =>
      obtain ⟨a, r⟩ := p
      have hlt := hc b a r hread
      obtain ⟨l, rest, hvalues, hstop⟩ := ih r.length (by omega) r rfl
      exact ⟨a :: l, rest, Values.cons hread hvalues, hstop⟩

lemma Values.isPrefix {l' : List α} {rest' : List UInt8} (h' : c.Values b l' rest')
    (h : c.Values b l rest) (hstop : c.read rest = none) : l' <+: l := by
  induction h' generalizing l with
  | nil b => exact nil_prefix
  | cons hread _ ih =>
    cases h with
    | nil => cases hstop.symm.trans hread
    | cons hread' h =>
      cases hread.symm.trans hread'
      exact (prefix_cons_inj _).mpr (ih h)

lemma Values.of_lenient (hc : c.Lenient P last) (hconsumes : c.Consumes) (h : c.Values b l rest) :
    (∀ a ∈ l, P a) ∧ l.Pairwise (fun a _ ↦ ¬last a) ∧ rest <:+ b := by
  induction h with
  | nil b => exact ⟨fun a ha ↦ absurd ha not_mem_nil, Pairwise.nil, suffix_refl b⟩
  | @cons b a r l rest hread hl ih =>
    obtain ⟨hall, hpairs, hsuffix⟩ := ih
    obtain ⟨hP, hend, hsuffix'⟩ := hc.of_read b a r hread
    refine ⟨forall_mem_cons.mpr ⟨hP, hall⟩, pairwise_cons.mpr ⟨fun a' ha' hlast ↦ ?_, hpairs⟩,
      hsuffix.trans hsuffix'⟩
    -- a value that takes everything leaves no other
    rw [hend hlast] at hl
    cases hl with
    | nil => cases ha'
    | cons hbad _ => cases hconsumes.read_nil.symm.trans hbad

lemma Lenient.exists_write_many (hc : c.Lenient P last) (hall : ∀ a ∈ l, P a)
    (hpairs : l.Pairwise fun a _ ↦ ¬last a) :
    (∀ a ∈ l, ∃ w, c.write a = some w) ∧
      c.Values (l.flatMap fun a ↦ (c.write a).getD []) l [] := by
  induction l with
  | nil => exact ⟨fun a ha ↦ absurd ha not_mem_nil, Values.nil []⟩
  | cons a l ih =>
    obtain ⟨hP, hall⟩ := forall_mem_cons.mp hall
    obtain ⟨hlast, hpairs⟩ := pairwise_cons.mp hpairs
    obtain ⟨hwrites, hvalues⟩ := ih hall hpairs
    obtain ⟨w, hw, hread⟩ := hc.read_write a hP
    refine ⟨forall_mem_cons.mpr ⟨⟨w, hw⟩, hwrites⟩, ?_⟩
    rw [flatMap_cons, hw, getD_some]
    refine Values.cons (hread _ fun hbad ↦ ?_) hvalues
    cases l with
    | nil => rfl
    | cons a' l => exact absurd hbad (hlast a' mem_cons_self)

end Many

end Codec

end Monero.Lib
