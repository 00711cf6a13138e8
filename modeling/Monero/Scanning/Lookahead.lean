import Monero.Scanning.Wallet

/-!
# The lookahead of subaddresses

The numbers of labels of the accounts, and the map from the public spend keys of the
subaddresses to their indices.  `expand_subaddresses` makes room for the label of an
index, and generates the keys of each account from its lowest missing minor index up
to the lookahead above the labels.
-/

namespace Monero.Scanning

open Monero.Lib List

structure Subaddresses (K : Type*) [LinearOrder K] where
  labels : List ℕ
  table : Table K SubaddressIndex
  lookaheadMajor : UInt32
  lookaheadMinor : UInt32

/-- Both numbers have 32 bits. -/
def SubaddressIndex.InRange (index : SubaddressIndex) : Prop :=
  index.major < 2 ^ 32 ∧ index.minor < 2 ^ 32

variable {K : Type*} [LinearOrder K]

namespace Subaddresses

/-! ## The operations -/

section

variable (key : SubaddressIndex → K) (s : Subaddresses K)

def getNumSubaddresses (major : ℕ) : ℕ := s.labels.getD major 0

def shouldExpand (index : SubaddressIndex) : Bool :=
  isWithinLookahead s.labels s.lookaheadMajor.toNat s.lookaheadMinor.toNat index

def indices : List SubaddressIndex := s.table.rows.map Prod.snd

def addKeys (indices : List SubaddressIndex) : Subaddresses K :=
  { s with table := indices.foldl (fun t index ↦ t.set (key index) index) s.table }

def expandSubaddresses (index : SubaddressIndex) : Subaddresses K :=
  let s := { s with labels := resizeLabels s.labels index }
  s.addKeys key
    (newIndices s.labels s.indices s.lookaheadMajor.toNat s.lookaheadMinor.toNat)

inductive Operation
  | addSubaddressAccount
  | addSubaddress (major : UInt32)
  | receive (major minor : UInt32)
  | setSubaddressLookahead (major minor : ℕ)
  | createOneOffSubaddress (major minor : UInt32)

/-- A call that throws leaves everything as it is. -/
def apply : Operation → Subaddresses K
  | .addSubaddressAccount => s.expandSubaddresses key ⟨s.labels.length % 2 ^ 32, 0⟩
  | .addSubaddress major =>
    if s.labels.length ≤ major.toNat then s
    else s.expandSubaddresses key ⟨major.toNat, s.getNumSubaddresses major.toNat % 2 ^ 32⟩
  | .receive major minor =>
    let index := ⟨major.toNat, minor.toNat⟩
    if s.shouldExpand index then s.expandSubaddresses key index else s
  | .setSubaddressLookahead major minor =>
    if major = 0 ∨ uint32Max < major ∨ minor = 0 ∨ uint32Max < minor then s
    else
      let s' := { s with lookaheadMajor := .ofNat major, lookaheadMinor := .ofNat minor }
      if major ≤ s.lookaheadMajor.toNat ∧ minor ≤ s.lookaheadMinor.toNat then s'
      else s'.expandSubaddresses key ⟨0, 0⟩
  | .createOneOffSubaddress major minor => s.addKeys key [⟨major.toNat, minor.toNat⟩]

/-- The calls on an empty wallet, after `expand_subaddresses({0, 0})`. -/
def run (major minor : UInt32) (ops : List Operation) : Subaddresses K :=
  ops.foldl (apply key) (expandSubaddresses key ⟨[], Table.empty, major, minor⟩ ⟨0, 0⟩)

/-- The keys of all indices up to the lookahead are mapped to these indices. -/
def Covered : Prop :=
  ∀ major < getSubaddressClampedSum (max s.labels.length 1 - 1) s.lookaheadMajor.toNat,
    ∀ minor < getSubaddressClampedSum (max (s.getNumSubaddresses major) 1 - 1)
      s.lookaheadMinor.toNat, s.table.get? (key ⟨major, minor⟩) = some ⟨major, minor⟩

end

/-! ## What one call keeps -/

def Fits (labels : List ℕ) : Prop := labels.length < 2 ^ 32 ∧ ∀ n ∈ labels, n < 2 ^ 32

lemma Fits.resizeLabels {labels : List ℕ} (h : Fits labels) (index : SubaddressIndex) :
    Fits (Scanning.resizeLabels labels index) := by
  have hmodify : ∀ l, Fits l → Fits (l.modify index.major fun n ↦
      if n ≤ index.minor then (index.minor + 1) % 2 ^ 32 else n) := by
    intro l hl
    refine ⟨by rw [length_modify]; exact hl.1, fun n hn ↦ ?_⟩
    obtain ⟨i, hi⟩ := mem_iff_getElem?.mp hn
    rw [getElem?_modify] at hi
    obtain ⟨m, hm, rfl⟩ := Option.map_eq_some_iff.mp hi
    have := hl.2 m (mem_of_getElem? hm)
    split_ifs <;> omega
  rw [Scanning.resizeLabels]
  refine hmodify _ ?_
  split_ifs
  · refine ⟨by simp; omega, fun n hn ↦ ?_⟩
    rcases mem_append.mp hn with hn | hn
    · exact h.2 n (mem_of_mem_take hn)
    · rw [eq_of_mem_replicate hn]
      decide
  · exact h

/-- What holds whatever the lookahead is. -/
structure Tidy (key : SubaddressIndex → K) (s : Subaddresses K) : Prop where
  own : ∀ k index, s.table.get? k = some index → k = key index ∧ index.InRange
  fits : Fits s.labels

structure Sound (key : SubaddressIndex → K) (s : Subaddresses K) : Prop extends Tidy key s where
  covered : s.Covered key

lemma clampedSum_eq (idx : ℕ) (extra : UInt32) :
    getSubaddressClampedSum idx extra.toNat = min (idx + extra.toNat) uint32Max := by
  have := extra.toNat_lt
  rw [getSubaddressClampedSum, uint32Max]
  split_ifs <;> omega

variable {key : SubaddressIndex → K} {s : Subaddresses K} (h : s.Tidy key)

section

include h

lemma Tidy.getNumSubaddresses_lt (major : ℕ) : s.getNumSubaddresses major < 2 ^ 32 := by
  rw [getNumSubaddresses, getD_eq_getElem?_getD]
  cases hget : s.labels[major]? with
  | none => simp
  | some n => exact h.fits.2 n (mem_of_getElem? hget)

lemma Tidy.present {major steps minor m : ℕ} (hle : minor ≤ m)
    (hlt : m < lowestMissingMinor s.indices major steps minor) :
    s.table.get? (key ⟨major, m⟩) = some ⟨major, m⟩ := by
  induction steps generalizing minor with
  | zero => exact absurd hle (not_le.mpr hlt)
  | succ steps ih =>
    rw [lowestMissingMinor] at hlt
    split_ifs at hlt with hmem
    · rcases hle.eq_or_lt with rfl | hlt'
      · obtain ⟨⟨k, index⟩, hrow, rfl⟩ := mem_map.mp hmem
        have hget := Table.get?_eq_some_iff.mpr hrow
        exact (h.own k _ hget).1 ▸ hget
      · exact ih hlt' hlt
    · exact absurd hle (not_le.mpr hlt)

variable (hkey : Set.InjOn key {index | index.InRange})

include hkey

lemma Tidy.addKeys (indices : List SubaddressIndex) (hin : ∀ index ∈ indices, index.InRange) :
    (s.addKeys key indices).Tidy key ∧
      ∀ index, index.InRange → index ∈ indices ∨ s.table.get? (key index) = some index →
        (s.addKeys key indices).table.get? (key index) = some index := by
  induction indices generalizing s with
  | nil => exact ⟨h, fun index _ hindex ↦ hindex.resolve_left not_mem_nil⟩
  | cons first rest ih =>
    obtain ⟨hfirst, hrest⟩ := forall_mem_cons.mp hin
    have hset : Tidy key { s with table := s.table.set (key first) first } := by
      refine ⟨fun k index hget ↦ ?_, h.fits⟩
      rw [Table.get?_set] at hget
      split_ifs at hget with hk
      · cases hget
        exact ⟨hk, hfirst⟩
      · exact h.own k index hget
    obtain ⟨htidy, hget⟩ := ih hset hrest
    refine ⟨htidy, fun index hindex hor ↦ hget index hindex ?_⟩
    rw [Table.get?_set]
    by_cases heq : key index = key first
    · rw [if_pos heq, hkey hindex hfirst heq]
      exact .inr rfl
    · rw [if_neg heq]
      exact hor.imp_left fun hmem ↦ (mem_cons.mp hmem).resolve_left fun h ↦ heq (h ▸ rfl)

lemma Tidy.expandSubaddresses (index : SubaddressIndex) :
    (s.expandSubaddresses key index).Sound key := by
  have hlabels : Tidy key { s with labels := resizeLabels s.labels index } :=
    ⟨h.own, h.fits.resizeLabels index⟩
  rw [Subaddresses.expandSubaddresses]
  generalize { s with labels := resizeLabels s.labels index } = s at hlabels
  have hin : ∀ index ∈ newIndices s.labels s.indices s.lookaheadMajor.toNat
      s.lookaheadMinor.toNat, index.InRange := by
    intro index hindex
    simp only [newIndices, mem_flatMap, mem_map, mem_range, mem_range'_1, clampedSum_eq,
      uint32Max] at hindex
    obtain ⟨major, hmajor, minor, hminor, rfl⟩ := hindex
    constructor <;> simp only <;> omega
  obtain ⟨htidy, hget⟩ := hlabels.addKeys hkey _ hin
  refine ⟨htidy, fun major hmajor minor hminor ↦ hget _ ?_ ?_⟩
  · simp only [clampedSum_eq, uint32Max] at hmajor hminor
    constructor <;> simp only <;> omega
  · -- below the lowest missing minor index the entries are there, from it on they are added
    rcases lt_or_ge minor (lowestMissingMinor s.indices major uint32Max 0) with hlt | hge
    · exact .inr (hlabels.present (Nat.zero_le _) hlt)
    · refine .inl (mem_flatMap.mpr ⟨major, ?_, mem_map.mpr ⟨minor, ?_, rfl⟩⟩)
      · rw [Nat.mod_eq_of_lt hlabels.fits.1]
        exact mem_range.mpr hmajor
      · have hfits : s.labels.getD major 0 < 2 ^ 32 := hlabels.getNumSubaddresses_lt major
        rw [Nat.mod_eq_of_lt hfits, mem_range'_1]
        exact ⟨hge, hminor.trans_le le_add_tsub⟩

end

lemma Sound.apply (h : s.Sound key) (hkey : Set.InjOn key {index | index.InRange})
    (op : Operation) : (s.apply key op).Sound key := by
  cases op with
  | addSubaddressAccount => exact h.expandSubaddresses hkey _
  | addSubaddress major =>
    rw [Subaddresses.apply]
    split_ifs
    · exact h
    · exact h.expandSubaddresses hkey _
  | receive major minor =>
    rw [Subaddresses.apply]
    split_ifs
    · exact h.expandSubaddresses hkey _
    · exact h
  | setSubaddressLookahead major minor =>
    have htidy :
        Tidy key { s with lookaheadMajor := .ofNat major, lookaheadMinor := .ofNat minor } :=
      ⟨h.own, h.fits⟩
    rw [Subaddresses.apply]
    split_ifs with hthrow hle
    · exact h
    · -- with a smaller lookahead fewer indices have to be there
      have hless : ∀ n (old : UInt32) new, new ≤ old.toNat →
          getSubaddressClampedSum n (UInt32.ofNat new).toNat ≤
            getSubaddressClampedSum n old.toNat := by
        intro n old new hle
        rw [clampedSum_eq, clampedSum_eq, UInt32.toNat_ofNat']
        have := Nat.mod_le new (2 ^ 32)
        omega
      exact ⟨htidy, fun m hm n hn ↦ h.covered m (hm.trans_le (hless _ _ _ hle.1)) n
        (hn.trans_le (hless _ _ _ hle.2))⟩
    · exact htidy.expandSubaddresses hkey _
  | createOneOffSubaddress major minor =>
    obtain ⟨htidy, hget⟩ := h.addKeys hkey [⟨major.toNat, minor.toNat⟩] fun index hindex ↦
      mem_singleton.mp hindex ▸ ⟨major.toNat_lt, minor.toNat_lt⟩
    refine ⟨htidy, fun m hm n hn ↦ ?_⟩
    have hold := h.covered m hm n hn
    exact hget _ (h.own _ _ hold).2 (.inr hold)

def pairKey (index : SubaddressIndex) : ℕ := Nat.pair index.major index.minor

end Subaddresses

end Monero.Scanning
