import Monero.Lib.Result
import Monero.Mnemonics.ElectrumWords

/-!
# Seed phrases decode to the key they were made from

Three digits in base 1626 cover more than 32 bits.  A triple that wraps around is
refused because 1626 does not divide `2 ^ 32`, so that a triple that is accepted is
the one the number is written as.
-/

namespace Monero.Mnemonics

open Lib Lib.Codec List Nat LanguageId
open WordMap (find)
open Option (map_some bind_eq_bind some_inj map_eq_some_iff getD_some bind_some)

/-! ## Triples -/

lemma chained_sub_add {a w : ℕ} (hw : w < nwords) :
    (nwords - w + (a + w) % nwords) % nwords = a % nwords := by
  simp only [nwords] at *
  omega

lemma chained_add_sub {w w' : ℕ} (hw : w < nwords) (hw' : w' < nwords) :
    ((nwords - w + w') % nwords + w) % nwords = w' := by
  simp only [nwords] at *
  omega

lemma decodeTriple_encode {v : ℕ} (hv : v < 2 ^ 32) :
    ∃ w₁ w₂ w₃, encodeTriple nwords v = [w₁, w₂, w₃] ∧ (w₁ < nwords ∧ w₂ < nwords ∧ w₃ < nwords) ∧
      decodeTriple nwords w₁ w₂ w₃ = v := by
  have hpos : 0 < nwords := by decide
  have hlt : ∀ x, x % nwords < nwords := fun x ↦ mod_lt x hpos
  refine ⟨_, _, _, rfl, ⟨hlt _, hlt _, hlt _⟩, ?_⟩
  have htop : v / nwords / nwords % nwords = v / nwords / nwords := by
    apply mod_eq_of_lt
    simp only [nwords]
    omega
  have hsum : v % nwords + nwords * (v / nwords % nwords) +
      nwords * nwords * (v / nwords / nwords) = v := by
    simp only [nwords]
    omega
  rw [decodeTriple, chained_sub_add (hlt _), chained_sub_add (hlt _), htop, hsum,
    mod_eq_of_lt hv]

lemma encodeTriple_decode {w₁ w₂ w₃ : ℕ} (h₁ : w₁ < nwords) (h₂ : w₂ < nwords) (h₃ : w₃ < nwords)
    (hcheck : decodeTriple nwords w₁ w₂ w₃ % nwords = w₁) :
    encodeTriple nwords (decodeTriple nwords w₁ w₂ w₃) = [w₁, w₂, w₃] := by
  have hpos : 0 < nwords := by decide
  have ha := mod_lt (nwords - w₁ + w₂) hpos
  have hb := mod_lt (nwords - w₂ + w₃) hpos
  have hw₂ := chained_add_sub h₁ h₂
  have hw₃ := chained_add_sub h₂ h₃
  rw [decodeTriple] at hcheck ⊢
  generalize (nwords - w₁ + w₂) % nwords = a at *
  generalize (nwords - w₂ + w₃) % nwords = b at *
  simp only [nwords] at *
  have hsum : w₁ + 1626 * a + 1626 * 1626 * b < 2 ^ 32 := by omega
  rw [mod_eq_of_lt hsum]
  have hquot : (w₁ + 1626 * a + 1626 * 1626 * b) / 1626 = a + 1626 * b := by omega
  have hquot' : (a + 1626 * b) / 1626 = b := by omega
  have hfirst : (w₁ + 1626 * a + 1626 * 1626 * b) % 1626 = w₁ := by omega
  have hsecond : (a + 1626 * b + w₁) % 1626 = w₂ := by omega
  simp [encodeTriple, hquot, hquot', hfirst, hsecond, hw₃]

/-! ## Splitting a phrase -/

/-- A word of a list is not empty, has no space and is UTF-8. -/
structure ProperWord (w : Word) : Prop where
  ne_nil : w ≠ []
  no_space : ∀ c ∈ w, ¬ isSpace c
  wellFormed : WellFormed w

lemma splitLoop_word (fields : List Word) (w rest : Word) (hw : ∀ c ∈ w, ¬ isSpace c) (v : Word) :
    splitLoop (fields ++ [v]) false (w ++ rest) = splitLoop (fields ++ [v ++ w]) false rest := by
  induction w generalizing v with
  | nil => rw [nil_append, append_nil]
  | cons c w ih =>
    have hc : ¬ isSpace c := hw c mem_cons_self
    rw [cons_append, splitLoop, if_neg hc, if_neg Bool.false_ne_true, dropLast_concat,
      getLastD_concat, ih fun d hd ↦ hw d (mem_cons_of_mem c hd), append_assoc]
    rfl

lemma splitLoop_proper (fields : List Word) {w : Word} (rest : Word) (hw : ProperWord w) :
    splitLoop fields true (w ++ rest) = splitLoop (fields ++ [w]) false rest := by
  obtain ⟨c, s, rfl⟩ := exists_cons_of_ne_nil hw.ne_nil
  have hc : ¬ isSpace c := hw.no_space c mem_cons_self
  rw [cons_append, splitLoop, if_neg hc, if_pos rfl,
    splitLoop_word fields s rest (fun d hd ↦ hw.no_space d (mem_cons_of_mem c hd))]
  rfl

lemma split_phrase (words : List Word) {last : Word} (hwords : ∀ w ∈ words, ProperWord w)
    (hlast : ProperWord last) : split (words.flatMap (· ++ [32]) ++ last) = words ++ [last] := by
  have hloop : ∀ fields, splitLoop fields true (words.flatMap (· ++ [32]) ++ last) =
      fields ++ words ++ [last] := by
    induction words with
    | nil =>
      intro fields
      have hend := splitLoop_proper fields [] hlast
      rw [append_nil] at hend
      rw [flatMap_nil, nil_append, hend, append_nil]
      rfl
    | cons w words ih =>
      intro fields
      have hw := hwords w mem_cons_self
      rw [flatMap_cons, append_assoc, append_assoc, splitLoop_proper _ _ hw,
        singleton_append, splitLoop, if_pos (by decide),
        ih fun v hv ↦ hwords v (mem_cons_of_mem w hv)]
      simp
  exact hloop []

/-! ## Maps of words -/

section

variable {towlower : ℕ → ℕ}

variable {c w : Word} {m : WordMap} {id : LanguageId} {words : List Word} {i : ℕ}

lemma canonical_eq_ok : canonical towlower w = .ok c ↔ utf8Canonical towlower w = some c := by
  rw [canonical]
  cases utf8Canonical towlower w <;> simp

lemma WordMap.find_eq_ok {r : Option (Word × ℕ)} : find towlower m w = .ok r ↔
      ∃ c, utf8Canonical towlower w = some c ∧ WordMap.lookup towlower m c = r := by
  simp [find, bind_eq_ok, canonical_eq_ok]

/-- The map finds the words of the list, and what it finds is the index of a word with
that canonical form. -/
structure Indexes (towlower : ℕ → ℕ) (m : WordMap) (words : List Word) : Prop where
  sound : ∀ c e, WordMap.lookup towlower m c = some e →
    ∃ w, words[e.2]? = some w ∧ utf8Canonical towlower w = some c
  complete : ∀ w ∈ words, ∃ c, utf8Canonical towlower w = some c ∧
    (WordMap.lookup towlower m c).isSome

lemma WordMap.lookup_key {e : Word × ℕ}
    (h : WordMap.lookup towlower m c = some e) : utf8Canonical towlower e.1 = some c := by
  simpa using find?_some h

lemma WordMap.lookup_set {m' : WordMap} (hc : utf8Canonical towlower w = some c)
    (hset : WordMap.set towlower m w i = .ok m') (d : Word) :
    WordMap.lookup towlower m' d =
      if d = c then some (((WordMap.lookup towlower m c).map Prod.fst).getD w, i)
      else WordMap.lookup towlower m d := by
  rw [WordMap.set, canonical_eq_ok.mpr hc, ok_bind, Except.ok.injEq] at hset
  split_ifs at hset with hfound
  · obtain ⟨e, he⟩ := Option.isSome_iff_exists.mp hfound
    have hkeep : ∀ e : Word × ℕ,
        (if utf8Canonical towlower e.1 = some c then (e.1, i) else e).1 = e.1 := by
      intro e
      split_ifs <;> rfl
    have hmap : WordMap.lookup towlower m' d = (WordMap.lookup towlower m d).map fun e ↦
        if utf8Canonical towlower e.1 = some c then (e.1, i) else e := by
      rw [← hset, WordMap.lookup, find?_map, WordMap.lookup]
      simp [hkeep]
    rw [hmap]
    split_ifs with hd
    · rw [hd, he, map_some, if_pos (WordMap.lookup_key he)]
      rfl
    · cases hm : WordMap.lookup towlower m d with
      | none => rfl
      | some e =>
        have hne : utf8Canonical towlower e.1 ≠ some c := by
          rw [WordMap.lookup_key hm]
          exact fun h ↦ hd (Option.some.inj h)
        rw [map_some, if_neg hne]
  · have hnone : WordMap.lookup towlower m c = none := Option.not_isSome_iff_eq_none.mp hfound
    have happend : WordMap.lookup towlower m' d = (WordMap.lookup towlower m d).or
        (if c = d then some (w, i) else none) := by
      rw [← hset, WordMap.lookup, find?_append, WordMap.lookup]
      simp [find?_singleton, hc]
    rw [happend]
    split_ifs with hcd hdc hdc
    · rw [hdc, hnone]
      rfl
    · exact absurd hcd.symm hdc
    · exact absurd hdc.symm hcd
    · exact Option.or_none

lemma Indexes.nil : Indexes towlower [] [] where
  sound c e h := by simp [WordMap.lookup] at h
  complete w hw := by simp at hw

lemma Indexes.set {m' : WordMap} (h : Indexes towlower m words)
    (hset : WordMap.set towlower m w words.length = .ok m') :
    Indexes towlower m' (words ++ [w]) := by
  obtain ⟨c, hc, -⟩ := bind_eq_ok.mp hset
  rw [canonical_eq_ok] at hc
  have hlookup := WordMap.lookup_set hc hset
  constructor
  · intro d e he
    rw [hlookup] at he
    split_ifs at he with hd
    · cases he
      exact ⟨w, by simp, hd ▸ hc⟩
    · obtain ⟨v, hv, hcanon⟩ := h.sound d e he
      exact ⟨v, by rw [getElem?_append_left (List.getElem?_eq_some_iff.mp hv).1, hv], hcanon⟩
  · intro v hv
    rcases mem_append.mp hv with hv | hv
    · obtain ⟨d, hd, hsome⟩ := h.complete v hv
      refine ⟨d, hd, ?_⟩
      rw [hlookup]
      split_ifs
      · rfl
      · exact hsome
    · cases mem_singleton.mp hv
      refine ⟨c, hc, ?_⟩
      rw [hlookup, if_pos rfl]
      rfl

/-! ## Populated languages -/

lemma trim_eq (w : Word) (count : ℕ) : trim w count = utf8Prefix w count := by
  rw [trim]
  split_ifs with h
  · rfl
  · exact (utf8Prefix_of_length_le w (not_lt.mp h)).symm

/-- What a word is told apart by. -/
abbrev LanguageId.trimmedKey (id : LanguageId) (towlower : ℕ → ℕ) (w : Word) : Option Word :=
  utf8Canonical towlower (utf8Prefix w id.uniquePrefixLength)

/-- What the loop over the list has reached after `words`. -/
structure Populated (towlower : ℕ → ℕ) (id : LanguageId) (words : List Word)
    (maps : WordMap × WordMap) : Prop where
  full : Indexes towlower maps.1 words
  trimmed : Indexes towlower maps.2 (words.map fun w ↦ utf8Prefix w id.uniquePrefixLength)
  distinct : ¬ id.allowDuplicatePrefixes → (words.map (id.trimmedKey towlower)).Nodup

lemma Populated.step {maps maps' : WordMap × WordMap} (h : Populated towlower id words maps)
    (hstep : populateWord towlower id maps (w, words.length) = some maps') :
    Populated towlower id (words ++ [w]) maps' := by
  simp only [populateWord, trim_eq, bind_eq_bind, Option.bind_eq_some_iff] at hstep
  obtain ⟨wordMap, hfull, hstep⟩ := hstep
  split_ifs at hstep with hshort
  obtain ⟨found, hfound, hstep⟩ := Option.bind_eq_some_iff.mp hstep
  split_ifs at hstep with hduplicate
  obtain ⟨trimmedWordMap, htrimmed, hstep⟩ := Option.bind_eq_some_iff.mp hstep
  cases hstep
  rw [toOption_eq_some] at hfull hfound htrimmed
  have hlength : words.length = (words.map fun w ↦ utf8Prefix w id.uniquePrefixLength).length :=
    (length_map _).symm
  rw [hlength] at htrimmed
  refine ⟨h.full.set hfull, ?_, fun hdistinct ↦ ?_⟩
  · rw [map_append]
    exact h.trimmed.set htrimmed
  · obtain ⟨c, hc, hlookup⟩ := WordMap.find_eq_ok.mp hfound
    rw [map_append, nodup_append]
    refine ⟨h.distinct hdistinct, nodup_singleton _, ?_⟩
    rintro _ hv _ hw rfl
    obtain ⟨v, hv, hsame⟩ := mem_map.mp hv
    rw [map_singleton, mem_singleton, trimmedKey, hc] at hw
    obtain ⟨d, hd, hsome⟩ := h.trimmed.complete _ (mem_map_of_mem hv)
    rw [← trimmedKey, hsame, hw, some_inj] at hd
    rw [← hd, hlookup] at hsome
    exact hduplicate ⟨hsome, hdistinct⟩

lemma Populated.loop (words : List Word) {done : List Word}
    {maps maps' : WordMap × WordMap} (h : Populated towlower id done maps)
    (hrun : (words.zipIdx done.length).foldlM (populateWord towlower id) maps = some maps') :
    Populated towlower id (done ++ words) maps' := by
  induction words generalizing done maps with
  | nil =>
    cases hrun
    rwa [append_nil]
  | cons w words ih =>
    rw [zipIdx_cons, foldlM_cons, bind_eq_bind, Option.bind_eq_some_iff] at hrun
    obtain ⟨maps₁, hstep, hrun⟩ := hrun
    have hnext := h.step hstep
    have hlength : done.length + 1 = (done ++ [w]).length := by simp
    rw [hlength] at hrun
    have hloop := ih hnext hrun
    rwa [append_assoc] at hloop

variable (l : Language towlower id)

lemma Language.length_wordList : l.wordList.length = nwords := by
  have hpopulated := l.populated
  rw [populateMaps] at hpopulated
  split_ifs at hpopulated with hlength
  exact not_not.mp hlength

lemma Language.maps_populated :
    Populated towlower id l.wordList (l.wordMap, l.trimmedWordMap) := by
  have hpopulated := l.populated
  rw [populateMaps, if_neg (not_not.mpr l.length_wordList)] at hpopulated
  have hstart : Populated towlower id [] ([], []) := ⟨.nil, .nil, fun _ ↦ nodup_nil⟩
  exact hstart.loop l.wordList hpopulated

lemma Language.find_prefix_eq (hid : ¬ id.allowDuplicatePrefixes) (hw : l.wordList[i]? = some w) :
    ∃ e, find towlower l.trimmedWordMap (utf8Prefix w id.uniquePrefixLength) =
      .ok (some e) ∧ e.2 = i := by
  have hmaps := l.maps_populated
  obtain ⟨c, hc, hsome⟩ := hmaps.trimmed.complete _ (mem_map_of_mem (mem_of_getElem? hw))
  obtain ⟨e, he⟩ := Option.isSome_iff_exists.mp hsome
  refine ⟨e, WordMap.find_eq_ok.mpr ⟨c, hc, he⟩, ?_⟩
  obtain ⟨v, hv, hcanon⟩ := hmaps.trimmed.sound c e he
  rw [getElem?_map, map_eq_some_iff] at hv
  obtain ⟨u, hu, rfl⟩ := hv
  have hdistinct := hmaps.distinct hid
  have hlt : e.2 < (l.wordList.map (id.trimmedKey towlower)).length := by
    rw [length_map]
    exact (List.getElem?_eq_some_iff.mp hu).1
  apply (getElem?_inj hlt hdistinct).mp
  rw [getElem?_map, getElem?_map, hu, hw, map_some, map_some, trimmedKey, trimmedKey, hcanon, hc]

end

/-! ## Matching words -/

section

variable {towlower : ℕ → ℕ} {crc : Word → ℕ} {lang : (id : LanguageId) → Language towlower id}

variable {checked : Bool} {id : LanguageId} {words seed : List Word} {indices : List ℕ}
  {w x : Word} {k len : ℕ} {e : Word × ℕ} {ids : List LanguageId} {name : String}

lemma matchWords_eq_some : matchWords lang checked id words = .ok (some indices) ↔
      Forall₂ (fun w i ↦ ∃ e, findWord lang checked id w = .ok (some e) ∧ e.2 = i) words
        indices := by
  induction words generalizing indices with
  | nil =>
    rw [matchWords, forall₂_nil_left_iff, Except.ok.injEq, some_inj]
    exact eq_comm
  | cons w words ih =>
    rw [matchWords, bind_eq_ok, forall₂_cons_left_iff]
    constructor
    · rintro ⟨found, hfound, hrest⟩
      cases found with
      | none => cases hrest
      | some e =>
        obtain ⟨rest, hmatch, hrest⟩ := bind_eq_ok.mp hrest
        rw [Except.ok.injEq, map_eq_some_iff] at hrest
        obtain ⟨is, rfl, rfl⟩ := hrest
        exact ⟨e.2, is, ⟨e, hfound, rfl⟩, ih.mp hmatch, rfl⟩
    · rintro ⟨i, is, ⟨e, hfound, rfl⟩, hwords, rfl⟩
      refine ⟨some e, hfound, ?_⟩
      simp [ih.mpr hwords]

lemma matchWords_total (h : ∀ w ∈ words, ∃ r, findWord lang checked id w = .ok r) :
    ∃ r, matchWords lang checked id words = .ok r := by
  induction words with
  | nil => exact ⟨some [], rfl⟩
  | cons w words ih =>
    obtain ⟨found, hfound⟩ := h w mem_cons_self
    obtain ⟨rest, hrest⟩ := ih fun v hv ↦ h v (mem_cons_of_mem w hv)
    rw [matchWords, hfound, ok_bind]
    cases found with
    | none => exact ⟨none, rfl⟩
    | some e => exact ⟨rest.map (e.2 :: ·), by simp [hrest]⟩

lemma getD_mem {words : List Word} {i : ℕ} (hi : i < words.length) : words.getD i [] ∈ words := by
  rw [getD_eq_getElem _ _ hi]
  exact getElem_mem hi

lemma createChecksumIndex_ok (crc : Word → ℕ)
    (hne : words ≠ []) (h : ∀ w ∈ words, ∃ e, findWord lang true id w = .ok (some e)) :
    ∃ idx < words.length, createChecksumIndex crc lang id words = .ok idx := by
  have hpos : 0 < words.length := length_pos_iff.mpr hne
  have htrimmed : ∀ w ∈ words, ∃ t, trimmedWord lang id w = .ok t := by
    intro w hw
    obtain ⟨e, he⟩ := h w hw
    rw [findWord, if_pos rfl] at he
    exact ⟨e.1, by rw [trimmedWord, he, ok_bind]⟩
  obtain ⟨ts, hts⟩ := mapM_ok htrimmed
  refine ⟨crc ts.flatten % words.length, mod_lt _ hpos, ?_⟩
  rw [createChecksumIndex, hts, ok_bind, if_neg hpos.ne']

lemma canonical_of_found (h : findWord lang true id w = .ok (some e)) :
    ∃ c, canonical towlower (trim w id.uniquePrefixLength) = .ok c := by
  rw [findWord, if_pos rfl] at h
  obtain ⟨c, hc, -⟩ := WordMap.find_eq_ok.mp h
  exact ⟨c, by rwa [trim_eq, canonical_eq_ok]⟩

lemma checksumTest_total (crc : Word → ℕ) {last : Word}
    (hne : words ≠ []) (h : ∀ w ∈ words ++ [last], ∃ e, findWord lang true id w = .ok (some e)) :
    ∃ b, checksumTest crc lang id (words ++ [last]) = .ok b := by
  have hwords : ∀ w ∈ words, ∃ e, findWord lang true id w = .ok (some e) :=
    fun w hw ↦ h w (mem_append_left _ hw)
  obtain ⟨idx, hidx, hindex⟩ := createChecksumIndex_ok crc hne hwords
  obtain ⟨e, he⟩ := hwords _ (getD_mem hidx)
  obtain ⟨a, ha⟩ := canonical_of_found he
  obtain ⟨e', he'⟩ := h last (mem_append_right _ (mem_singleton_self last))
  obtain ⟨b, hb⟩ := canonical_of_found he'
  exact ⟨a = b, by
    simp only [checksumTest, getLast?_concat, dropLast_concat, hindex, ok_bind, ha, hb]⟩

lemma findSeedLanguage_first (htotal : ∀ id', ∃ r, matchWords lang true id' seed = .ok r)
    (hchecked : ∀ id' is, matchWords lang true id' seed = .ok (some is) →
      ∃ b, checksumTest crc lang id' seed = .ok b)
    (hmatch : matchWords lang true id seed = .ok (some indices))
    (htest : checksumTest crc lang id seed = .ok true) (hid : id ∈ ids)
    (fallback : Option LanguageId) :
    findSeedLanguage crc lang seed true fallback ids = .ok (id, indices) ∨
      ∃ id' ∈ ids.takeWhile (· ≠ id), (∃ is, matchWords lang true id' seed = .ok (some is)) ∧
        checksumTest crc lang id' seed = .ok true := by
  induction ids generalizing fallback with
  | nil => cases hid
  | cons id₀ ids ih =>
    by_cases heq : id₀ = id
    · left
      rw [heq, findSeedLanguage, hmatch, ok_bind]
      simp only [if_true, htest, ok_bind]
    · have hlater : id ∈ ids := (mem_cons.mp hid).resolve_left (Ne.symm heq)
      have hstep : (∃ fallback', findSeedLanguage crc lang seed true fallback (id₀ :: ids) =
          findSeedLanguage crc lang seed true fallback' ids) ∨
          (∃ is, matchWords lang true id₀ seed = .ok (some is)) ∧
            checksumTest crc lang id₀ seed = .ok true := by
        obtain ⟨r, hr⟩ := htotal id₀
        rw [findSeedLanguage, hr, ok_bind]
        cases r with
        | none => exact .inl ⟨fallback, rfl⟩
        | some is =>
          obtain ⟨b, hb⟩ := hchecked id₀ is hr
          cases b with
          | true => exact .inr ⟨⟨is, rfl⟩, hb⟩
          | false =>
            left
            simp only [if_true, hb, ok_bind, Bool.false_eq_true, if_false]
            exact ⟨some id₀, rfl⟩
      rw [takeWhile_cons_of_pos (by simpa using heq)]
      rcases hstep with ⟨fallback', hnext⟩ | hother
      · rw [hnext]
        rcases ih hlater fallback' with hfound | ⟨id', hid', hother⟩
        · exact .inl hfound
        · exact .inr ⟨id', mem_cons_of_mem _ hid', hother⟩
      · exact .inr ⟨id₀, mem_cons_self, hother⟩

/-! ## Indices and bytes -/

lemma decodeIndices_bytesToIndices (hx : x.length = 4 * k) (more : List ℕ) :
    (bytesToIndices nwords x).length = 3 * k ∧ (∀ i ∈ bytesToIndices nwords x, i < nwords) ∧
      decodeIndices nwords k (bytesToIndices nwords x ++ more) = .ok x := by
  induction k generalizing x with
  | zero =>
    cases length_eq_zero_iff.mp hx
    exact ⟨rfl, by simp [bytesToIndices], rfl⟩
  | succ k ih =>
    obtain ⟨a, b, c, d, y, rfl⟩ : ∃ a b c d y, x = a :: b :: c :: d :: y := by
      rcases x with _ | ⟨a, _ | ⟨b, _ | ⟨c, _ | ⟨d, y⟩⟩⟩⟩
      · simp at hx
      · simp only [length_cons, length_nil] at hx
        omega
      · simp only [length_cons, length_nil] at hx
        omega
      · simp only [length_cons, length_nil] at hx
        omega
      · exact ⟨a, b, c, d, y, rfl⟩
    have hy : y.length = 4 * k := by simpa [mul_succ] using hx
    obtain ⟨hlength, hbound, hdecode⟩ := ih hy
    obtain ⟨hvalue, hagain⟩ := toLittleEndian_ofLittleEndian [a, b, c, d]
    obtain ⟨w₁, w₂, w₃, henc, ⟨h₁, h₂, h₃⟩, hdec⟩ := decodeTriple_encode
      (v := ofLittleEndian [a, b, c, d]) (by simpa using hvalue)
    have hfirst : ofLittleEndian [a, b, c, d] % nwords = w₁ := by
      simp only [encodeTriple, cons.injEq] at henc
      exact henc.1
    rw [bytesToIndices, henc]
    refine ⟨by simp [hlength]; omega, ?_, ?_⟩
    · simpa [h₁, h₂, h₃] using hbound
    · simp only [cons_append, nil_append, decodeIndices, hdec, hfirst, ne_eq,
        not_true_eq_false, if_false, hdecode, ok_bind]
      exact congrArg (fun l ↦ Except.ok (l ++ y)) hagain

lemma length_of_decode {n : ℕ} (h : decodeIndices n k indices = .ok x) : x.length = 4 * k := by
  induction k generalizing indices x with
  | zero =>
    cases h
    rfl
  | succ k ih =>
    rcases indices with _ | ⟨w₁, _ | ⟨w₂, _ | ⟨w₃, ws⟩⟩⟩
    · cases h
    · cases h
    · cases h
    · rw [decodeIndices, ite_error_eq_ok, bind_eq_ok] at h
      obtain ⟨-, rest, hrest, hx⟩ := h
      cases hx
      rw [length_append, ih hrest, toLittleEndian_length, mul_succ, Nat.add_comm]

lemma bytesToIndices_of_decode
    (hbound : ∀ i ∈ indices, i < nwords) (h : decodeIndices nwords k indices = .ok x) :
    indices.take (3 * k) = bytesToIndices nwords x := by
  induction k generalizing indices x with
  | zero =>
    cases h
    simp [bytesToIndices]
  | succ k ih =>
    rcases indices with _ | ⟨w₁, _ | ⟨w₂, _ | ⟨w₃, ws⟩⟩⟩
    · cases h
    · cases h
    · cases h
    · rw [decodeIndices, ite_error_eq_ok, bind_eq_ok] at h
      obtain ⟨hcheck, y, hy, hx⟩ := h
      cases hx
      simp only [forall_mem_cons] at hbound
      obtain ⟨h₁, h₂, h₃, hrest⟩ := hbound
      have htake := ih hrest hy
      have hlt : decodeTriple nwords w₁ w₂ w₃ < 256 ^ 4 := mod_lt _ (by decide)
      have hback := ofLittleEndian_toLittleEndian hlt
      have hbytes : ∃ a b c d, toLittleEndian 4 (decodeTriple nwords w₁ w₂ w₃) = [a, b, c, d] :=
        ⟨_, _, _, _, rfl⟩
      obtain ⟨a, b, c, d, hbytes⟩ := hbytes
      rw [hbytes] at hback ⊢
      have htriple := encodeTriple_decode h₁ h₂ h₃ (not_not.mp hcheck)
      simp only [cons_append, nil_append, bytesToIndices, hback, htriple, ← htake,
        mul_succ, take_succ_cons]

/-! ## From bytes to words and back -/

lemma languageOf_name (hid : id ∈ languageList)
    (hname : name = id.languageName ∨ name = id.englishLanguageName) :
    languageOf name = some id := by
  revert hid
  rcases hname with rfl | rfl
  · cases id <;> decide
  · cases id <;> decide

lemma languageList_search (hid : id ∈ languageList) :
    id ∈ searchOrder ∧ ¬ id.allowDuplicatePrefixes := by
  revert hid
  cases id <;> decide

lemma Language.canonical_prefix_eq (l : Language towlower id)
    (hw : w ∈ l.wordList) (hwell : WellFormed w) (count : ℕ) :
    ∃ c, utf8Canonical towlower (utf8Prefix w count) = some c := by
  obtain ⟨c, hc, -⟩ := l.maps_populated.full.complete w hw
  exact ⟨_, (hwell.canonical_prefix_eq hc).2 count⟩

lemma matchWords_store (hid : ¬ id.allowDuplicatePrefixes) (hbound : ∀ i ∈ indices, i < nwords) :
    matchWords lang true id (indices.map fun i ↦ (lang id).wordList.getD i []) =
      .ok (some indices) := by
  rw [matchWords_eq_some, forall₂_map_left_iff]
  apply forall₂_same.mpr
  intro i hi
  have hlt : i < (lang id).wordList.length := by
    rw [(lang id).length_wordList]
    exact hbound i hi
  rw [getD_eq_getElem _ _ hlt]
  obtain ⟨e, he, hindex⟩ := (lang id).find_prefix_eq hid (getElem?_eq_getElem hlt)
  exact ⟨e, by rw [findWord, if_pos rfl, he], hindex⟩

lemma matchWords_found (h : matchWords lang checked id words = .ok (some indices)) (hw : w ∈ words)
    : ∃ e, findWord lang checked id w = .ok (some e) := by
  rw [matchWords_eq_some] at h
  induction h with
  | nil => cases hw
  | cons hfound _ ih =>
    rcases mem_cons.mp hw with rfl | hw
    · obtain ⟨e, he, -⟩ := hfound
      exact ⟨e, he⟩
    · exact ih hw

lemma bytesToWords_read_back (hid : id ∈ languageList)
    (hproper : ∀ w ∈ (lang id).wordList, ProperWord w) (hk : 1 ≤ k) (hx : x.length = 4 * k)
    (hname : name = id.languageName ∨ name = id.englishLanguageName) (duplicate : Bool) :
    ∃ phrase, bytesToWords crc lang x name = .ok phrase ∧
      (wordsToBytes crc lang phrase (4 * k) duplicate = .ok (id, x) ∨
        ∃ id' ∈ LanguageId.searchOrder.takeWhile (· ≠ id),
          (∀ w ∈ split phrase, ∃ e, findWord lang true id' w = .ok (some e)) ∧
            checksumTest crc lang id' (split phrase) = .ok true) := by
  obtain ⟨hsearch, hdistinct⟩ := languageList_search hid
  set store := (bytesToIndices nwords x).map fun i ↦ (lang id).wordList.getD i [] with hstore
  obtain ⟨hcount, hbound, -⟩ := decodeIndices_bytesToIndices hx []
  have hmember : ∀ w ∈ store, w ∈ (lang id).wordList := by
    intro w hw
    obtain ⟨i, hi, rfl⟩ := mem_map.mp hw
    exact getD_mem ((lang id).length_wordList.symm ▸ hbound i hi)
  have hlength : store.length = 3 * k := by rw [hstore, length_map, hcount]
  have hne : store ≠ [] := length_pos_iff.mp (by omega)
  have hfound : ∀ w ∈ store, ∃ e, findWord lang true id w = .ok (some e) :=
    fun w hw ↦ matchWords_found (matchWords_store hdistinct hbound) hw
  obtain ⟨idx, hidx, hindex⟩ := createChecksumIndex_ok crc hne hfound
  have hlast : store.getD idx [] ∈ store := getD_mem hidx
  set seed := store ++ [store.getD idx []] with hseed
  have hsplit : split (store.flatMap (· ++ [32]) ++ store.getD idx []) = seed :=
    split_phrase store (fun w hw ↦ hproper w (hmember w hw)) (hproper _ (hmember _ hlast))
  refine ⟨store.flatMap (· ++ [32]) ++ store.getD idx [], ?_, ?_⟩
  · have hguard : ¬ (x.length % 4 ≠ 0 ∨ x.length = 0) := by omega
    rw [bytesToWords, if_neg hguard, languageOf_name hid hname]
    simp only [(lang id).length_wordList, ← hstore, hindex, ok_bind]
  · obtain ⟨j, hj, hjlast⟩ := mem_map.mp hlast
    have hmatch : matchWords lang true id seed = .ok (some (bytesToIndices nwords x ++ [j])) := by
      have hbound' : ∀ i ∈ bytesToIndices nwords x ++ [j], i < nwords :=
        forall_mem_append.mpr ⟨hbound, forall_mem_singleton.mpr (hbound j hj)⟩
      rw [← matchWords_store hdistinct hbound', map_append, ← hstore, map_singleton, hjlast, hseed]
    have htest : checksumTest crc lang id seed = .ok true := by
      obtain ⟨e, he⟩ := hfound _ hlast
      obtain ⟨c, hc⟩ := canonical_of_found he
      simp only [hseed, checksumTest, getLast?_concat, dropLast_concat, hindex, ok_bind, hc,
        decide_true]
    have htotal : ∀ id', ∃ r, matchWords lang true id' seed = .ok r := by
      intro id'
      apply matchWords_total
      intro w hw
      have hw' : w ∈ store := by
        rcases mem_append.mp hw with hw | hw
        · exact hw
        · rwa [mem_singleton.mp hw]
      obtain ⟨c, hc⟩ := (lang id).canonical_prefix_eq (hmember w hw')
        (hproper w (hmember w hw')).wellFormed id'.uniquePrefixLength
      rw [findWord, if_pos rfl]
      exact ⟨_, WordMap.find_eq_ok.mpr ⟨c, hc, rfl⟩⟩
    have hchecked : ∀ id' is, matchWords lang true id' seed = .ok (some is) →
        ∃ b, checksumTest crc lang id' seed = .ok b :=
      fun id' is his ↦ checksumTest_total crc hne fun w hw ↦ matchWords_found his hw
    rw [hsplit]
    rcases findSeedLanguage_first htotal hchecked hmatch htest hsearch none with
      hfind | ⟨id', hid', ⟨is, his⟩, hother⟩
    · left
      obtain ⟨-, -, hdecode⟩ := decodeIndices_bytesToIndices hx [j]
      have hcount' : seed.length = expectedWords (4 * k) + 1 := by
        rw [hseed, length_append, hlength, expectedWords, length_singleton]
        omega
      have hflag : hasChecksum (4 * k) seed = true := by simp [hasChecksum, hcount']
      have hdata : seed.dropLast = store := dropLast_concat
      have hdup : ¬ (0 < 4 * k ∧ duplicate = true ∧ 3 * k = 4 * k * 3 / 32 / 2) := by omega
      have hthird : 3 * k / 3 = k := by omega
      have hlen : ¬ 4 * k % 4 ≠ 0 := by omega
      rw [wordsToBytes, hsplit]
      simp only [if_neg hlen, hcount', hflag, hfind, ok_bind, if_true, htest, dataWords, hdata,
        hlength, hthird, (lang id).length_wordList, hdecode, if_neg hdup,
        ne_eq, not_true_eq_false, and_false, if_false]
    · exact .inr ⟨id', hid', fun w hw ↦ matchWords_found his hw, hother⟩

/-! ## Phrases with one decoding -/

lemma findSeedLanguage_matched {fallback : Option LanguageId}
    (hfallback : ∀ f, fallback = some f →
      checked = true ∧ checksumTest crc lang f seed = .ok false)
    (h : findSeedLanguage crc lang seed checked fallback ids = .ok (id, indices)) :
    matchWords lang checked id seed = .ok (some indices) ∨
      checked = true ∧ checksumTest crc lang id seed = .ok false := by
  induction ids generalizing fallback with
  | nil =>
    cases fallback with
    | none => cases h
    | some f =>
      cases h
      exact .inr (hfallback _ rfl)
  | cons id₀ ids ih =>
    rw [findSeedLanguage, bind_eq_ok] at h
    obtain ⟨r, hr, h⟩ := h
    cases r with
    | none => exact ih hfallback h
    | some is =>
      cases checked with
      | false =>
        cases h
        exact .inl hr
      | true =>
        obtain ⟨b, hb, h⟩ := bind_eq_ok.mp h
        cases b with
        | true =>
          cases h
          exact .inl hr
        | false =>
          refine ih (fun f hf ↦ ?_) h
          cases hf
          exact ⟨rfl, hb⟩

/-- Half the expected number of words is never the number that the branch for
`duplicate` asks for. -/
theorem dataWords_length_ne (hlen : len % 4 = 0) (hpos : 0 < len)
    (hsize : ¬ (len ≠ 0 ∧ seed.length ≠ expectedWords len / 2 ∧ seed.length ≠ expectedWords len ∧
      seed.length ≠ expectedWords len + 1)) : (dataWords len seed).length ≠ len * 3 / 32 / 2 := by
  have hflag : hasChecksum len seed = true ↔ seed.length = expectedWords len + 1 := by
    simp [hasChecksum, hpos.ne']
  rw [dataWords]
  simp only [hflag]
  rw [expectedWords] at *
  split_ifs with hchecked
  · rw [length_dropLast]
    omega
  · omega

lemma wordsToBytes_accepted {words : Word} {duplicate : Bool}
    (h : wordsToBytes crc lang words len duplicate = .ok (id, x)) :
    ∃ indices, matchWords lang (hasChecksum len (split words)) id (split words) =
        .ok (some indices) ∧
      decodeIndices nwords ((dataWords len (split words)).length / 3) indices = .ok x := by
  rw [wordsToBytes] at h
  simp only [ite_error_eq_ok, bind_eq_ok] at h
  obtain ⟨hlen, hsize, ⟨id', indices⟩, hfind, valid, hvalid, hok, dst, hdst, h⟩ := h
  have hplain : ¬ (0 < len ∧ duplicate = true ∧
      (dataWords len (split words)).length = len * 3 / 32 / 2) :=
    fun hdup ↦ dataWords_length_ne (not_not.mp hlen) hdup.1 hsize hdup.2.2
  simp only [if_neg hplain, Except.ok.injEq, Prod.mk.injEq] at h hdst hvalid
  obtain ⟨rfl, rfl⟩ := h
  rw [(lang id').length_wordList] at hdst
  refine ⟨indices, ?_, hdst⟩
  rcases findSeedLanguage_matched (by simp) hfind with hmatch | ⟨hchecked, htest⟩
  · exact hmatch
  · -- the fallback language has failed its checksum before
    rw [if_pos hchecked, htest] at hvalid
    cases hvalid
    exact absurd Bool.false_ne_true hok

lemma prefix_of_found (hproper : ∀ w ∈ (lang id).wordList, ProperWord w) (hw : WellFormed w)
    (h : findWord lang checked id w = .ok (some e)) :
    e.2 < nwords ∧ id.trimmedKey towlower w =
      id.trimmedKey towlower ((lang id).wordList.getD e.2 []) := by
  have hmaps := (lang id).maps_populated
  rw [findWord] at h
  cases checked with
  | true =>
    obtain ⟨c, hc, he⟩ := WordMap.find_eq_ok.mp h
    obtain ⟨t, ht, hcanon⟩ := hmaps.trimmed.sound c e he
    rw [getElem?_map, map_eq_some_iff] at ht
    obtain ⟨v, hv, rfl⟩ := ht
    rw [getD_eq_getElem?_getD, hv, getD_some, trimmedKey, trimmedKey, hc, hcanon,
      ← (lang id).length_wordList]
    exact ⟨(List.getElem?_eq_some_iff.mp hv).1, rfl⟩
  | false =>
    obtain ⟨c, hc, he⟩ := WordMap.find_eq_ok.mp h
    obtain ⟨v, hv, hcanon⟩ := hmaps.full.sound c e he
    rw [getD_eq_getElem?_getD, hv, getD_some, ← (lang id).length_wordList]
    have hvwell := (hproper v (mem_of_getElem? hv)).wellFormed
    rw [trimmedKey, trimmedKey, (hw.canonical_prefix_eq hc).2,
      (hvwell.canonical_prefix_eq hcanon).2]
    exact ⟨(List.getElem?_eq_some_iff.mp hv).1, rfl⟩

lemma take_dataWords {n : ℕ} (hn : n ≤ (dataWords len seed).length) :
    (dataWords len seed).take n = seed.take n := by
  rw [dataWords] at hn ⊢
  split_ifs at hn ⊢
  · rw [dropLast_eq_take, take_take, Nat.min_eq_left (by simpa using hn)]
  · rfl

/-- What the complete threes of data words are recognised by. -/
def triplePrefixes (towlower : ℕ → ℕ) (id : LanguageId) (len : ℕ) (words : Word) :
    List (Option Word) :=
  let data := dataWords len (split words)
  (data.take (3 * (data.length / 3))).map (id.trimmedKey towlower)

lemma prefixes_of_accepted (hproper : ∀ w ∈ (lang id).wordList, ProperWord w) {words : Word}
    {duplicate : Bool} (hwell : ∀ w ∈ split words, WellFormed w)
    (h : wordsToBytes crc lang words len duplicate = .ok (id, x)) :
    (∃ k, x.length = 4 * k) ∧ triplePrefixes towlower id len words =
      (bytesToIndices nwords x).map fun i ↦
        id.trimmedKey towlower ((lang id).wordList.getD i []) := by
  obtain ⟨indices, hmatch, hdecode⟩ := wordsToBytes_accepted h
  rw [matchWords_eq_some] at hmatch
  have hfound : Forall₂ (fun w i ↦ i < nwords ∧
      id.trimmedKey towlower w = id.trimmedKey towlower ((lang id).wordList.getD i []))
        (split words) indices := by
    apply ((forall₂_and_left _ _).mpr ⟨hwell, hmatch⟩).imp
    rintro w i ⟨hw, e, he, rfl⟩
    exact prefix_of_found hproper hw he
  have hbound : ∀ i ∈ indices, i < nwords := ((forall₂_and_left _ _).mp hfound.flip).1
  have htake := bytesToIndices_of_decode hbound hdecode
  have hdata := forall₂_take (3 * ((dataWords len (split words)).length / 3)) hfound
  rw [← take_dataWords (mul_div_le _ _), htake] at hdata
  refine ⟨⟨_, length_of_decode hdecode⟩, ?_⟩
  apply forall₂_eq_eq_eq ▸ forall₂_map_left_iff.mpr (forall₂_map_right_iff.mpr _)
  exact hdata.imp fun w i h ↦ h.2

lemma bytes_eq_of_prefixes (hid : id ∈ languageList) {y : Word} (hx : ∃ k, x.length = 4 * k)
    (hy : ∃ k, y.length = 4 * k)
    (h : (bytesToIndices nwords x).map
        (fun i ↦ id.trimmedKey towlower ((lang id).wordList.getD i [])) =
      (bytesToIndices nwords y).map fun i ↦
        id.trimmedKey towlower ((lang id).wordList.getD i [])) : x = y := by
  obtain ⟨k, hk⟩ := hx
  obtain ⟨m, hm⟩ := hy
  obtain ⟨hlength, hbound, hdecode⟩ := decodeIndices_bytesToIndices hk []
  obtain ⟨hlength', hbound', hdecode'⟩ := decodeIndices_bytesToIndices hm []
  -- the prefixes of a list are distinct, so that the place of a prefix is its index
  have hplaces : ∀ is : List ℕ, (∀ i ∈ is, i < nwords) →
      (is.map fun i ↦ id.trimmedKey towlower ((lang id).wordList.getD i [])).map
          ((lang id).wordList.map (id.trimmedKey towlower)).idxOf = is := by
    intro is his
    rw [map_map]
    refine (map_congr_left fun i hi ↦ ?_).trans (map_id is)
    have hlt : i < (lang id).wordList.length := (lang id).length_wordList.symm ▸ his i hi
    have hnodup := (lang id).maps_populated.distinct (languageList_search hid).2
    have hplace := hnodup.idxOf_getElem i (by rwa [length_map])
    rwa [getElem_map, ← getD_eq_getElem _ [] hlt] at hplace
  have hindices : bytesToIndices nwords x = bytesToIndices nwords y := by
    rw [← hplaces _ hbound, h, hplaces _ hbound']
  obtain rfl : k = m := by
    rw [hindices, hlength'] at hlength
    omega
  rw [hindices, hdecode'] at hdecode
  exact (Except.ok.inj hdecode).symm

/-- A key is read back from its phrase unless an earlier language fits the phrase as well,
and two phrases decode to one key exactly when their complete threes of words have the
same prefixes. -/
theorem seedPhrase_decodes {id : LanguageId} (hid : id ∈ languageList)
    (hproper : ∀ w ∈ (lang id).wordList, ProperWord w) :
    (∀ x k name duplicate, 1 ≤ k → x.length = 4 * k →
      (name = id.languageName ∨ name = id.englishLanguageName) →
      ∃ phrase, bytesToWords crc lang x name = .ok phrase ∧
        (wordsToBytes crc lang phrase (4 * k) duplicate = .ok (id, x) ∨
          ∃ id' ∈ LanguageId.searchOrder.takeWhile (· ≠ id),
            (∀ w ∈ split phrase, ∃ e, findWord lang true id' w = .ok (some e)) ∧
              checksumTest crc lang id' (split phrase) = .ok true)) ∧
      ∀ p q x y len len' duplicate duplicate', (∀ w ∈ split p ++ split q, WellFormed w) →
        wordsToBytes crc lang p len duplicate = .ok (id, x) →
        wordsToBytes crc lang q len' duplicate' = .ok (id, y) →
        (x = y ↔ triplePrefixes towlower id len p = triplePrefixes towlower id len' q) := by
  constructor
  · intro x k name duplicate hk hx hname
    exact bytesToWords_read_back hid hproper hk hx hname duplicate
  · intro p q x y len len' duplicate duplicate' hwell haccept haccept'
    obtain ⟨hp, hq⟩ := forall_mem_append.mp hwell
    obtain ⟨hx, hprefixes⟩ := prefixes_of_accepted hproper hp haccept
    obtain ⟨hy, hprefixes'⟩ := prefixes_of_accepted hproper hq haccept'
    rw [hprefixes, hprefixes']
    exact ⟨fun hxy ↦ by rw [hxy], bytes_eq_of_prefixes hid hx hy⟩

lemma findWord_of_mem (hw : w ∈ (lang id).wordList) :
    ∃ e, findWord lang false id w = .ok (some e) := by
  obtain ⟨c, hc, hsome⟩ := (lang id).maps_populated.full.complete w hw
  obtain ⟨e, he⟩ := Option.isSome_iff_exists.mp hsome
  exact ⟨e, WordMap.find_eq_ok.mpr ⟨c, hc, he⟩⟩

/-- For a key of four bytes, half the expected three words is one word, which stands for
no byte at all. -/
theorem wordsToBytes_single (hw : w ∈ (lang .chineseSimplified).wordList) (hproper : ProperWord w)
    (duplicate : Bool) : wordsToBytes crc lang w 4 duplicate = .ok (.chineseSimplified, []) := by
  have hsplit : split w = [w] := split_phrase [] (by simp) hproper
  obtain ⟨e, hfound⟩ := findWord_of_mem hw
  have hfind : findSeedLanguage crc lang [w] false none searchOrder =
      .ok (.chineseSimplified, [e.2]) := by
    simp [searchOrder, findSeedLanguage, matchWords, hfound]
  rw [wordsToBytes, hsplit]
  simp [expectedWords, hasChecksum, dataWords, hfind, decodeIndices]

end

/-! ## Languages over a sample list -/

section

variable {towlower : ℕ → ℕ}

lemma populateMaps_isSome {id : LanguageId} {words : List Word} (hlength : words.length = nwords)
    (hlong : ∀ w ∈ words, id.uniquePrefixLength ≤ w.length)
    (hcanonical : ∀ w ∈ words, (utf8Canonical towlower w).isSome ∧
      (utf8Canonical towlower (utf8Prefix w id.uniquePrefixLength)).isSome)
    (hdistinct : (words.map fun w ↦
      utf8Canonical towlower (utf8Prefix w id.uniquePrefixLength)).Nodup) :
    (populateMaps towlower id words).isSome := by
  have hloop : ∀ rest done maps, done ++ rest = words → Populated towlower id done maps →
      ((rest.zipIdx done.length).foldlM (populateWord towlower id) maps).isSome := by
    intro rest
    induction rest with
    | nil =>
      intro done maps _ _
      rfl
    | cons w rest ih =>
      intro done maps hwords hmaps
      have hw : w ∈ words := hwords ▸ mem_append_right _ mem_cons_self
      obtain ⟨hfull, htrim⟩ := hcanonical w hw
      obtain ⟨c, hc⟩ := Option.isSome_iff_exists.mp hfull
      obtain ⟨d, hd⟩ := Option.isSome_iff_exists.mp htrim
      have hnew : WordMap.lookup towlower maps.2 d = none := by
        by_contra hsome
        obtain ⟨e, he⟩ := Option.ne_none_iff_exists'.mp hsome
        obtain ⟨t, ht, hsame⟩ := hmaps.trimmed.sound d e he
        obtain ⟨v, hv, rfl⟩ := mem_map.mp (mem_of_getElem? ht)
        rw [← hwords, map_append, nodup_append] at hdistinct
        exact hdistinct.2.2 _ (mem_map_of_mem hv) _
          (mem_map_of_mem mem_cons_self) (hsame.trans hd.symm)
      obtain ⟨maps', hstep⟩ :
          ∃ maps', populateWord towlower id maps (w, done.length) = some maps' := by
        have hshort : ¬ (w.length < id.uniquePrefixLength ∧ ¬ id.allowShortWords) :=
          fun h ↦ absurd (hlong w hw) (not_le.mpr h.1)
        simp only [populateWord, trim_eq, WordMap.set, find, canonical_eq_ok.mpr hc,
          canonical_eq_ok.mpr hd, ok_bind, Except.toOption, bind_eq_bind, bind_some,
          if_neg hshort, hnew, Option.isSome_none, Bool.false_eq_true, false_and, if_false]
        exact ⟨_, rfl⟩
      rw [zipIdx_cons, foldlM_cons, hstep, bind_eq_bind, bind_some]
      have hnext := ih (done ++ [w]) maps' (by rw [← hwords]; simp) (hmaps.step hstep)
      rwa [length_append, length_singleton] at hnext
  rw [populateMaps, if_neg (not_not.mpr hlength)]
  exact hloop words [] ([], []) rfl ⟨.nil, .nil, fun _ ↦ nodup_nil⟩

/-- A Chinese character and a letter. -/
def sampleWord (i : ℕ) : Word := (encodePoint (0x4e00 + i)).getD [] ++ [97]

def sampleWords : List Word := (range nwords).map sampleWord

lemma mem_sampleWords {w : Word} : w ∈ sampleWords ↔ ∃ i < nwords, sampleWord i = w := by
  simp [sampleWords]

variable {i : ℕ}

lemma sampleWord_eq (hi : i < nwords) :
    ∃ c cs, encodePoint (0x4e00 + i) = some (c :: cs) ∧ sampleWord i = c :: (cs ++ [97]) ∧
      cs.length = 2 ∧ continuations c = some cs.length ∧ ∀ b ∈ cs, isContinuation b := by
  rw [nwords] at hi
  obtain ⟨x, y, z, he⟩ : ∃ x y z, encodePoint (0x4e00 + i) = some [x, y, z] := by
    rw [encodePoint, if_neg (by omega), if_neg (by omega), if_pos (by omega)]
    exact ⟨_, _, _, rfl⟩
  obtain ⟨c, cs, hchar, hlead, hcs⟩ := encodePoint_character he
  cases hchar
  exact ⟨x, [y, z], he, by rw [sampleWord, he]; rfl, rfl, hlead, hcs⟩

lemma wellFormed_letter : WellFormed [97] := @WellFormed.cons 97 [] [] (by decide) (by simp) .nil

lemma sampleWord_proper (hi : i < nwords) : ProperWord (sampleWord i) := by
  obtain ⟨c, cs, -, heq, htwo, hlead, hcs⟩ := sampleWord_eq hi
  rw [heq]
  refine ⟨cons_ne_nil _ _, ?_, .cons hlead hcs wellFormed_letter⟩
  have hc : ¬ c.toNat < 0x80 := by
    intro hlt
    rw [continuations, if_pos hlt, htwo] at hlead
    cases hlead
  intro b hb
  rcases mem_cons.mp hb with rfl | hb
  · simp only [isSpace, decide_eq_true_eq]
    omega
  · rcases mem_append.mp hb with hb | hb
    · have hb' := hcs b hb
      simp only [isContinuation, isSpace, decide_eq_true_eq] at hb' ⊢
      omega
    · rw [mem_singleton.mp hb]
      decide

/-- The locale that leaves all letters as they are. -/
def plainLower (cp : ℕ) : ℕ := cp

lemma sampleWord_canonical (hi : i < nwords) :
    utf8Canonical plainLower (sampleWord i) = some (sampleWord i) := by
  obtain ⟨c, cs, he, heq, -, hlead, -⟩ := sampleWord_eq hi
  have hletter : utf8Canonical plainLower [97] = some [97] := by decide
  rw [heq, utf8Canonical_character _ hlead, codePoint_of_encode he, plainLower, he, hletter]
  rfl

lemma sampleWord_prefix (hi : i < nwords) (count : ℕ) :
    utf8Canonical plainLower (utf8Prefix (sampleWord i) count) =
      some (utf8Prefix (sampleWord i) count) :=
  ((sampleWord_proper hi).wellFormed.canonical_prefix_eq (sampleWord_canonical hi)).2 count

lemma sampleWord_prefix_injective {j count : ℕ} (hi : i < nwords) (hj : j < nwords)
    (h : utf8Prefix (sampleWord i) (count + 1) = utf8Prefix (sampleWord j) (count + 1)) :
    i = j := by
  obtain ⟨c, cs, he, heq, -, -, hcs⟩ := sampleWord_eq hi
  obtain ⟨d, ds, he', heq', -, -, hds⟩ := sampleWord_eq hj
  rw [heq, heq', utf8Prefix_character hcs wellFormed_letter,
    utf8Prefix_character hds wellFormed_letter, ← cons_append, ← cons_append] at h
  cases append_cancel_right h
  have hpoint := (codePoint_of_encode he).symm.trans (codePoint_of_encode he')
  omega

variable (id : LanguageId)

lemma sampleWords_populated : (populateMaps plainLower id sampleWords).isSome := by
  have hcount : ∃ n, id.uniquePrefixLength = n + 1 ∧ n + 1 ≤ 4 := by
    cases id <;> exact ⟨_, rfl, by decide⟩
  obtain ⟨n, hn, hle⟩ := hcount
  apply populateMaps_isSome
  · rw [sampleWords, length_map, length_range]
  · intro w hw
    obtain ⟨i, hi, rfl⟩ := mem_sampleWords.mp hw
    obtain ⟨c, cs, -, heq, htwo, -, -⟩ := sampleWord_eq hi
    rw [heq, length_cons, length_append, htwo, hn]
    exact hle
  · intro w hw
    obtain ⟨i, hi, rfl⟩ := mem_sampleWords.mp hw
    rw [sampleWord_canonical hi, sampleWord_prefix hi]
    exact ⟨rfl, rfl⟩
  · rw [sampleWords, map_map]
    apply nodup_range.map_on
    intro i hi j hj h
    have hi' := mem_range.mp hi
    have hj' := mem_range.mp hj
    simp only [Function.comp_apply, sampleWord_prefix hi', sampleWord_prefix hj', some_inj,
      hn] at h
    exact sampleWord_prefix_injective hi' hj' h

def sampleLanguage : Language plainLower id where
  wordList := sampleWords
  wordMap := ((populateMaps plainLower id sampleWords).get (sampleWords_populated id)).1
  trimmedWordMap := ((populateMaps plainLower id sampleWords).get (sampleWords_populated id)).2
  populated := by simp

lemma sampleLanguage_wordList : (sampleLanguage id).wordList = sampleWords := by
  rw [sampleLanguage]

lemma sampleLanguage_proper : ∀ w ∈ (sampleLanguage id).wordList, ProperWord w := by
  intro w hw
  rw [sampleLanguage_wordList, mem_sampleWords] at hw
  obtain ⟨i, hi, rfl⟩ := hw
  exact sampleWord_proper hi

end

theorem seedPhrase_decodes_sample :
    ∃ phrase, bytesToWords (fun _ ↦ 0) sampleLanguage [1, 2, 3, 4] "Chinese (simplified)" =
        .ok phrase ∧
      wordsToBytes (fun _ ↦ 0) sampleLanguage phrase 4 true =
        .ok (.chineseSimplified, [1, 2, 3, 4]) := by
  have hmain := (@seedPhrase_decodes plainLower (fun _ ↦ 0) sampleLanguage .chineseSimplified
    (by decide) (sampleLanguage_proper _)).1
  obtain ⟨phrase, hphrase, hread | ⟨id', hid', -⟩⟩ := hmain [1, 2, 3, 4] 1 _ true le_rfl rfl
    (.inr rfl)
  · exact ⟨phrase, hphrase, hread⟩
  · simp [searchOrder] at hid'

/-- Two phrases of one word each, with different prefixes, that are both accepted. -/
theorem wordsToBytes_no_bytes :
    wordsToBytes (fun _ ↦ 0) sampleLanguage (sampleWord 0) 4 true = .ok (.chineseSimplified, []) ∧
      wordsToBytes (fun _ ↦ 0) sampleLanguage (sampleWord 1) 4 true =
        .ok (.chineseSimplified, []) ∧
      utf8Canonical plainLower (utf8Prefix (sampleWord 0) 1) ≠
        utf8Canonical plainLower (utf8Prefix (sampleWord 1) 1) := by
  have hmem : ∀ i < nwords, sampleWord i ∈ (sampleLanguage .chineseSimplified).wordList := by
    intro i hi
    rw [sampleLanguage_wordList, mem_sampleWords]
    exact ⟨i, hi, rfl⟩
  refine ⟨wordsToBytes_single (hmem 0 (by decide)) (sampleWord_proper (by decide)) true,
    wordsToBytes_single (hmem 1 (by decide)) (sampleWord_proper (by decide)) true, ?_⟩
  decide

end Monero.Mnemonics
