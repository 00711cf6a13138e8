import Monero.Mnemonics.SeedPhrase

/-!
# Seeds of half the length

`words_to_bytes` admits half the expected number of words, `len * 8 * 3 / 32 / 2`, and
is documented to double the data then.  The branch that doubles it asks for
`len * 3 / 32 / 2` words, which is never the same number.
-/

namespace Monero.Mnemonics

open Lib Lib.Codec List LanguageId

variable {towlower : ℕ → ℕ} {crc : Word → ℕ} {lang : (id : LanguageId) → Language towlower id}
  {id : LanguageId} {indices : List ℕ} {words y : Word} {k len n : ℕ}

/-- `words_to_bytes` for a secret key; `none` is the return value `false`. -/
def wordsToSecretKey (crc : Word → ℕ) (lang : (id : LanguageId) → Language towlower id)
    (words : Word) : Option (LanguageId × Word) :=
  match wordsToBytes crc lang words 32 true with
  | .error _ => none
  | .ok (id, s) => if s.length ≠ 32 then none else some (id, s)

section Half

variable (hpos : 0 < len) (height : len % 8 = 0)
  (hhalf : (split words).length = expectedWords len / 2)
  (hfound : findSeedLanguage crc lang (split words) false none searchOrder =
    .ok (id, indices))
  (hdecoded : decodeIndices (lang id).wordList.length (len / 8) indices = .ok y)

include hpos height hhalf hfound hdecoded

lemma wordsToBytes_half (duplicate : Bool) :
    wordsToBytes crc lang words len duplicate = .ok (id, y) := by
  have hchecked : hasChecksum len (split words) = false := by
    simp only [hasChecksum, hhalf, expectedWords, decide_eq_false_iff_not]
    omega
  have hdata : dataWords len (split words) = split words := by
    rw [dataWords, hchecked, if_neg Bool.false_ne_true]
  have hcount : (split words).length / 3 = len / 8 := by
    rw [hhalf, expectedWords]
    omega
  have hsize : ¬ (len ≠ 0 ∧ (split words).length ≠ expectedWords len / 2 ∧
      (split words).length ≠ expectedWords len ∧
      (split words).length ≠ expectedWords len + 1) := fun h ↦ h.2.1 hhalf
  have hplain : ¬ (0 < len ∧ duplicate = true ∧ (split words).length = len * 3 / 32 / 2) :=
    fun h ↦ hdata ▸ dataWords_length_ne (by omega) hpos hsize <| hdata.symm ▸ h.2.2
  rw [wordsToBytes, if_neg (by omega), if_neg hsize, hchecked, hfound, ok_bind]
  simp [hdata, hcount, hdecoded, if_neg hplain]

lemma wordsToSecretKey_half (hkey : len = 32) : wordsToSecretKey crc lang words = none := by
  subst hkey
  have hlength := length_of_decode hdecoded
  rw [wordsToSecretKey, wordsToBytes_half hpos height hhalf hfound hdecoded]
  simp only [hlength]
  rfl

/-- A phrase of half the expected number of words gives its data once, and no secret key. -/
theorem halfSeed_decoded_once (duplicate : Bool) :
    wordsToBytes crc lang words len duplicate = .ok (id, y) ∧ y.length = len / 2 ∧
      wordsToBytes crc lang words len duplicate ≠ .ok (id, y ++ y) ∧
      (len = 32 → wordsToSecretKey crc lang words = none) := by
  have hbytes := wordsToBytes_half hpos height hhalf hfound hdecoded duplicate
  have hlength := length_of_decode hdecoded
  refine ⟨hbytes, by omega, fun htwice ↦ ?_,
    wordsToSecretKey_half hpos height hhalf hfound hdecoded⟩
  have hsame := congrArg (fun r ↦ (r.2 : Word).length) (Except.ok.inj (hbytes.symm.trans htwice))
  simp only [length_append] at hsame
  omega

end Half

/-- Twelve times the first word of the sample list. -/
def twelveWords : Word := (replicate 11 (sampleWord 0)).flatMap (· ++ [32]) ++ sampleWord 0

lemma twelveWords_decoded : (split twelveWords).length = 12 ∧ ∃ indices y,
    findSeedLanguage (fun _ ↦ 0) sampleLanguage (split twelveWords) false none
      searchOrder = .ok (.chineseSimplified, indices) ∧
      decodeIndices (sampleLanguage .chineseSimplified).wordList.length 4 indices = .ok y := by
  have hproper : ProperWord (sampleWord 0) := sampleWord_proper (by decide)
  have hmem : sampleWord 0 ∈ (sampleLanguage .chineseSimplified).wordList := by
    rw [sampleLanguage_wordList, mem_sampleWords]
    exact ⟨0, by decide, rfl⟩
  have hsplit : split twelveWords = replicate 12 (sampleWord 0) := by
    rw [twelveWords, split_phrase _ (fun w hw ↦ eq_of_mem_replicate hw ▸ hproper) hproper]
    rfl
  obtain ⟨e, hfound⟩ := findWord_of_mem hmem
  have hbound := (prefix_of_found (sampleLanguage_proper _) hproper.wellFormed hfound).1
  have htriple : decodeTriple nwords e.2 e.2 e.2 = e.2 := by
    rw [nwords] at hbound ⊢
    rw [decodeTriple]
    omega
  have hmatch : matchWords sampleLanguage false .chineseSimplified (replicate 12 (sampleWord 0)) =
      .ok (some (replicate 12 e.2)) := by
    rw [matchWords_eq_some]
    simp only [replicate, forall₂_cons, forall₂_nil_right_iff, and_true, and_self]
    exact ⟨e, hfound, rfl⟩
  rw [hsplit, (sampleLanguage _).length_wordList]
  refine ⟨rfl, replicate 12 e.2, (replicate 4 (toLittleEndian 4 e.2)).flatten, ?_, ?_⟩
  · rw [searchOrder, findSeedLanguage, hmatch, ok_bind]
    rfl
  · simp [replicate, decodeIndices, htriple, Nat.mod_eq_of_lt hbound]

theorem halfSeed_decoded_once_sample : ∃ y, y.length = 16 ∧
    wordsToBytes (fun _ ↦ 0) sampleLanguage twelveWords 32 true = .ok (.chineseSimplified, y) := by
  obtain ⟨hhalf, indices, y, hfound, hdecoded⟩ := twelveWords_decoded
  obtain ⟨hbytes, hlength, -⟩ := halfSeed_decoded_once (show 0 < 32 by decide) (by decide) hhalf
    hfound hdecoded true
  exact ⟨y, hlength, hbytes⟩

/-- Words that are all in the list and pass the test of the triples, and no key. -/
theorem halfSeed_refused : (split twelveWords).length = 12 ∧
    (∃ indices y, findSeedLanguage (fun _ ↦ 0) sampleLanguage (split twelveWords) false none
        searchOrder = .ok (.chineseSimplified, indices) ∧
      decodeIndices (sampleLanguage .chineseSimplified).wordList.length 4 indices = .ok y) ∧
    wordsToSecretKey (fun _ ↦ 0) sampleLanguage twelveWords = none := by
  obtain ⟨hhalf, indices, y, hfound, hdecoded⟩ := twelveWords_decoded
  exact ⟨hhalf, ⟨indices, y, hfound, hdecoded⟩,
    wordsToSecretKey_half (show 0 < 32 by decide) (by decide) hhalf hfound hdecoded rfl⟩

end Monero.Mnemonics
