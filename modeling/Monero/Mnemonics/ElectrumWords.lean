import Monero.Mnemonics.Utf8

/-!
# Phrases of words for keys

Every language has a list of 1626 words, a map from the words to their places in
the list and one from their prefixes.  `bytes_to_words` writes each four bytes as
three words and adds a checksum word; `words_to_bytes` looks for the language and
reads them back.
-/

namespace Monero.Mnemonics

open List Lib.Codec

/-! ## Languages -/

inductive LanguageId
  | chineseSimplified
  | english
  | dutch
  | french
  | spanish
  | german
  | italian
  | portuguese
  | japanese
  | russian
  | esperanto
  | lojban
  | englishOld
  deriving DecidableEq

namespace LanguageId

def languageName : LanguageId → String
  | chineseSimplified => "简体中文 (中国)"
  | english => "English"
  | dutch => "Nederlands"
  | french => "Français"
  | spanish => "Español"
  | german => "Deutsch"
  | italian => "Italiano"
  | portuguese => "Português"
  | japanese => "日本語"
  | russian => "Русский"
  | esperanto => "Esperanto"
  | lojban => "Lojban"
  | englishOld => "EnglishOld"

def englishLanguageName : LanguageId → String
  | chineseSimplified => "Chinese (simplified)"
  | english => "English"
  | dutch => "Dutch"
  | french => "French"
  | spanish => "Spanish"
  | german => "German"
  | italian => "Italian"
  | portuguese => "Portuguese"
  | japanese => "Japanese"
  | russian => "Russian"
  | esperanto => "Esperanto"
  | lojban => "Lojban"
  | englishOld => "English (old)"

def uniquePrefixLength : LanguageId → ℕ
  | chineseSimplified => 1
  | english | japanese => 3
  | _ => 4

def allowShortWords : LanguageId → Bool
  | spanish | englishOld => true
  | _ => false

def allowDuplicatePrefixes : LanguageId → Bool
  | englishOld => true
  | _ => false

/-- The order in which `find_seed_language` tries the languages. -/
def searchOrder : List LanguageId :=
  [chineseSimplified, english, dutch, french, spanish, german, italian, portuguese, japanese,
    russian, esperanto, lojban, englishOld]

def languageList : List LanguageId :=
  [german, english, spanish, french, italian, dutch, portuguese, russian, japanese,
    chineseSimplified, esperanto, lojban]

end LanguageId

def nwords : ℕ := 1626

inductive SeedError
  | invalidUtf8
  | wordNotFound
  | divisionByZero
  | invalidLength
  | unexpectedNumberOfWords
  | languageNotFound
  | invalidChecksum
  | inconsistentWords
  | outOfRange
  deriving DecidableEq

/-! ## Word maps

A map from words to indices that compares words by their canonical forms. -/

abbrev WordMap := List (Word × ℕ)

section

variable (towlower : ℕ → ℕ)

def canonical (w : Word) : Except SeedError Word :=
  match utf8Canonical towlower w with
  | none => .error .invalidUtf8
  | some c => .ok c

def WordMap.lookup (m : WordMap) (c : Word) : Option (Word × ℕ) :=
  m.find? fun e ↦ utf8Canonical towlower e.1 = some c

def WordMap.find (m : WordMap) (w : Word) : Except SeedError (Option (Word × ℕ)) := do
  let c ← canonical towlower w
  .ok (WordMap.lookup towlower m c)

/-- A word that is in the map under another spelling keeps its spelling. -/
def WordMap.set (m : WordMap) (w : Word) (i : ℕ) : Except SeedError WordMap := do
  let c ← canonical towlower w
  .ok (if (WordMap.lookup towlower m c).isSome then
      m.map fun e ↦ if utf8Canonical towlower e.1 = some c then (e.1, i) else e
    else m ++ [(w, i)])

def trim (w : Word) (count : ℕ) : Word := if count < w.length then utf8Prefix w count else w

def populateWord (id : LanguageId) (maps : WordMap × WordMap) (e : Word × ℕ) :
    Option (WordMap × WordMap) := do
  let wordMap ← (WordMap.set towlower maps.1 e.1 e.2).toOption
  if e.1.length < id.uniquePrefixLength ∧ ¬ id.allowShortWords then none
  else
    let trimmed := trim e.1 id.uniquePrefixLength
    let found ← (WordMap.find towlower maps.2 trimmed).toOption
    if found.isSome ∧ ¬ id.allowDuplicatePrefixes then none
    else
      let trimmedWordMap ← (WordMap.set towlower maps.2 trimmed e.2).toOption
      some (wordMap, trimmedWordMap)

/-- `none` where the constructor of the language throws. -/
def populateMaps (id : LanguageId) (wordList : List Word) : Option (WordMap × WordMap) :=
  if wordList.length ≠ nwords then none
  else wordList.zipIdx.foldlM (populateWord towlower id) ([], [])

/-- A language whose maps have been populated. -/
structure Language (id : LanguageId) where
  wordList : List Word
  wordMap : WordMap
  trimmedWordMap : WordMap
  populated : populateMaps towlower id wordList = some (wordMap, trimmedWordMap)

end

/-! ## Looking for the language -/

section

variable {towlower : ℕ → ℕ} (crc : Word → ℕ) (lang : (id : LanguageId) → Language towlower id)

/-- The spelling of the prefix in the map. -/
def trimmedWord (id : LanguageId) (w : Word) : Except SeedError Word := do
  match ← WordMap.find towlower (lang id).trimmedWordMap (utf8Prefix w id.uniquePrefixLength) with
  | none => .error .wordNotFound
  | some e => .ok e.1

def createChecksumIndex (id : LanguageId) (wordList : List Word) : Except SeedError ℕ := do
  let trimmedWords ← wordList.mapM (trimmedWord lang id)
  if wordList.length = 0 then .error .divisionByZero
  else .ok (crc trimmedWords.flatten % wordList.length)

def checksumTest (id : LanguageId) (seed : List Word) : Except SeedError Bool :=
  match seed.getLast? with
  | none => .ok false
  | some lastWord => do
    let idx ← createChecksumIndex crc lang id seed.dropLast
    let checksum := seed.dropLast.getD idx []
    let a ← canonical towlower (trim checksum id.uniquePrefixLength)
    let b ← canonical towlower (trim lastWord id.uniquePrefixLength)
    .ok (a = b)

/-- With a checksum behind the words their prefixes are enough. -/
def findWord (hasChecksum : Bool) (id : LanguageId) (w : Word) :
    Except SeedError (Option (Word × ℕ)) :=
  if hasChecksum then
    WordMap.find towlower (lang id).trimmedWordMap (utf8Prefix w id.uniquePrefixLength)
  else WordMap.find towlower (lang id).wordMap w

/-- The indices of the words, or `none` when one of them is not in the list. -/
def matchWords (hasChecksum : Bool) (id : LanguageId) :
    List Word → Except SeedError (Option (List ℕ))
  | [] => .ok (some [])
  | w :: ws => do
    match ← findWord lang hasChecksum id w with
    | none => .ok none
    | some e => do
      let rest ← matchWords hasChecksum id ws
      .ok (rest.map (e.2 :: ·))

def findSeedLanguage (seed : List Word) (hasChecksum : Bool) (fallback : Option LanguageId) :
    List LanguageId → Except SeedError (LanguageId × List ℕ)
  | [] =>
    match fallback with
    | none => .error .languageNotFound
    | some id => .ok (id, [])
  | id :: ids => do
    match ← matchWords lang hasChecksum id seed with
    | none => findSeedLanguage seed hasChecksum fallback ids
    | some indices =>
      if hasChecksum then
        if ← checksumTest crc lang id seed then .ok (id, indices)
        else findSeedLanguage seed hasChecksum (some id) ids
      else .ok (id, indices)

/-! ## From words to bytes -/

def isSpace (c : UInt8) : Bool := c.toNat = 32 ∨ 9 ≤ c.toNat ∧ c.toNat ≤ 13

/-- The loop of `wipeable_string::split`: `fields` so far and whether the byte before was
a space. -/
def splitLoop : List Word → Bool → Word → List Word
  | fields, _, [] => fields
  | fields, space, c :: s =>
    if isSpace c then splitLoop fields true s
    else if space then splitLoop (fields ++ [[c]]) false s
    else splitLoop (fields.dropLast ++ [fields.getLastD [] ++ [c]]) false s

def split (s : Word) : List Word := splitLoop [] true s

/-- Three chained digits, with the arithmetic of 32 bits. -/
def decodeTriple (n w₁ w₂ w₃ : ℕ) : ℕ :=
  (w₁ + n * ((n - w₁ + w₂) % n) + n * n * ((n - w₂ + w₃) % n)) % 2 ^ 32

def decodeIndices (n : ℕ) : ℕ → List ℕ → Except SeedError Word
  | 0, _ => .ok []
  | k + 1, w₁ :: w₂ :: w₃ :: ws =>
    if decodeTriple n w₁ w₂ w₃ % n ≠ w₁ then .error .inconsistentWords
    else do
      let rest ← decodeIndices n k ws
      .ok (toLittleEndian 4 (decodeTriple n w₁ w₂ w₃) ++ rest)
  | _ + 1, _ => .error .outOfRange

def expectedWords (len : ℕ) : ℕ := len * 8 * 3 / 32

def hasChecksum (len : ℕ) (seed : List Word) : Bool :=
  len = 0 ∨ seed.length = expectedWords len + 1

def dataWords (len : ℕ) (seed : List Word) : List Word :=
  if hasChecksum len seed then seed.dropLast else seed

def wordsToBytes (words : Word) (len : ℕ) (duplicate : Bool) :
    Except SeedError (LanguageId × Word) := do
  let seed := split words
  if len % 4 ≠ 0 then .error .invalidLength
  else if len ≠ 0 ∧ seed.length ≠ expectedWords len / 2 ∧ seed.length ≠ expectedWords len ∧
      seed.length ≠ expectedWords len + 1 then .error .unexpectedNumberOfWords
  else
    let (id, indices) ← findSeedLanguage crc lang seed (hasChecksum len seed) none
      LanguageId.searchOrder
    let valid ← (if hasChecksum len seed then checksumTest crc lang id seed else .ok true :
      Except SeedError Bool)
    if ¬ valid then .error .invalidChecksum
    else
      let seed := dataWords len seed
      let dst ← decodeIndices (lang id).wordList.length (seed.length / 3) indices
      .ok (id, if 0 < len ∧ duplicate ∧ seed.length = len * 3 / 32 / 2 then dst ++ dst else dst)

/-! ## From bytes to words -/

def encodeTriple (n v : ℕ) : List ℕ :=
  let w₁ := v % n
  let w₂ := (v / n + w₁) % n
  let w₃ := (v / n / n + w₂) % n
  [w₁, w₂, w₃]

def bytesToIndices (n : ℕ) : Word → List ℕ
  | a :: b :: c :: d :: src => encodeTriple n (ofLittleEndian [a, b, c, d]) ++ bytesToIndices n src
  | _ => []

/-- The last language of the list with that name. -/
def languageOf (name : String) : Option LanguageId := (LanguageId.languageList.filter fun id ↦
    name = id.languageName ∨ name = id.englishLanguageName).getLast?

def bytesToWords (src : Word) (languageName : String) : Except SeedError Word :=
  if src.length % 4 ≠ 0 ∨ src.length = 0 then .error .invalidLength
  else
    match languageOf languageName with
    | none => .error .languageNotFound
    | some id => do
      let wordList := (lang id).wordList
      let wordsStore := (bytesToIndices wordList.length src).map fun i ↦ wordList.getD i []
      let idx ← createChecksumIndex crc lang id wordsStore
      .ok (wordsStore.flatMap (· ++ [32]) ++ wordsStore.getD idx [])

end

end Monero.Mnemonics
