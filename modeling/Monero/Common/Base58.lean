import Monero.Epee.IntUtil
import Monero.Lib.Window
import Monero.Lib.Codec
import Monero.Lib.Result

/-!
# Base58

`encode` and `decode` of `base58.cpp` work on blocks of eight bytes, each of which is
written as a number with eleven digits.  The last block may be shorter.
-/

namespace Monero.Common.Base58

open Monero.Epee Monero.Lib Monero.Lib.Codec Option
open Nat (ofDigits mod_lt zero_add)
open List hiding Vector

def alphabet : List UInt8 :=
  ['1', '2', '3', '4', '5', '6', '7', '8', '9', 'A', 'B', 'C', 'D', 'E', 'F', 'G', 'H', 'J', 'K',
    'L', 'M', 'N', 'P', 'Q', 'R', 'S', 'T', 'U', 'V', 'W', 'X', 'Y', 'Z', 'a', 'b', 'c', 'd', 'e',
    'f', 'g', 'h', 'i', 'j', 'k', 'm', 'n', 'o', 'p', 'q', 'r', 's', 't', 'u', 'v', 'w', 'x', 'y',
    'z'].map fun c ↦ UInt8.ofNat c.toNat

def alphabetSize : ℕ := 58

def encodedBlockSizes : List ℕ := [0, 2, 3, 5, 6, 7, 9, 10, 11]

def fullBlockSize : ℕ := 8

def fullEncodedBlockSize : ℕ := 11

def letter (digit : ℕ) : UInt8 := alphabet.getD digit 0

/-- The table from letters to digits.  A place without a digit has -1 in the source. -/
def reverseAlphabetData : List (Option ℕ) := (range alphabetSize).foldl
    (fun data i ↦ data.set ((letter i).toNat - (letter 0).toNat) (some i))
    (replicate ((letter (alphabetSize - 1)).toNat - (letter 0).toNat + 1) none)

/-- The difference of a letter below the first one, or of one that is negative as a
`char`, is a large `size_t`. -/
def reverseAlphabet (letter : UInt8) : Option ℕ :=
  if letter.toNat < (Base58.letter 0).toNat then none
  else reverseAlphabetData.getD (letter.toNat - (Base58.letter 0).toNat) none

def decodedBlockSizesData : List (Option ℕ) := (range (fullBlockSize + 1)).foldl
    (fun data i ↦ data.set (encodedBlockSizes.getD i 0) (some i))
    (replicate (fullEncodedBlockSize + 1) none)

def decodedBlockSizes (encodedBlockSize : ℕ) : Option ℕ :=
  decodedBlockSizesData.getD encodedBlockSize none

def uint8beTo64 (data : List UInt8) : ℕ := ofLittleEndian data.reverse

def uint64To8be (num size : ℕ) : List UInt8 := (toLittleEndian size num).reverse

/-- The loop of `encode_block` over the places before `i`; those that it does not
reach hold the first letter. -/
def encodeDigits : ℕ → ℕ → List UInt8
  | 0, _ => []
  | i + 1, num =>
    if 0 < num then
      encodeDigits i (num / alphabetSize) ++ [letter (num % alphabetSize)]
    else replicate (i + 1) (letter 0)

def encodeBlock (block : List UInt8) : List UInt8 :=
  encodeDigits (encodedBlockSizes.getD block.length 0) (uint8beTo64 block)

/-- The loop of `decode_block`, from the last letter on. -/
def decodeDigits : List UInt8 → ℕ → ℕ → Option ℕ
  | [], resNum, _ => some resNum
  | c :: block, resNum, order =>
    match reverseAlphabet c with
    | none => none
    | some digit =>
      let (productLo, productHi) := mul128 order digit
      let tmp := (resNum + productLo) % 2 ^ 64
      if tmp < resNum ∨ productHi ≠ 0 then none
      else decodeDigits block tmp (order * alphabetSize % 2 ^ 64)

def decodeBlock (block : List UInt8) : Option (List UInt8) :=
  (decodedBlockSizes block.length).bind fun resSize ↦
    if resSize = 0 then none
    else
      (decodeDigits block.reverse 0 1).bind fun resNum ↦
        if resSize < fullBlockSize ∧ 2 ^ (8 * resSize) ≤ resNum then none
        else some (uint64To8be resNum resSize)

def encode (data : List UInt8) : List UInt8 :=
  if data = [] then []
  else
    ((blocks fullBlockSize data).map encodeBlock).flatten ++
      if 0 < data.length % fullBlockSize then encodeBlock (remainder fullBlockSize data) else []

def decode (enc : List UInt8) : Option (List UInt8) :=
  if enc = [] then some []
  else
    (decodedBlockSizes (enc.length % fullEncodedBlockSize)).bind fun _ ↦
      ((blocks fullEncodedBlockSize enc).mapM decodeBlock).bind fun data ↦
        if 0 < enc.length % fullEncodedBlockSize then
          (decodeBlock (remainder fullEncodedBlockSize enc)).map (data.flatten ++ ·)
        else some data.flatten

/-! ## The tables -/

lemma reverseAlphabet_letter : ∀ d < alphabetSize, reverseAlphabet (letter d) = some d := by
  decide

lemma of_reverseAlphabet_eq_some {c : UInt8} {d : ℕ} (h : reverseAlphabet c = some d) :
    d < alphabetSize ∧ c = letter d := by
  have hall : ∀ n : Fin 256, ∀ d ∈ reverseAlphabet (UInt8.ofNat n),
      d < alphabetSize ∧ UInt8.ofNat n = letter d := by
    decide +kernel
  have hbyte : UInt8.ofNat (⟨c.toNat, c.toNat_lt⟩ : Fin 256) = c := UInt8.ofNat_toNat
  have hc := hall ⟨c.toNat, c.toNat_lt⟩
  rw [hbyte] at hc
  exact hc d h

lemma decodedBlockSizes_encoded :
    ∀ size ≤ fullBlockSize, decodedBlockSizes (encodedBlockSizes.getD size 0) = some size := by
  decide

variable {size num tag : ℕ} {ds : List ℕ} {block enc addr data x : List UInt8}

lemma of_decodedBlockSizes_eq_some {n : ℕ} (h : decodedBlockSizes n = some size) :
    size ≤ fullBlockSize ∧ n = encodedBlockSizes.getD size 0 := by
  have hall : ∀ n < decodedBlockSizesData.length, ∀ size ∈ decodedBlockSizes n,
      size ≤ fullBlockSize ∧ n = encodedBlockSizes.getD size 0 := by
    decide
  by_cases hn : n < decodedBlockSizesData.length
  · exact hall n hn size h
  · rw [decodedBlockSizes, getD_eq_default _ _ (not_lt.mp hn)] at h
    cases h

lemma pow_le_pow_encoded :
    ∀ size ≤ fullBlockSize, 256 ^ size ≤ alphabetSize ^ encodedBlockSizes.getD size 0 := by
  decide

/-! ## Digits -/

lemma encodeDigits_eq {i : ℕ} (hnum : num < alphabetSize ^ i) :
    ∃ ds : List ℕ, ds.length = i ∧ (∀ d ∈ ds, d < alphabetSize) ∧
      ofDigits alphabetSize ds = num ∧ encodeDigits i num = (ds.map letter).reverse := by
  induction i generalizing num with
  | zero =>
    obtain rfl : num = 0 := by simpa using hnum
    exact ⟨[], rfl, fun d hd ↦ absurd hd not_mem_nil, rfl, rfl⟩
  | succ i ih =>
    rw [encodeDigits]
    split_ifs with hpos
    · have hdiv : num / alphabetSize < alphabetSize ^ i :=
        Nat.div_lt_of_lt_mul (by rwa [Nat.mul_comm, ← Nat.pow_succ])
      obtain ⟨ds, hlength, hds, hvalue, henc⟩ := ih hdiv
      refine ⟨num % alphabetSize :: ds, by rw [length_cons, hlength], ?_, ?_, ?_⟩
      · rintro d (_ | ⟨_, hd⟩)
        · exact mod_lt _ (by decide)
        · exact hds d hd
      · rw [Nat.ofDigits_cons, hvalue]
        exact Nat.mod_add_div _ _
      · rw [henc, map_cons, reverse_cons]
    · refine ⟨replicate (i + 1) 0, length_replicate, fun d hd ↦ ?_, ?_, ?_⟩
      · rw [eq_of_mem_replicate hd]
        decide
      · rw [Nat.ofDigits_replicate_zero]
        omega
      · rw [map_replicate, reverse_replicate]

lemma decodeDigits_letters (hds : ∀ d ∈ ds, d < alphabetSize) {k resNum : ℕ}
    (hk : k + ds.length ≤ fullEncodedBlockSize) (hres : resNum < 2 ^ 64) :
    decodeDigits (ds.map letter) resNum (alphabetSize ^ k % 2 ^ 64) =
      if resNum + alphabetSize ^ k * ofDigits alphabetSize ds < 2 ^ 64 then
        some (resNum + alphabetSize ^ k * ofDigits alphabetSize ds)
      else none := by
  induction ds generalizing k resNum with
  | nil => rw [Nat.ofDigits_nil, Nat.mul_zero, Nat.add_zero, if_pos hres, map_nil, decodeDigits]
  | cons d ds ih =>
    rw [length_cons] at hk
    have hd : d < alphabetSize := hds d mem_cons_self
    have horder : alphabetSize ^ k < 2 ^ 64 := by
      calc
        alphabetSize ^ k ≤ alphabetSize ^ 10 :=
          Nat.pow_le_pow_right (by decide) (by rw [fullEncodedBlockSize] at hk; omega)
        _ < 2 ^ 64 := by decide
    have hsum : resNum + alphabetSize ^ k * ofDigits alphabetSize (d :: ds) =
        resNum + alphabetSize ^ k * d + alphabetSize ^ (k + 1) * ofDigits alphabetSize ds := by
      rw [Nat.ofDigits_cons]
      ring
    have hnext : alphabetSize ^ k * alphabetSize % 2 ^ 64 = alphabetSize ^ (k + 1) % 2 ^ 64 := by
      rw [← pow_succ]
    rw [map_cons, decodeDigits, reverseAlphabet_letter d hd, Nat.mod_eq_of_lt horder, hsum]
    dsimp only
    rw [multipliesWords_mul128 _ _ horder (hd.trans (by decide)), hnext]
    dsimp only
    by_cases hfits : resNum + alphabetSize ^ k * d < 2 ^ 64
    · have hlo : alphabetSize ^ k * d % 2 ^ 64 = alphabetSize ^ k * d :=
        Nat.mod_eq_of_lt (by omega)
      rw [hlo, Nat.mod_eq_of_lt hfits, if_neg (by omega),
        ih (fun e he ↦ hds e (mem_cons_of_mem d he)) (by omega) hfits]
    · rw [if_pos (by omega), if_neg (by omega)]

lemma exists_digits {resNum order res : ℕ} (h : decodeDigits block resNum order = some res) :
    ∃ ds : List ℕ, (∀ d ∈ ds, d < alphabetSize) ∧ block = ds.map letter := by
  induction block generalizing resNum order with
  | nil => exact ⟨[], fun d hd ↦ absurd hd not_mem_nil, rfl⟩
  | cons c block ih =>
    rw [decodeDigits] at h
    cases hc : reverseAlphabet c with
    | none =>
      rw [hc] at h
      cases h
    | some d =>
      rw [hc] at h
      obtain ⟨-, h⟩ := Option.ite_none_left_eq_some.mp h
      obtain ⟨ds, hds, hblock⟩ := ih h
      obtain ⟨hd, hletter⟩ := of_reverseAlphabet_eq_some hc
      refine ⟨d :: ds, ?_, by rw [map_cons, hletter, hblock]⟩
      rintro e (_ | ⟨_, he⟩)
      · exact hd
      · exact hds e he

/-! ## Blocks -/

/-- What the letters of a block stand for, with as many as `size` bytes need. -/
structure Denotes (enc : List UInt8) (size num : ℕ) (ds : List ℕ) : Prop where
  size_pos : 0 < size
  size_le : size ≤ fullBlockSize
  length_eq : ds.length = encodedBlockSizes.getD size 0
  digits : ∀ d ∈ ds, d < alphabetSize
  value : ofDigits alphabetSize ds = num
  lt : num < 256 ^ size
  letters : enc = (ds.map letter).reverse

lemma uint8beTo64_lt (block : List UInt8) : uint8beTo64 block < 256 ^ block.length := by
  rw [uint8beTo64, ← length_reverse]
  exact (toLittleEndian_ofLittleEndian block.reverse).1

lemma uint64To8be_uint8beTo64 (block : List UInt8) :
    uint64To8be (uint8beTo64 block) block.length = block := by
  rw [uint64To8be, uint8beTo64, ← length_reverse,
    (toLittleEndian_ofLittleEndian block.reverse).2, reverse_reverse]

lemma uint8beTo64_uint64To8be (h : num < 256 ^ size) :
    uint8beTo64 (uint64To8be num size) = num ∧ (uint64To8be num size).length = size := by
  rw [uint64To8be, uint8beTo64, reverse_reverse, length_reverse]
  exact ⟨ofLittleEndian_toLittleEndian h, toLittleEndian_length size num⟩

lemma length_encoded_le : ∀ size ≤ fullBlockSize,
    encodedBlockSizes.getD size 0 ≤ fullEncodedBlockSize := by
  decide

lemma denotes_encodeBlock (hpos : 0 < block.length) (hle : block.length ≤ fullBlockSize) :
    ∃ ds, Denotes (encodeBlock block) block.length (uint8beTo64 block) ds := by
  have hlt := uint8beTo64_lt block
  obtain ⟨ds, hlength, hds, hvalue, henc⟩ :=
    encodeDigits_eq (hlt.trans_le (pow_le_pow_encoded block.length hle))
  exact ⟨ds, hpos, hle, hlength, hds, hvalue, hlt, henc⟩

lemma Denotes.decodeBlock_eq
    (h : Denotes enc size num ds) : decodeBlock enc = some (uint64To8be num size) := by
  have hsize : enc.length = encodedBlockSizes.getD size 0 := by
    rw [h.letters, length_reverse, length_map, h.length_eq]
  have hword : num < 2 ^ 64 := by
    calc
      num < 256 ^ size := h.lt
      _ ≤ 256 ^ fullBlockSize := Nat.pow_le_pow_right (by decide) h.size_le
      _ = 2 ^ 64 := by decide
  have hdigits : decodeDigits enc.reverse 0 1 = some num := by
    have hk : 0 + ds.length ≤ fullEncodedBlockSize := by
      rw [zero_add, h.length_eq]
      exact length_encoded_le size h.size_le
    have hloop := decodeDigits_letters h.digits hk (by decide : 0 < 2 ^ 64)
    rw [Nat.pow_zero, zero_add, Nat.one_mul, h.value, if_pos hword] at hloop
    rw [h.letters, reverse_reverse]
    exact hloop
  have hbits : (2 : ℕ) ^ (8 * size) = 256 ^ size := Nat.pow_mul 2 8 size
  rw [decodeBlock, hsize, decodedBlockSizes_encoded size h.size_le, bind_some,
    if_neg h.size_pos.ne', hdigits, bind_some, hbits, if_neg fun hbad ↦ hbad.2.not_gt h.lt]

lemma exists_denotes (h : decodeBlock enc = some block) :
    ∃ size num ds, Denotes enc size num ds ∧ block = uint64To8be num size := by
  obtain ⟨size, hsize, h⟩ := Option.bind_eq_some_iff.mp h
  obtain ⟨hpos, h⟩ := Option.ite_none_left_eq_some.mp h
  obtain ⟨num, hnum, h⟩ := Option.bind_eq_some_iff.mp h
  obtain ⟨hlt, h⟩ := Option.ite_none_left_eq_some.mp h
  obtain ⟨hle, hlength⟩ := of_decodedBlockSizes_eq_some hsize
  obtain ⟨ds, hds, hletters⟩ := exists_digits hnum
  have hcount : ds.length = enc.length := by
    rw [← enc.length_reverse, hletters, length_map]
  have hk : 0 + ds.length ≤ fullEncodedBlockSize := by
    rw [zero_add, hcount, hlength]
    exact length_encoded_le size hle
  have hloop := decodeDigits_letters hds hk (by decide : 0 < 2 ^ 64)
  rw [Nat.pow_zero, zero_add, Nat.one_mul, ← hletters] at hloop
  obtain ⟨hword, hvalue⟩ := Option.ite_none_right_eq_some.mp (hloop.symm.trans hnum)
  have hbits : (2 : ℕ) ^ (8 * size) = 256 ^ size := Nat.pow_mul 2 8 size
  refine ⟨size, num, ds, ⟨Nat.pos_of_ne_zero hpos, hle, hcount.trans hlength, hds,
    Option.some_inj.mp hvalue, ?_, ?_⟩, (Option.some_inj.mp h).symm⟩
  · by_contra hbig
    rw [not_and, not_le, hbits] at hlt
    rw [Option.some_inj.mp hvalue] at hword
    -- a full block is as long as a word
    have hfull : size = fullBlockSize := by
      by_contra hne
      exact hbig (hlt (lt_of_le_of_ne hle hne))
    rw [hfull] at hbig
    exact hbig (hword.trans_le (by decide))
  · rw [← hletters, reverse_reverse]

lemma Denotes.letters_unique {enc' : List UInt8} {ds' : List ℕ}
    (h : Denotes enc size num ds) (h' : Denotes enc' size num ds') : enc = enc' := by
  have hds : ds = ds' :=
    Nat.ofDigits_inj_of_len_eq (by decide) (h.length_eq.trans h'.length_eq.symm)
    h.digits h'.digits (h.value.trans h'.value.symm)
  rw [h.letters, h'.letters, hds]

lemma decodeBlock_encodeBlock (hpos : 0 < block.length)
    (hle : block.length ≤ fullBlockSize) : decodeBlock (encodeBlock block) = some block := by
  obtain ⟨ds, h⟩ := denotes_encodeBlock hpos hle
  rw [h.decodeBlock_eq, uint64To8be_uint8beTo64]

lemma length_encodeBlock (hle : block.length ≤ fullBlockSize) :
    (encodeBlock block).length = encodedBlockSizes.getD block.length 0 := by
  rcases block.length.eq_zero_or_pos with hzero | hpos
  · rw [eq_nil_of_length_eq_zero hzero]
    rfl
  · obtain ⟨ds, h⟩ := denotes_encodeBlock hpos hle
    rw [h.letters, length_reverse, length_map, h.length_eq]

lemma encodeBlock_of_decodeBlock (h : decodeBlock enc = some block) :
    encodeBlock block = enc ∧ 0 < block.length ∧ block.length ≤ fullBlockSize ∧
      enc.length = encodedBlockSizes.getD block.length 0 := by
  obtain ⟨size, num, ds, hden, rfl⟩ := exists_denotes h
  obtain ⟨hnum, hlength⟩ := uint8beTo64_uint64To8be hden.lt
  have hpos : 0 < (uint64To8be num size).length := by
    rw [hlength]
    exact hden.size_pos
  have hle : (uint64To8be num size).length ≤ fullBlockSize := by
    rw [hlength]
    exact hden.size_le
  obtain ⟨ds', hden'⟩ := denotes_encodeBlock hpos hle
  rw [hnum, hlength] at hden'
  have henc := hden'.letters_unique hden
  refine ⟨henc, hpos, hle, ?_⟩
  rw [← henc, length_encodeBlock hle]

/-! ## Strings -/

lemma encode_eq (data : List UInt8) :
    encode data = ((blocks fullBlockSize data).map encodeBlock).flatten ++
      encodeBlock (remainder fullBlockSize data) := by
  rw [encode]
  split_ifs with hnil hlast
  · rw [hnil]
    rfl
  · rfl
  · -- there is nothing left after the full blocks
    have hzero : (remainder fullBlockSize data).length = 0 := by
      rw [length_remainder]
      omega
    rw [eq_nil_of_length_eq_zero hzero]
    rfl

def DecodesLast (enc last : List UInt8) : Prop :=
  enc = [] ∧ last = [] ∨ decodeBlock enc = some last

lemma decode_eq_some : decode enc = some x ↔ ∃ data last,
      Forall₂ (fun b d ↦ decodeBlock b = some d) (blocks fullEncodedBlockSize enc) data ∧
      DecodesLast (remainder fullEncodedBlockSize enc) last ∧ x = data.flatten ++ last := by
  have hlength := @length_remainder _ fullEncodedBlockSize enc
  constructor
  · intro h
    by_cases hnil : enc = []
    · rw [decode, if_pos hnil] at h
      cases h
      rw [hnil]
      exact ⟨[], [], List.Forall₂.nil, .inl ⟨rfl, rfl⟩, rfl⟩
    · rw [decode, if_neg hnil] at h
      obtain ⟨-, -, h⟩ := Option.bind_eq_some_iff.mp h
      obtain ⟨data, hdata, h⟩ := Option.bind_eq_some_iff.mp h
      split_ifs at h with hlast
      · obtain ⟨last, hdecode, rfl⟩ := Option.map_eq_some_iff.mp h
        exact ⟨data, last, mapM_eq_some_iff.mp hdata, .inr hdecode, rfl⟩
      · cases h
        refine ⟨data, [], mapM_eq_some_iff.mp hdata, .inl ⟨?_, rfl⟩, (append_nil _).symm⟩
        exact eq_nil_of_length_eq_zero (by omega)
  · rintro ⟨data, last, hdata, hlast, rfl⟩
    by_cases hnil : enc = []
    · subst hnil
      cases hdata
      rcases hlast with ⟨-, rfl⟩ | hlast
      · rfl
      · cases hlast
    · rw [decode, if_neg hnil, mapM_eq_some_iff.mpr hdata]
      rcases hlast with ⟨hremainder, rfl⟩ | hlast
      · rw [hremainder] at hlength
        rw [← hlength, length_nil, append_nil]
        rfl
      · obtain ⟨-, hpos, hle, hsize⟩ := encodeBlock_of_decodeBlock hlast
        have hlt : 0 < enc.length % fullEncodedBlockSize := by
          rw [← hlength, hsize]
          have hall : ∀ size ≤ fullBlockSize, 0 < size → 0 < encodedBlockSizes.getD size 0 := by
            decide
          exact hall _ hle hpos
        rw [← hlength, hsize, decodedBlockSizes_encoded _ hle, ← hsize, hlength, bind_some,
          bind_some, if_pos hlt, hlast, map_some]

lemma blocks_encode (data : List UInt8) :
    blocks fullEncodedBlockSize (encode data) = (blocks fullBlockSize data).map encodeBlock ∧
      remainder fullEncodedBlockSize (encode data) =
        encodeBlock (remainder fullBlockSize data) := by
  have hlt : (remainder fullBlockSize data).length < fullBlockSize := by
    rw [length_remainder]
    exact mod_lt _ (by decide)
  rw [encode_eq]
  refine blocks_flatten_append (by decide) (fun b hb ↦ ?_) ?_
  · obtain ⟨block, hblock, rfl⟩ := mem_map.mp hb
    have hfull := length_of_mem_blocks hblock
    rw [length_encodeBlock hfull.le, hfull]
    rfl
  · have hall : ∀ size < fullBlockSize,
        encodedBlockSizes.getD size 0 < fullEncodedBlockSize := by decide
    rw [length_encodeBlock hlt.le]
    exact hall _ hlt

lemma decode_encode (data : List UInt8) : decode (encode data) = some data := by
  obtain ⟨hblocks, hremainder⟩ := blocks_encode data
  have hlt : (remainder fullBlockSize data).length < fullBlockSize := by
    rw [length_remainder]
    exact mod_lt _ (by decide)
  refine decode_eq_some.mpr ⟨blocks fullBlockSize data, remainder fullBlockSize data, ?_, ?_,
    (flatten_blocks_append (by decide) data).symm⟩
  · rw [hblocks, forall₂_map_left_iff, forall₂_same]
    intro block hblock
    have hfull := length_of_mem_blocks hblock
    exact decodeBlock_encodeBlock (by rw [hfull]; decide) hfull.le
  · rw [hremainder]
    rcases (remainder fullBlockSize data).length.eq_zero_or_pos with hzero | hpos
    · rw [eq_nil_of_length_eq_zero hzero]
      exact .inl ⟨rfl, rfl⟩
    · exact .inr (decodeBlock_encodeBlock hpos hlt.le)

lemma map_encodeBlock_of_forall₂ {encs data : List (List UInt8)}
    (h : Forall₂ (fun b d ↦ decodeBlock b = some d) encs data)
    (hfull : ∀ b ∈ encs, b.length = fullEncodedBlockSize) :
    data.map encodeBlock = encs ∧ ∀ d ∈ data, d.length = fullBlockSize := by
  have hall : ∀ size ≤ fullBlockSize,
      encodedBlockSizes.getD size 0 = fullEncodedBlockSize → size = fullBlockSize := by decide
  induction h with
  | nil => exact ⟨rfl, fun d hd ↦ absurd hd not_mem_nil⟩
  | @cons b d encs data hdecode _ ih =>
    obtain ⟨hmap, hlengths⟩ := ih fun c hc ↦ hfull c (mem_cons_of_mem b hc)
    obtain ⟨henc, -, hle, hsize⟩ := encodeBlock_of_decodeBlock hdecode
    refine ⟨by rw [map_cons, henc, hmap], ?_⟩
    rintro e (_ | ⟨_, he⟩)
    · exact hall _ hle (hsize.symm.trans (hfull b mem_cons_self))
    · exact hlengths e he

lemma encode_of_decode (h : decode enc = some x) : encode x = enc := by
  obtain ⟨data, last, hdata, hlast, rfl⟩ := decode_eq_some.mp h
  obtain ⟨hmap, hfull⟩ := map_encodeBlock_of_forall₂ hdata fun b hb ↦ length_of_mem_blocks hb
  have hshort : last.length < fullBlockSize ∧
      encodeBlock last = remainder fullEncodedBlockSize enc := by
    rcases hlast with ⟨hremainder, rfl⟩ | hlast
    · rw [hremainder]
      exact ⟨by decide, rfl⟩
    · obtain ⟨henc, -, hle, hsize⟩ := encodeBlock_of_decodeBlock hlast
      refine ⟨lt_of_le_of_ne hle fun hbad ↦ ?_, henc⟩
      -- a full block would not be left over
      have hlt : (remainder fullEncodedBlockSize enc).length < fullEncodedBlockSize := by
        rw [length_remainder]
        exact mod_lt _ (by decide)
      rw [hsize, hbad] at hlt
      exact absurd hlt (by decide)
  obtain ⟨hblocks, hremainder⟩ := blocks_flatten_append (by decide) hfull hshort.1
  rw [encode_eq, hblocks, hremainder, hmap, hshort.2, flatten_blocks_append (by decide)]

/-- Every byte string is decoded from its encoding, and a string that is accepted is the
encoding of what it decodes to. -/
theorem base58_bijection :
    (∀ x, decode (encode x) = some x) ∧ ∀ s x, decode s = some x → encode x = s :=
  ⟨decode_encode, fun _ _ ↦ encode_of_decode⟩

theorem base58_bijection_sample : decode (encode [0x06, 0x15, 0x60]) = some [0x06, 0x15, 0x60] ∧
      encode [0x06, 0x15, 0x60, 0x13, 0x76, 0x28, 0x79, 0xF7] = replicate 11 (letter 1) :=
  ⟨base58_bijection.1 _, base58_bijection.2 _ _ (by decide)⟩

/-! ## Addresses -/

def addrChecksumSize : ℕ := 4

section

-- the hash is any function to 32 bytes
variable (cnFastHash : List UInt8 → Vector UInt8 32)

def checksum (buf : List UInt8) : List UInt8 := (cnFastHash buf).toList.take addrChecksumSize

def encodeAddr (tag : ℕ) (data : List UInt8) : List UInt8 :=
  let buf := writeVarint tag ++ data
  encode (buf ++ checksum cnFastHash buf)

def decodeAddr (addr : List UInt8) : Option (ℕ × List UInt8) := (decode addr).bind fun addrData ↦
    if addrData.length ≤ addrChecksumSize then none
    else
      let buf := addrData.take (addrData.length - addrChecksumSize)
      if checksum cnFastHash buf ≠ addrData.drop (addrData.length - addrChecksumSize) then none
      else (varint 64).read buf

end

variable {cnFastHash : List UInt8 → Vector UInt8 32}

lemma length_checksum (buf : List UInt8) :
    (checksum cnFastHash buf).length = addrChecksumSize := by
  rw [checksum, length_take, Vector.length_toList]
  rfl

lemma decodeAddr_eq_some : decodeAddr cnFastHash addr = some (tag, data) ↔ ∃ buf, buf ≠ [] ∧
      decode addr = some (buf ++ checksum cnFastHash buf) ∧
      (varint 64).read buf = some (tag, data) := by
  constructor
  · intro h
    obtain ⟨addrData, hdecode, h⟩ := Option.bind_eq_some_iff.mp h
    obtain ⟨hlength, h⟩ := Option.ite_none_left_eq_some.mp h
    obtain ⟨hsum, h⟩ := Option.ite_none_left_eq_some.mp h
    refine ⟨addrData.take (addrData.length - addrChecksumSize), fun hnil ↦ ?_, ?_, h⟩
    · have hzero := congrArg length hnil
      rw [length_take, length_nil] at hzero
      omega
    · rw [not_not.mp hsum, take_append_drop]
      exact hdecode
  · rintro ⟨buf, hne, hdecode, hread⟩
    have hpos := length_pos_of_ne_nil hne
    have hlength : (buf ++ checksum cnFastHash buf).length - addrChecksumSize = buf.length := by
      rw [length_append, length_checksum]
      omega
    rw [decodeAddr, hdecode, bind_some, if_neg (by omega)]
    simp only [hlength, take_left, drop_left]
    rw [if_neg (not_not.mpr rfl), hread]

/-- The bytes before the checksum do not end within the tag. -/
def TagEnds (addr : List UInt8) : Prop :=
  ∀ x ∈ decode addr, ∃ byte ∈ (x.take (x.length - addrChecksumSize)).getLast?, byte.toNat < 0x80

lemma encodeAddr_eq_iff (hdecode : decode addr = some (buf ++ checksum cnFastHash buf)) :
    encodeAddr cnFastHash tag data = addr ↔ buf = writeVarint tag ++ data := by
  rw [← encode_of_decode hdecode]
  constructor
  · intro h
    have hbytes := congrArg decode h
    rw [encodeAddr, decode_encode, decode_encode, Option.some_inj] at hbytes
    refine (append_inj_left' hbytes ?_).symm
    rw [length_checksum, length_checksum]
  · rintro rfl
    rfl

lemma tagEnds_iff (hdecode : decode addr = some (buf ++ checksum cnFastHash buf)) :
    TagEnds addr ↔ ∃ byte ∈ buf.getLast?, byte.toNat < 0x80 := by
  have hlength : (buf ++ checksum cnFastHash buf).length - addrChecksumSize = buf.length := by
    rw [length_append, length_checksum]
    omega
  simp [TagEnds, hdecode, -length_append, hlength]

lemma encodeAddr_of_decodeAddr_iff (h : decodeAddr cnFastHash addr = some (tag, data)) :
    encodeAddr cnFastHash tag data = addr ↔ data ≠ [] ∨ TagEnds addr := by
  obtain ⟨buf, -, hdecode, hread⟩ := decodeAddr_eq_some.mp h
  rw [encodeAddr_eq_iff hdecode, tagEnds_iff hdecode]
  by_cases hdata : data = []
  · subst hdata
    rw [append_nil, varint_read_end (by decide) hread]
    exact (or_iff_right (not_not.mpr rfl)).symm
  · obtain ⟨-, w, hw, hbuf⟩ := (varint_lawful (by decide)).write_read buf tag data hread hdata
    cases hw
    exact iff_of_true hbuf (.inl hdata)

/-- An accepted address is the one that `encode_addr` writes exactly when its
tag has ended before the checksum, which it has when there is data after it.
No two such addresses have one tag and one data. -/
theorem addr_one_spelling (h : decodeAddr cnFastHash addr = some (tag, data)) :
    (encodeAddr cnFastHash tag data = addr ↔ data ≠ [] ∨ TagEnds addr) ∧
      ∀ addr', decodeAddr cnFastHash addr' = some (tag, data) → (data ≠ [] ∨ TagEnds addr) →
        (data ≠ [] ∨ TagEnds addr') → addr' = addr := by
  refine ⟨encodeAddr_of_decodeAddr_iff h, fun addr' h' hend hend' ↦ ?_⟩
  have haddr := (encodeAddr_of_decodeAddr_iff h).mpr hend
  exact ((encodeAddr_of_decodeAddr_iff h').mpr hend').symm.trans haddr

def sampleHash (buf : List UInt8) : Vector UInt8 32 := Vector.replicate 32 buf.sum

theorem addr_one_spelling_sample :
    encodeAddr sampleHash 18 [1, 2, 3] = encode [18, 1, 2, 3, 24, 24, 24, 24] :=
  (addr_one_spelling (by decide +kernel)).1.mpr (.inl (by decide))

/-- The byte 0x80 asks for another one; at the end of the data it is read as the tag 0. -/
theorem exists_unfinished_tag (cnFastHash : List UInt8 → Vector UInt8 32) :
    ∃ addr, decodeAddr cnFastHash addr = some (0, []) ∧ encodeAddr cnFastHash 0 [] ≠ addr ∧
      decodeAddr cnFastHash (encodeAddr cnFastHash 0 []) = some (0, []) := by
  refine ⟨encode ([0x80] ++ checksum cnFastHash [0x80]), ?_, fun heq ↦ ?_, ?_⟩
  · exact decodeAddr_eq_some.mpr ⟨[0x80], cons_ne_nil _ _, decode_encode _, by decide⟩
  · have hbytes := congrArg decode heq
    rw [encodeAddr, decode_encode, decode_encode] at hbytes
    exact absurd (head_eq_of_cons_eq (Option.some_inj.mp hbytes)) (by decide)
  · exact decodeAddr_eq_some.mpr ⟨[0], cons_ne_nil _ _, decode_encode _, by decide⟩

theorem unfinished_tag_accepted :
    ∃ addr, decodeAddr sampleHash addr = some (0, []) ∧ encodeAddr sampleHash 0 [] ≠ addr ∧
      decodeAddr sampleHash (encodeAddr sampleHash 0 []) = some (0, []) :=
  exists_unfinished_tag sampleHash

end Monero.Common.Base58
