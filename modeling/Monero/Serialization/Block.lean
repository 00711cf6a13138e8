import Monero.Serialization.Canonical

/-!
# Block blobs

A block ends in the list of its transaction hashes.  The count of an empty list
is the last integer of the blob, where the reader takes an integer that is cut
off, so that a blob of a block without transactions may end in bytes with only
their high bit set instead of a zero byte.
-/

namespace Monero.Serialization

open Lib Lib.Codec

structure BlockHeader where
  majorVersion : UInt8
  minorVersion : UInt8
  timestamp : UInt64
  prevId : Key
  nonce : UInt32
  deriving DecidableEq

structure Block extends BlockHeader where
  minerTx : Transaction
  txHashes : List Key
  deriving DecidableEq

def varint8 : Codec UInt8 := (varint 8).map UInt8.ofNat fun v ↦ some v.toNat

def uint32 : Codec UInt32 := (uint 4).map UInt32.ofNat fun v ↦ some v.toNat

def blockHeader : Codec BlockHeader :=
  (varint8.seq (varint8.seq (varint64.seq (key.seq uint32)))).map
    (fun p ↦ ⟨p.1, p.2.1, p.2.2.1, p.2.2.2.1, p.2.2.2.2⟩)
    fun h ↦ some (h.majorVersion, h.minorVersion, h.timestamp, h.prevId, h.nonce)

/-- A transaction inside another object, written as its own flag `pruned`
says. -/
def memberTransaction : Codec Transaction where
  read := (transaction false).read
  write := writeTransaction

def cryptonoteMaxTxPerBlock : ℕ := 0x10000000

def block : Codec Block := ((blockHeader.seq (memberTransaction.seq key.container)).map
    (fun p ↦ { p.1 with minerTx := p.2.1, txHashes := p.2.2 })
    fun b ↦ some (b.toBlockHeader, b.minerTx, b.txHashes)).guard
    fun b ↦ b.txHashes.length ≤ cryptonoteMaxTxPerBlock

def parseAndValidateBlockFromBlob (blob : List UInt8) : Option Block := block.readAll blob

def blockToBlob (b : Block) : Option (List UInt8) := block.write b

/-! ## The parts -/

lemma varint8_lawful : varint8.Lawful fun _ ↦ True := by
  apply (@varint_lawful 8 (by decide)).map
  constructor
  · intro v _
    exact ⟨v.toNat, rfl, v.toNat_lt, UInt8.ofNat_toNat⟩
  · intro n hn
    refine ⟨trivial, ?_⟩
    rw [UInt8.toNat_ofNat', Nat.mod_eq_of_lt hn]

lemma uint32_exact : uint32.Exact fun _ ↦ True := by
  apply (uint_exact 4).map
  constructor
  · intro v _
    exact ⟨v.toNat, rfl, v.toNat_lt, UInt32.ofNat_toNat⟩
  · intro n hn
    refine ⟨trivial, ?_⟩
    rw [UInt32.toNat_ofNat', Nat.mod_eq_of_lt (hn.trans_eq (by decide))]

lemma blockHeader_lawful : blockHeader.Lawful fun _ ↦ True := by
  apply (varint8_lawful.seq (varint8_lawful.seq (varint64_lawful.seq
    (key_exact.toLawful.seq uint32_exact.toLawful)))).map
  constructor
  · intro h _
    exact ⟨_, rfl, ⟨trivial, trivial, trivial, trivial, trivial⟩, rfl⟩
  · intro p _
    exact ⟨trivial, rfl⟩

lemma writeTransaction_of_unpruned {t : Transaction} (h : t.pruned = false) :
    writeTransaction t = (transaction false).write t := by
  rw [writeTransaction, h]

lemma memberTransaction_lawful : memberTransaction.Lawful Transaction.WellFormed where
  read_write t ht := by
    obtain ⟨w, hw, hread⟩ := transaction_lawful.read_write t ht
    exact ⟨w, (writeTransaction_of_unpruned ht.unpruned).trans hw, hread⟩
  write_read b t rest hread hrest := by
    obtain ⟨ht, w, hw, hb⟩ := transaction_lawful.write_read b t rest hread hrest
    exact ⟨ht, w, (writeTransaction_of_unpruned ht.unpruned).trans hw, hb⟩

/-! ## Whole blocks -/

lemma blockToBlob_eq_some {b : Block} {u v w : List UInt8}
    (hcount : b.txHashes.length ≤ cryptonoteMaxTxPerBlock)
    (hu : blockHeader.write b.toBlockHeader = some u)
    (hv : memberTransaction.write b.minerTx = some v)
    (hw : key.container.write b.txHashes = some w) : blockToBlob b = some (u ++ (v ++ w)) := by
  have hrest : (memberTransaction.seq key.container).write (b.minerTx, b.txHashes) =
      some (v ++ w) :=
    bind_write_eq_some.mpr ⟨v, w, hv, hw, rfl⟩
  have hall : (blockHeader.seq (memberTransaction.seq key.container)).write
      (b.toBlockHeader, b.minerTx, b.txHashes) = some (u ++ (v ++ w)) :=
    bind_write_eq_some.mpr ⟨u, v ++ w, hu, hrest, rfl⟩
  rw [blockToBlob, block, Codec.guard]
  simp only [hcount, decide_true, if_true]
  exact hall

/-- An accepted blob is the one of its block exactly when the block has a
transaction or the blob ends in a zero byte. -/
theorem blockBlob_canonical_iff {blob : List UInt8} {b : Block}
    (hparse : parseAndValidateBlockFromBlob blob = some b) :
    blockToBlob b = some blob ↔ (b.txHashes = [] → blob.getLast? = some 0) := by
  obtain ⟨hread, hcount⟩ := guard_read_eq_some.mp (readAll_eq_some.mp hparse)
  obtain ⟨p, hp, rfl⟩ := map_read_eq_some.mp hread
  obtain ⟨r, hheader, hrest⟩ := bind_read_eq_some.mp hp
  obtain ⟨s, htx, hhashes⟩ := bind_read_eq_some.mp hrest
  rw [decide_eq_true_eq] at hcount
  -- the count of the hashes takes at least one byte
  have hs : s ≠ [] := by
    rintro rfl
    cases hhashes
  obtain ⟨-, v, hv, rfl⟩ := memberTransaction_lawful.write_read r _ s htx hs
  obtain ⟨-, u, hu, rfl⟩ := blockHeader_lawful.write_read blob _ _ hheader (by simp [hs])
  obtain ⟨w, hw, -⟩ := keyContainer_lawful.read_write p.2.2 (hcount.trans_lt (by decide))
  rw [blockToBlob_eq_some hcount hu hv hw, List.getLast?_append_of_ne_nil _ (by simp [hs]),
    List.getLast?_append_of_ne_nil _ hs,
    ← key_exact.container_write_iff_of_read_end key_productive hhashes, hw]
  simp

def coinbaseBlob : List UInt8 := [2, 60, 1, 0xff, 0x80, 1, 0, 1, 7, 0]

def coinbase : Transaction where
  version := 2
  unlockTime := 60
  vin := [.gen 128]
  vout := []
  extra := [7]
  signatures := []
  rctSignatures := RctSig.empty
  pruned := false

/-- The bytes of a block on the zero block, after which the hashes follow. -/
def emptyBlockBlob : List UInt8 :=
  [16, 16, 0xe8, 7] ++ List.replicate 32 0 ++ [1, 0, 0, 0] ++ coinbaseBlob

def emptyBlock : Block where
  majorVersion := 16
  minorVersion := 16
  timestamp := 1000
  prevId := zeroKey
  nonce := 1
  minerTx := coinbase
  txHashes := []

theorem blockBlob_canonical_empty :
    parseAndValidateBlockFromBlob (emptyBlockBlob ++ [0]) = some emptyBlock ∧
      blockToBlob emptyBlock = some (emptyBlockBlob ++ [0]) := by
  have hparse : parseAndValidateBlockFromBlob (emptyBlockBlob ++ [0]) = some emptyBlock := by
    decide +kernel
  exact ⟨hparse, (blockBlob_canonical_iff hparse).mpr fun _ ↦ rfl⟩

/-- The count of the hashes is cut off by the end of the blob. -/
theorem blockBlob_cut_off :
    parseAndValidateBlockFromBlob (emptyBlockBlob ++ [0x80]) = some emptyBlock ∧
      parseAndValidateBlockFromBlob (emptyBlockBlob ++ [0]) = some emptyBlock ∧
        blockToBlob emptyBlock ≠ some (emptyBlockBlob ++ [0x80]) := by
  decide +kernel

end Monero.Serialization
