import Monero.Crypto.TreeHash
import Monero.Serialization.Block
import Monero.Serialization.TxHash

/-!
# The block hashing blob

`get_block_hashing_blob` writes the header, the root of the tree over the hashes
of the transactions, of which the miner transaction is the first, and their
number.
-/

namespace Monero.Serialization

open Lib Lib.Codec Crypto

/-- A block in memory, with the hash that may be cached in its miner
transaction. -/
structure BlockObject extends BlockHeader where
  minerTx : TransactionObject
  minerTxHash : Option Key
  txHashes : List Key
  deriving DecidableEq

variable (env : HashEnv) (b : BlockObject)

def BlockObject.getTransactionHash : Option Key :=
  match b.minerTxHash with
  | some h => some h
  | none => calculateTransactionHash env b.minerTx

/-- The hashes that `get_tx_tree_hash` collects, unless it throws. -/
def BlockObject.txsIds : Option (List Key) := (b.getTransactionHash env).map (· :: b.txHashes)

def getTxTreeHash : Option Key := (b.txsIds env).map (treeHash (hashPair env.cnFastHash))

def getBlockHashingBlob : Option (List UInt8) :=
  (blockHeader.write b.toBlockHeader).bind fun blob ↦
    (getTxTreeHash env b).map fun treeRootHash ↦
      blob ++ treeRootHash.toList ++ writeVarint (b.txHashes.length + 1)

/-- The byte strings that are hashed on the way to the root. -/
def treeHashInputs (hashes : List Key) : List (List UInt8) :=
  ((merkleTree hashes).inputs (hashPair env.cnFastHash)).map hashBytes

variable {env}

lemma getBlockHashingBlob_eq_some {b : BlockObject} {blob : List UInt8}
    (h : getBlockHashingBlob env b = some blob) :
    ∃ u coinbase, blockHeader.write b.toBlockHeader = some u ∧
      b.getTransactionHash env = some coinbase ∧
      blob = u ++ ((treeHash (hashPair env.cnFastHash) (coinbase :: b.txHashes)).toList ++
        writeVarint (b.txHashes.length + 1)) := by
  obtain ⟨u, hu, h⟩ := Option.bind_eq_some_iff.mp h
  obtain ⟨root, hroot, rfl⟩ := Option.map_eq_some_iff.mp h
  obtain ⟨ids, hids, rfl⟩ := Option.map_eq_some_iff.mp hroot
  obtain ⟨coinbase, hcoinbase, rfl⟩ := Option.map_eq_some_iff.mp hids
  exact ⟨u, coinbase, hu, hcoinbase, List.append_assoc _ _ _⟩

lemma writeVarint_injective : Function.Injective writeVarint := by
  intro a b h
  have hbits : a < 2 ^ (a + b + 1) ∧ b < 2 ^ (a + b + 1) :=
    ⟨Nat.lt_two_pow_self.trans_le (Nat.pow_le_pow_right two_pos (by omega)),
      Nat.lt_two_pow_self.trans_le (Nat.pow_le_pow_right two_pos (by omega))⟩
  exact ((varint_lawful (Nat.succ_pos (a + b))).append_inj hbits.1 hbits.2 rfl rfl
    (congrArg (· ++ []) h)).1

/-- Blocks with the same hashing blob have the same header and the same hashes of
transactions, or their trees collide. -/
theorem hashingBlob_commits {b b' : BlockObject} {blob : List UInt8}
    (h : getBlockHashingBlob env b = some blob) (h' : getBlockHashingBlob env b' = some blob) :
    (b.toBlockHeader = b'.toBlockHeader ∧
        b.getTransactionHash env = b'.getTransactionHash env ∧ b.txHashes = b'.txHashes) ∨
      ∃ ids ids', b.txsIds env = some ids ∧ b'.txsIds env = some ids' ∧
        Collide env.cnFastHash (treeHashInputs env ids) (treeHashInputs env ids') := by
  obtain ⟨u, coinbase, hu, hcoinbase, rfl⟩ := getBlockHashingBlob_eq_some h
  obtain ⟨u', coinbase', hu', hcoinbase', hblob⟩ := getBlockHashingBlob_eq_some h'
  obtain ⟨hheader, hrest⟩ := blockHeader_lawful.append_inj trivial trivial hu hu' hblob
  obtain ⟨hroot, hcount⟩ := List.append_inj hrest (by simp)
  have hlength : (coinbase :: b.txHashes).length = (coinbase' :: b'.txHashes).length :=
    writeVarint_injective hcount
  rcases eq_or_collide_of_treeHash_eq _ hlength (List.cons_ne_nil _ _)
    (List.Vector.toList_injective hroot) with hids | hcollide
  · obtain ⟨hfirst, hothers⟩ := List.cons.inj hids
    exact .inl ⟨hheader, by rw [hcoinbase, hcoinbase', hfirst], hothers⟩
  · refine .inr ⟨_, _, ?_, ?_, collide_map_hashBytes hcollide⟩
    · rw [BlockObject.txsIds, hcoinbase, Option.map_some]
    · rw [BlockObject.txsIds, hcoinbase', Option.map_some]

/-- A block with one transaction besides the miner transaction. -/
def pairBlock (b : UInt8) : BlockObject :=
  ⟨⟨1, 0, 0, zeroKey, 0⟩, ⟨extraCoinbase 0, 0, 0⟩, some zeroKey, [List.Vector.replicate 32 b]⟩

/-- With a hash function that knows only the length. -/
theorem hashingBlob_commits_pair :
    ∃ blob, getBlockHashingBlob lengthEnv (pairBlock 1) = some blob ∧
      getBlockHashingBlob lengthEnv (pairBlock 2) = some blob ∧
      (((pairBlock 1).toBlockHeader = (pairBlock 2).toBlockHeader ∧
          (pairBlock 1).getTransactionHash lengthEnv = (pairBlock 2).getTransactionHash lengthEnv ∧
          (pairBlock 1).txHashes = (pairBlock 2).txHashes) ∨
        ∃ ids ids', (pairBlock 1).txsIds lengthEnv = some ids ∧
          (pairBlock 2).txsIds lengthEnv = some ids' ∧
          Collide lengthEnv.cnFastHash (treeHashInputs lengthEnv ids)
            (treeHashInputs lengthEnv ids')) :=
  ⟨_, rfl, rfl, hashingBlob_commits rfl rfl⟩

end Monero.Serialization
