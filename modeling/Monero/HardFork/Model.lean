import Monero.Lib.Window

/-!
# The hard fork object

`HardFork` follows `cryptonote_basic/hardfork.cpp`.  The object keeps the
schedule of forks, a rolling window of the votes of the last blocks with a
count for each version, and the index of the fork in force.  It reads the
blocks back from the database, and writes the version in force at each height
to a table that popping a block does not shorten.
-/

namespace Monero

open Lib

namespace HardFork

/-- `hardfork_t` -/
structure Fork where
  version : UInt8
  height : ℕ
  threshold : UInt8
  time : ℤ
  deriving DecidableEq, Repr, Inhabited

structure BlockVersions where
  majorVersion : UInt8
  minorVersion : UInt8
  deriving DecidableEq, Repr

/-- The part of `BlockchainDB` that the hard fork object reads and writes.
A height without a row in the table of versions reads as zero, a version that
is never stored. -/
structure Db where
  blocks : List BlockVersions
  hardForkVersions : ℕ → UInt8

namespace Db

def empty : Db := ⟨[], fun _ ↦ 0⟩

variable (db : Db)

def height : ℕ := db.blocks.length

def addBlock (b : BlockVersions) : Db := { db with blocks := db.blocks ++ [b] }

/-- Removing the top `nblocks` blocks leaves the table of versions as it is. -/
def popBlocks (nblocks : ℕ) : Db :=
  { db with blocks := db.blocks.take (db.height - nblocks) }

def getHardForkVersion (height : ℕ) : UInt8 := db.hardForkVersions height

def setHardForkVersion (height : ℕ) (version : UInt8) : Db :=
  { db with hardForkVersions := fun h ↦ if h = height then version else db.hardForkVersions h }

/-- The blocks at heights `start`, `start + 1`, ..., `stop - 1`. -/
def blocksBetween (start stop : ℕ) : List BlockVersions := (db.blocks.take stop).drop start

end Db

def getBlockVote (b : BlockVersions) : UInt8 :=
  if b.minorVersion = 0 then 1 else b.minorVersion

def getBlockVersion (b : BlockVersions) : UInt8 := b.majorVersion

end HardFork

structure HardFork where
  windowSize : ℕ
  originalVersion : UInt8
  heights : List HardFork.Fork
  versions : List UInt8
  lastVersions : UInt8 → UInt32
  currentForkIndex : ℕ

namespace HardFork

variable (hf : HardFork)

/-- `HardFork::add_fork`; `none` is the return value `false`. -/
def addFork (f : Fork) : Option HardFork :=
  if f.version = 0 then none
  else if hf.heights ≠ [] ∧ (f.version ≤ (hf.heights.getLastD default).version ∨
        f.height ≤ (hf.heights.getLastD default).height ∨
          f.time ≤ (hf.heights.getLastD default).time) then none
  else if 100 < f.threshold then none
  else some { hf with heights := hf.heights ++ [f] }

def getEffectiveVersion (votingVersion : UInt8) : UInt8 :=
  if hf.heights = [] then votingVersion
  else if (hf.heights.getLastD default).version < votingVersion then
    (hf.heights.getLastD default).version
  else votingVersion

def forkAt (n : ℕ) : Fork := hf.heights.getD n default

def getCurrentVersion : UInt8 := (hf.forkAt hf.currentForkIndex).version

/-- The height of the first of the last forks that are at or above `version`. -/
def getEarliestIdealHeightForVersion (version : UInt8) : ℕ :=
  ((hf.heights.reverse.takeWhile fun f ↦ version ≤ f.version).getLast?.map Fork.height).getD
    (2 ^ 64 - 1)

def doCheck (blockVersion votingVersion : UInt8) : Bool :=
  blockVersion = (hf.forkAt hf.currentForkIndex).version ∧
    (hf.forkAt hf.currentForkIndex).version ≤ votingVersion

def check (b : BlockVersions) : Bool :=
  hf.doCheck (getBlockVersion b) (getBlockVote b)

/-- The number of votes fork `n` needs, computed in 64 bits and kept in 32. -/
def neededVotes (n : ℕ) : UInt32 :=
  UInt32.ofNat ((hf.windowSize * (hf.forkAt n).threshold.toNat + 99) % 2 ^ 64 / 100)

/-- The loop of `get_voted_fork_index`, with forks `0`, ..., `n - 1` left. -/
def votedForkIndexFrom (hf : HardFork) (height : ℕ) : ℕ → UInt32 → ℕ
  | 0, _ => hf.currentForkIndex
  | n + 1, accumulatedVotes =>
    let votes := accumulatedVotes + hf.lastVersions (hf.forkAt n).version
    if (hf.forkAt n).height ≤ height ∧ hf.neededVotes n ≤ votes then n
    else hf.votedForkIndexFrom height n votes

def getVotedForkIndex (height : ℕ) : ℕ :=
  hf.votedForkIndexFrom height hf.heights.length 0

def checkForHeight (b : BlockVersions) (height : ℕ) : Bool :=
  let fork := hf.forkAt (hf.getVotedForkIndex height)
  getBlockVersion b = fork.version ∧ fork.version ≤ getBlockVote b

/-- `uint8_t voted = get_voted_fork_index(height)` and the update after it. -/
def raiseForkIndex (height : ℕ) : HardFork :=
  let voted := hf.getVotedForkIndex height % 256
  if hf.currentForkIndex < voted then { hf with currentForkIndex := voted } else hf

/-- The loop of `add` that makes room in the window. -/
def evict (windowSize : ℕ) : List UInt8 → (UInt8 → UInt32) → List UInt8 × (UInt8 → UInt32)
  | [], lastVersions => ([], lastVersions)
  | v :: vs, lastVersions =>
    if windowSize ≤ (v :: vs).length then evict windowSize vs (unbump lastVersions v)
    else (v :: vs, lastVersions)

def pushVote (v : UInt8) : HardFork :=
  { hf with versions := hf.versions ++ [v], lastVersions := bump hf.lastVersions v }

variable (db : Db)

/-- `HardFork::add(uint8_t, uint8_t, uint64_t)`; `none` is the return value
`false`. -/
def addVersions (blockVersion votingVersion : UInt8) (height : ℕ) : Option (HardFork × Db) :=
  if hf.doCheck blockVersion votingVersion then
    let db := db.setHardForkVersion height (hf.forkAt hf.currentForkIndex).version
    let votingVersion := hf.getEffectiveVersion votingVersion
    let (versions, lastVersions) := evict hf.windowSize hf.versions hf.lastVersions
    let hf := { hf with versions := versions, lastVersions := lastVersions }
    some ((hf.pushVote votingVersion).raiseForkIndex (height + 1), db)
  else none

def add (b : BlockVersions) (height : ℕ) : Option (HardFork × Db) :=
  hf.addVersions db (getBlockVersion b) (getBlockVote b) height

def clearVotes : HardFork := { hf with versions := [], lastVersions := fun _ ↦ 0 }

def readVotes (blocks : List BlockVersions) : HardFork :=
  blocks.foldl (fun hf b ↦ hf.pushVote (hf.getEffectiveVersion (getBlockVote b))) hf

/-- The loop that looks for the fork with version `lastv`, from fork `n` on. -/
def findForkIndex (hf : HardFork) (lastv : UInt8) : ℕ → ℕ → ℕ
  | 0, n => n
  | fuel + 1, n =>
    if n + 1 < hf.heights.length ∧ (hf.forkAt n).version ≠ lastv then
      hf.findForkIndex lastv fuel (n + 1)
    else n

def rescanFromBlockHeight (height : ℕ) : HardFork :=
  if db.height ≤ height then hf
  else
    let hf := hf.clearVotes.readVotes (db.blocksBetween height db.height)
    let lastv := db.getHardForkVersion (db.height - 1)
    let hf := { hf with currentForkIndex := hf.findForkIndex lastv hf.heights.length 0 }
    hf.raiseForkIndex db.height

def rescanFromChainHeight (height : ℕ) : HardFork :=
  if height = 0 then hf else hf.rescanFromBlockHeight db (height - 1)

def init : HardFork :=
  let heights := if hf.heights = [] then [⟨hf.originalVersion, 0, 0, 0⟩] else hf.heights
  let hf := { hf with heights := heights, currentForkIndex := 0 }
  -- the rescan begins a window below the top
  let height := if hf.windowSize < db.height then db.height - (hf.windowSize - 1) else 1
  hf.clearVotes.rescanFromChainHeight db height

/-- The loop of `reorganize_from_block_height` that walks the fork index back
to the version stored at the height kept. -/
def lowerForkIndex (hf : HardFork) (startVersion : UInt8) : ℕ → ℕ
  | 0 => 0
  | n + 1 =>
    if startVersion < (hf.forkAt (n + 1)).version then hf.lowerForkIndex startVersion n
    else n + 1

/-- The loop that adds the blocks above the height kept again, whose return
values the source drops. -/
def readdBlocks : HardFork × Db → ℕ → List BlockVersions → HardFork × Db
  | s, _, [] => s
  | s, height, b :: blocks =>
    readdBlocks ((s.1.add s.2 b height).getD s) (height + 1) blocks

/-- `none` is the return value `false`. -/
def reorganizeFromBlockHeight (height : ℕ) : Option (HardFork × Db) :=
  if db.height ≤ height then none
  else
    let rescanHeight :=
      if hf.windowSize - 1 ≤ height then height - (hf.windowSize - 1) else 0
    let startVersion := if height = 0 then hf.originalVersion else db.getHardForkVersion height
    let hf := { hf.clearVotes with
      currentForkIndex := hf.lowerForkIndex startVersion hf.currentForkIndex }
    let hf := hf.readVotes (db.blocksBetween rescanHeight (height + 1))
    let hf := hf.raiseForkIndex (height + 1)
    some (readdBlocks (hf, db) (height + 1) (db.blocksBetween (height + 1) db.height))

def reorganizeFromChainHeight (height : ℕ) : Option (HardFork × Db) :=
  if height = 0 then none else hf.reorganizeFromBlockHeight db (height - 1)

/-- One round of the loop of `on_block_popped`. -/
def popVote (height : ℕ) : HardFork :=
  -- the entry that comes in is the stored version of the popped block, not a vote
  let lastVersions := unbump hf.lastVersions (hf.versions.getLastD 0)
  let version := db.getHardForkVersion height
  { hf with
    versions := version :: hf.versions.dropLast
    lastVersions := bump lastVersions version }

/-- The rounds for the `n` heights from `newChainHeight` up, the highest one
first. -/
def popVotes (hf : HardFork) (db : Db) (newChainHeight : ℕ) : ℕ → HardFork
  | 0 => hf
  | n + 1 => (hf.popVote db (newChainHeight + n)).popVotes db newChainHeight n

/-- The last loop of `on_block_popped`, which does not take voting into
account. -/
def scheduledForkIndex (hf : HardFork) (height : ℕ) : ℕ → ℕ
  | 0 => 0
  | n + 1 => if (hf.forkAt (n + 1)).height ≤ height then n + 1 else hf.scheduledForkIndex height n

/-- `none` stands for the two ways the call throws: `nblocks` is zero, or no
block is left and the unsigned height counter of the loop wraps around to a
height without a stored version. -/
def onBlockPopped (nblocks : ℕ) : Option HardFork :=
  if nblocks = 0 ∨ db.height = 0 then none
  else
    let hf := hf.popVotes db db.height nblocks
    some { hf with currentForkIndex := hf.scheduledForkIndex db.height (hf.heights.length - 1) }

/-- The version scheduled for a height, whatever the votes are. -/
def getIdealVersion (height : ℕ) : UInt8 :=
  let n := hf.scheduledForkIndex height (hf.heights.length - 1)
  if n = 0 then hf.originalVersion else (hf.forkAt n).version

/-- A block appended to the database and then added to the hard fork object,
in the order of `BlockchainDB::add_block`. -/
def addBlock (s : HardFork × Db) (b : BlockVersions) : Option (HardFork × Db) :=
  s.1.add (s.2.addBlock b) b s.2.height

def addBlocks (s : HardFork × Db) (blocks : List BlockVersions) : Option (HardFork × Db) :=
  blocks.foldlM addBlock s

end HardFork

end Monero
