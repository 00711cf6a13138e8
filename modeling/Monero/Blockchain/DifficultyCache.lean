import Monero.Blockchain.Difficulty

/-!
# The caches of `get_difficulty_for_next_block`

The difficulty of the next block is kept under the hash of the top block.
Below that value lies a window of timestamps and cumulative difficulties that
is slid along when the height has grown by exactly one since it was filled.
Popping, switching chains and handling alternative blocks empty the window and
raise a flag that keeps it from being used; a batch that ends well lowers the
flag again.
-/

namespace Monero.Blockchain

open HardFork Monero.Lib

/-- The members of `Blockchain` that take part.  `version` is the version that
the hard fork object reports, and `batch` is the chain at the start of an open
batch. -/
structure CacheState (β H : Type*) where
  chain : List (Row β)
  version : UInt8
  difficultyForNextBlockTopHash : H
  difficultyForNextBlock : ℕ
  timestamps : List ℕ
  difficulties : List ℕ
  timestampsAndDifficultiesHeight : ℕ
  resetTimestampsAndDifficultiesHeight : Bool
  batch : Option (List (Row β))
  batchSuccess : Bool

/-- How far `handle_block_to_main_chain` gets with a block. -/
inductive Outcome where
  | rejectedEarly
  | rejectedLate
  | databaseException
  | weightLimitFailed
  | added
  deriving DecidableEq, Repr

/-- A block handed to `handle_block_to_main_chain`, with the data stored for
it, what becomes of it, and the versions that the hard fork object reports
after the block is added and after it is popped again. -/
structure Attempt (β : Type*) where
  block : β
  versions : BlockVersions
  timestamp : ℕ
  weight : ℕ
  longTermWeight : ℕ
  alreadyGeneratedCoins : ℕ
  outcome : Outcome
  versionAfter : UInt8
  versionAfterPop : UInt8

def Attempt.row {β : Type*} (a : Attempt β) (cumulativeDifficulty : ℕ) : Row β where
  block := a.block
  versions := a.versions
  timestamp := a.timestamp
  weight := a.weight
  longTermWeight := a.longTermWeight
  cumulativeDifficulty := cumulativeDifficulty
  alreadyGeneratedCoins := a.alreadyGeneratedCoins

namespace CacheState

variable {β H : Type*} [DecidableEq H]

variable (s : CacheState β H)

/-- The window cannot be slid over a gap; heights are far below `2 ^ 64`. -/
def slides : Prop :=
  s.resetTimestampsAndDifficultiesHeight = false ∧ s.timestampsAndDifficultiesHeight ≠ 0 ∧
    s.chain.length = s.timestampsAndDifficultiesHeight + 1 ∧
      difficultyBlocksCount ≤ s.timestamps.length

instance (s : CacheState β H) : Decidable s.slides := by
  unfold slides
  infer_instance

def gather : List ℕ × List ℕ :=
  if s.slides then
    ((s.timestamps ++ [getBlockTimestamp s.chain (s.chain.length - 1)]).rtake
      difficultyBlocksCount,
      (s.difficulties ++ [getBlockCumulativeDifficulty s.chain (s.chain.length - 1)]).rtake
        difficultyBlocksCount)
  else
    (difficultyColumn Row.timestamp s.chain, difficultyColumn Row.cumulativeDifficulty s.chain)

/-- `hash` gives the hash of the top block of a chain. -/
def getDifficultyForNextBlock (hash : List (Row β) → H) (s : CacheState β H) :
    CacheState β H × ℕ :=
  if hash s.chain = s.difficultyForNextBlockTopHash then (s, s.difficultyForNextBlock)
  else
    let gathered := s.gather
    let diff := nextDifficulty gathered.1 gathered.2 (targetOfVersion s.version)
    ({ s with
      timestamps := gathered.1
      difficulties := gathered.2
      timestampsAndDifficultiesHeight := s.chain.length
      difficultyForNextBlockTopHash := hash s.chain
      difficultyForNextBlock := diff }, diff)

def invalidate : CacheState β H :=
  { s with
    timestampsAndDifficultiesHeight := 0
    resetTimestampsAndDifficultiesHeight := true }

/-- Popping the genesis block throws. -/
def popBlockFromBlockchain (version : UInt8) : CacheState β H :=
  let s := s.invalidate
  if s.chain.length ≤ 1 then s else { s with chain := s.chain.dropLast, version := version }

/-- `pop_blocks`, with the versions after each block it gets to pop.  When it
fails, a batch of its own is aborted. -/
def popBlocks (versions : List UInt8) (failed : Bool) : CacheState β H :=
  let t := versions.foldl popBlockFromBlockchain s
  if failed then
    let t := t.invalidate
    if s.batch.isNone then { t with chain := s.chain } else t
  else t

/-- The database adds a block and tells the hard fork object. -/
def addBlock (row : Row β) (version : UInt8) : CacheState β H :=
  { s with chain := s.chain ++ [row], version := version }

def nextCumulativeDifficulty (currentDiffic : ℕ) : ℕ :=
  let previous :=
    if s.chain.length = 0 then 0 else getBlockCumulativeDifficulty s.chain (s.chain.length - 1)
  (currentDiffic + previous) % 2 ^ 128

def handleBlockToMainChain (hash : List (Row β) → H) (s : CacheState β H) (a : Attempt β) :
    CacheState β H :=
  if a.outcome = .rejectedEarly then s
  else
    let r := getDifficultyForNextBlock hash s
    if r.2 = 0 ∨ a.outcome = .rejectedLate then r.1
    else if a.outcome = .databaseException then { r.1 with batchSuccess := false }
    else
      let s := r.1.addBlock (a.row (r.1.nextCumulativeDifficulty r.2)) a.versionAfter
      if a.outcome = .weightLimitFailed then s.popBlockFromBlockchain a.versionAfterPop
      else (getDifficultyForNextBlock hash s).1

def prepareHandleIncomingBlocks : CacheState β H :=
  match s.batch with
  | some _ => s
  | none => { s with batch := some s.chain, batchSuccess := true }

/-- An aborted batch restores the chain but not the hard fork object. -/
def cleanupHandleIncomingBlocks : CacheState β H :=
  match s.batch with
  | none => s
  | some snapshot =>
    if s.batchSuccess then
      if s.resetTimestampsAndDifficultiesHeight then
        { s with
          batch := none
          timestampsAndDifficultiesHeight := 0
          resetTimestampsAndDifficultiesHeight := false }
      else { s with batch := none }
    else { s with batch := none, chain := snapshot }

end CacheState

/-- What happens to the caches and the chain, one call at a time.  A
reorganisation is a `beginSwitch` followed by pops, blocks for the main chain,
another `beginSwitch` with pops and blocks when it is rolled back, alternative
blocks, and the update of the hard fork object. -/
inductive CacheOp (β : Type*) where
  | handleBlock (a : Attempt β)
  | popBlock (version : UInt8)
  | popBlocks (versions : List UInt8) (failed : Bool)
  | beginSwitch
  | alternativeBlock
  | reorganizeHardFork (version : UInt8)
  | prepare
  | cleanup
  | query

namespace CacheState

variable {β H : Type*} [DecidableEq H]

def step (hash : List (Row β) → H) (s : CacheState β H) : CacheOp β → CacheState β H
  | .handleBlock a => s.handleBlockToMainChain hash a
  | .popBlock version => s.popBlockFromBlockchain version
  | .popBlocks versions failed => s.popBlocks versions failed
  | .beginSwitch => s.invalidate
  | .alternativeBlock => s.invalidate
  | .reorganizeHardFork version => { s with version := version }
  | .prepare => s.prepareHandleIncomingBlocks
  | .cleanup => s.cleanupHandleIncomingBlocks
  | .query => (s.getDifficultyForNextBlock hash).1

def run (hash : List (Row β) → H) (s : CacheState β H) (ops : List (CacheOp β)) : CacheState β H :=
  ops.foldl (step hash) s

def start (nullHash : H) (chain : List (Row β)) (version : UInt8) : CacheState β H where
  chain := chain
  version := version
  difficultyForNextBlockTopHash := nullHash
  difficultyForNextBlock := 1
  timestamps := []
  difficulties := []
  timestampsAndDifficultiesHeight := 0
  resetTimestampsAndDifficultiesHeight := true
  batch := none
  batchSuccess := true

end CacheState

/-! ## The caches are transparent

At any moment the cached value and the window belong to one chain, the one
that was current when they were filled.  As long as the flag is down and the
window is in use, the current chain is not longer than that chain, except
inside `handle_block_to_main_chain`, where it is one block longer; so the
window is slid only along that block. -/

variable {β H : Type*}

lemma difficultyColumn_concat (f : Row β → ℕ) {chain : List (Row β)} (hne : chain ≠ [])
    (row : Row β) :
    difficultyColumn f (chain ++ [row]) =
      (difficultyColumn f chain ++ [f row]).rtake difficultyBlocksCount := by
  have hone : 1 ≤ difficultyBlocksCount := by decide
  rw [difficultyColumn_eq_rtake, difficultyColumn_eq_rtake, List.tail_append_of_ne_nil hne,
    List.map_append, List.map_singleton, rtake_concat hone, rtake_concat hone,
    rtake_rtake (le_refl difficultyBlocksCount)]

lemma readAt_top (f : Row β → ℕ) (chain : List (Row β)) (row : Row β) :
    readAt f (chain ++ [row]) ((chain ++ [row]).length - 1) = f row :=
  readAt_eq (by simp)

namespace CacheState

variable {hash : List (Row β) → H} {seen seen' : List (Row β) → UInt8 → Prop}
  {s t : CacheState β H} {X : List (Row β)}

/-- The caches belong to the chain `X`.  `seen` holds of the chains and
versions that have been current. -/
structure Cached (hash : List (Row β) → H) (seen : List (Row β) → UInt8 → Prop)
    (s : CacheState β H) (X : List (Row β)) : Prop where
  key : s.difficultyForNextBlockTopHash = hash X
  value : (X = [] ∧ s.difficultyForNextBlock = 1) ∨
    ∃ v, seen X v ∧ s.difficultyForNextBlock = uncachedDifficulty (targetOfVersion v) X
  window : s.timestampsAndDifficultiesHeight = 0 ∨ s.timestampsAndDifficultiesHeight = X.length ∧
      s.timestamps = difficultyColumn Row.timestamp X ∧
        s.difficulties = difficultyColumn Row.cumulativeDifficulty X

structure Sound (hash : List (Row β) → H) (seen : List (Row β) → UInt8 → Prop)
    (s : CacheState β H) : Prop where
  cached : ∃ X, Cached hash seen s X
  fresh : s.resetTimestampsAndDifficultiesHeight = true ∨
    s.timestampsAndDifficultiesHeight = 0 ∨ s.chain.length ≤ s.timestampsAndDifficultiesHeight
  batch : ∀ snapshot, s.batch = some snapshot → s.resetTimestampsAndDifficultiesHeight = true ∨
    snapshot.length ≤ s.chain.length ∧ (s.timestampsAndDifficultiesHeight = 0 ∨
      snapshot.length ≤ s.timestampsAndDifficultiesHeight)

lemma Cached.mono (h : Cached hash seen s X) (hseen : ∀ X v, seen X v → seen' X v) :
    Cached hash seen' s X := by
  refine ⟨h.key, ?_, h.window⟩
  rcases h.value with hnil | ⟨v, hv, heq⟩
  · exact .inl hnil
  · exact .inr ⟨v, hseen X v hv, heq⟩

lemma Sound.mono (h : Sound hash seen s) (hseen : ∀ X v, seen X v → seen' X v) :
    Sound hash seen' s := by
  obtain ⟨X, hX⟩ := h.cached
  exact ⟨⟨X, hX.mono hseen⟩, h.fresh, h.batch⟩

/-- When the window may be used: it is out of use, or not behind the chain, or
exactly one block behind. -/
def Usable (s : CacheState β H) (X : List (Row β)) : Prop :=
  s.resetTimestampsAndDifficultiesHeight = true ∨ s.timestampsAndDifficultiesHeight = 0 ∨
    s.chain.length ≤ s.timestampsAndDifficultiesHeight ∨ ∃ row, s.chain = X ++ [row]

lemma Sound.usable (h : Sound hash seen s) (X : List (Row β)) : s.Usable X := by
  rcases h.fresh with hreset | hzero | hle
  · exact .inl hreset
  · exact .inr (.inl hzero)
  · exact .inr (.inr (.inl hle))

lemma gather_eq (h : Cached hash seen s X) (husable : s.Usable X) :
    s.gather = (difficultyColumn Row.timestamp s.chain,
      difficultyColumn Row.cumulativeDifficulty s.chain) := by
  unfold gather
  split_ifs with hslides
  · -- the height moved by one, which of the usable cases only a new block explains
    obtain ⟨hreset, hheight, hlen, hlong⟩ := hslides
    obtain ⟨row, hrow⟩ : ∃ row, s.chain = X ++ [row] := by
      rcases husable with htrue | hzero | hle | hrow
      · rw [hreset] at htrue
        cases htrue
      · exact absurd hzero hheight
      · omega
      · exact hrow
    rcases h.window with hzero | ⟨_, hts, hcd⟩
    · exact absurd hzero hheight
    · -- a window that slides is full, so the chain it was filled for has a genesis block
      have hne : X ≠ [] := by
        rintro rfl
        rw [hts, difficultyColumn_eq] at hlong
        simp [difficultyBlocksCount, difficultyWindow] at hlong
      rw [hrow, difficultyColumn_concat _ hne, difficultyColumn_concat _ hne, hts, hcd]
      rw [getBlockTimestamp, getBlockCumulativeDifficulty, readAt_top, readAt_top]
  · rfl

section

variable (h : Sound hash seen s)

include h

lemma Sound.of_invalid (ht : t = { s.invalidate with chain := t.chain, version := t.version }) :
    Sound hash seen t := by
  obtain ⟨X, hX⟩ := h.cached
  rw [ht]
  exact ⟨⟨X, hX.key, hX.value, .inl rfl⟩, .inl rfl, fun _ _ ↦ .inl rfl⟩

lemma Sound.congr (ht : t = { s with version := t.version, batchSuccess := t.batchSuccess }) :
    Sound hash seen t := by
  obtain ⟨⟨X, hX⟩, hfresh, hbatch⟩ := h
  rw [ht]
  exact ⟨⟨X, hX.key, hX.value, hX.window⟩, hfresh, hbatch⟩

lemma Sound.popBlock (version : UInt8) : Sound hash seen (s.popBlockFromBlockchain version) := by
  refine h.of_invalid ?_
  simp only [popBlockFromBlockchain]
  split_ifs <;> rfl

lemma Sound.popBlocks (versions : List UInt8) (failed : Bool) :
    Sound hash seen (s.popBlocks versions failed) := by
  have hpops : Sound hash seen (versions.foldl popBlockFromBlockchain s) := by
    induction versions generalizing s with
    | nil => exact h
    | cons v versions ih => exact ih (h.popBlock v)
  unfold CacheState.popBlocks
  simp only
  split_ifs
  · exact hpops.of_invalid rfl
  · exact hpops.of_invalid rfl
  · exact hpops

lemma Sound.prepare : Sound hash seen s.prepareHandleIncomingBlocks := by
  unfold prepareHandleIncomingBlocks
  cases hbatch : s.batch with
  | some snapshot => exact h
  | none =>
    obtain ⟨⟨X, hX⟩, hfresh, _⟩ := h
    refine ⟨⟨X, hX.key, hX.value, hX.window⟩, hfresh, ?_⟩
    intro snapshot hsnapshot
    obtain rfl : s.chain = snapshot := Option.some.inj hsnapshot
    rcases hfresh with hreset | hheight
    · exact .inl hreset
    · exact .inr ⟨le_rfl, hheight⟩

lemma Sound.cleanup : Sound hash seen s.cleanupHandleIncomingBlocks := by
  unfold cleanupHandleIncomingBlocks
  cases hbatch : s.batch with
  | none => exact h
  | some snapshot =>
    have hsnapshot := h.batch snapshot hbatch
    obtain ⟨⟨X, hX⟩, hfresh, _⟩ := h
    split_ifs
    · exact ⟨⟨X, hX.key, hX.value, .inl rfl⟩, .inr (.inl rfl), by simp⟩
    · exact ⟨⟨X, hX.key, hX.value, hX.window⟩, hfresh, by simp⟩
    · -- the chain shrinks back to the snapshot, and the window is not behind that
      refine ⟨⟨X, hX.key, hX.value, hX.window⟩, ?_, by simp⟩
      rcases hsnapshot with hreset | ⟨_, hheight⟩
      · exact .inl hreset
      · exact .inr hheight

end

lemma start_sound {nullHash : H} (hnull : hash [] = nullHash)
    (chain : List (Row β)) (version : UInt8) :
    Sound hash seen (start nullHash chain version) :=
  ⟨⟨[], hnull.symm, .inl ⟨rfl, rfl⟩, .inl rfl⟩, .inl rfl, by simp [start]⟩

variable [DecidableEq H]

lemma getDifficultyForNextBlock_frame (ht : (s.getDifficultyForNextBlock hash).1 = t) :
    t.chain = s.chain ∧ t.version = s.version ∧
      t.batch = s.batch ∧ t.resetTimestampsAndDifficultiesHeight =
        s.resetTimestampsAndDifficultiesHeight := by
  subst ht
  unfold getDifficultyForNextBlock
  split_ifs <;> exact ⟨rfl, rfl, rfl, rfl⟩

lemma getDifficultyForNextBlock_spec (hinj : Function.Injective hash)
    (h : Cached hash seen s X) (husable : s.Usable X) (hseen : seen s.chain s.version) :
    Cached hash seen (s.getDifficultyForNextBlock hash).1 s.chain ∧
      ∃ v, seen s.chain v ∧ (s.getDifficultyForNextBlock hash).2 =
        uncachedDifficulty (targetOfVersion v) s.chain := by
  unfold getDifficultyForNextBlock
  split_ifs with hhit
  · obtain rfl : s.chain = X := hinj (hhit.trans h.key)
    refine ⟨h, ?_⟩
    rcases h.value with ⟨hnil, hone⟩ | hv
    · refine ⟨s.version, hseen, ?_⟩
      rw [hone, hnil]
      rfl
    · exact hv
  · have hgather := gather_eq h husable
    have hdiff : nextDifficulty s.gather.1 s.gather.2 (targetOfVersion s.version) =
        uncachedDifficulty (targetOfVersion s.version) s.chain := by
      rw [hgather]
      rfl
    refine ⟨⟨rfl, .inr ⟨s.version, hseen, hdiff⟩, .inr ⟨rfl, ?_, ?_⟩⟩, s.version, hseen, hdiff⟩
    · rw [hgather]
    · rw [hgather]

lemma Cached.sound_query (ht : (s.getDifficultyForNextBlock hash).1 = t)
    (h : Cached hash seen t s.chain) (hbatch : ∀ snapshot, s.batch = some snapshot →
      s.resetTimestampsAndDifficultiesHeight = true ∨ snapshot.length ≤ s.chain.length) :
    Sound hash seen t := by
  obtain ⟨hchain, _, hbatch', hreset⟩ := getDifficultyForNextBlock_frame ht
  have hwindow : t.timestampsAndDifficultiesHeight = 0 ∨
      s.chain.length ≤ t.timestampsAndDifficultiesHeight :=
    h.window.imp_right fun hheight ↦ hheight.1.ge
  refine ⟨⟨_, h⟩, ?_, ?_⟩
  · rw [hchain]
    exact .inr hwindow
  · intro snapshot hsnapshot
    rw [hbatch'] at hsnapshot
    rw [hreset, hchain]
    exact (hbatch snapshot hsnapshot).imp_right fun hle ↦ ⟨hle, hwindow.imp_right hle.trans⟩

lemma Sound.query (hinj : Function.Injective hash) (h : Sound hash seen s)
    (hseen : seen s.chain s.version) : Sound hash seen (s.getDifficultyForNextBlock hash).1 := by
  obtain ⟨X, hX⟩ := h.cached
  obtain ⟨hcached, _⟩ := getDifficultyForNextBlock_spec hinj hX (h.usable X) hseen
  exact hcached.sound_query rfl fun snapshot hsnapshot ↦
    (h.batch snapshot hsnapshot).imp_right And.left

lemma handleBlockToMainChain_cases {a : Attempt β} {q : CacheState β H}
    (hq : (s.getDifficultyForNextBlock hash).1 = q) (ht : s.handleBlockToMainChain hash a = t) :
    t = s ∨ t = q ∨ t = { q with batchSuccess := false } ∨ ∃ row,
      t = (q.addBlock row a.versionAfter).popBlockFromBlockchain a.versionAfterPop ∨
      t = ((q.addBlock row a.versionAfter).getDifficultyForNextBlock hash).1 := by
  subst hq ht
  simp only [handleBlockToMainChain]
  split_ifs
  · exact .inl rfl
  · exact .inr (.inl rfl)
  · exact .inr (.inr (.inl rfl))
  · exact .inr (.inr (.inr ⟨_, .inl rfl⟩))
  · exact .inr (.inr (.inr ⟨_, .inr rfl⟩))

section

variable (hinj : Function.Injective hash) (h : Sound hash seen s) (hseen : seen s.chain s.version)

include hinj h hseen

lemma Sound.handleBlock (a : Attempt β) (hmono : ∀ X v, seen X v → seen' X v)
    (hseen' : seen' (s.handleBlockToMainChain hash a).chain
      (s.handleBlockToMainChain hash a).version) :
    Sound hash seen' (s.handleBlockToMainChain hash a) := by
  obtain ⟨X, hX⟩ := h.cached
  obtain ⟨hcached, _⟩ := getDifficultyForNextBlock_spec hinj hX (h.usable X) hseen
  have hquery := (h.query hinj hseen).mono hmono
  generalize ht : s.handleBlockToMainChain hash a = t at hseen' ⊢
  generalize hq : (s.getDifficultyForNextBlock hash).1 = q at hcached hquery
  obtain ⟨hchain, _, hbatch, hreset⟩ := getDifficultyForNextBlock_frame hq
  rcases handleBlockToMainChain_cases hq ht with rfl | rfl | rfl | ⟨row, rfl | rfl⟩
  · exact h.mono hmono
  · exact hquery
  · exact hquery.congr rfl
  · refine hquery.of_invalid ?_
    simp only [popBlockFromBlockchain]
    split_ifs <;> rfl
  · -- the block was added while the caches were still at its parent
    have hcached' := hcached.mono hmono
    have hadded : Cached hash seen' (q.addBlock row a.versionAfter) s.chain :=
      ⟨hcached'.key, hcached'.value, hcached'.window⟩
    obtain ⟨hchain', hversion', _⟩ := getDifficultyForNextBlock_frame
      (s := q.addBlock row a.versionAfter) rfl
    rw [hchain', hversion'] at hseen'
    obtain ⟨hcached'', _⟩ := getDifficultyForNextBlock_spec hinj hadded
      (.inr (.inr (.inr ⟨row, by rw [← hchain]; rfl⟩))) hseen'
    refine hcached''.sound_query rfl fun snapshot hsnapshot ↦ ?_
    rcases h.batch snapshot (hbatch.symm.trans hsnapshot) with htrue | hle
    · exact .inl (hreset.trans htrue)
    · exact .inr (hle.1.trans (by simp [CacheState.addBlock, hchain]))

lemma Sound.step (op : CacheOp β) (hmono : ∀ X v, seen X v → seen' X v)
    (hseen' : seen' (s.step hash op).chain (s.step hash op).version) :
    Sound hash seen' (s.step hash op) := by
  have h' := h.mono hmono
  cases op with
  | handleBlock a => exact h.handleBlock hinj hseen a hmono hseen'
  | popBlock version => exact h'.popBlock version
  | popBlocks versions failed => exact h'.popBlocks versions failed
  | beginSwitch => exact h'.of_invalid rfl
  | alternativeBlock => exact h'.of_invalid rfl
  | reorganizeHardFork version => exact h'.congr rfl
  | prepare => exact h'.prepare
  | cleanup => exact h'.cleanup
  | query => exact (h.query hinj hseen).mono hmono

end

/-! ## Whole runs -/

/-- The chains and versions that have been current during a run. -/
def Seen (hash : List (Row β) → H) (s : CacheState β H) (ops : List (CacheOp β))
    (chain : List (Row β)) (version : UInt8) : Prop :=
  ∃ k ≤ ops.length, (s.run hash (ops.take k)).chain = chain ∧
    (s.run hash (ops.take k)).version = version

lemma seen_self (hash : List (Row β) → H) (s : CacheState β H) (ops : List (CacheOp β)) :
    Seen hash s ops (s.run hash ops).chain (s.run hash ops).version :=
  ⟨ops.length, le_rfl, by rw [List.take_length], by rw [List.take_length]⟩

lemma Seen.concat {ops : List (CacheOp β)} (op : CacheOp β) {version : UInt8}
    (h : Seen hash s ops X version) : Seen hash s (ops ++ [op]) X version := by
  obtain ⟨k, hk, hchain, hversion⟩ := h
  refine ⟨k, by simp; omega, ?_, ?_⟩
  · rwa [List.take_append_of_le_length hk]
  · rwa [List.take_append_of_le_length hk]

lemma run_sound (hinj : Function.Injective hash) {nullHash : H} (hnull : hash [] = nullHash)
    (chain : List (Row β)) (version : UInt8) (ops : List (CacheOp β)) :
    Sound hash (Seen hash (start nullHash chain version) ops)
      ((start nullHash chain version).run hash ops) := by
  induction ops using List.reverseRecOn with
  | nil => exact start_sound hnull chain version
  | append_singleton ops op ih =>
    have hrun : (start nullHash chain version).run hash (ops ++ [op]) =
        ((start nullHash chain version).run hash ops).step hash op := by
      simp [run]
    have hself := seen_self hash (start nullHash chain version) (ops ++ [op])
    rw [hrun] at hself ⊢
    exact ih.step hinj (seen_self hash _ ops) op (fun _ _ hseen ↦ hseen.concat op) hself

def attempt (versions : BlockVersions) (timestamp : ℕ) (outcome : Outcome) (versionAfter : UInt8) :
    CacheOp Unit :=
  .handleBlock ⟨(), versions, timestamp, 0, 0, 0, outcome, versionAfter, 1⟩

def batchOps : List (CacheOp Unit) :=
  [attempt ⟨1, 1⟩ 0 .added 1, attempt ⟨1, 1⟩ 60 .added 1, .prepare, attempt ⟨1, 1⟩ 120 .added 1,
    attempt ⟨1, 1⟩ 180 .databaseException 1, .cleanup, .query, .prepare, .beginSwitch, .popBlock 1,
    attempt ⟨1, 1⟩ 90 .added 1, .cleanup]

/-- The second fork is voted for by each block for the next one. -/
def votedSchedule : HardFork where
  windowSize := 1
  originalVersion := 1
  heights := [⟨1, 0, 0, 0⟩, ⟨2, 1, 100, 1⟩]
  versions := []
  lastVersions := fun _ ↦ 0
  currentForkIndex := 0

/-- The versions reported after two blocks and a third one that votes for the
fork, after its pop, which goes by height alone, after two blocks of the fork in
its place, and after the hard fork object was reorganised. -/
def reportedVersions : Option (List UInt8) := do
  let two ← addBlocks (votedSchedule.init Db.empty, Db.empty) [⟨1, 1⟩, ⟨1, 1⟩]
  let three ← HardFork.addBlock two ⟨1, 2⟩
  let popped ← three.1.onBlockPopped (three.2.popBlocks 1) 1
  let switched ← addBlocks (popped, three.2.popBlocks 1) [⟨2, 2⟩, ⟨2, 2⟩]
  let reorganized ← switched.1.reorganizeFromChainHeight switched.2 2
  return [two.1, three.1, popped, switched.1, reorganized.1].map getCurrentVersion

def switchOps : List (CacheOp Unit) :=
  [attempt ⟨1, 1⟩ 0 .added 1, attempt ⟨1, 1⟩ 60 .added 1, attempt ⟨1, 2⟩ 120 .added 2,
    .beginSwitch, .popBlock 2, attempt ⟨2, 2⟩ 121 .added 2, attempt ⟨2, 2⟩ 180 .added 2,
    .reorganizeHardFork 1]

end CacheState

end Monero.Blockchain
