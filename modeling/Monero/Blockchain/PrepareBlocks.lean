import Monero.Serialization.Block

/-!
# Parsing a span of received blocks ahead of time

Before a span of block entries is added, its blocks are parsed into a vector with
one element for each entry, and the element is later used in place of the blob.
The entries that fill whole batches, one batch for each thread, are always parsed;
the entries left over only as long as no known block was seen.
-/

namespace Monero.Blockchain

open List
open Serialization (Key zeroKey parseAndValidateBlockFromBlob)

structure BlockCompleteEntry where
  block : List UInt8
  txs : List (List UInt8)

/-- What `prepare_handle_incoming_blocks` reads besides the entries: the chain,
the pool of threads, and how the work it leaves to others ends. -/
structure PrepareEnv where
  height : ℕ
  /-- `m_blocks_hash_check.size()` -/
  blocksHashCheckSize : ℕ
  topBlockHash : Key
  haveBlock : Key → Bool
  blockHash : Serialization.Block → List UInt8 → Key
  maxConcurrency : ℕ
  maxPrepareBlocksThreads : ℕ
  /-- `waiter.wait()` on the threads that compute the long hashes -/
  wait : Bool
  /-- `m_cancel` -/
  cancel : Bool
  /-- whether the table of the inputs' outputs is built without an error -/
  fillScanTable : List BlockCompleteEntry → Bool

/-- The block `blocks.resize` makes. -/
def emptyPrepared : Serialization.Block where
  majorVersion := 0
  minorVersion := 0
  timestamp := 0
  prevId := zeroKey
  nonce := 0
  minerTx := ⟨⟨1, 0, [], [], []⟩, [], Serialization.RctSig.empty, false⟩
  txHashes := []

structure PrepareState where
  /-- the entries from the iterator `it` on -/
  it : List BlockCompleteEntry
  blockidx : ℕ
  blocks : List Serialization.Block
  blocksExist : Bool

inductive PrepareExit
  /-- a blob that is not a block -/
  | unparsed
  /-- a first block that is not on the top of the chain -/
  | unchained

variable (env : PrepareEnv)

/-- The body of both loops; only the first loop compares the first block with the
top of the chain. -/
def parseEntry (checkFirst : Bool) (s : PrepareState) : Except PrepareExit PrepareState :=
  match s.it with
  | [] => .error .unparsed -- not reached, the counts of the loops add up to the length
  | entry :: rest =>
    match parseAndValidateBlockFromBlob entry.block with
    | none => .error .unparsed
    | some block =>
      if checkFirst ∧ s.blockidx = 0 ∧ block.prevId ≠ env.topBlockHash then .error .unchained
      else .ok
        { it := rest
          blockidx := s.blockidx + 1
          blocks := s.blocks.set s.blockidx block
          blocksExist := s.blocksExist || env.haveBlock (env.blockHash block entry.block) }

/-- The loop over `j < batches`. -/
def parseBatch (env : PrepareEnv) : ℕ → PrepareState → Except PrepareExit PrepareState
  | 0, s => .ok s
  | j + 1, s => parseEntry env true s >>= parseBatch env j

/-- The loop over `i < threads`. -/
def parseBatches (env : PrepareEnv) (batches : ℕ) :
    ℕ → PrepareState → Except PrepareExit PrepareState
  | 0, s => .ok s
  | i + 1, s => parseBatch env batches s >>= parseBatches env batches i

/-- The loop over `i < extra && !blocks_exist`. -/
def parseExtra (env : PrepareEnv) : ℕ → PrepareState → Except PrepareExit PrepareState
  | 0, s => .ok s
  | i + 1, s =>
    if s.blocksExist then .ok s else parseEntry env false s >>= parseExtra env i

def PrepareEnv.threads : ℕ :=
  if env.maxPrepareBlocksThreads < env.maxConcurrency then env.maxPrepareBlocksThreads
  else env.maxConcurrency

def prepareHandleIncomingBlocks (entries : List BlockCompleteEntry) :
    Bool × List Serialization.Block :=
  if entries.length = 0 then (false, [])
  else if env.height + entries.length < env.blocksHashCheckSize then (true, [])
  else
    let batches := entries.length / env.threads
    let extra := entries.length % env.threads
    let start : PrepareState := ⟨entries, 0, replicate entries.length emptyPrepared, false⟩
    match parseBatches env batches env.threads start >>= parseExtra env extra with
    | .error .unparsed => (false, [])
    | .error .unchained => (true, [])
    | .ok s =>
      if s.blocksExist = false ∧ env.wait = false then (false, s.blocks)
      else if env.cancel then (false, s.blocks)
      else if s.blocksExist then (true, s.blocks)
      else (env.fillScanTable entries, s.blocks)

/-! ## Which entries are parsed -/

section

variable (env : PrepareEnv) (entries : List BlockCompleteEntry)

def BlockCompleteEntry.parsed (entry : BlockCompleteEntry) : Option Serialization.Block :=
  parseAndValidateBlockFromBlob entry.block

def known (entry : BlockCompleteEntry) : Bool :=
  match entry.parsed with
  | none => false
  | some block => env.haveBlock (env.blockHash block entry.block)

def batched : ℕ := env.threads * (entries.length / env.threads)

/-- How many of the entries left over are parsed, given whether a known block was
seen before them. -/
def extraParsed : Bool → List BlockCompleteEntry → ℕ
  | true, _ => 0
  | false, [] => 0
  | false, entry :: rest => extraParsed (known env entry) rest + 1

def parsedCount : ℕ :=
  batched env entries +
    extraParsed env ((entries.take (batched env entries)).any (known env))
      (entries.drop (batched env entries))

/-- The first block is on the top of the chain. -/
def Chained : Prop :=
  ∀ entry block, entries.head? = some entry → entry.parsed = some block →
    block.prevId = env.topBlockHash

/-- The state of the loops after `m` entries. -/
structure ParsedTo (m : ℕ) (s : PrepareState) : Prop where
  it : s.it = entries.drop m
  blockidx : s.blockidx = m
  blocks : ∃ done : List Serialization.Block, done.length = m ∧
    done.map some = (entries.take m).map BlockCompleteEntry.parsed ∧
      s.blocks = done ++ replicate (entries.length - m) emptyPrepared
  blocksExist : s.blocksExist = (entries.take m).any (known env)
  chained : 0 < batched env entries → 0 < m → Chained env entries

/-- How the loops may end that are to parse `m` entries. -/
def EndsAt (m : ℕ) : Except PrepareExit PrepareState → Prop
  | .ok s => ParsedTo env entries m s
  | .error .unparsed => ∃ entry ∈ entries.take m, entry.parsed = none
  | .error .unchained => 0 < batched env entries ∧ ¬Chained env entries

end

section

variable {env : PrepareEnv} {entries : List BlockCompleteEntry}

variable {m : ℕ} {s : PrepareState}

lemma EndsAt.bind {k : ℕ} {r : Except PrepareExit PrepareState}
    {f : PrepareState → Except PrepareExit PrepareState} (hr : EndsAt env entries m r)
    (hmk : m ≤ k) (hf : ∀ s, ParsedTo env entries m s → EndsAt env entries k (f s)) :
    EndsAt env entries k (r >>= f) := by
  match r, hr with
  | .ok s, hs => exact hf s hs
  | .error .unparsed, ⟨entry, hentry, hnone⟩ =>
    exact ⟨entry, (take_prefix_take_left hmk).subset hentry, hnone⟩
  | .error .unchained, h => exact h

lemma set_append_replicate {α : Type*} (l : List α) (k : ℕ) (d a : α) :
    (l ++ replicate (k + 1) d).set l.length a = l ++ [a] ++ replicate k d := by
  rw [set_append_right _ _ (le_refl _), replicate_succ]
  simp

lemma parsedTo_start : ParsedTo env entries 0
    ⟨entries, 0, replicate entries.length emptyPrepared, false⟩ where
  it := rfl
  blockidx := rfl
  blocks := ⟨[], rfl, by simp, by simp⟩
  blocksExist := by simp
  chained _ h := absurd h (lt_irrefl 0)

lemma parseEntry_endsAt (checkFirst : Bool) (hm : m < entries.length)
    (hs : ParsedTo env entries m s)
    (hfirst : m = 0 → (checkFirst = true ↔ 0 < batched env entries))
    : EndsAt env entries (m + 1) (parseEntry env checkFirst s) := by
  have hit : s.it = entries[m] :: entries.drop (m + 1) := by
    rw [hs.it, drop_eq_getElem_cons hm]
  have htake : entries.take (m + 1) = entries.take m ++ [entries[m]] := by
    rw [take_append_getElem hm]
  have hhead : m = 0 → entries.head? = some entries[m] := by
    rintro rfl
    rw [head?_eq_getElem?, getElem?_eq_getElem hm]
  obtain ⟨done, hdone, hmap, hblocks⟩ := hs.blocks
  simp only [parseEntry, hit]
  cases hparsed : parseAndValidateBlockFromBlob entries[m].block with
  | none =>
    have hmem : entries[m] ∈ entries.take (m + 1) :=
      htake ▸ mem_append_right _ (mem_singleton_self _)
    exact ⟨entries[m], hmem, hparsed⟩
  | some block =>
    simp only
    split_ifs with hbad
    · obtain ⟨hcheck, hidx, hprev⟩ := hbad
      have hzero : m = 0 := hs.blockidx.symm.trans hidx
      exact ⟨(hfirst hzero).mp hcheck, fun h ↦ hprev (h _ _ (hhead hzero) hparsed)⟩
    · refine ⟨rfl, by rw [hs.blockidx], ⟨done ++ [block], by simp [hdone], ?_, ?_⟩, ?_, ?_⟩
      · rw [htake, map_append, map_append, hmap]
        exact congrArg (_ ++ [·]) hparsed.symm
      · have hrest : entries.length - m = entries.length - (m + 1) + 1 := by omega
        calc s.blocks.set s.blockidx block
            _ = (done ++ replicate (entries.length - m) emptyPrepared).set done.length
                  block := by rw [hblocks, hs.blockidx, hdone]
            _ = _ := by rw [hrest, set_append_replicate]
      · have hknown : known env entries[m] =
            env.haveBlock (env.blockHash block entries[m].block) := by
          rw [known, BlockCompleteEntry.parsed, hparsed]
        rw [htake, any_append, ← hs.blocksExist, ← hknown, any_cons, any_nil,
          Bool.or_false]
      · intro hbatched _
        rcases Nat.eq_zero_or_pos m with hzero | hpos
        · -- the only place where the first block is compared
          intro entry b hentry hb
          cases (hhead hzero).symm.trans hentry
          cases hparsed.symm.trans hb
          by_contra hprev
          exact hbad ⟨(hfirst hzero).mpr hbatched, hs.blockidx.trans hzero, hprev⟩
        · exact hs.chained hbatched hpos

lemma parseBatch_endsAt (k : ℕ) (hbatched : 0 < k → 0 < batched env entries)
    (hm : m + k ≤ entries.length) (hs : ParsedTo env entries m s) :
    EndsAt env entries (m + k) (parseBatch env k s) := by
  induction k generalizing m s with
  | zero => exact hs
  | succ k ih =>
    rw [parseBatch]
    have hstep := parseEntry_endsAt true (by omega) hs fun _ ↦ by simp [hbatched]
    refine hstep.bind (by omega) fun s' hs' ↦ ?_
    have hrec := ih (fun _ ↦ hbatched k.succ_pos) (m := m + 1) (by omega) hs'
    rwa [Nat.add_right_comm] at hrec

lemma parseBatches_endsAt (batches t : ℕ)
    (hbatched : 0 < batches → 0 < t → 0 < batched env entries)
    (hm : m + t * batches ≤ entries.length) (hs : ParsedTo env entries m s) :
    EndsAt env entries (m + t * batches) (parseBatches env batches t s) := by
  induction t generalizing m s with
  | zero => rwa [Nat.zero_mul]
  | succ t ih =>
    rw [parseBatches]
    rw [Nat.succ_mul] at hm ⊢
    have hpos : 0 < batches → 0 < batched env entries := fun h ↦ hbatched h t.succ_pos
    refine (parseBatch_endsAt batches hpos (by omega) hs).bind (by omega) fun s' hs' ↦ ?_
    have hrec := ih (fun h _ ↦ hpos h) (m := m + batches) (by omega) hs'
    rwa [Nat.add_assoc, Nat.add_comm batches] at hrec

lemma parseExtra_endsAt (k : ℕ) (hm : m + k = entries.length)
    (hle : batched env entries ≤ m) (hs : ParsedTo env entries m s) :
    EndsAt env entries
      (m + extraParsed env ((entries.take m).any (known env)) (entries.drop m))
      (parseExtra env k s) := by
  induction k generalizing m s with
  | zero =>
    rw [drop_of_length_le (by omega)]
    cases (entries.take m).any (known env) <;> exact hs
  | succ k ih =>
    rw [parseExtra, hs.blocksExist]
    cases hany : (entries.take m).any (known env) with
    | true => rwa [if_pos rfl, extraParsed]
    | false =>
      have hlt : m < entries.length := by omega
      have htake : (entries.take (m + 1)).any (known env) = known env entries[m] := by
        rw [← take_append_getElem hlt, any_append, hany]
        simp
      rw [if_neg (by simp), drop_eq_getElem_cons hlt, extraParsed]
      have hstep := parseEntry_endsAt false hlt hs fun hzero ↦ by
        simp only [Bool.false_eq_true, false_iff]
        omega
      refine hstep.bind (by omega) fun s' hs' ↦ ?_
      have hrec := ih (m := m + 1) (by omega) (by omega) hs'
      rwa [htake, Nat.add_right_comm] at hrec

lemma parse_endsAt (env : PrepareEnv) (entries : List BlockCompleteEntry) :
    EndsAt env entries (parsedCount env entries)
      (parseBatches env (entries.length / env.threads) env.threads
        ⟨entries, 0, replicate entries.length emptyPrepared, false⟩ >>=
          parseExtra env (entries.length % env.threads)) := by
  have hsum : batched env entries + entries.length % env.threads = entries.length :=
    Nat.div_add_mod _ _
  have hrun := parseBatches_endsAt (entries.length / env.threads) env.threads
    (fun hb ht ↦ Nat.mul_pos ht hb)
    (by rw [Nat.zero_add]; exact Nat.mul_div_le _ _) (@parsedTo_start env entries)
  rw [Nat.zero_add] at hrun
  exact EndsAt.bind hrun (Nat.le_add_right _ _) fun s hs ↦ parseExtra_endsAt _ hsum (le_refl _) hs

lemma length_le_extraParsed {l : List BlockCompleteEntry}
    (h : (l.take (extraParsed env false l)).any (known env) = false) :
    l.length ≤ extraParsed env false l := by
  induction l with
  | nil => exact Nat.zero_le _
  | cons entry l ih =>
    rw [extraParsed, take_succ_cons, any_cons, Bool.or_eq_false_iff] at h
    obtain ⟨hentry, hrest⟩ := h
    rw [extraParsed, hentry]
    rw [hentry] at hrest
    exact Nat.succ_le_succ (ih hrest)

lemma drop_parsedCount (h : (entries.take (parsedCount env entries)).any (known env) = false) :
    entries.drop (parsedCount env entries) = [] := by
  rw [parsedCount, take_add, any_append, Bool.or_eq_false_iff] at h
  obtain ⟨hbatched, hextra⟩ := h
  rw [hbatched] at hextra
  rw [parsedCount, hbatched, ← drop_drop]
  exact drop_of_length_le (length_le_extraParsed hextra)

/-! ## The vector handed to the caller -/

section

variable (hs : ParsedTo env entries m s)

include hs

lemma ParsedTo.blocks_ne_nil (hentries : entries ≠ []) : s.blocks ≠ [] := by
  obtain ⟨done, hdone, hmap, hblocks⟩ := hs.blocks
  intro h
  have hlength : (done ++ replicate (entries.length - m) emptyPrepared).length = 0 := by
    rw [← hblocks, h, length_nil]
  rw [length_append, length_replicate, hdone] at hlength
  have hpos := length_pos_iff.mpr hentries
  omega

lemma ParsedTo.parsed_ne_none : ∀ entry ∈ entries.take m, entry.parsed ≠ none := by
  obtain ⟨done, -, hmap, -⟩ := hs.blocks
  intro entry hentry hnone
  have hmem : none ∈ done.map some := by
    rw [hmap, ← hnone]
    exact mem_map_of_mem hentry
  obtain ⟨_, -, h⟩ := mem_map.mp hmem
  cases h

lemma ParsedTo.blocks_eq_iff :
    s.blocks.map some = entries.map BlockCompleteEntry.parsed ↔
      ∀ entry ∈ entries.drop m, entry.parsed = some emptyPrepared := by
  obtain ⟨done, -, hmap, hblocks⟩ := hs.blocks
  have hsplit : entries.map BlockCompleteEntry.parsed =
      done.map some ++ (entries.drop m).map BlockCompleteEntry.parsed := by
    rw [hmap, ← map_append, take_append_drop]
  rw [hblocks, hsplit, map_append, append_cancel_left_eq, map_replicate, eq_comm,
    eq_replicate_iff]
  simp only [length_map, length_drop, true_and, forall_mem_map]

end

/-- The vector of a successful call is empty or holds the block of each entry, unless an
entry left over was not parsed because a known block was seen before it. -/
theorem prepareHandleIncomingBlocks_exact_iff (env : PrepareEnv)
    (entries : List BlockCompleteEntry) :
    ((prepareHandleIncomingBlocks env entries).1 = true →
        (prepareHandleIncomingBlocks env entries).2 = [] ∨
          (prepareHandleIncomingBlocks env entries).2.map some =
            entries.map BlockCompleteEntry.parsed) ↔
      (env.blocksHashCheckSize ≤ env.height + entries.length →
        (0 < batched env entries → Chained env entries) →
          (∀ entry ∈ entries.take (parsedCount env entries), entry.parsed ≠ none) →
            env.cancel = false →
              ∀ entry ∈ entries.drop (parsedCount env entries),
                entry.parsed = some emptyPrepared) := by
  by_cases hlength : entries.length = 0
  · cases length_eq_zero_iff.mp hlength
    simp [prepareHandleIncomingBlocks]
  have hends := parse_endsAt env entries
  simp only [prepareHandleIncomingBlocks, if_neg hlength]
  by_cases hcheck : env.height + entries.length < env.blocksHashCheckSize
  · rw [if_pos hcheck]
    exact iff_of_true (fun _ ↦ .inl rfl) fun h ↦ absurd hcheck (not_lt.mpr h)
  rw [if_neg hcheck]
  revert hends
  generalize parseBatches env (entries.length / env.threads) env.threads
    ⟨entries, 0, replicate entries.length emptyPrepared, false⟩ >>=
      parseExtra env (entries.length % env.threads) = r
  intro hends
  match r, hends with
  | .error .unparsed, ⟨entry, hentry, hnone⟩ =>
    exact iff_of_true (fun h ↦ nomatch h) fun _ _ hall ↦ absurd hnone (hall entry hentry)
  | .error .unchained, ⟨hpos, hnot⟩ =>
    exact iff_of_true (fun _ ↦ .inl rfl) fun _ h ↦ absurd (h hpos) hnot
  | .ok s, hs =>
    have hnil : s.blocks ≠ [] := hs.blocks_ne_nil fun h ↦ hlength (by rw [h, length_nil])
    cases hexist : s.blocksExist with
    | false =>
      -- no known block was seen, so every entry was parsed
      have hrest := drop_parsedCount (hs.blocksExist.symm.trans hexist)
      have hall : ∀ entry ∈ entries.drop (parsedCount env entries),
          entry.parsed = some emptyPrepared := by simp [hrest]
      refine iff_of_true (fun _ ↦ .inr ?_) fun _ _ _ _ ↦ hall
      rw [← hs.blocks_eq_iff.mpr hall]
      simp only [hexist]
      split_ifs <;> rfl
    | true =>
      simp only [hexist, Bool.true_eq_false, false_and, if_false, if_true]
      cases hcancel : env.cancel with
      | true => exact iff_of_true (fun h ↦ nomatch h) fun _ _ _ h ↦ nomatch h
      | false =>
        rw [if_neg Bool.false_ne_true, ← hs.blocks_eq_iff]
        constructor
        · intro h _ _ _ _
          exact (h rfl).resolve_left hnil
        · intro h _
          have hchained : 0 < batched env entries → Chained env entries := fun hpos ↦
            hs.chained hpos (Nat.lt_of_lt_of_le hpos (Nat.le_add_right _ _))
          exact .inr (h (not_lt.mp hcheck) hchained hs.parsed_ne_none rfl)

end

/-- The block on the zero block with the given nonce, without transactions. -/
def noncedBlob (nonce : UInt8) : List UInt8 :=
  [16, 16, 0xe8, 7] ++ replicate 32 0 ++ [nonce, 0, 0, 0] ++ Serialization.coinbaseBlob ++ [0]

/-- A hash that tells the blocks apart by their nonces, on a node that knows the
block of nonce `2` and takes two threads. -/
def knownNonceEnv : PrepareEnv where
  height := 1
  blocksHashCheckSize := 0
  topBlockHash := zeroKey
  haveBlock h := h = List.Vector.replicate 32 2
  blockHash block _ := List.Vector.replicate 32 (UInt8.ofNat block.nonce.toNat)
  maxConcurrency := 4
  maxPrepareBlocksThreads := 2
  wait := true
  cancel := false
  fillScanTable _ := true

/-- The second of three entries is known: the third is not parsed, and the caller
is given an empty block in its place. -/
theorem prepareHandleIncomingBlocks_unparsed : let entries : List BlockCompleteEntry :=
      [⟨noncedBlob 1, []⟩, ⟨noncedBlob 2, []⟩, ⟨noncedBlob 3, []⟩]
    let out := prepareHandleIncomingBlocks knownNonceEnv entries
    out.1 = true ∧ out.2.length = 3 ∧ out.2[2]? = some emptyPrepared ∧
      (entries.map BlockCompleteEntry.parsed)[2]? =
        some (some { Serialization.emptyBlock with nonce := 3 }) ∧
        out.2.map some ≠ entries.map BlockCompleteEntry.parsed := by
  decide +kernel

end Monero.Blockchain
