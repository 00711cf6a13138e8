import Monero.Database.Pruning

/-!
# The download queue

While blocks are downloaded, `block_queue` holds the spans of blocks that were
asked for, and two indexes by hash: the hashes asked for, and the hashes of the
blocks that have arrived with their heights.  The indexes are changed with every
change of the spans.
-/

namespace Monero.Protocol

open Lib Database List Function
open Table (get?_set get?_erase)

/-- A span without its start height, which is the key of the set of spans. -/
structure Span (H B U : Type*) where
  hashes : List H
  blocks : List B
  connectionId : U
  nblocks : ℕ
  deriving DecidableEq

structure BlockQueue (H B U : Type*) where
  /-- the spans, ordered by their start heights alone -/
  blocks : Table ℕ (Span H B U)
  requestedHashes : Finset H
  haveBlocks : H → Option ℕ

/-- What `reserve_span` is given besides the connection. -/
structure Reservation (H : Type*) where
  firstBlockHeight : ℕ
  lastBlockHeight : ℕ
  maxBlocks : ℕ
  syncPrunedBlocks : Bool
  localPruningSeed : ℕ
  pruningSeed : ℕ
  blockchainHeight : ℕ
  /-- with the weights, which are not looked at -/
  blockHashes : List (H × ℕ)

namespace BlockQueue

variable {H B U : Type*}

def empty : BlockQueue H B U := ⟨.empty, ∅, fun _ ↦ none⟩

variable (q : BlockQueue H B U)

/-- Inserting into the set changes nothing if it has a span with that start height. -/
def insertSpan (startBlockHeight : ℕ) (s : Span H B U) : BlockQueue H B U :=
  { q with blocks := (q.blocks.insert? startBlockHeight s).getD q.blocks }

def haveHash (hash : H) : Bool := (q.haveBlocks hash).isSome

def haveHeight (hash : H) : ℕ := (q.haveBlocks hash).getD (2 ^ 64 - 1)

variable [DecidableEq H]

def requested (hash : H) : Bool := hash ∈ q.requestedHashes

/-! ## Spans -/

def eraseBlock (startBlockHeight : ℕ) (s : Span H B U) : BlockQueue H B U where
  blocks := q.blocks.erase startBlockHeight
  requestedHashes := s.hashes.foldl Finset.erase q.requestedHashes
  haveBlocks := s.hashes.foldl (fun m h ↦ update m h none) q.haveBlocks

/-- The hashes of the removed span, if there was one. -/
def removeSpan (startBlockHeight : ℕ) : Option (List H) × BlockQueue H B U :=
  match q.blocks.get? startBlockHeight with
  | some s => (some s.hashes, q.eraseBlock startBlockHeight s)
  | none => (none, q)

/-- The loop that erases all spans with a property. -/
def eraseSpans (p : ℕ × Span H B U → Bool) (q : BlockQueue H B U) : BlockQueue H B U :=
  q.blocks.rows.foldl (fun q r ↦ if p r then q.eraseBlock r.1 r.2 else q) q

/-- `have_blocks.emplace` keeps the height of a hash that is there. -/
def emplaceHave (startBlockHeight : ℕ) (m : H → Option ℕ) (hi : H × ℕ) : H → Option ℕ :=
  if (m hi.1).isSome then m else update m hi.1 (some (startBlockHeight + hi.2))

/-! ## Choosing a span -/

/-- The hashes from the first one on that was not asked for, and its height. -/
def skipRequested (q : BlockQueue H B U) : List (H × ℕ) → ℕ → List (H × ℕ) × ℕ
  | [], height => ([], height)
  | p :: ps, height =>
    if q.requested p.1 then skipRequested q ps (height + 1) else (p :: ps, height)

/-- The loop that collects the hashes of the span, from a height on. -/
def collectHashes (r : Reservation H) (firstIsPruned : Bool) : List (H × ℕ) → ℕ → ℕ → List H
  | [], _, _ => []
  | p :: ps, height, spanLength =>
    if spanLength < r.maxBlocks ∧
        (r.syncPrunedBlocks ∨ hasUnprunedBlock height r.blockchainHeight r.pruningSeed) then
      -- with pruned blocks the span ends where full data begin to be needed, or cease to be
      if r.syncPrunedBlocks ∧
          firstIsPruned = hasUnprunedBlock height r.blockchainHeight r.localPruningSeed then []
      else p.1 :: collectHashes r firstIsPruned ps (height + 1) (spanLength + 1)
    else []

/-- Where the reserved span starts and its hashes; `none` is an early return. -/
def chooseSpan (r : Reservation H) : Option (ℕ × List H) :=
  if r.lastBlockHeight < r.firstBlockHeight ∨ r.maxBlocks = 0 then none
  else if r.lastBlockHeight < r.blockHashes.length then none
  else
    let blockHashesStartHeight := r.lastBlockHeight - r.blockHashes.length + 1
    let start := (q.skipRequested r.blockHashes blockHashesStartHeight).2
    let start :=
      if r.syncPrunedBlocks then start
      else
        -- a `uint32_t` in the source
        let next := getNextUnprunedBlockHeight start r.blockchainHeight r.pruningSeed % 2 ^ 32
        if start < next ∧ next < start + cryptonotePruningStripeSize then next else start
    if r.blockHashes.length + blockHashesStartHeight ≤ start then none
    else
      let rest := q.skipRequested (r.blockHashes.drop (start - blockHashesStartHeight)) start
      let firstIsPruned := r.syncPrunedBlocks ∧
        ¬ hasUnprunedBlock rest.2 r.blockchainHeight r.localPruningSeed
      some (rest.2, collectHashes r firstIsPruned rest.1 rest.2 0)

/-! ## Changes of the queue -/

variable [DecidableEq U]

def flushSpans (connectionId : U) (all : Bool) : BlockQueue H B U :=
  q.eraseSpans fun r ↦ r.2.connectionId = connectionId ∧ (all ∨ r.2.blocks.length = 0)

def flushStaleSpans (liveConnections : Finset U) : BlockQueue H B U :=
  q.eraseSpans fun r ↦ r.2.blocks.isEmpty ∧ r.2.connectionId ∉ liveConnections

def removeSpans (connectionId : U) (startBlockHeight : ℕ) : BlockQueue H B U :=
  q.eraseSpans fun r ↦ r.2.connectionId = connectionId ∧ r.1 ≤ startBlockHeight

def setSpanHashes (startHeight : ℕ) (connectionId : U) (hashes : List H) : BlockQueue H B U :=
  match q.blocks.get? startHeight with
  | none => q
  | some s =>
    if s.connectionId = connectionId then
      let q := q.eraseBlock startHeight s
      { q with
        requestedHashes := hashes.foldl (fun r h ↦ insert h r) q.requestedHashes }.insertSpan
        startHeight { s with hashes }
    else q

def addBlocks (height : ℕ) (bcel : List B) (connectionId : U) : BlockQueue H B U :=
  let (hashes, q) := q.removeSpan height
  let q := q.insertSpan height ⟨[], bcel, connectionId, bcel.length⟩
  match hashes with
  | none => q
  | some hashes =>
    { q with
      requestedHashes := hashes.foldl (fun r h ↦ insert h r) q.requestedHashes
      haveBlocks := hashes.zipIdx.foldl (emplaceHave height) q.haveBlocks }.setSpanHashes
        height connectionId hashes

/-- The overload of `add_blocks` for a span that is only asked for; it throws for an
empty one. -/
def addBlocksScheduled (height nblocks : ℕ) (connectionId : U)
    (_ : 0 < nblocks) : BlockQueue H B U :=
  q.insertSpan height ⟨[], [], connectionId, nblocks⟩

/-- The start and the length of the reserved span, zeros if there is none. -/
def reserveSpan (connectionId : U) (r : Reservation H) : (ℕ × ℕ) × BlockQueue H B U :=
  match q.chooseSpan r with
  | none => ((0, 0), q)
  | some (start, hashes) =>
    if h : hashes.length = 0 then ((0, 0), q)
    else
      ((start, hashes.length), (q.addBlocksScheduled start hashes.length connectionId
          (Nat.pos_of_ne_zero h)).setSpanHashes start connectionId hashes)

end BlockQueue

/-! ## The indexes and the spans -/

namespace BlockQueue

variable {H B U : Type*}

/-- The indexes say what the spans say. -/
structure Mirrors (q : BlockQueue H B U) : Prop where
  requested : ∀ h, h ∈ q.requestedHashes ↔ ∃ k s, q.blocks.get? k = some s ∧ h ∈ s.hashes
  haveBlocks : ∀ h n, q.haveBlocks h = some n ↔
    ∃ k s i, q.blocks.get? k = some s ∧ s.blocks ≠ [] ∧ s.hashes[i]? = some h ∧ n = k + i

def Distinct (q : BlockQueue H B U) : Prop := (q.blocks.rows.flatMap fun r ↦ r.2.hashes).Nodup

instance [DecidableEq H] (q : BlockQueue H B U) : Decidable q.Distinct :=
  inferInstanceAs (Decidable (Nodup _))

variable {q : BlockQueue H B U} {k : ℕ} {s : Span H B U} {l : List H} {h : H}

lemma distinct_iff : q.Distinct ↔ (∀ k s, q.blocks.get? k = some s → s.hashes.Nodup) ∧
      ∀ k s k' s' h, q.blocks.get? k = some s → q.blocks.get? k' = some s' → h ∈ s.hashes →
        h ∈ s'.hashes → k = k' := by
  rw [Distinct, nodup_flatMap]
  constructor
  · rintro ⟨hnodup, hdisjoint⟩
    refine ⟨fun k s hs ↦ hnodup (k, s) (Table.get?_eq_some_iff.mp hs), ?_⟩
    intro k s k' s' h hs hs' hh hh'
    by_contra hne
    have : Std.Symm (onFun Disjoint fun r : ℕ × Span H B U ↦ r.2.hashes) :=
      ⟨fun _ _ hab ↦ List.Disjoint.symm hab⟩
    exact hdisjoint.forall (Table.get?_eq_some_iff.mp hs) (Table.get?_eq_some_iff.mp hs')
      (fun heq ↦ hne (congrArg Prod.fst heq)) hh hh'
  · rintro ⟨hnodup, honce⟩
    refine ⟨fun r hr ↦ hnodup r.1 r.2 (Table.get?_eq_some_iff.mpr hr), ?_⟩
    refine q.blocks.sorted.imp_of_mem fun {r r'} hr hr' hlt h hh hh' ↦ ?_
    exact hlt.ne (honce r.1 r.2 r'.1 r'.2 h (Table.get?_eq_some_iff.mpr hr)
      (Table.get?_eq_some_iff.mpr hr') hh hh')

lemma Mirrors.change {q' : BlockQueue H B U} (hm : q.Mirrors) (hd : q.Distinct) (k : ℕ)
    (new : Option (Span H B U))
    (hblocks : ∀ x, q'.blocks.get? x = if x = k then new else q.blocks.get? x)
    (hrequested : ∀ h, h ∈ q'.requestedHashes ↔ (∃ s, new = some s ∧ h ∈ s.hashes) ∨
      (h ∈ q.requestedHashes ∧ ∀ s, q.blocks.get? k = some s → h ∉ s.hashes))
    (hhave : ∀ h n, q'.haveBlocks h = some n ↔
      (∃ s i, new = some s ∧ s.blocks ≠ [] ∧ s.hashes[i]? = some h ∧ n = k + i) ∨
      (q.haveBlocks h = some n ∧ ∀ s, q.blocks.get? k = some s → h ∉ s.hashes)) : q'.Mirrors := by
  have honce := (distinct_iff.mp hd).2
  -- the spans elsewhere list a hash exactly when a span lists it and the one at `k` does not
  have helse : ∀ {h x s}, q.blocks.get? x = some s → h ∈ s.hashes →
      (x ≠ k ↔ ∀ s, q.blocks.get? k = some s → h ∉ s.hashes) := by
    intro h x s hs hh
    constructor
    · intro hx s' hs' hh'
      exact hx (honce x s k s' h hs hs' hh hh')
    · rintro hnot rfl
      exact hnot s hs hh
  constructor
  · intro h
    rw [hrequested, hm.requested]
    constructor
    · rintro (⟨s, rfl, hh⟩ | ⟨⟨x, s, hs, hh⟩, hnot⟩)
      · exact ⟨k, s, by rw [hblocks, if_pos rfl], hh⟩
      · exact ⟨x, s, by rw [hblocks, if_neg ((helse hs hh).mpr hnot), hs], hh⟩
    · rintro ⟨x, s, hs, hh⟩
      rw [hblocks] at hs
      split_ifs at hs with hx
      · exact .inl ⟨s, hs, hh⟩
      · exact .inr ⟨⟨x, s, hs, hh⟩, (helse hs hh).mp hx⟩
  · intro h n
    rw [hhave, hm.haveBlocks]
    constructor
    · rintro (⟨s, i, rfl, hne, hi, hn⟩ | ⟨⟨x, s, i, hs, hne, hi, hn⟩, hnot⟩)
      · exact ⟨k, s, i, by rw [hblocks, if_pos rfl], hne, hi, hn⟩
      · have hh := mem_of_getElem? hi
        exact ⟨x, s, i, by rw [hblocks, if_neg ((helse hs hh).mpr hnot), hs], hne, hi, hn⟩
    · rintro ⟨x, s, i, hs, hne, hi, hn⟩
      rw [hblocks] at hs
      split_ifs at hs with hx
      · exact .inl ⟨s, i, hs, hne, hi, hx ▸ hn⟩
      · exact .inr ⟨⟨x, s, i, hs, hne, hi, hn⟩, (helse hs (mem_of_getElem? hi)).mp hx⟩

lemma empty_mirrors : (empty : BlockQueue H B U).Mirrors := by
  constructor <;> simp [empty]

lemma insertSpan_of_none (hk : q.blocks.get? k = none)
    (s : Span H B U) : q.insertSpan k s = { q with blocks := q.blocks.set k s } := by
  rw [insertSpan, Table.insert?_of_none s hk]
  rfl

lemma insertSpan_of_some
    (hk : q.blocks.get? k = some s) (t : Span H B U) : q.insertSpan k t = q := by
  rw [insertSpan, Table.insert?_eq_none hk]
  rfl

lemma insertSpan_mirrors (hm : q.Mirrors) (hd : q.Distinct) (hk : q.blocks.get? k = none)
    (hs : s.hashes = []) : (q.insertSpan k s).Mirrors := by
  rw [insertSpan_of_none hk]
  refine hm.change hd k (some s) (fun x ↦ get?_set _ _ _ _) ?_ ?_
  · intro h
    simp [hs, hk]
  · intro h n
    simp [hs, hk]

lemma insertSpan_distinct (hd : q.Distinct) (hk : q.blocks.get? k = none) (hs : s.hashes = []) :
    (q.insertSpan k s).Distinct := by
  obtain ⟨hnodup, honce⟩ := distinct_iff.mp hd
  have hold : ∀ {x t h}, (q.insertSpan k s).blocks.get? x = some t → h ∈ t.hashes →
      q.blocks.get? x = some t := by
    intro x t h ht hh
    rw [insertSpan_of_none hk, get?_set] at ht
    split_ifs at ht
    · cases ht
      rw [hs] at hh
      cases hh
    · exact ht
  refine distinct_iff.mpr ⟨fun x t ht ↦ ?_, fun x t x' t' h ht ht' hh hh' ↦
    honce x t x' t' h (hold ht hh) (hold ht' hh') hh hh'⟩
  cases hl : t.hashes with
  | nil => exact nodup_nil
  | cons a l => exact hl ▸ hnodup x t (hold ht (hl ▸ mem_cons_self))

variable [DecidableEq H] {m : H → Option ℕ}

lemma mem_foldl_erase {f : Finset H} : h ∈ l.foldl Finset.erase f ↔ h ∈ f ∧ h ∉ l := by
  induction l generalizing f with
  | nil => simp
  | cons a l ih =>
    rw [foldl_cons, ih, Finset.mem_erase, mem_cons, not_or]
    tauto

lemma mem_foldl_insert {f : Finset H} : h ∈ l.foldl (fun r h ↦ insert h r) f ↔ h ∈ l ∨ h ∈ f := by
  induction l generalizing f with
  | nil => simp
  | cons a l ih =>
    rw [foldl_cons, ih, Finset.mem_insert, mem_cons]
    tauto

lemma foldl_update_none {n : ℕ} :
    l.foldl (fun m h ↦ update m h none) m h = some n ↔ m h = some n ∧ h ∉ l := by
  induction l generalizing m with
  | nil => simp
  | cons a l ih =>
    rw [foldl_cons, ih, update_apply, mem_cons, not_or]
    split_ifs with ha
    · simp [ha]
    · simp [ha]

lemma foldl_emplaceHave {start : ℕ} (hnodup : l.Nodup) (hnew : ∀ h ∈ l, m h = none) {n : ℕ} :
    (l.zipIdx k).foldl (emplaceHave start) m h = some n ↔
      (∃ i, l[i]? = some h ∧ n = start + (k + i)) ∨ m h = some n := by
  induction l generalizing k m with
  | nil => simp
  | cons a l ih =>
    obtain ⟨ha, hl⟩ := nodup_cons.mp hnodup
    have hm : emplaceHave start m (a, k) = update m a (some (start + k)) := by
      rw [emplaceHave, hnew a mem_cons_self]
      rfl
    have hrest : ∀ x ∈ l, update m a (some (start + k)) x = none := by
      intro x hx
      rw [update_of_ne (ne_of_mem_of_not_mem hx ha)]
      exact hnew x (mem_cons_of_mem a hx)
    rw [zipIdx_cons, foldl_cons, hm, ih hl hrest]
    constructor
    · rintro (⟨i, hi, rfl⟩ | hx)
      · exact .inl ⟨i + 1, hi, by omega⟩
      · rw [update_apply] at hx
        split_ifs at hx with hha
        · exact .inl ⟨0, by simp [hha], by simpa using hx.symm⟩
        · exact .inr hx
    · rintro (⟨i, hi, rfl⟩ | hx)
      · cases i with
        | zero =>
          obtain rfl : a = h := by simpa using hi
          exact .inr (by simp)
        | succ i => exact .inl ⟨i, hi, by omega⟩
      · refine .inr ?_
        rw [update_of_ne]
        · exact hx
        · rintro rfl
          rw [hnew h mem_cons_self] at hx
          cases hx

/-! ## Erasing -/

section

variable (hm : q.Mirrors) (hd : q.Distinct)

include hm hd

lemma eraseBlock_mirrors (hs : q.blocks.get? k = some s) : (q.eraseBlock k s).Mirrors := by
  refine hm.change hd k none (fun x ↦ get?_erase _ _ _) ?_ ?_
  · intro h
    simp [eraseBlock, mem_foldl_erase, hs]
  · intro h n
    simp [eraseBlock, foldl_update_none, hs]

omit hm in
lemma eraseBlock_distinct (k : ℕ) (s : Span H B U) : (q.eraseBlock k s).Distinct := by
  obtain ⟨hnodup, honce⟩ := distinct_iff.mp hd
  have hsome : ∀ {x t}, (q.eraseBlock k s).blocks.get? x = some t → q.blocks.get? x = some t := by
    intro x t ht
    rw [eraseBlock, get?_erase] at ht
    split_ifs at ht
    exact ht
  exact distinct_iff.mpr ⟨fun x t ht ↦ hnodup x t (hsome ht), fun x t x' t' h ht ht' ↦
    honce x t x' t' h (hsome ht) (hsome ht')⟩

lemma foldl_eraseBlock_mirrors (p : ℕ × Span H B U → Bool) {rows : List (ℕ × Span H B U)}
    (hrows : ∀ r ∈ rows, q.blocks.get? r.1 = some r.2)
    (hsorted : rows.Pairwise fun r r' ↦ r.1 < r'.1) :
    (rows.foldl (fun q r ↦ if p r then q.eraseBlock r.1 r.2 else q) q).Mirrors := by
  induction rows generalizing q with
  | nil => exact hm
  | cons r rows ih =>
    obtain ⟨hr, hsorted⟩ := pairwise_cons.mp hsorted
    rw [foldl_cons]
    have hrest := fun r' hr' ↦ hrows r' (mem_cons_of_mem r hr')
    by_cases hp : p r = true
    · rw [if_pos hp]
      refine ih (eraseBlock_mirrors hm hd (hrows r mem_cons_self))
        (eraseBlock_distinct hd _ _) ?_ hsorted
      intro r' hr'
      rw [eraseBlock, get?_erase, if_neg (hr r' hr').ne', hrest r' hr']
    · rw [if_neg hp]
      exact ih hm hd hrest hsorted

lemma eraseSpans_mirrors (p : ℕ × Span H B U → Bool) : (q.eraseSpans p).Mirrors :=
  foldl_eraseBlock_mirrors hm hd p (fun _ hr ↦ Table.get?_eq_some_iff.mpr hr) q.blocks.sorted

lemma removeSpan_mirrors (k : ℕ) : (q.removeSpan k).2.Mirrors := by
  rw [removeSpan]
  cases hs : q.blocks.get? k with
  | none => exact hm
  | some s => exact eraseBlock_mirrors hm hd hs

/-! ## Adding -/

variable [DecidableEq U]

section

variable (hs : q.blocks.get? k = some s)

include hs

omit hm hd in
lemma setSpanHashes_eq (hashes : List H) :
    q.setSpanHashes k s.connectionId hashes =
      { blocks := q.blocks.set k { s with hashes }
        requestedHashes :=
          hashes.foldl (fun r h ↦ insert h r) (s.hashes.foldl Finset.erase q.requestedHashes)
        haveBlocks := s.hashes.foldl (fun m h ↦ update m h none) q.haveBlocks } := by
  simp [setSpanHashes, hs, insertSpan, eraseBlock, Table.insert?_erase]

lemma setSpanHashes_mirrors (hempty : s.blocks = []) (hashes : List H) :
    (q.setSpanHashes k s.connectionId hashes).Mirrors := by
  rw [setSpanHashes_eq hs]
  refine hm.change hd k (some { s with hashes }) (fun x ↦ get?_set _ _ _ _) ?_ ?_
  · intro h
    simp [mem_foldl_insert, mem_foldl_erase, hs]
  · intro h n
    simp [foldl_update_none, hs, hempty]

omit hm hd in
lemma addBlocks_eq (bcel : List B) (connectionId : U) :
    q.addBlocks k bcel connectionId =
      { blocks := q.blocks.set k ⟨s.hashes, bcel, connectionId, bcel.length⟩
        requestedHashes := s.hashes.foldl (fun r h ↦ insert h r)
          (s.hashes.foldl (fun r h ↦ insert h r) (s.hashes.foldl Finset.erase q.requestedHashes))
        haveBlocks := s.hashes.zipIdx.foldl (emplaceHave k)
          (s.hashes.foldl (fun m h ↦ update m h none) q.haveBlocks) } := by
  have hnone : (q.eraseBlock k s).blocks.get? k = none := by
    rw [eraseBlock, get?_erase, if_pos rfl]
  have hset : ∀ v w : Span H B U, (((q.blocks.erase k).set k v).set k w) = q.blocks.set k w := by
    intro v w
    apply Table.ext_get
    intro x
    simp only [get?_set, get?_erase]
    split_ifs <;> rfl
  simp only [addBlocks, removeSpan, hs]
  rw [insertSpan_of_none hnone]
  -- the span that was just inserted is the one whose hashes are set
  have hown : ∀ r m, (BlockQueue.mk
      ((q.eraseBlock k s).blocks.set k ⟨[], bcel, connectionId, bcel.length⟩) r m).blocks.get? k =
      some ⟨[], bcel, connectionId, bcel.length⟩ := fun r m ↦ by
    rw [get?_set, if_pos rfl]
  refine (setSpanHashes_eq (hown _ _) s.hashes).trans ?_
  simp [eraseBlock, hset]

end

lemma addBlocks_mirrors (k : ℕ) {bcel : List B} (hfilled : bcel ≠ []) (connectionId : U) :
    (q.addBlocks k bcel connectionId).Mirrors := by
  cases hs : q.blocks.get? k with
  | none =>
    have heq : q.addBlocks k bcel connectionId =
        q.insertSpan k ⟨[], bcel, connectionId, bcel.length⟩ := by
      simp [addBlocks, removeSpan, hs]
    rw [heq]
    exact insertSpan_mirrors hm hd hs rfl
  | some s =>
    rw [addBlocks_eq hs]
    refine hm.change hd k _ (fun x ↦ get?_set _ _ _ _) ?_ ?_
    · intro h
      simp only [mem_foldl_insert, mem_foldl_erase, hs, Option.some.injEq, exists_eq_left',
        forall_eq']
      tauto
    · intro h n
      have hnodup := (distinct_iff.mp hd).1 k s hs
      have hnone : ∀ x ∈ s.hashes,
          s.hashes.foldl (fun m h ↦ update m h none) q.haveBlocks x = none := by
        intro x hx
        rw [Option.eq_none_iff_forall_ne_some]
        intro m hsome
        exact (foldl_update_none.mp hsome).2 hx
      rw [foldl_emplaceHave hnodup hnone, foldl_update_none]
      simp [hs, hfilled]

lemma reserveSpan_mirrors {connectionId : U} {r : Reservation H}
    (hkeep : ∀ k hashes s, q.chooseSpan r = some (k, hashes) → q.blocks.get? k = some s →
      s.connectionId = connectionId → s.blocks = []) :
    (q.reserveSpan connectionId r).2.Mirrors := by
  rw [reserveSpan]
  cases hchoose : q.chooseSpan r with
  | none => exact hm
  | some p =>
    obtain ⟨k, hashes⟩ := p
    dsimp only
    split_ifs with hlen
    · exact hm
    · rw [addBlocksScheduled]
      cases hs : q.blocks.get? k with
      | some s =>
        dsimp only
        rw [insertSpan_of_some hs]
        by_cases hc : s.connectionId = connectionId
        · subst hc
          exact setSpanHashes_mirrors hm hd hs (hkeep k hashes s hchoose hs rfl) hashes
        · -- the height belongs to another connection: nothing is reserved
          have hsame : q.setSpanHashes k connectionId hashes = q := by
            simp [setSpanHashes, hs, hc]
          rw [hsame]
          exact hm
      | none =>
        set q' := q.insertSpan k ⟨[], [], connectionId, hashes.length⟩ with hq'
        have hget : q'.blocks.get? k = some ⟨[], [], connectionId, hashes.length⟩ := by
          rw [hq', insertSpan_of_none hs, get?_set, if_pos rfl]
        exact setSpanHashes_mirrors (insertSpan_mirrors hm hd hs rfl)
          (insertSpan_distinct hd hs rfl) hget rfl hashes

end

end BlockQueue

/-! ## Runs -/

inductive Operation (H B U : Type*) where
  | reserveSpan (connectionId : U) (r : Reservation H)
  | addBlocks (height : ℕ) (bcel : List B) (connectionId : U)
  | flushSpans (connectionId : U) (all : Bool)
  | flushStaleSpans (liveConnections : Finset U)
  | removeSpan (startBlockHeight : ℕ)
  | removeSpans (connectionId : U) (startBlockHeight : ℕ)

def Operation.Filled {H B U : Type*} : Operation H B U → Prop
  | .addBlocks _ bcel _ => bcel ≠ []
  | _ => True

namespace BlockQueue

variable {H B U : Type*} [DecidableEq H] [DecidableEq U] {q : BlockQueue H B U}

def step (q : BlockQueue H B U) : Operation H B U → BlockQueue H B U
  | .reserveSpan connectionId r => (q.reserveSpan connectionId r).2
  | .addBlocks height bcel connectionId => q.addBlocks height bcel connectionId
  | .flushSpans connectionId all => q.flushSpans connectionId all
  | .flushStaleSpans liveConnections => q.flushStaleSpans liveConnections
  | .removeSpan startBlockHeight => (q.removeSpan startBlockHeight).2
  | .removeSpans connectionId startBlockHeight => q.removeSpans connectionId startBlockHeight

def run (ops : List (Operation H B U)) : BlockQueue H B U := ops.foldl step empty

/-- A reservation is not at the start of a span of the same connection whose blocks
have arrived. -/
def KeepsArrived (q : BlockQueue H B U) : Operation H B U → Prop
  | .reserveSpan connectionId r =>
    ∀ p ∈ q.chooseSpan r, ∀ s ∈ q.blocks.get? p.1, s.connectionId = connectionId → s.blocks = []
  | _ => True

/-- Before every step no hash is listed twice, and the step reserves no arrived
span again. -/
def Undisturbed (q : BlockQueue H B U) : List (Operation H B U) → Prop
  | [] => True
  | op :: ops => q.Distinct ∧ q.KeepsArrived op ∧ (q.step op).Undisturbed ops

instance decidableKeepsArrived (q : BlockQueue H B U) : DecidablePred q.KeepsArrived
  | .reserveSpan _ r => inferInstanceAs (Decidable (∀ p ∈ q.chooseSpan r, _))
  | .addBlocks .. | .flushSpans .. | .flushStaleSpans _ | .removeSpan _ | .removeSpans .. =>
    isTrue trivial

instance decidableUndisturbed (q : BlockQueue H B U) :
    (ops : List (Operation H B U)) → Decidable (q.Undisturbed ops)
  | [] => isTrue trivial
  | op :: ops =>
    have := decidableUndisturbed (q.step op) ops
    inferInstanceAs (Decidable (_ ∧ _ ∧ _))

lemma step_mirrors (hm : q.Mirrors) (hd : q.Distinct) {op : Operation H B U} (hfilled : op.Filled)
    (hkeep : q.KeepsArrived op) : (q.step op).Mirrors := by
  cases op with
  | reserveSpan connectionId r =>
    exact reserveSpan_mirrors hm hd fun k hashes s hk hs ↦ hkeep (k, hashes) hk s hs
  | addBlocks height bcel connectionId => exact addBlocks_mirrors hm hd height hfilled connectionId
  | flushSpans connectionId all => exact eraseSpans_mirrors hm hd _
  | flushStaleSpans liveConnections => exact eraseSpans_mirrors hm hd _
  | removeSpan startBlockHeight => exact removeSpan_mirrors hm hd startBlockHeight
  | removeSpans connectionId startBlockHeight => exact eraseSpans_mirrors hm hd _

lemma foldl_step_mirrors {ops : List (Operation H B U)} (hm : q.Mirrors)
    (hfilled : ∀ op ∈ ops, op.Filled) (hops : q.Undisturbed ops) : (ops.foldl step q).Mirrors := by
  induction ops generalizing q with
  | nil => exact hm
  | cons op ops ih =>
    obtain ⟨hd, hkeep, hrest⟩ := hops
    exact ih (step_mirrors hm hd (hfilled op mem_cons_self) hkeep)
      (fun op' hop' ↦ hfilled op' (mem_cons_of_mem op hop')) hrest

/-- After a run in which no step finds a hash listed twice or reserves an
arrived span again, a hash is requested exactly when a span lists it, and it is
had, at its height, exactly when a span with blocks lists it. -/
theorem run_indexes_mirror_spans {ops : List (Operation H B U)} (hfilled : ∀ op ∈ ops, op.Filled)
    (hops : (empty : BlockQueue H B U).Undisturbed ops) :
    (∀ h, (run ops).requested h = true ↔ ∃ k s, (run ops).blocks.get? k = some s ∧ h ∈ s.hashes) ∧
    (∀ h, (run ops).haveHash h = true ↔
      ∃ k s, (run ops).blocks.get? k = some s ∧ s.blocks ≠ [] ∧ h ∈ s.hashes) ∧
    ∀ k s i h, (run ops).blocks.get? k = some s → s.blocks ≠ [] → s.hashes[i]? = some h →
      (run ops).haveHeight h = k + i := by
  have hm : (run ops).Mirrors := foldl_step_mirrors empty_mirrors hfilled hops
  refine ⟨fun h ↦ ?_, fun h ↦ ?_, fun k s i h hs hne hi ↦ ?_⟩
  · rw [requested, decide_eq_true_iff, hm.requested]
  · rw [haveHash, Option.isSome_iff_exists]
    constructor
    · rintro ⟨n, hn⟩
      obtain ⟨k, s, i, hs, hne, hi, -⟩ := (hm.haveBlocks h n).mp hn
      exact ⟨k, s, hs, hne, mem_of_getElem? hi⟩
    · rintro ⟨k, s, hs, hne, hh⟩
      obtain ⟨i, hi⟩ := mem_iff_getElem?.mp hh
      exact ⟨k + i, (hm.haveBlocks h _).mpr ⟨k, s, i, hs, hne, hi, rfl⟩⟩
  · rw [haveHeight, (hm.haveBlocks h _).mpr ⟨k, s, i, hs, hne, hi, rfl⟩]
    rfl

theorem run_indexes_mirror_spans_two : let ops : List (Operation ℕ ℕ ℕ) :=
      [.reserveSpan 1 ⟨1, 2, 10, false, 0, 0, 5, [(10, 0), (20, 0)]⟩, .addBlocks 1 [100, 200] 1,
        .reserveSpan 2 ⟨1, 3, 10, false, 0, 0, 5, [(10, 0), (20, 0), (30, 0)]⟩]
    ((run ops).requested 30 = true ↔
      ∃ k s, (run ops).blocks.get? k = some s ∧ 30 ∈ s.hashes) ∧ (run ops).haveHeight 20 = 2 := by
  intro ops
  have hfilled : ∀ op ∈ ops, op.Filled := by simp [ops, Operation.Filled]
  have hops : (empty : BlockQueue ℕ ℕ ℕ).Undisturbed ops := by decide
  obtain ⟨hrequested, -, hheight⟩ := run_indexes_mirror_spans hfilled hops
  exact ⟨hrequested 30, hheight 1 ⟨[10, 20], [100, 200], 1, 2⟩ 1 20 (by decide) (by simp) rfl⟩

/-- Connection 3 reserves a span over the one of connection 2, whose flush then erases a
hash that the span of connection 3 lists. -/
theorem run_indexes_overlap :
    let ops : List (Operation ℕ ℕ ℕ) := [.reserveSpan 1 ⟨1, 1, 10, false, 0, 0, 3, [(10, 0)]⟩,
        .reserveSpan 2 ⟨1, 2, 10, false, 0, 0, 3, [(10, 0), (20, 0)]⟩,
        .flushSpans 1 false,
        .reserveSpan 3 ⟨1, 2, 10, false, 0, 0, 3, [(10, 0), (20, 0)]⟩,
        .flushSpans 2 false]
    (∀ op ∈ ops, op.Filled) ∧ (run ops).blocks.get? 1 = some ⟨[10, 20], [], 3, 2⟩ ∧
      (run ops).requested 20 = false := by
  intro ops
  exact ⟨by simp [ops, Operation.Filled], by decide, by decide⟩

end BlockQueue

end Monero.Protocol
