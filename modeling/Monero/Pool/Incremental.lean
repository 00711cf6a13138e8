import Monero.Lib.ChangeFeed
import Monero.Lib.Sorted
import Monero.Pool.Index

/-!
# Incremental pool synchronisation

The two transient lists of the pool are a change feed: each single step of the
lists is a step of the feed, at the time that the clock shows.  A client that
knew the transactions of the pool it may see is brought up to date by
`get_pool_info`.
-/

namespace Monero.Pool

open Monero.Lib List Table TxMemoryPool
open Monero.Blockchain (Transaction TxIn)

variable {K P H R : Type*}

lemma insertByTime_perm (e : ℕ × RemovedTxInfo H) (xs : List (ℕ × RemovedTxInfo H)) :
    (insertByTime e xs).Perm (e :: xs) := by
  induction xs with
  | nil => exact Perm.refl _
  | cons x xs ih =>
    rw [insertByTime]
    split_ifs
    · exact Perm.refl _
    · exact (ih.cons x).trans (Perm.swap e x xs)

lemma insertByTime_sorted (e : ℕ × RemovedTxInfo H) {xs : List (ℕ × RemovedTxInfo H)}
    (h : xs.Pairwise fun a b ↦ a.1 ≤ b.1) : (insertByTime e xs).Pairwise fun a b ↦ a.1 ≤ b.1 := by
  induction xs with
  | nil => exact pairwise_singleton _ _
  | cons x xs ih =>
    obtain ⟨habove, hrest⟩ := pairwise_cons.mp h
    rw [insertByTime]
    split_ifs with hlt
    · refine pairwise_cons.mpr ⟨fun a ha ↦ ?_, h⟩
      rcases mem_cons.mp ha with rfl | ha
      · exact hlt.le
      · exact hlt.le.trans (habove a ha)
    · refine pairwise_cons.mpr ⟨fun a ha ↦ ?_, ih hrest⟩
      rcases mem_cons.mp ((insertByTime_perm e xs).mem_iff.mp ha) with rfl | ha
      · exact not_lt.mp hlt
      · exact habove a ha

/-- Of the entries `removed` the list `rest` is left, which lacks none after
`cut`, and `startTime'` takes the place of `startTime`. -/
structure Trimmed (now startTime : ℕ) (removed rest : List (ℕ × RemovedTxInfo H))
    (startTime' cut : ℕ) : Prop where
  sorted : rest.Pairwise fun a b ↦ a.1 ≤ b.1
  kept : ∀ e ∈ removed, e ∈ rest ∨ e.1 ≤ cut
  old : ∀ e ∈ rest, e ∈ removed
  cut_le : ∀ e ∈ rest, cut ≤ e.1
  cut_le_now : cut ≤ now
  cut_le_start : cut ≤ startTime'
  start : startTime' = startTime ∨ ∃ e ∈ removed, e.1 ≤ startTime'

variable {now startTime : ℕ} {removed : List (ℕ × RemovedTxInfo H)}

lemma trimmed_drop {n : ℕ} (hsorted : removed.Pairwise fun a b ↦ a.1 ≤ b.1)
    (hle : ∀ e ∈ removed, e.1 ≤ now) (hlen : n < removed.length) : ∃ cut,
      Trimmed now startTime removed (removed.drop n)
        (((removed.drop n).head?.map Prod.fst).getD startTime) cut := by
  have hsplit := (take_append_drop n removed).symm
  have hparts := hsorted
  rw [hsplit, pairwise_append] at hparts
  obtain ⟨-, hrest, hbelow⟩ := hparts
  have hpos : 0 < (removed.drop n).length := by
    rw [length_drop]
    exact Nat.sub_pos_of_lt hlen
  obtain ⟨first, rest, hdrop⟩ := exists_cons_of_length_pos hpos
  have hfirst : first ∈ removed := mem_of_mem_drop (hdrop ▸ mem_cons_self)
  have hstart : ((removed.drop n).head?.map Prod.fst).getD startTime = first.1 := by
    rw [hdrop]
    rfl
  refine ⟨first.1, hrest, fun e he ↦ ?_, fun e ↦ mem_of_mem_drop, fun e he ↦ ?_,
    hle first hfirst, hstart.ge, .inr ⟨first, hfirst, hstart.ge⟩⟩
  · rw [hsplit, mem_append] at he
    rcases he with he | he
    · exact .inr (hbelow e he first (hdrop ▸ mem_cons_self))
    · exact .inl he
  · rw [hdrop] at he hrest
    rcases mem_cons.mp he with rfl | he
    · exact le_rfl
    · exact (pairwise_cons.mp hrest).1 e he

lemma trimRemoved_spec (startTime : ℕ) (hsorted : removed.Pairwise fun a b ↦ a.1 ≤ b.1)
    (hle : ∀ e ∈ removed, e.1 ≤ now) : ∃ cut, Trimmed now startTime removed
      (trimRemoved now startTime removed).1 (trimRemoved now startTime removed).2 cut := by
  rw [trimRemoved]
  split_ifs with hmany
  · exact trimmed_drop hsorted hle (lt_of_le_of_lt (by decide) hmany)
  simp only [dropWhile_lt_eq_filter Prod.fst (now - 30 * 60) hsorted]
  split_ifs with hold
  · obtain ⟨e, he, hlt⟩ := length_filter_lt_length_iff_exists.mp hold
    refine ⟨now - 30 * 60, hsorted.filter _, fun e he ↦ ?_, fun e he ↦ (mem_filter.mp he).1,
      fun e he ↦ of_decide_eq_true (mem_filter.mp he).2, Nat.sub_le _ _, le_rfl,
      .inr ⟨e, he, ?_⟩⟩
    · by_cases hge : now - 30 * 60 ≤ e.1
      · exact .inl (mem_filter.mpr ⟨he, decide_eq_true hge⟩)
      · exact .inr (not_le.mp hge).le
    · exact (not_le.mp fun hge ↦ hlt (decide_eq_true hge)).le
  · have hall : removed.filter (fun e ↦ decide (now - 30 * 60 ≤ e.1)) = removed :=
      filter_sublist.eq_of_length_le (not_lt.mp hold)
    rw [hall]
    exact ⟨0, hsorted, fun e he ↦ .inl he, fun e he ↦ he, fun _ _ ↦ Nat.zero_le _, Nat.zero_le _,
      Nat.zero_le _, .inl rfl⟩

variable [LinearOrder H]

namespace Lists

variable {env : Env K P H R} {l l' : Lists H R} {id : H} {sensitive : Bool}

def logEntry (e : ℕ × RemovedTxInfo H) : ℕ × H × Bool := (e.1, e.2.txid, e.2.sensitive)

/-- The transient lists as a change feed. -/
def feed (l : Lists H R) : Feed H where
  entry := fun id ↦ (l.addedTxsById.get? id).map fun info ↦ (info.receiveTime, info.sensitive)
  log := l.removedTxsByTime.map logEntry
  removedSince := l.removedTxsStartTime

def LogSorted (l : Lists H R) : Prop := l.removedTxsByTime.Pairwise fun a b ↦ a.1 ≤ b.1

lemma feed_entry_eq_some {t : ℕ} :
    l.feed.entry id = some (t, sensitive) ↔ l.addedTxsById.get? id = some ⟨t, sensitive⟩ := by
  refine Option.map_eq_some_iff.trans ⟨?_, fun h ↦ ⟨_, h, rfl⟩⟩
  rintro ⟨⟨t', sensitive'⟩, h, heq⟩
  cases heq
  exact h

lemma mem_feed_log {e : ℕ × RemovedTxInfo H} :
    logEntry e ∈ l.feed.log ↔ e ∈ l.removedTxsByTime := by
  refine mem_map_of_injective fun a b hab ↦ ?_
  obtain ⟨t, txid, sensitive⟩ := a
  cases hab
  rfl

lemma removeStep (hsorted : l.LogSorted) (hle : ∀ e ∈ l.removedTxsByTime, e.1 ≤ l.now env)
    (hrespects : l.Respects id sensitive) :
    (l.removeTxFromTransientLists env id sensitive).LogSorted ∧ ∃ cut,
      Feed.RemoveStep (l.now env) l.feed (l.removeTxFromTransientLists env id sensitive).feed id
        sensitive cut := by
  have hperm := insertByTime_perm (l.now env, ⟨id, sensitive⟩) l.removedTxsByTime
  have hle' : ∀ e ∈ insertByTime (l.now env, ⟨id, sensitive⟩) l.removedTxsByTime,
      e.1 ≤ l.now env := by
    intro e he
    rcases mem_cons.mp (hperm.mem_iff.mp he) with rfl | he
    · exact le_rfl
    · exact hle e he
  obtain ⟨cut, htrim⟩ := trimRemoved_spec
    (if l.removedTxsStartTime = 0 then l.now env else l.removedTxsStartTime)
    (insertByTime_sorted _ hsorted) hle'
  have hlog : ∀ e, e ∈ (l.now env, id, sensitive) :: l.feed.log ↔
      ∃ r ∈ insertByTime (l.now env, ⟨id, sensitive⟩) l.removedTxsByTime, logEntry r = e := by
    intro e
    rw [← mem_map, (hperm.map logEntry).mem_iff]
    rfl
  refine ⟨htrim.sorted, cut, ?_, map_get?_update (l.addedTxsById.get?_erase id) _,
    fun e he ↦ ?_, fun e he ↦ ?_, fun e he ↦ ?_, htrim.cut_le_now, htrim.cut_le_start, ?_⟩
  · rintro ⟨t, ht⟩
    exact hrespects _ (feed_entry_eq_some.mp ht) rfl
  · obtain ⟨r, hr, rfl⟩ := (hlog e).mp he
    exact (htrim.kept r hr).imp_left fun hmem ↦ mem_map_of_mem hmem
  · obtain ⟨r, hr, rfl⟩ := mem_map.mp he
    exact (hlog _).mpr ⟨r, htrim.old r hr, rfl⟩
  · obtain ⟨r, hr, rfl⟩ := mem_map.mp he
    exact htrim.cut_le r hr
  · rcases htrim.start with hstart | ⟨r, hr, hstart⟩
    · by_cases hzero : l.removedTxsStartTime = 0
      · refine .inr ⟨_, mem_cons_self, ?_⟩
        exact (hstart.trans (if_pos hzero)).ge
      · exact .inl (hstart.trans (if_neg hzero))
    · exact .inr ⟨logEntry r, (hlog _).mpr ⟨r, hr, rfl⟩, hstart⟩

variable [LinearOrder R]

lemma addStep (hrespects : l.Respects id sensitive) (fee : R) (receiveTime : ℕ) :
    Feed.AddStep (l.now env) l.feed (l.addTxToTransientLists env id fee receiveTime sensitive).feed
      id sensitive := by
  refine ⟨?_, map_get?_update (l.addedTxsById.get?_set id _) _, rfl, rfl⟩
  rintro ⟨t, ht⟩
  exact hrespects _ (feed_entry_eq_some.mp ht) rfl

/-! ## Following the feed -/

/-- `V` is what clients could see when no reading of the clock was above `s`. -/
structure Followed (env : Env K P H R) (s : ℕ) (V : Set H) (l : Lists H R) : Prop where
  sorted : l.LogSorted
  follows : l.feed.Follows s (l.now env) V
  later : ∀ n, l.readings ≤ n → s ≤ env.time n

variable {s : ℕ} {V : Set H}

omit [LinearOrder R] in
lemma Followed.log_le (h : Followed env s V l) : ∀ e ∈ l.removedTxsByTime, e.1 ≤ l.now env :=
  fun e he ↦ h.follows.ordered.log_le (logEntry e) (mem_map_of_mem he)

section

variable (hclock : Monotone env.time) (h : Followed env s V l)

include hclock h

lemma Followed.step (hstep : ListStep env l l') : Followed env s V l' := by
  have hnow : l.now env ≤ l.tick.now env := hclock (Nat.le_succ l.readings)
  have hs : s ≤ l.now env := h.later l.readings le_rfl
  have hlater : ∀ n, l.readings + 1 ≤ n → s ≤ env.time n :=
    fun n hn ↦ h.later n ((Nat.le_succ _).trans hn)
  cases hstep with
  | tick heq =>
    subst heq
    exact ⟨h.sorted, h.follows.mono hnow, hlater⟩
  | add id fee receiveTime sensitive hrespects heq =>
    subst heq
    refine ⟨h.sorted, ?_, hlater⟩
    exact (h.follows.step le_rfl hs (.add _ _ (addStep hrespects fee receiveTime))).mono hnow
  | remove id sensitive hrespects heq =>
    subst heq
    obtain ⟨hsorted, cut, hremove⟩ := removeStep h.sorted h.log_le hrespects
    exact ⟨hsorted, (h.follows.step le_rfl hs (.remove _ _ _ hremove)).mono hnow, hlater⟩
  | throwAway sorted heq =>
    subst heq
    have hclear : Feed.Cleared (feed { l.throwAwayIncrementalInfo with
        txsByFeeAndReceiveTime := sorted }) := ⟨fun _ ↦ rfl, rfl, rfl⟩
    exact ⟨Pairwise.nil, h.follows.step le_rfl hs (.clear hclear), h.later⟩

lemma Followed.steps (hsteps : ListSteps env l l') : Followed env s V l' := by
  induction hsteps with
  | refl => exact h
  | tail _ hstep ih => exact ih.step hclock hstep

omit [LinearOrder R] in
lemma Followed.observe {t : ℕ} (ht : t ≤ l.now env) : Followed env t l.feed.shown l :=
  ⟨h.sorted, h.follows.ordered.follows, fun _ hn ↦ ht.trans (hclock hn)⟩

end

omit [LinearOrder R] in
lemma followed_of_removed_eq_nil (h : l.removedTxsByTime = []) :
    Followed env 0 l.feed.shown l := by
  refine ⟨by rw [LogSorted, h]; exact Pairwise.nil, Feed.Ordered.follows ⟨?_, ?_⟩,
    fun _ _ ↦ Nat.zero_le _⟩ <;> simp [feed, h]

end Lists

/-! ## What the client is told -/

variable [LinearOrder K] {env : Env K P H R} {T : Set (Transaction K P)}
  {pool : TxMemoryPool K P H R} {s : ℕ}

lemma Sound.mem_shown (h : Sound env T ∅ pool) (id : H) :
    id ∈ pool.toLists.feed.shown ↔ id ∈ pool.getTransactionHashes false := by
  have hsens : id ∈ pool.getTransactionHashes false ↔ sensitivity pool.txpool id = some false := by
    rw [sensitivity, Option.map_eq_some_iff, getTransactionHashes, mem_map]
    constructor
    · rintro ⟨⟨x, row⟩, hr, rfl⟩
      obtain ⟨hmem, hcategory⟩ := mem_filter.mp hr
      exact ⟨row, Table.get?_eq_some_iff.mpr hmem, by simpa [TxMeta.broadcasted] using hcategory⟩
    · rintro ⟨row, hrow, hbroadcasted⟩
      refine ⟨(id, row), mem_filter.mpr ⟨Table.get?_eq_some_iff.mp hrow, ?_⟩, rfl⟩
      simpa [TxMeta.broadcasted] using hbroadcasted
  rw [hsens]
  constructor
  · rintro ⟨t, ht⟩
    exact h.lists.added id _ (Lists.feed_entry_eq_some.mp ht)
  · intro hid
    cases hinfo : pool.addedTxsById.get? id with
    | none => exact absurd (h.lists.listed id (by rw [hid]; rfl) hinfo) (Set.notMem_empty id)
    | some info =>
      obtain ⟨t, sensitive⟩ := info
      have hfalse : sensitive = false :=
        Option.some.inj ((h.lists.added id _ hinfo).symm.trans hid)
      exact ⟨t, Lists.feed_entry_eq_some.mpr (hfalse ▸ hinfo)⟩

lemma mem_poolInfo_ids (pool : TxMemoryPool K P H R) (includeSensitive : Bool) (maxTxCount : ℕ)
    (id : H) : id ∈ (pool.getPoolInfo s includeSensitive maxTxCount).addedTxs.map Prod.fst ++
        (pool.getPoolInfo s includeSensitive maxTxCount).remainingAddedTxids ↔
      id ∈ pool.relevantTxids s includeSensitive := by
  simp only [getPoolInfo]
  generalize pool.relevantTxids s includeSensitive = txids
  have hsub : ((pool.getTransactionsInfo txids includeSensitive maxTxCount).map Prod.fst).Sublist
      txids := by
    have hall : ((txids.filterMap fun txid ↦ (pool.getTransactionInfo txid includeSensitive).map
        (txid, ·)).map Prod.fst).Sublist txids := by
      induction txids with
      | nil => exact Sublist.refl _
      | cons txid txids ih =>
        rw [filterMap_cons]
        cases pool.getTransactionInfo txid includeSensitive with
        | none => exact ih.cons txid
        | some details => exact ih.cons_cons txid
    exact ((take_sublist _ _).map Prod.fst).trans hall
  split_ifs with hlt
  · rw [mem_append, mem_filter, decide_eq_true_eq]
    constructor
    · rintro (hid | ⟨hid, -⟩)
      · exact hsub.subset hid
      · exact hid
    · intro hid
      by_cases hsent : id ∈ (pool.getTransactionsInfo txids includeSensitive maxTxCount).map
        Prod.fst
      · exact .inl hsent
      · exact .inr ⟨hid, hsent⟩
  · rw [append_nil, hsub.eq_of_length_le (by rw [length_map]; exact not_lt.mp hlt)]

lemma mem_relevantTxids (pool : TxMemoryPool K P H R) (id : H) :
    id ∈ pool.relevantTxids s false ↔ id ∈ (if pool.isIncremental s then
      pool.toLists.feed.addedFrom s else pool.toLists.feed.shown) := by
  have hmem : id ∈ pool.relevantTxids s false ↔ ∃ t, pool.toLists.feed.entry id = some (t, false) ∧
      (pool.isIncremental s = true → s ≤ t) := by
    simp only [relevantTxids, Lists.feed_entry_eq_some, mem_map, mem_filter,
      get?_eq_some_iff]
    constructor
    · rintro ⟨⟨x, t, sensitive⟩, ⟨hmem, hsel⟩, rfl⟩
      simp only [Bool.false_or, Bool.and_eq_true, Bool.not_eq_true', Bool.or_eq_true,
        decide_eq_true_eq] at hsel
      obtain ⟨rfl, hsel⟩ := hsel
      refine ⟨t, hmem, fun hinc ↦ hsel.resolve_left ?_⟩
      simp [hinc]
    · rintro ⟨t, hmem, hsel⟩
      refine ⟨(id, ⟨t, false⟩), ⟨hmem, ?_⟩, rfl⟩
      cases hinc : pool.isIncremental s with
      | false => rfl
      | true => simpa using hsel hinc
  rw [hmem]
  split_ifs with hinc
  · exact exists_congr fun t ↦ and_congr_right fun _ ↦ ⟨fun hsel ↦ hsel hinc, fun hle _ ↦ hle⟩
  · exact exists_congr fun t ↦ and_iff_left fun h ↦ absurd h hinc

lemma mem_removedTxs (hsorted : pool.toLists.LogSorted) (hinc : pool.isIncremental s = true)
    (maxTxCount : ℕ) (id : H) :
    id ∈ (pool.getPoolInfo s false maxTxCount).removedTxs ↔
    id ∈ pool.toLists.feed.removedFrom s := by
  simp only [getPoolInfo, hinc, if_true, Bool.false_or,
    dropWhile_lt_eq_filter Prod.fst s hsorted, mem_map, mem_filter, decide_eq_true_eq]
  constructor
  · rintro ⟨⟨t, x, sensitive⟩, ⟨⟨hmem, hle⟩, hsens⟩, rfl⟩
    simp only [Bool.not_eq_true'] at hsens
    subst hsens
    exact ⟨t, Lists.mem_feed_log.mpr hmem, hle⟩
  · rintro ⟨t, hmem, hle⟩
    exact ⟨(t, ⟨id, false⟩), ⟨⟨Lists.mem_feed_log.mp hmem, hle⟩, rfl⟩, rfl⟩

lemma isIncremental_removed (h : pool.isIncremental s = true) :
    pool.removedTxsStartTime ≠ 0 ∧ pool.removedTxsStartTime < s := by
  rw [isIncremental] at h
  split_ifs at h with hzero hstarts
  obtain ⟨-, hremoved⟩ := not_or.mp (of_decide_eq_true h)
  exact ⟨hstarts.2, not_le.mp hremoved⟩

variable [LinearOrder R]

/-- The client copies the ids 8 and 9; the removal of 7 is logged. -/
def operationsBefore : List (Operation ℕ Unit ℕ) :=
  [.init 0, .addTx trustingView (spendingTx 7 1) .fluff false 16 0,
    .addTx trustingView (spendingTx 8 2) .fluff false 16 0, .takeTx 7,
    .addTx trustingView (spendingTx 9 3) .fluff false 16 0]

/-- 7 comes back, and 10 is not for clients. -/
def operationsAfter : List (Operation ℕ Unit ℕ) :=
  [.takeTx 8, .addTx trustingView (spendingTx 7 1) .fluff false 16 0,
    .addTx trustingView (spendingTx 10 4) .stem false 16 0,
    .addTx trustingView (spendingTx 11 5) .fluff false 16 0]

end Monero.Pool
