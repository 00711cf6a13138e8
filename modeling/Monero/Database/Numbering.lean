import Monero.Database.Ledger

/-!
# Output numbering

What `output_amounts`, `output_txs` and `tx_outputs` look like on every chain
that blocks were added to and popped from: no gaps among the indices of an
amount or among the global ids, heights in order, and links that lead from an
output to the transaction that made it and back.
-/

namespace Monero.Database

open Lib List
open Option (map_some)

variable {H K PK C X : Type}

/-! ## The ledger in order -/

variable {env : Env H K PK C X} {f : Filed H PK C} {t : ChainTx H K PK C X}

lemma mem_filed (h : f ∈ t.filed env) :
    ∃ j out, t.tx.vout[j]? = some out ∧ t.file env j out = f := by
  obtain ⟨j, hj, heq⟩ := mem_mapIdx.mp h
  exact ⟨j, t.tx.vout[j], getElem?_eq_getElem hj, heq⟩

lemma mem_ledger {ts : List (ChainTx H K PK C X)} (h : f ∈ ledger env ts) :
    ∃ t ∈ ts, ∃ j out, t.tx.vout[j]? = some out ∧ t.file env j out = f := by
  obtain ⟨t, ht, hf⟩ := mem_flatMap.mp h
  exact ⟨t, ht, mem_filed hf⟩

lemma height_of_mem_transactions {e : Entry H K PK C X} {height : ℕ}
    (h : t ∈ e.transactions env height) : t.height = height := by
  rcases mem_cons.mp h with rfl | h
  · rfl
  · obtain ⟨p, -, rfl⟩ := mem_map.mp h
    rfl

lemma ledger_heights (env : Env H K PK C X) (chain : List (Entry H K PK C X)) :
    (∀ f ∈ ledger env (chainTxs env chain), f.height < chain.length) ∧
      (ledger env (chainTxs env chain)).Pairwise fun f g ↦ f.height ≤ g.height := by
  induction chain using reverseRecOn with
  | nil => exact ⟨fun f hf ↦ absurd hf not_mem_nil, Pairwise.nil⟩
  | append_singleton chain e ih =>
    have htop : ∀ f ∈ ledger env (e.transactions env chain.length), f.height = chain.length := by
      intro f hf
      obtain ⟨t, ht, j, out, -, rfl⟩ := mem_ledger hf
      exact height_of_mem_transactions ht
    rw [chainTxs_append_singleton, ledger_append]
    constructor
    · intro f hf
      rw [length_append, length_singleton]
      rcases mem_append.mp hf with hf | hf
      · exact (ih.1 f hf).trans (Nat.lt_succ_self _)
      · rw [htop f hf]
        exact Nat.lt_succ_self _
    · apply pairwise_append.mpr
      refine ⟨ih.2, pairwise_of_forall_mem_list fun f hf g hg ↦ ?_, fun f hf g hg ↦ ?_⟩
      · rw [htop f hf, htop g hg]
      · rw [htop g hg]
        exact (ih.1 f hf).le

/-! ## Positions -/

variable (fs : List (Filed H PK C)) {p : Filed H PK C × ℕ} {amount : ℕ}

lemma ofAmount_sublist (amount : ℕ) : (ofAmount fs amount).Sublist fs.zipIdx := filter_sublist

lemma mem_ofAmount {fs : List (Filed H PK C)} (h : p ∈ ofAmount fs amount) :
    fs[p.2]? = some p.1 ∧ p.1.output.amount = amount := by
  obtain ⟨hmem, hamount⟩ := mem_filter.mp h
  exact ⟨mem_zipIdx_iff_getElem?.mp hmem, of_decide_eq_true hamount⟩

lemma ofAmount_fst_sublist (amount : ℕ) : ((ofAmount fs amount).map Prod.fst).Sublist fs := by
  have h := (ofAmount_sublist fs amount).map Prod.fst
  rwa [zipIdx_map_fst] at h

lemma eq_split_of_getElem? {α : Type} {l : List α} {i : ℕ} {a : α} (h : l[i]? = some a) :
    l = l.take i ++ a :: l.drop (i + 1) := by
  obtain ⟨hi, rfl⟩ := List.getElem?_eq_some_iff.mp h
  simp

lemma ofAmount_getElem? (before after : List (Filed H PK C)) (f : Filed H PK C) :
    (ofAmount (before ++ f :: after) f.output.amount)[before.countP fun g ↦
      g.output.amount = f.output.amount]? = some (f, before.length) := by
  have hsplit : ∃ rest, ofAmount (before ++ f :: after) f.output.amount =
      ofAmount before f.output.amount ++ (f, before.length) :: rest := by
    refine ⟨(after.zipIdx (before.length + 1)).filter fun p ↦ p.1.output.amount = f.output.amount,
      ?_⟩
    rw [ofAmount, zipIdx_append, filter_append, zipIdx_cons, filter_cons_of_pos]
    · simp [ofAmount]
    · simp
  obtain ⟨rest, hrest⟩ := hsplit
  rw [hrest, ← length_ofAmount, getElem?_append_right le_rfl, Nat.sub_self]
  rfl

lemma ofAmount_ids_nodup (amount : ℕ) : ((ofAmount fs amount).map Prod.snd).Nodup := by
  apply Nodup.sublist ((ofAmount_sublist fs amount).map Prod.snd)
  rw [zipIdx_map_snd]
  exact nodup_range'

lemma amountIndices_getElem? (before fs : List (Filed H PK C)) (j : ℕ) :
    (amountIndices before fs)[j]? = fs[j]?.map fun f ↦
      (before ++ fs.take j).countP fun g ↦ g.output.amount = f.output.amount := by
  induction fs generalizing before j with
  | nil => rfl
  | cons f fs ih =>
    cases j with
    | zero => simp [amountIndices]
    | succ j => simp [amountIndices, ih]

lemma length_amountIndices (before fs : List (Filed H PK C)) :
    (amountIndices before fs).length = fs.length := by
  induction fs generalizing before with
  | nil => rfl
  | cons f fs ih => rw [amountIndices, length_cons, ih, length_cons]

/-! ## Entries -/

namespace OutputTables.Holds

variable {o : OutputTables H PK C} {fs : List (Filed H PK C)}

lemma entry_of_get (h : o.Holds fs) {i : ℕ} {ok : OutKey PK C}
    (hget : (o.outputAmounts amount).get? i = some ok) :
    ∃ f, (ofAmount fs amount)[i]? = some (f, ok.outputId) ∧ f.data = ok.data := by
  obtain ⟨rows, hrows, hdata⟩ := h.outputAmounts amount
  rw [hrows.get?_eq] at hget
  have hmap := congrArg (fun l ↦ l[i]?) hdata
  simp only [getElem?_map, hget, map_some] at hmap
  obtain ⟨⟨f, id⟩, hp, heq⟩ := Option.map_eq_some_iff.mp hmap.symm
  obtain ⟨hfdata, rfl⟩ := Prod.mk.injEq .. ▸ heq
  exact ⟨f, hp, hfdata⟩

lemma get_of_entry (h : o.Holds fs) {i : ℕ} (hget : (ofAmount fs amount)[i]? = some p) :
    ∃ ok, (o.outputAmounts amount).get? i = some ok ∧ ok.outputId = p.2 := by
  obtain ⟨rows, hrows, hdata⟩ := h.outputAmounts amount
  have hmap := congrArg (fun l ↦ l[i]?) hdata
  simp only [getElem?_map, hget, map_some] at hmap
  obtain ⟨ok, hok, heq⟩ := Option.map_eq_some_iff.mp hmap
  refine ⟨ok, ?_, congrArg Prod.snd heq⟩
  rw [hrows.get?_eq, hok]

/-- A ledger entry is found under its amount, at the number of entries of that
amount before it. -/
theorem get_split {before after : List (Filed H PK C)} (h : o.Holds (before ++ f :: after)) :
    ∃ ok, (o.outputAmounts f.output.amount).get?
        (before.countP fun g ↦ g.output.amount = f.output.amount) = some ok ∧
      ok.outputId = before.length ∧ o.outputTxs.get? ok.outputId = some f.origin := by
  obtain ⟨ok, hok, hid⟩ := h.get_of_entry (ofAmount_getElem? before after f)
  refine ⟨ok, hok, hid, ?_⟩
  rw [h.outputTxs.get?_eq, hid, map_append, getElem?_append_right (by simp)]
  simp

lemma heights_eq (h : o.Holds fs) (amount : ℕ) :
    (o.outputAmounts amount).rows.map (fun r ↦ r.2.height) =
      (ofAmount fs amount).map fun p ↦ p.1.height := by
  obtain ⟨rows, hrows, hdata⟩ := h.outputAmounts amount
  have hmap := congrArg (map fun d ↦ d.1.2.2.1) hdata
  rw [map_map, map_map] at hmap
  rw [← Function.comp_def (fun ok : OutKey PK C ↦ ok.height), ← map_map, hrows.values_eq]
  exact hmap

lemma entry_unique (h : o.Holds fs) {amount' i i' : ℕ} {ok ok' : OutKey PK C}
    (hok : (o.outputAmounts amount).get? i = some ok)
    (hok' : (o.outputAmounts amount').get? i' = some ok') (hid : ok.outputId = ok'.outputId) :
    amount = amount' ∧ i = i' := by
  obtain ⟨f, hf, -⟩ := h.entry_of_get hok
  obtain ⟨f', hf', -⟩ := h.entry_of_get hok'
  obtain ⟨hpos, rfl⟩ := mem_ofAmount (mem_of_getElem? hf)
  obtain ⟨hpos', rfl⟩ := mem_ofAmount (mem_of_getElem? hf')
  -- the position in the ledger gives the output, and with it the amount
  have hsame : f = f' := Option.some_inj.mp (hpos.symm.trans ((congrArg (fs[·]?) hid).trans hpos'))
  subst hsame
  refine ⟨rfl, ?_⟩
  have hlt : i < ((ofAmount fs f.output.amount).map Prod.snd).length := by
    rw [length_map]
    exact (List.getElem?_eq_some_iff.mp hf).1
  apply (getElem?_inj hlt (ofAmount_ids_nodup fs f.output.amount)).mp
  rw [getElem?_map, getElem?_map, hf, hf', map_some, map_some, hid]

lemma existsUnique_entry (h : o.Holds fs) {id : ℕ} (hid : id < o.outputTxs.count) :
    ∃! p : ℕ × ℕ, ((o.outputAmounts p.1).get? p.2).map OutKey.outputId = some id := by
  rw [h.outputTxs.count_eq, length_map] at hid
  have hsplit := eq_split_of_getElem? (getElem?_eq_getElem hid)
  have hlength : (fs.take id).length = id := length_take_of_le hid.le
  obtain ⟨ok, hok, hokid, -⟩ := get_split (hsplit ▸ h)
  apply existsUnique_of_exists_of_unique
  · exact ⟨(_, _), Option.map_eq_some_iff.mpr ⟨ok, hok, hokid.trans hlength⟩⟩
  · rintro ⟨amount, i⟩ ⟨amount', i'⟩ hfirst hsecond
    obtain ⟨first, hget, hfirstid⟩ := Option.map_eq_some_iff.mp hfirst
    obtain ⟨second, hget', hsecondid⟩ := Option.map_eq_some_iff.mp hsecond
    obtain ⟨rfl, rfl⟩ := h.entry_unique hget hget' (hfirstid.trans hsecondid.symm)
    rfl

end OutputTables.Holds

/-! ## The numbering -/

variable [LinearOrder H] [LinearOrder K]

structure Numbered (env : Env H K PK C X) (chain : List (Entry H K PK C X)) (db : Db H K PK C) :
    Prop where
  amount_indices : ∀ amount, (db.outputs.outputAmounts amount).keys =
    range (db.outputs.outputAmounts amount).count
  heights_sorted : ∀ amount,
    ((db.outputs.outputAmounts amount).rows.map fun r ↦ r.2.height).Pairwise
    (· ≤ ·)
  heights_lt : ∀ amount, ∀ r ∈ (db.outputs.outputAmounts amount).rows, r.2.height < db.height
  output_ids : db.outputs.outputTxs.keys = range db.outputs.outputTxs.count
  output_ids_used : ∀ id < db.outputs.outputTxs.count,
    ∃! p : ℕ × ℕ, ((db.outputs.outputAmounts p.1).get? p.2).map OutKey.outputId = some id
  /-- An entry leads to the transaction and the local index that created it. -/
  created : ∀ amount i ok, (db.outputs.outputAmounts amount).get? i = some ok →
    ∃ t ∈ chainTxs env chain, ∃ j out, t.tx.vout[j]? = some out ∧
      (t.file env j out).output.amount = amount ∧ (t.file env j out).data = ok.data ∧
      db.outputs.outputTxs.get? ok.outputId = some ⟨t.hash, j⟩
  /-- And the indices stored for a transaction lead to the entries. -/
  tx_outputs : ∀ t ∈ chainTxs env chain, ∃ data indices, db.txIndices.get? t.hash = some data ∧
    db.txOutputs.get? data.txId = some indices ∧ indices.length = t.tx.vout.length ∧
    ∀ j out i, t.tx.vout[j]? = some out → indices[j]? = some i →
      ∃ ok, (db.outputs.outputAmounts (t.file env j out).output.amount).get? i = some ok ∧
        db.outputs.outputTxs.get? ok.outputId = some ⟨t.hash, j⟩

section Holds

variable {env : Env H K PK C X} {chain : List (Entry H K PK C X)} {db : Db H K PK C}
  {ts : List (ChainTx H K PK C X)}

omit [LinearOrder H] [LinearOrder K] in
lemma ledger_eq_split {n j : ℕ} (hn : ts[n]? = some t) (hfile : (t.filed env)[j]? = some f) :
    ledger env ts = (ledger env (ts.take n) ++ (t.filed env).take j) ++
      f :: ((t.filed env).drop (j + 1) ++ ledger env (ts.drop (n + 1))) := by
  have hcons : ledger env (t :: ts.drop (n + 1)) = t.filed env ++ ledger env (ts.drop (n + 1)) :=
    flatMap_cons
  conv_lhs => rw [eq_split_of_getElem? hn, ledger_append, hcons, eq_split_of_getElem? hfile]
  simp

lemma Db.Holds.numbered (h : db.Holds env (chainTxs env chain))
    (hheight : db.height = chain.length) : Numbered env chain db := by
  obtain ⟨hlt, hsorted⟩ := ledger_heights env chain
  refine ⟨fun amount ↦ ?_, fun amount ↦ ?_, fun amount r hr ↦ ?_, h.outputs.outputTxs.keys_eq,
    fun id hid ↦ h.outputs.existsUnique_entry hid, fun amount i ok hget ↦ ?_, fun t ht ↦ ?_⟩
  · obtain ⟨rows, hrows, -⟩ := h.outputs.outputAmounts amount
    exact hrows.keys_eq
  · rw [h.outputs.heights_eq, ← Function.comp_def Filed.height Prod.fst, ← map_map, pairwise_map]
    exact hsorted.sublist (ofAmount_fst_sublist _ amount)
  · have hmem : r.2.height ∈ (db.outputs.outputAmounts amount).rows.map fun r ↦ r.2.height :=
      mem_map_of_mem hr
    rw [h.outputs.heights_eq] at hmem
    obtain ⟨p, hp, hpheight⟩ := mem_map.mp hmem
    rw [← hpheight, hheight]
    exact hlt p.1 ((ofAmount_fst_sublist _ amount).subset (mem_map_of_mem hp))
  · obtain ⟨f, hf, hdata⟩ := h.outputs.entry_of_get hget
    obtain ⟨hpos, hamount⟩ := mem_ofAmount (mem_of_getElem? hf)
    obtain ⟨t, ht, j, out, hout, rfl⟩ := mem_ledger (mem_of_getElem? hpos)
    refine ⟨t, ht, j, out, hout, hamount, hdata, ?_⟩
    rw [h.outputs.outputTxs.get?_eq, getElem?_map, hpos]
    rfl
  · obtain ⟨n, hn⟩ := getElem?_of_mem ht
    refine ⟨_, _, h.txIndices n t hn, h.txOutputs n t hn, ?_, fun j out i hout hi ↦ ?_⟩
    · rw [length_amountIndices, ChainTx.filed, length_mapIdx]
    · have hfile : (t.filed env)[j]? = some (t.file env j out) := by
        rw [ChainTx.filed, getElem?_mapIdx, hout]
        rfl
      rw [amountIndices_getElem?, hfile, map_some, Option.some_inj] at hi
      subst hi
      obtain ⟨ok, hok, -, horigin⟩ :=
        OutputTables.Holds.get_split (ledger_eq_split hn hfile ▸ h.outputs)
      exact ⟨ok, hok, horigin⟩

theorem outputs_numbered {ops : List (Operation H K PK C X)} (hops : ∀ op ∈ ops, op.WellFormed env)
    (hrun : run env .empty ops = .ok db) : Numbered env (chainOf ops) db := by
  obtain ⟨hchain, -⟩ := addBlocks_chainOf hops hrun
  obtain ⟨hholds, hheight⟩ := holds_addBlocks hchain
  exact hholds.numbered hheight

end Holds

def readdedOperations : List (Operation ℕ ℕ ℕ ℕ ℕ) :=
  [.add firstEntry, .add secondEntry, .pop, .add secondEntry]

lemma readdedOperations_wellFormed : ∀ op ∈ readdedOperations, op.WellFormed twoBlocksEnv := by
  intro op hop
  simp only [readdedOperations, mem_cons, not_mem_nil, or_false] at hop
  rcases hop with rfl | rfl | rfl | rfl
  · exact firstEntry_wellFormed
  · exact secondEntry_wellFormed
  · trivial
  · exact secondEntry_wellFormed

theorem outputs_numbered_readded : ∃ db, run twoBlocksEnv .empty readdedOperations = .ok db ∧
      Numbered twoBlocksEnv (chainOf readdedOperations) db := by
  have hok : (run twoBlocksEnv .empty readdedOperations).isOk = true := by decide +kernel
  obtain ⟨db, hrun⟩ := exists_of_isOk hok
  exact ⟨db, hrun, outputs_numbered readdedOperations_wellFormed hrun⟩

/-- No key image is spent twice on a chain, and `spent_keys` has those that are spent. -/
theorem chain_spends_once {ops : List (Operation H K PK C X)} {db : Db H K PK C}
    (hops : ∀ op ∈ ops, op.WellFormed env) (hrun : run env .empty ops = .ok db) :
    ((chainOf ops).flatMap Entry.keyImages).Nodup ∧
      db.spentKeys.keys.Perm ((chainOf ops).flatMap Entry.keyImages) := by
  obtain ⟨hchain, -⟩ := addBlocks_chainOf hops hrun
  have hperm := foldlM_appends (P := fun db ks ↦ db.spentKeys.keys.Perm ks) addBlock_keys
    (Perm.refl []) hchain
  exact ⟨hperm.nodup_iff.mp db.spentKeys.keys_nodup, hperm⟩

theorem chain_spends_once_readded : ∃ db, run twoBlocksEnv .empty readdedOperations = .ok db ∧
      db.spentKeys.keys.Perm [1, 2, 3] :=
  ⟨_, rfl, (chain_spends_once readdedOperations_wellFormed rfl).2⟩

/-! ## A transaction with a `txin_gen` among other inputs

It is a miner transaction to `add_transaction`, which looks for any `txin_gen`,
and not to `remove_tx_outputs`, which looks for a single input.  Popping its
block takes the output of the first block instead of its own. -/

def mixedTx : ListedTx := listedTx 2 [.gen 1, .toKey 5 [0] 1] [⟨5, some 13⟩] [21] 102

def plainMinerTx : ListedTx := listedTx 1 [.gen 1] [⟨7, some 12⟩] [] 101

def mixedBlock : ListedBlock := listedBlock 1 1 plainMinerTx [mixedTx]

def mixedEnv : Env ℕ ℕ ℕ ℕ ℕ :=
  listedEnv [(firstMinerTx, [1], []), (plainMinerTx, [2], []), (mixedTx, [3], [4])]
    [(firstBlock, [1]), (mixedBlock, [2])]

def mixedOperations : List (Operation ℕ ℕ ℕ ℕ ℕ) :=
  [.add (listedEntry firstBlock []), .add (listedEntry mixedBlock [(mixedTx, [3, 4])]), .pop]

theorem mixed_not_numbered : ∃ db, run mixedEnv .empty mixedOperations = .ok db ∧
      ¬ Numbered mixedEnv (chainOf mixedOperations) db := by
  have hids : (run mixedEnv .empty mixedOperations).toOption.map
      (fun db ↦ db.outputs.outputTxs.keys) = some [1, 3] := by decide +kernel
  obtain ⟨db, hrun, hkeys⟩ := Option.map_eq_some_iff.mp hids
  have hok : run mixedEnv .empty mixedOperations = .ok db := by
    cases h : run mixedEnv .empty mixedOperations with
    | error e =>
      rw [h] at hrun
      cases hrun
    | ok db' =>
      rw [h] at hrun
      cases hrun
      rfl
  refine ⟨db, hok, fun hnumbered ↦ ?_⟩
  have hrange := hnumbered.output_ids
  have hcount : db.outputs.outputTxs.count = 2 := by
    rw [Table.count_eq_keys_length, hkeys]
    rfl
  rw [hkeys, hcount] at hrange
  exact absurd hrange (by decide)

end Monero.Database
