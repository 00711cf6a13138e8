import Monero.Blockchain.Alternative
import Monero.Blockchain.Emission

/-!
# What is recorded for an alternative block

The height, the cumulative difficulty and the generated coins of a block are
computed once when it is stored as an alternative block and once more when it
is connected to the main chain.  The coins are counted with the fees the first
time and without them the second time.
-/

namespace Monero.Blockchain

open HardFork List StoredAltBlock

variable {K P H D : Type*}

/-! ## Sums -/

@[simp] lemma altBlockData_cumulativeDifficulty (parent : AltParent) (b : Block K P H)
    (difficulty weight : ℕ) :
    (altBlockData parent b difficulty weight).extendedInfo.cumulativeDifficulty =
      (parent.cumulativeDifficulty + difficulty) % 2 ^ 128 := by
  simp only [extendedInfo, altBlockData]
  omega

lemma nextDifficulty_lt (timestamps cumulativeDifficulties : List ℕ) (targetSeconds : ℕ) :
    nextDifficulty timestamps cumulativeDifficulties targetSeconds < 2 ^ 128 := by
  simp only [nextDifficulty]
  split_ifs <;> omega

/-! ## The fees of a connected block -/

def poolFees (pool : Pool K P H D) (ids : List H) : List ℕ :=
  ids.map fun id ↦ ((pool id).map PoolTx.fee).getD 0

section Fees

variable [DecidableEq H] {env : Env K P H D} {nullHash : H} {chain : StoredChain K P H}
  {hfVersion : UInt8} {fastCheck : Bool} {s s' : TxLoop K P H D} (hs : s.supplement = [])

include hs

/-- Without a supplement a round takes its transaction from the pool. -/
lemma takeBlockTx_of_supplement_nil {id : H}
    (h : env.takeBlockTx nullHash chain hfVersion fastCheck s id = .ok s') :
    ∃ entry, s.pool id = some entry ∧ s'.pool = Function.update s.pool id none ∧
      s'.supplement = [] ∧ s'.feeSummary = addAmount s.feeSummary entry.fee := by
  rw [Env.takeBlockTx] at h
  split_ifs at h
  cases htake : env.takeTx s.pool id with
  | none => simp [htake, hs] at h
  | some taken =>
    obtain ⟨entry, tx, pool'⟩ := taken
    obtain ⟨hentry, -, rfl⟩ := takeTx_eq_some htake
    simp only [htake, Env.acceptTx] at h
    split at h
    · cases h
    · cases h
      exact ⟨entry, hentry, rfl, hs, rfl⟩

lemma foldlM_takeBlockTx_poolFees {ids : List H}
    (h : ids.foldlM (env.takeBlockTx nullHash chain hfVersion fastCheck) s = .ok s') :
    (∀ id ∈ ids, s.pool id ≠ none) ∧
      s'.feeSummary = (poolFees s.pool ids).foldl addAmount s.feeSummary := by
  induction ids generalizing s with
  | nil =>
    cases h
    exact ⟨by simp, rfl⟩
  | cons id ids ih =>
    rw [foldlM_cons, Lib.bind_eq_ok] at h
    obtain ⟨s₁, hfirst, hrest⟩ := h
    obtain ⟨entry, hentry, hpool, hnil, hfee⟩ := takeBlockTx_of_supplement_nil hs hfirst
    obtain ⟨hin, hfees⟩ := ih hnil hrest
    -- what was taken is not asked for again
    have hne : ∀ id' ∈ ids, id' ≠ id := by
      rintro id' hid rfl
      exact hin id' hid (by rw [hpool, Function.update_self])
    have hpoolEq : ∀ id' ∈ ids, s₁.pool id' = s.pool id' := fun id' hid ↦ by
      rw [hpool, Function.update_of_ne (hne id' hid)]
    refine ⟨forall_mem_cons.mpr ⟨by simp [hentry], fun id' hid ↦ ?_⟩, ?_⟩
    · exact hpoolEq id' hid ▸ hin id' hid
    · have hsame : poolFees s₁.pool ids = poolFees s.pool ids :=
        map_congr_left fun id' hid ↦ by rw [hpoolEq id' hid]
      rw [hfees, hsame, hfee, poolFees, poolFees, map_cons, foldl_cons, hentry]
      rfl

omit hs

lemma handleBlockToMainChain_reward {now : ℕ} {node : Node K P H D} {b : Block K P H} {id : H}
    (hfees : (poolFees node.pool b.body.txHashes).foldl addAmount 0 ≤
      getOutsMoneyAmount b.body.minerTx)
    (h : (env.handleBlockToMainChain nullHash now node b id []).returnValue = true) :
    (env.handleBlockToMainChain nullHash now node b id []).baseReward =
      getOutsMoneyAmount b.body.minerTx -
        (poolFees node.pool b.body.txHashes).foldl addAmount 0 := by
  obtain ⟨fastCheck, difficulty, s, -, hloop, hfinish⟩ := handleBlockToMainChain_eq_added h
  have hsummary : s.feeSummary = (poolFees node.pool b.body.txHashes).foldl addAmount 0 :=
    (foldlM_takeBlockTx_poolFees rfl hloop).2
  rw [hfinish] at h ⊢
  obtain ⟨-, _, _, _, _, hvalidate, -, houtcome⟩ := finishBlock_eq_added h
  rw [houtcome, ← validateMinerTransaction_claims (.inr (hsummary ▸ hfees)) hvalidate, hsummary,
    Nat.add_sub_cancel]

end Fees

/-! ## The two books -/

/-- Both version lookups lead to the same difficulty for the block of a step. -/
def SameDifficulty (ideal : ℕ → UInt8) (step : ConnectStep K P H D) : Prop :=
  uncachedDifficulty (targetOfVersion (ideal step.node.chain.length)) step.node.chain =
    uncachedDifficulty (getDifficultyTarget step.node.hardFork) step.node.chain

/-- The fees that the pool has for the transactions of the block. -/
def ConnectStep.fees (step : ConnectStep K P H D) : ℕ :=
  (poolFees step.node.pool step.block.body.txHashes).foldl addAmount 0

/-- What the miner transaction pays out above the fees. -/
def ConnectStep.generated (step : ConnectStep K P H D) : ℕ :=
  getOutsMoneyAmount step.block.body.minerTx - step.fees

/-- No fee has been paid in the blocks of these steps, or all coins have been
generated. -/
def SameCoins (coins : ℕ) (done : List (ConnectStep K P H D)) : Prop :=
  (done.map ConnectStep.fees).sum = 0 ∨
    moneySupply ≤ coins + (done.map ConnectStep.generated).sum

/-- What is recorded for the blocks above `base`, as alternative blocks and as
rows of the main chain. -/
structure Books (base rows : StoredChain K P H) (ideal : ℕ → UInt8)
    (data : List (StoredAltBlock (BlockBody K P H) H)) (steps : List (ConnectStep K P H D)) :
    Prop where
  heights : HeightsFrom base.length (data.map extendedInfo)
  timestamps : rows.map Row.timestamp = data.map timestamp
  dataCoins : (data.map alreadyGeneratedCoins).getLastD (lastCoins base) =
    min moneySupply (lastCoins base + (steps.map ConnectStep.generated).sum +
      (steps.map ConnectStep.fees).sum)
  rowCoins : (rows.map Row.alreadyGeneratedCoins).getLastD (lastCoins base) =
    min moneySupply (lastCoins base + (steps.map ConnectStep.generated).sum)
  coins_iff : data.map alreadyGeneratedCoins = rows.map Row.alreadyGeneratedCoins ↔
    ∀ done, done <+: steps → SameCoins (lastCoins base) done
  difficulties_iff : (data.map fun d ↦ d.extendedInfo.cumulativeDifficulty) =
      rows.map Row.cumulativeDifficulty ↔ ∀ step ∈ steps, SameDifficulty ideal step

variable {base : StoredChain K P H} {ideal : ℕ → UInt8}
  {data : List (StoredAltBlock (BlockBody K P H) H)} {steps : List (ConnectStep K P H D)}
  {env : Env K P H D} {nullHash tip : H} {node node₀ : Node K P H D} {getAltBlock : AltStore K P H}
  {b : Block K P H} {calls : List (ConnectCall K P H)}

lemma Books.nil (hcoins : lastCoins base ≤ moneySupply)
    (ideal : ℕ → UInt8) : Books base [] ideal [] ([] : List (ConnectStep K P H D)) where
  heights := rfl
  timestamps := rfl
  dataCoins := by simp [hcoins]
  rowCoins := by simp [hcoins]
  coins_iff := by simp [SameCoins]
  difficulties_iff := by simp

lemma Books.snoc {rows : StoredChain K P H} (hne : base ≠ [])
    (h : Books base rows ideal data steps)
    {step : ConnectStep K P H D} (hchain : step.node.chain = base ++ rows)
    {d : StoredAltBlock (BlockBody K P H) H} (hheight : d.height = base.length + data.length)
    (htimestamp : d.timestamp = step.block.timestamp)
    (hcoins : d.alreadyGeneratedCoins = addGeneratedCoins
      ((data.map alreadyGeneratedCoins).getLastD (lastCoins base))
      (getOutsMoneyAmount step.block.body.minerTx))
    (hdifficulty : (data.map fun d ↦ d.extendedInfo.cumulativeDifficulty) =
        rows.map Row.cumulativeDifficulty → d.extendedInfo.cumulativeDifficulty =
      ((rows.map Row.cumulativeDifficulty).getLastD
          (getBlockCumulativeDifficulty base (base.length - 1)) +
        uncachedDifficulty (targetOfVersion (ideal step.node.chain.length)) step.node.chain) %
          2 ^ 128) {row : Row (BlockBody K P H)} (hrow : AddedRow step.node.chain step.block
      (uncachedDifficulty (getDifficultyTarget step.node.hardFork) step.node.chain)
      step.generated row) (hfees : step.fees ≤ getOutsMoneyAmount step.block.body.minerTx) :
    Books base (rows ++ [row]) ideal (data ++ [d]) (steps ++ [step]) := by
  have hlastCoins : lastCoins step.node.chain =
      (rows.map Row.alreadyGeneratedCoins).getLastD (lastCoins base) := by
    rw [hchain]
    exact readAt_last _ hne rows
  have hlastDifficulty : getBlockCumulativeDifficulty step.node.chain
      (step.node.chain.length - 1) = (rows.map Row.cumulativeDifficulty).getLastD
          (getBlockCumulativeDifficulty base (base.length - 1)) := by
    rw [hchain]
    exact readAt_last _ hne rows
  have hdataCoins : d.alreadyGeneratedCoins =
      min moneySupply (lastCoins base + ((steps ++ [step]).map ConnectStep.generated).sum +
        ((steps ++ [step]).map ConnectStep.fees).sum) := by
    -- the outputs of the miner transaction are what is generated and the fees
    have hsplit : getOutsMoneyAmount step.block.body.minerTx = step.generated + step.fees :=
      (Nat.sub_add_cancel hfees).symm
    rw [hcoins, h.dataCoins, addGeneratedCoins_eq (min_le_left _ _), hsplit]
    simp only [map_append, map_singleton, sum_append, sum_singleton]
    omega
  have hrowCoins : row.alreadyGeneratedCoins =
      min moneySupply (lastCoins base + ((steps ++ [step]).map ConnectStep.generated).sum) := by
    rw [hrow.alreadyGeneratedCoins_eq, hlastCoins, h.rowCoins,
      addGeneratedCoins_eq (min_le_left _ _)]
    simp only [map_append, map_singleton, sum_append, sum_singleton]
    omega
  refine ⟨?_, ?_, ?_, ?_, ?_, ?_⟩
  · rw [HeightsFrom, map_append, map_append, h.heights, length_append,
      map_singleton, map_singleton, length_singleton, range'_concat,
      length_map]
    simp [extendedInfo, hheight]
  · rw [map_append, map_append, h.timestamps, map_singleton, map_singleton,
      hrow.timestamp_eq, htimestamp]
  · rw [map_append, map_singleton, getLastD_concat, hdataCoins]
  · rw [map_append, map_singleton, getLastD_concat, hrowCoins]
  · simp only [map_append, map_singleton, append_singleton_inj, h.coins_iff,
      prefix_concat_iff, forall_eq_or_imp]
    rw [and_comm, hdataCoins, hrowCoins]
    refine and_congr_left' ?_
    rw [SameCoins]
    omega
  · simp only [map_append, map_singleton, append_singleton_inj, forall_mem_append,
      forall_mem_singleton]
    rw [← h.difficulties_iff]
    refine and_congr_right fun heq ↦ ?_
    rw [hdifficulty heq, hrow.cumulativeDifficulty_eq, hlastDifficulty, SameDifficulty]
    -- both difficulties are below `2 ^ 128`, so the sums modulo `2 ^ 128` tell them apart
    have hlt : ∀ target, uncachedDifficulty target step.node.chain < 2 ^ 128 := fun _ ↦
      nextDifficulty_lt _ _ _
    have h₁ := hlt (targetOfVersion (ideal step.node.chain.length))
    have h₂ := hlt (getDifficultyTarget step.node.hardFork)
    omega

/-! ## The two paths -/

variable [DecidableEq H]

variable {fuel now : ℕ} {id : H} {supplement : Supplement K P H D}
  {accepted : AcceptedAlternative K P H D}

lemma handleAlternativeBlock_stored
    (h : env.handleAlternativeBlock nullHash fuel now node getAltBlock b id supplement =
      .stored accepted) :
    ∃ alt timestamps weight,
      buildAltChain env.hash getAltBlock fuel node.chain b.body.prevId = some (alt, timestamps) ∧
        accepted.data = altBlockData (env.altParent node.chain getAltBlock alt b.body.prevId) b
          (getNextDifficultyForAlternativeChain node.hardFork node.chain alt
            ((env.altParent node.chain getAltBlock alt b.body.prevId).height + 1)) weight := by
  simp only [Env.handleAlternativeBlock] at h
  iterate 4
    split at h
    · cases h
  split at h
  · cases h
  · rename_i alt timestamps hbuild
    iterate 4
      split at h
      · cases h
    cases h
    exact ⟨alt, timestamps, _, hbuild, rfl⟩

/-! ## A stored alternative chain -/

/-- The blocks `alts`, each with the data stored for it, were accepted one on
top of the other above `base`, while the main chain may have changed above
`base`.  `ideal` is the schedule of versions. -/
inductive StoredAlternatives (env : Env K P H D) (nullHash : H) (base : StoredChain K P H)
    (ideal : ℕ → UInt8) : List (Block K P H × StoredAltBlock (BlockBody K P H) H) → H → Prop
  | nil : StoredAlternatives env nullHash base ideal [] (env.hash base)
  | snoc {alts : List (Block K P H × StoredAltBlock (BlockBody K P H) H)} {tip id : H}
      {fuel now : ℕ} {node : Node K P H D} {getAltBlock : AltStore K P H} {b : Block K P H}
      {supplement : Supplement K P H D} {accepted : AcceptedAlternative K P H D}
      (h : StoredAlternatives env nullHash base ideal alts tip) (hprev : b.body.prevId = tip)
      (hbase : base <+: node.chain) (hideal : node.hardFork.getIdealVersion = ideal)
      (hdistinct : HashesDistinct env.hash node.chain)
      (hstored : StoredOn getAltBlock (env.hash base) (alts.map Prod.snd) tip)
      (hfuel : alts.length < fuel)
      (haccepted : env.handleAlternativeBlock nullHash fuel now node getAltBlock b id supplement =
        .stored accepted) :
      StoredAlternatives env nullHash base ideal (alts ++ [(b, accepted.data)]) id

/-- The last of the blocks stored above `base`. -/
def lastStored (base : StoredChain K P H) (data : List (StoredAltBlock (BlockBody K P H) H)) :
    AltParent where
  height := base.length + data.length - 1
  cumulativeDifficulty := (data.map fun d ↦ d.extendedInfo.cumulativeDifficulty).getLastD
    (getBlockCumulativeDifficulty base (base.length - 1))
  alreadyGeneratedCoins := (data.map alreadyGeneratedCoins).getLastD (lastCoins base)

section Parent

variable (hne : base ≠ []) (hbase : base <+: node.chain)
  (hdistinct : HashesDistinct env.hash node.chain)
  (hstored : StoredOn getAltBlock (env.hash base) data b.body.prevId)
  (hheights : HeightsFrom base.length (data.map extendedInfo))

include hne hbase hdistinct hstored hheights

lemma altParent_eq :
    env.altParent node.chain getAltBlock (data.map extendedInfo) b.body.prevId =
      lastStored base data := by
  have hpos := length_pos_iff.mpr hne
  rcases eq_nil_or_concat data with rfl | ⟨data, d, rfl⟩
  · obtain ⟨hprev, hroot⟩ := hstored.getAltBlock_root
    have htake : base = node.chain.take base.length := prefix_iff_eq_take.mp hbase
    have hheight :
        getBlockHeight env.hash node.chain (env.hash base) = some (base.length - 1) := by
      conv_lhs => rw [htake]
      exact getBlockHeight_eq hdistinct hpos hbase.length_le
    have hread : ∀ f : Row (BlockBody K P H) → ℕ,
        readAt f node.chain (base.length - 1) = readAt f base (base.length - 1) := by
      intro f
      obtain ⟨rest, hrest⟩ := hbase
      rw [readAt, readAt, ← hrest, getElem?_append_left (by omega)]
    simp [hprev, Env.altParent, lastStored, hroot, hheight, getBlockCumulativeDifficulty,
      lastCoins, getBlockAlreadyGeneratedCoins, hread]
  · rw [concat_eq_append] at hstored hheights ⊢
    have hget := hstored.getAltBlock_tip
    have hheight : d.height = base.length + data.length := by
      rw [HeightsFrom, map_append, map_append, length_append, length_map,
        map_singleton, map_singleton, length_singleton, range'_concat]
        at hheights
      have hlast := (append_inj' hheights rfl).2
      simpa [extendedInfo] using hlast
    obtain ⟨front, rest, hcons⟩ : ∃ front rest,
        (data ++ [d]).map extendedInfo = front :: rest :=
      exists_cons_of_ne_nil (by simp)
    rw [hcons]
    simp [Env.altParent, lastStored, hget, hheight]

lemma accepted_data (hfuel : data.length < fuel)
    (haccepted : env.handleAlternativeBlock nullHash fuel now node getAltBlock b id supplement =
      .stored accepted) :
    ∃ weight, accepted.data = altBlockData (lastStored base data) b
      (getNextDifficultyForAlternativeChain node.hardFork node.chain
        (data.map extendedInfo) (base.length + data.length)) weight := by
  have hpos := length_pos_iff.mpr hne
  have htake : base = node.chain.take base.length := prefix_iff_eq_take.mp hbase
  obtain ⟨alt, timestamps, weight, hbuild, hdata⟩ := handleAlternativeBlock_stored haccepted
  have hstored' : StoredOn getAltBlock (env.hash (node.chain.take base.length)) data
      b.body.prevId := htake ▸ hstored
  rw [buildAltChain_eq hdistinct hpos hbase.length_le hstored' hheights hfuel] at hbuild
  split_ifs at hbuild
  cases hbuild
  refine ⟨weight, ?_⟩
  rw [hdata, altParent_eq hne hbase hdistinct hstored hheights]
  simp [lastStored, show base.length + data.length - 1 + 1 = base.length + data.length by omega]

end Parent

/-! ## Connecting the chain -/

lemma connectAlternativeChain_concat {call : ConnectCall K P H}
    (h : env.connectAlternativeChain nullHash node₀ (calls ++ [call]) = some (node, steps)) :
    ∃ before done step, env.connectAlternativeChain nullHash node₀ calls = some (before, done) ∧
      node = step.outcome.node ∧ steps = done ++ [step] ∧ step.node = before ∧
        step.block = call.block ∧
          step.outcome =
            env.handleBlockToMainChain nullHash call.now before call.block call.id [] ∧
            step.outcome.returnValue = true := by
  rw [Env.connectAlternativeChain, foldlM_append] at h
  obtain ⟨⟨before, done⟩, hdone, hlast⟩ := Option.bind_eq_some_iff.mp h
  simp only [foldlM_cons, foldlM_nil, bind_pure, Env.connectBlock] at hlast
  split_ifs at hlast with hadded
  cases hlast
  exact ⟨before, done, ⟨before, call.block, _⟩, hdone, rfl, rfl, rfl, rfl, rfl,
    (Bool.and_eq_true_iff.mp hadded).1⟩

lemma StoredAlternatives.books (hne : base ≠ [])
    (hcoins : lastCoins base ≤ moneySupply)
    {alts : List (Block K P H × StoredAltBlock (BlockBody K P H) H)}
    (hstored : StoredAlternatives env nullHash base ideal alts tip) (hnode : node₀.chain = base)
    (hcalls : calls.map ConnectCall.block = alts.map Prod.fst)
    (hconnect : env.connectAlternativeChain nullHash node₀ calls = some (node, steps))
    (hfees : ∀ step ∈ steps, step.fees ≤ getOutsMoneyAmount step.block.body.minerTx) :
    ∃ rows, node.chain = base ++ rows ∧ Books base rows ideal (alts.map Prod.snd) steps := by
  induction hstored generalizing calls node steps with
  | nil =>
    rw [map_nil, map_eq_nil_iff] at hcalls
    subst hcalls
    cases hconnect
    exact ⟨[], by simpa using hnode, Books.nil hcoins ideal⟩
  | @snoc alts tip id fuel now mainNode getAltBlock b supplement accepted h hprev hbase hideal
      hdistinct hchain hfuel haccepted ih =>
      -- the last block, stored on its parent and connected on top of `rows`
      rcases eq_nil_or_concat calls with rfl | ⟨calls, call, rfl⟩
      · simp at hcalls
      rw [concat_eq_append] at hcalls hconnect
      rw [map_append, map_append, map_singleton, map_singleton, append_singleton_inj] at hcalls
      obtain ⟨hcalls, hblock⟩ := hcalls
      obtain ⟨before, done, step, hdone, rfl, rfl, hstepNode, hstepBlock, houtcome, hadded⟩ :=
        connectAlternativeChain_concat hconnect
      obtain ⟨rows, hrows, hbooks⟩ := ih hcalls hdone fun step hstep ↦
        hfees step (mem_append_left _ hstep)
      have hpaid := hfees step (by simp)
      rw [houtcome] at hadded
      obtain ⟨-, loop, blockWeight, hblockAdded⟩ := handleBlockToMainChain_added hadded
      obtain ⟨row, hnew, -, hrow⟩ := addBlock_row hblockAdded
      subst hprev
      obtain ⟨weight, hdata⟩ := accepted_data hne hbase hdistinct hchain hbooks.heights
        (by simpa using hfuel) haccepted
      have hstepChain : step.node.chain = base ++ rows := by rw [hstepNode, hrows]
      have hlength : (base ++ rows).length = base.length + (alts.map Prod.snd).length := by
        have hcount := congrArg length hbooks.timestamps
        simp only [length_map] at hcount
        simp [hcount]
      have htake : mainNode.chain.take base.length = base := (prefix_iff_eq_take.mp hbase).symm
      refine ⟨rows ++ [row], ?_, ?_⟩
      · rw [houtcome, hnew, hrows, append_assoc]
      · rw [map_append, map_singleton]
        refine hbooks.snoc hne hstepChain ?_ ?_ ?_ ?_ ?_ hpaid
        · rw [hdata]
          simp only [altBlockData, lastStored]
          have hpos := length_pos_iff.mpr hne
          omega
        · rw [hdata, hstepBlock, hblock]
          rfl
        · rw [hdata, hstepBlock, hblock]
          rfl
        · -- with equal difficulties so far both windows hold the same rows
          intro heq
          have htimestamps : rows.map Row.timestamp =
              ((alts.map Prod.snd).map extendedInfo).map
                BlockExtendedInfo.timestamp := by
            rw [hbooks.timestamps, map_map (f := extendedInfo)]
            rfl
          have hdifficulties : rows.map Row.cumulativeDifficulty =
              ((alts.map Prod.snd).map extendedInfo).map
                BlockExtendedInfo.cumulativeDifficulty := by
            rw [← heq, map_map (f := extendedInfo)]
            rfl
          have hdifficulty := nextDifficulty_alternative_eq (length_pos_iff.mpr hne)
            hbase.length_le hbooks.heights htimestamps hdifficulties mainNode.hardFork
          rw [length_map, htake] at hdifficulty
          rw [hdata, altBlockData_cumulativeDifficulty, hdifficulty, hideal, lastStored, heq,
            hstepChain, hlength]
        · rw [ConnectStep.fees, hstepNode, hstepBlock] at hpaid
          rw [handleBlockToMainChain_reward hpaid hadded] at hrow
          rw [ConnectStep.generated, ConnectStep.fees, hstepNode, hstepBlock]
          exact hrow

/-! ## Schedules without voting -/

/-- The hard fork object is on a schedule without voting, at the height of the
chain. -/
def Node.OnSchedule (node : Node K P H D) : Prop :=
  node.hardFork.OnSchedule node.chain.length ∧ node.hardForkDb.height = node.chain.length

lemma Node.OnSchedule.addBlock {node' : Node K P H D}
    (h : node.OnSchedule) (hcheck : node.hardFork.check b.versions = true)
    {s : TxLoop K P H D} {blockWeight difficulty baseReward : ℕ}
    (hadd : env.addBlock node b s blockWeight difficulty baseReward = some node') :
    node'.OnSchedule ∧ node'.hardFork.getIdealVersion = node.hardFork.getIdealVersion := by
  obtain ⟨row, hchain, -⟩ := addBlock_row hadd
  obtain ⟨s', hs', hheight⟩ := addBlock_of_check hcheck node.hardForkDb
  cases hs'.symm.trans (addBlock_hardFork hcheck hadd)
  obtain ⟨hschedule, hideal⟩ := (h.2 ▸ h.1 : node.hardFork.OnSchedule _).addBlock hs'
  have hlength : node'.chain.length = node.hardForkDb.height + 1 := by
    rw [hchain, length_append, length_singleton, h.2]
  rw [Node.OnSchedule, hlength]
  exact ⟨⟨hschedule, hheight⟩, hideal⟩

lemma connectAlternativeChain_sameDifficulty (hnode : node₀.OnSchedule)
    (hconnect : env.connectAlternativeChain nullHash node₀ calls = some (node, steps)) :
    (node.OnSchedule ∧ node.hardFork.getIdealVersion = node₀.hardFork.getIdealVersion) ∧
      ∀ step ∈ steps, SameDifficulty node₀.hardFork.getIdealVersion step := by
  induction calls using reverseRecOn generalizing node steps with
  | nil =>
    cases hconnect
    exact ⟨⟨hnode, rfl⟩, by simp⟩
  | append_singleton calls call ih =>
    obtain ⟨before, done, step, hdone, rfl, rfl, hstepNode, hstepBlock, houtcome, hadded⟩ :=
      connectAlternativeChain_concat hconnect
    obtain ⟨⟨hbefore, hideal⟩, hsteps⟩ := ih hdone
    rw [houtcome] at hadded ⊢
    obtain ⟨hcheck, loop, blockWeight, hadd⟩ := handleBlockToMainChain_added hadded
    obtain ⟨hafter, hsame⟩ := hbefore.addBlock hcheck hadd
    refine ⟨⟨hafter, hsame.trans hideal⟩, ?_⟩
    simp only [forall_mem_append, forall_mem_singleton]
    refine ⟨hsteps, ?_⟩
    rw [SameDifficulty, hstepNode, getDifficultyTarget, hbefore.1.currentVersion_eq, hideal]

/-! ## Both books agree -/

/-- The height, the cumulative difficulty and the generated coins stored for
the blocks of an alternative chain are the ones stored for them when the chain
is connected, with every block claiming at least its fees, exactly when up to
every block no fee was paid or all coins had been generated, and the two
lookups of the version lead to the same difficulties. -/
theorem altBlockData_eq_connected_iff {env : Env K P H D} {nullHash : H} {base : StoredChain K P H}
    (hne : base ≠ []) (hcoins : lastCoins base ≤ moneySupply)
    {ideal : ℕ → UInt8} {alts : List (Block K P H × StoredAltBlock (BlockBody K P H) H)} {tip : H}
    (hstored : StoredAlternatives env nullHash base ideal alts tip) {node₀ : Node K P H D}
    (hnode : node₀.chain = base) {calls : List (ConnectCall K P H)}
    (hcalls : calls.map ConnectCall.block = alts.map Prod.fst) {node : Node K P H D}
    {steps : List (ConnectStep K P H D)}
    (hconnect : env.connectAlternativeChain nullHash node₀ calls = some (node, steps))
    (hfees : ∀ step ∈ steps, step.fees ≤ getOutsMoneyAmount step.block.body.minerTx) :
    ((alts.map fun a ↦ a.2.height) = range' base.length (node.chain.drop base.length).length ∧
      (alts.map fun a ↦ a.2.extendedInfo.cumulativeDifficulty) =
        (node.chain.drop base.length).map Row.cumulativeDifficulty ∧
      (alts.map fun a ↦ a.2.alreadyGeneratedCoins) =
        (node.chain.drop base.length).map Row.alreadyGeneratedCoins) ↔
    (∀ done, done <+: steps → SameCoins (lastCoins base) done) ∧
      ∀ step ∈ steps, SameDifficulty ideal step := by
  obtain ⟨rows, hrows, hbooks⟩ := hstored.books hne hcoins hnode hcalls hconnect hfees
  have hdrop : node.chain.drop base.length = rows := by rw [hrows, drop_left]
  have hlength : rows.length = alts.length := by
    simpa using congrArg length hbooks.timestamps
  have hheights : (alts.map fun a ↦ a.2.height) = range' base.length rows.length := by
    have hfrom := hbooks.heights
    rw [HeightsFrom, map_map, map_map, length_map, length_map] at hfrom
    rw [hlength]
    exact hfrom
  have hcoinsIff := hbooks.coins_iff
  have hdifficultiesIff := hbooks.difficulties_iff
  rw [map_map] at hcoinsIff hdifficultiesIff
  rw [hdrop, ← hcoinsIff, ← hdifficultiesIff]
  exact ⟨fun h ↦ ⟨h.2.2, h.2.1⟩, fun h ↦ ⟨hheights, h.2, h.1⟩⟩

def secondReward : ℕ := 17592186044415

/-- The second block, stored while another second block is in the main chain. -/
theorem storedAlternatives_second {reward fee : ℕ}
    {accepted : AcceptedAlternative Unit Unit ℕ Unit}
    (h : (trustingEnv []).handleAlternativeBlock 0 1 0
      (minedNode [minedRow 0 0, minedRow 1 0] (onePool fee)) (fun _ ↦ none)
      (secondBlock reward [7]) 100 [] = .stored accepted) :
    StoredAlternatives (trustingEnv []) 0 [minedRow 0 0] (oneFork 1).getIdealVersion
      [(secondBlock reward [7], accepted.data)] 100 :=
  .snoc .nil rfl ⟨[minedRow 1 0], rfl⟩ rfl (hashesDistinct_length _) (.nil rfl) Nat.one_pos h

theorem altBlockData_eq_connected_noFees :
    ∃ (accepted : AcceptedAlternative Unit Unit ℕ Unit) (node : Node Unit Unit ℕ Unit)
      (steps : List (ConnectStep Unit Unit ℕ Unit)),
      (trustingEnv []).handleAlternativeBlock 0 1 0
        (minedNode [minedRow 0 0, minedRow 1 0] (onePool 0)) (fun _ ↦ none)
        (secondBlock secondReward [7]) 100 [] = .stored accepted ∧
      (trustingEnv []).connectAlternativeChain 0 (minedNode [minedRow 0 0] (onePool 0))
        [⟨0, secondBlock secondReward [7], 100⟩] = some (node, steps) ∧
      [accepted.data.alreadyGeneratedCoins] =
        (node.chain.drop 1).map Row.alreadyGeneratedCoins := by
  refine ⟨_, _, _, rfl, rfl, ?_⟩
  have hschedule : (minedNode [minedRow 0 0] (onePool 0)).OnSchedule :=
    ⟨⟨by unfold Unvoted; decide, pairwise_singleton _ _, cons_ne_nil _ _, rfl, rfl⟩, rfl⟩
  have hiff := @altBlockData_eq_connected_iff Unit Unit ℕ Unit _ (trustingEnv []) 0 [minedRow 0 0]
    (cons_ne_nil _ _) (by decide) _ _ 100 (@storedAlternatives_second secondReward 0 _ rfl)
    (minedNode [minedRow 0 0] (onePool 0)) rfl [⟨0, secondBlock secondReward [7], 100⟩] rfl _ _ rfl
    (fun step hstep ↦ by rw [mem_singleton.mp hstep]; decide)
  refine (hiff.mpr ⟨fun done hdone ↦ .inl ?_,
    (@connectAlternativeChain_sameDifficulty Unit Unit ℕ Unit _ (trustingEnv []) 0 _ _
      [⟨0, secondBlock secondReward [7], 100⟩] _ hschedule rfl).2⟩).2.2
  rcases prefix_concat_iff.mp hdone with rfl | hnil
  · rfl
  · rw [prefix_nil.mp hnil]
    rfl

/-- A transaction in the block pays a fee of 5: the fee is counted among the
generated coins of the alternative block, and not of the connected one. -/
theorem altBlockData_ne_connected :
    ∃ (accepted : AcceptedAlternative Unit Unit ℕ Unit) (node : Node Unit Unit ℕ Unit)
      (steps : List (ConnectStep Unit Unit ℕ Unit)),
      StoredAlternatives (trustingEnv []) 0 [minedRow 0 0] (oneFork 1).getIdealVersion
        [(secondBlock (secondReward + 5) [7], accepted.data)] 100 ∧
      (trustingEnv []).connectAlternativeChain 0 (minedNode [minedRow 0 0] (onePool 5))
        [⟨0, secondBlock (secondReward + 5) [7], 100⟩] = some (node, steps) ∧
      (∀ step ∈ steps, getOutsMoneyAmount step.block.body.minerTx =
        step.outcome.baseReward + step.outcome.feeSummary) ∧
      accepted.data.alreadyGeneratedCoins = secondReward + 5 ∧
      (node.chain.drop 1).map Row.alreadyGeneratedCoins = [secondReward] := by
  refine ⟨_, _, _, @storedAlternatives_second (secondReward + 5) 5 _ rfl, rfl, ?_, rfl, rfl⟩
  intro step hstep
  rw [mem_singleton.mp hstep]
  rfl

end Monero.Blockchain
