import Monero.Blockchain.TxInputs

/-!
# The age of ring members

The age rule looks at the last member of each ring.  The members before it are
older when the absolute offsets increase; the running sums of the relative
offsets need not, because they wrap around and only an offset of zero is
refused.
-/

namespace Monero.Blockchain

open Monero.Lib List

variable {K P H : Type*}

lemma relativeOutputOffsetsToAbsolute_eq (offsets : List UInt64) :
    relativeOutputOffsetsToAbsolute offsets = runningSumsFrom 0 offsets := by
  cases offsets with
  | nil => rfl
  | cons offset offsets => rw [relativeOutputOffsetsToAbsolute, runningSumsFrom, zero_add]

namespace InputView

variable {view : InputView K P}

def Finds (view : InputView K P) (amount : ℕ) : List UInt64 → List (OutputData P) → Prop :=
  Forall₂ fun offset output ↦ view.outputs amount offset = some output

def HeightsMonotone (view : InputView K P) : Prop :=
  ∀ amount offset offset' output output', offset ≤ offset' →
    view.outputs amount offset = some output → view.outputs amount offset' = some output' →
      output.height ≤ output'.height

/-- The scan table holds the outputs of the first ring members, as the
database has them. -/
def ScanTableFaithful (view : InputView K P) (tx : Transaction K P) : Prop :=
  ∀ amount keyOffsets keyImage outputs, TxIn.toKey amount keyOffsets keyImage ∈ tx.vin →
    view.scanTable tx keyImage = some outputs → view.Finds amount
        ((relativeOutputOffsetsToAbsolute keyOffsets).take outputs.length) outputs

/-! ## The scan -/

variable {amount m' m : ℕ} {offsets keyOffsets : List UInt64} {outputs : List (OutputData P)}
  {tx : Transaction K P} {keyImage : K} {checks : ProofChecks K P H} {offset : UInt64}

lemma finds_of_getOutputKeys (h : view.getOutputKeys amount offsets = some outputs) :
    view.Finds amount offsets outputs := by
  induction offsets generalizing outputs with
  | nil =>
    cases h
    exact .nil
  | cons offset offsets ih =>
    rw [getOutputKeys, mapM_cons] at h
    obtain ⟨output, houtput, hrest⟩ := Option.bind_eq_some_iff.mp h
    obtain ⟨rest, hmap, hcons⟩ := Option.bind_eq_some_iff.mp hrest
    cases hcons
    exact .cons houtput (ih hmap)

lemma finds_of_lookUpOutputs {cached : Option (List (OutputData P))}
    (hcached : ∀ found, cached = some found → view.Finds amount (offsets.take found.length) found)
    (h : view.lookUpOutputs cached amount offsets = some outputs) :
    view.Finds amount (offsets.take outputs.length) outputs := by
  have hall : ∀ {found : List (OutputData P)}, view.Finds amount offsets found →
      view.Finds amount (offsets.take found.length) found := by
    intro found hfound
    rw [take_of_length_le hfound.length_eq.le]
    exact hfound
  cases cached with
  | none => exact hall (finds_of_getOutputKeys h)
  | some found =>
    rw [lookUpOutputs] at h
    split_ifs at h
    · obtain ⟨more, hmore, rfl⟩ := Option.map_eq_some_iff.mp h
      have happend : view.Finds amount
          (offsets.take found.length ++ offsets.drop found.length) (found ++ more) :=
        rel_append (hcached found rfl) (finds_of_getOutputKeys hmore)
      rw [take_append_drop] at happend
      exact hall happend
    · cases h
      exact hcached outputs rfl

lemma finds_of_visitOutputs {visited : List (OutputData P)}
    (hfound : view.Finds amount (offsets.take outputs.length) outputs)
    (h : view.visitOutputs amount offsets outputs = some visited) :
    view.Finds amount offsets visited := by
  induction offsets generalizing outputs visited with
  | nil =>
    cases h
    exact .nil
  | cons offset offsets ih =>
    rw [visitOutputs] at h
    cases outputs with
    | nil =>
      cases houtput : view.outputs amount offset with
      | none => simp [houtput] at h
      | some output =>
        simp only [head?_nil, Option.none_or, houtput] at h
        split_ifs at h
        obtain ⟨rest, hrest, rfl⟩ := Option.map_eq_some_iff.mp h
        have hnil : view.Finds amount (offsets.take ([] : List (OutputData P)).length) [] := by
          rw [length_nil, take_zero]
          exact .nil
        exact .cons houtput (ih hnil hrest)
    | cons output outputs =>
      cases hfound with
      | cons houtput hfound =>
        simp only [head?_cons, Option.some_or] at h
        split_ifs at h
        obtain ⟨rest, hrest, rfl⟩ := Option.map_eq_some_iff.mp h
        exact .cons houtput (ih hfound hrest)

lemma scanOutputkeysForIndexes_spec {visited : List (OutputData P)}
    (hscan : ∀ outputs, view.scanTable tx keyImage = some outputs → view.Finds amount
      ((relativeOutputOffsetsToAbsolute keyOffsets).take outputs.length) outputs)
    (h : view.scanOutputkeysForIndexes tx amount keyOffsets keyImage m = some (visited, m')) :
    keyOffsets ≠ [] ∧ view.Finds amount (relativeOutputOffsetsToAbsolute keyOffsets) visited ∧
        m' = max m ((visited.getLast?.map OutputData.height).getD 0) := by
  rw [scanOutputkeysForIndexes] at h
  split_ifs at h with hempty
  refine ⟨by simpa using hempty, ?_⟩
  simp only at h
  split at h
  · cases h
  · rename_i outputs hlook
    split at h
    · cases h
    · rename_i visited' hvisit
      cases h
      exact ⟨finds_of_visitOutputs (finds_of_lookUpOutputs hscan hlook) hvisit, rfl⟩

/-! ## All inputs -/

/-- What is known of an input that was accepted: the members of its ring exist,
and the last one is not above the maximum. -/
def RingFound (view : InputView K P) (maxHeight : ℕ) : TxIn K → Prop
  | .toKey amount keyOffsets _ => ∃ visited,
      view.Finds amount (relativeOutputOffsetsToAbsolute keyOffsets) visited ∧
        ∃ last ∈ visited.getLast?, last.height ≤ maxHeight
  | _ => False

lemma RingFound.mono (hm : m ≤ m') {txin : TxIn K} (h : view.RingFound m txin) :
    view.RingFound m' txin := by
  cases txin with
  | toKey amount keyOffsets keyImage =>
    obtain ⟨visited, hfinds, last, hlast, hle⟩ := h
    exact ⟨visited, hfinds, last, hlast, hle.trans hm⟩
  | gen height => exact h
  | toScript => exact h
  | toScripthash => exact h

lemma checkTxInput_ringFound {sigIndex : ℕ} {keys : List (P × P)}
    (hscan : ∀ outputs, view.scanTable tx keyImage = some outputs → view.Finds amount
      ((relativeOutputOffsetsToAbsolute keyOffsets).take outputs.length) outputs)
    (h : view.checkTxInput tx sigIndex amount keyOffsets keyImage m = some (keys, m')) :
    m ≤ m' ∧ view.RingFound m' (.toKey amount keyOffsets keyImage) := by
  rw [checkTxInput] at h
  split at h
  · cases h
  · rename_i visited maxHeight hvisited
    obtain ⟨hne, hfinds, hmax⟩ := scanOutputkeysForIndexes_spec hscan hvisited
    simp only at h
    split_ifs at h
    cases h
    have hvne : visited ≠ [] := by
      intro hnil
      rw [hnil] at hfinds
      have hlength := hfinds.length_eq
      rw [relativeOutputOffsetsToAbsolute_eq, length_runningSumsFrom] at hlength
      exact hne (length_eq_zero_iff.mp hlength)
    have hlast := getLast?_eq_some_getLast hvne
    rw [hlast] at hmax
    refine ⟨hmax ▸ le_max_left _ _, visited, hfinds, visited.getLast hvne, hlast, ?_⟩
    rw [hmax]
    exact le_max_right _ _

lemma checkInputs_ringFound {sigIndex : ℕ} {vin : List (TxIn K)}
    {pubkeys : List (List (P × P))} (hscan : view.ScanTableFaithful tx)
    (hvin : vin ⊆ tx.vin) (h : view.checkInputs tx sigIndex vin m = .ok (pubkeys, m')) :
    m ≤ m' ∧ ∀ txin ∈ vin, view.RingFound m' txin := by
  induction vin generalizing sigIndex m pubkeys with
  | nil =>
    cases h
    exact ⟨le_rfl, by simp⟩
  | cons txin vin ih =>
    obtain ⟨hhead, htail⟩ := cons_subset.mp hvin
    cases txin with
    | toKey amount keyOffsets keyImage =>
      rw [checkInputs] at h
      split_ifs at h
      split at h
      · cases h
      · rename_i keys m₁ hinput
        obtain ⟨hm₁, hfound⟩ := checkTxInput_ringFound
          (fun outputs ↦ hscan amount keyOffsets keyImage outputs hhead) hinput
        cases hrest : view.checkInputs tx (sigIndex + 1) vin m₁ with
        | error tvc =>
          rw [hrest] at h
          cases h
        | ok rest =>
          rw [hrest] at h
          cases h
          obtain ⟨hm₂, hothers⟩ := ih htail hrest
          refine ⟨hm₁.trans hm₂, ?_⟩
          rw [forall_mem_cons]
          exact ⟨hfound.mono hm₂, hothers⟩
    | gen height => cases h
    | toScript => cases h
    | toScripthash => cases h

/-! ## Old members and distinct members -/

def RingOld (view : InputView K P) (amount : ℕ) (keyOffsets : List UInt64) : Prop :=
  ∀ offset ∈ relativeOutputOffsetsToAbsolute keyOffsets, ∃ output,
    view.outputs amount offset = some output ∧ output.height + defaultTxSpendableAge ≤ view.height

lemma Finds.exists_output (h : view.Finds amount offsets outputs) (hoffset : offset ∈ offsets) :
    ∃ output, view.outputs amount offset = some output := by
  induction h with
  | nil => cases hoffset
  | cons houtput _ ih =>
    rcases mem_cons.mp hoffset with rfl | hmem
    · exact ⟨_, houtput⟩
    · exact ih hmem

lemma Finds.getLast? (h : view.Finds amount offsets outputs) {output : OutputData P}
    (hoffset : offset ∈ offsets.getLast?) (houtput : output ∈ outputs.getLast?) :
    view.outputs amount offset = some output := by
  obtain ⟨before, rfl⟩ := getLast?_eq_some_iff.mp hoffset
  obtain ⟨found, rfl⟩ := getLast?_eq_some_iff.mp houtput
  have hreverse := rel_reverse h
  rw [reverse_concat, reverse_concat] at hreverse
  exact (forall₂_cons.mp hreverse).1

/-- When no offset after the first is zero, two members coincide only across a
stretch of at least two offsets. -/
theorem nodup_absolute_iff (hzero : ∀ offset ∈ keyOffsets.tail, offset ≠ 0) :
    (relativeOutputOffsetsToAbsolute keyOffsets).Nodup ↔ ∀ i j, i + 1 < j → j < keyOffsets.length →
        ((keyOffsets.take (j + 1)).drop (i + 1)).sum ≠ 0 := by
  rw [relativeOutputOffsetsToAbsolute_eq, nodup_runningSumsFrom_iff]
  constructor
  · exact fun h i j hij hj ↦ h i j (by omega) hj
  · intro h i j hij hj
    rcases Nat.lt_or_eq_of_le (Nat.succ_le_of_lt hij) with hlt | rfl
    · exact h i j hlt hj
    · -- neighbours differ by a single offset
      have htail : keyOffsets[i + 1] ∈ keyOffsets.tail := by
        rw [mem_iff_getElem]
        exact ⟨i, by rw [length_tail]; omega, by rw [getElem_tail]⟩
      rw [drop_take, Nat.add_sub_cancel_left, drop_eq_getElem_cons hj,
        take_succ_cons, take_zero, sum_singleton]
      exact hzero _ htail

/-- In a transaction that passes both checks, every ring member is old enough
and the members of a ring are distinct exactly when every member above the last
one of its ring is old enough and no stretch of two or more relative offsets
after the first sums to zero modulo `2 ^ 64`. -/
theorem ringMembers_old_and_distinct_iff [LinearOrder K] [DecidableEq H] {nullHash validId : H}
    {result : H × ℕ} (hmono : view.HeightsMonotone) (hscan : view.ScanTableFaithful tx)
    (hage : hfVersionEnforceMinAge ≤ view.hfVersion)
    (hsemantic : checkTxSemantic checks tx view.hfVersion = .ok ())
    (hinputs : view.checkTxInputs checks nullHash tx validId = .ok result) :
    (∀ amount keyOffsets keyImage, TxIn.toKey amount keyOffsets keyImage ∈ tx.vin →
        view.RingOld amount keyOffsets ∧ (relativeOutputOffsetsToAbsolute keyOffsets).Nodup) ↔
      ∀ amount keyOffsets keyImage, TxIn.toKey amount keyOffsets keyImage ∈ tx.vin →
        (∀ offset ∈ relativeOutputOffsetsToAbsolute keyOffsets,
          ∀ last ∈ (relativeOutputOffsetsToAbsolute keyOffsets).getLast?, last < offset →
            ∀ output ∈ view.outputs amount offset,
              output.height + defaultTxSpendableAge ≤ view.height) ∧
        ∀ i j, i + 1 < j → j < keyOffsets.length →
          ((keyOffsets.take (j + 1)).drop (i + 1)).sum ≠ 0 := by
  rw [checkTxInputs] at hinputs
  iterate 4
    split at hinputs
    · cases hinputs
  rename_i pubkeys maxHeight hrings
  split at hinputs
  · cases hinputs
  rename_i hyoung
  have hheight : ¬view.height < maxHeight + defaultTxSpendableAge := fun hlt ↦ hyoung ⟨hage, hlt⟩
  have hfound := (checkInputs_ringFound hscan (Subset.refl _) hrings).2
  refine forall₄_congr fun amount keyOffsets keyImage hmem ↦ and_congr ?_ ?_
  · constructor
    · intro hold offset hoffset last _ _ output houtput
      obtain ⟨output', houtput', hle⟩ := hold offset hoffset
      cases houtput.symm.trans houtput'
      exact hle
    · intro hyoung offset hoffset
      obtain ⟨visited, hfinds, lastOutput, hvisited, hmax⟩ := hfound _ hmem
      obtain ⟨output, houtput⟩ := hfinds.exists_output hoffset
      have hlast := getLast?_eq_some_getLast (ne_nil_of_mem hoffset)
      refine ⟨output, houtput, ?_⟩
      -- above the last member the code never looks at the height
      by_cases hlt : getLast _ (ne_nil_of_mem hoffset) < offset
      · exact hyoung offset hoffset _ hlast hlt output houtput
      · have hheights := hmono amount offset _ output lastOutput (UInt64.not_lt.mp hlt) houtput
          (hfinds.getLast? hlast hvisited)
        omega
  · have hdiff : checkTxInputsRingMembersDiff tx view.hfVersion = true := by
      simp only [checkTxSemantic, ite_error_eq_ok] at hsemantic
      obtain ⟨-, -, -, -, -, -, -, hdiff, -⟩ := hsemantic
      simpa using hdiff
    rw [checkTxInputsRingMembersDiff, if_pos (UInt8.le_trans (by decide) hage), all_eq_true]
      at hdiff
    exact nodup_absolute_iff (by simpa using hdiff _ hmem)

/-! A chain of height 51: the first hundred outputs are of block 40, the others
of block 50.  A transaction spends one of them in a ring of 16. -/

def recentView : InputView ℕ Unit where
  hfVersion := 16
  height := 51
  now := 0
  adjustedTime := 0
  outputs := fun _ offset ↦
    if offset < 100 then some ⟨(), (), 0, 40⟩
    else if offset < 200 then some ⟨(), (), 0, 50⟩
    else none
  numOutputs := fun _ ↦ 200
  keyImageSpent := fun _ ↦ false
  scanTable := fun _ _ ↦ none

def acceptingChecks : ProofChecks ℕ Unit ℕ where
  outputKeysValid := fun _ ↦ true
  keyImageInDomain := fun _ ↦ true
  makeInputVerificationId := fun _ _ ↦ 1
  verInputProofsRings := fun _ _ ↦ true

def ringTx (keyOffsets : List UInt64) : Transaction ℕ Unit where
  version := 2
  unlockTime := 0
  vin := [.toKey 0 keyOffsets 0]
  vout := [⟨0, .toTaggedKey⟩, ⟨0, .toTaggedKey⟩]
  signatures := []
  rctType := .bulletproofPlus
  outPk := [(), ()]
  txnFee := 0
  pruned := false

lemma recentView_heightsMonotone : recentView.HeightsMonotone := by
  intro amount offset offset' output output' hle houtput houtput'
  simp only [recentView] at houtput houtput'
  split_ifs at houtput with hold
  · cases houtput
    split_ifs at houtput' <;> cases houtput' <;> decide
  · have hold' : ¬offset' < 100 := fun hlt ↦ hold (UInt64.lt_of_le_of_lt hle hlt)
    cases houtput
    rw [if_neg hold'] at houtput'
    split_ifs at houtput'
    cases houtput'
    decide

lemma recentView_scanTableFaithful (tx : Transaction ℕ Unit) : recentView.ScanTableFaithful tx :=
  fun _ _ _ _ _ h ↦ nomatch h

theorem ringMembers_old_and_distinct_ones : recentView.RingOld 0 (replicate 16 1) ∧
      (relativeOutputOffsetsToAbsolute (replicate 16 1)).Nodup := by
  have hsemantic : checkTxSemantic acceptingChecks (ringTx (replicate 16 1)) 16 = .ok () := by
    decide
  have hinputs : recentView.checkTxInputs acceptingChecks 0 (ringTx (replicate 16 1)) 0 =
      .ok (1, 40) := by
    decide
  refine (ringMembers_old_and_distinct_iff recentView_heightsMonotone
    (recentView_scanTableFaithful _) (by decide) hsemantic hinputs).mpr ?_ 0 _ 0
      (mem_singleton.mpr rfl)
  intro amount keyOffsets keyImage hmem
  cases mem_singleton.mp hmem
  constructor
  · -- the last member is the highest one
    have hhighest : ∀ offset ∈ relativeOutputOffsetsToAbsolute (replicate 16 1), ¬16 < offset := by
      simp [relativeOutputOffsetsToAbsolute, runningSumsFrom, replicate]
    intro offset hoffset last hlast hlt
    cases hlast
    exact absurd hlt (hhighest offset hoffset)
  · have hnodup : (runningSumsFrom 0 (replicate 16 (1 : UInt64))).Nodup := by decide
    exact fun i j hij hj ↦ (nodup_runningSumsFrom_iff 0 _).mp hnodup i j (by omega) hj

/-- Rings whose sums wrap around are accepted with a member of the last block,
and with a member that occurs twice. -/
theorem ringMembers_young_or_repeated_accepted :
    (∃ keyOffsets, checkTxSemantic acceptingChecks (ringTx keyOffsets) 16 = .ok () ∧
      recentView.checkTxInputs acceptingChecks 0 (ringTx keyOffsets) 0 = .ok (1, 40) ∧
        ¬recentView.RingOld 0 keyOffsets) ∧
    ∃ keyOffsets, checkTxSemantic acceptingChecks (ringTx keyOffsets) 16 = .ok () ∧
      recentView.checkTxInputs acceptingChecks 0 (ringTx keyOffsets) 0 = .ok (1, 40) ∧
        ¬(relativeOutputOffsetsToAbsolute keyOffsets).Nodup := by
  refine ⟨⟨100 :: (-99) :: replicate 14 1, by decide, by decide, ?_⟩,
    ⟨5 :: (-2) :: 2 :: replicate 13 1, by decide, by decide, by decide⟩⟩
  intro hold
  obtain ⟨output, houtput, hle⟩ := hold 100 (by decide)
  cases houtput
  revert hle
  decide

end InputView

end Monero.Blockchain
