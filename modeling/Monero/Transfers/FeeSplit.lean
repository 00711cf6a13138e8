import Monero.Outputs.Keys

/-!
# Splitting the fee among the destinations

`TX::get_adjusted_dsts` of the wallet takes the fee of a transaction out of the
destinations that are marked to bear it.  Its loop runs around the list of
these: the first round takes the quotient from each, the second one unit from
as many as the remainder asks for.

`TX` is local to `create_transactions_2`, which first refuses destinations
without an amount and those whose total does not fit into 64 bits.
-/

namespace Monero.Transfers

open List Outputs Function

variable {P : Type*}

inductive AdjustError
  | txNotPossible (available txAmount fee : ℕ)
  | zeroAmount
  | txSumOverflow
  deriving DecidableEq

/-- The loop of `create_transactions_2` over the destinations. -/
def addMoney (neededMoney : ℕ) (d : TxDestinationEntry P) : Except AdjustError ℕ :=
  if d.amount = 0 then .error .zeroAmount
  else
    let neededMoney := (neededMoney + d.amount) % 2 ^ 64
    if neededMoney < d.amount then .error .txSumOverflow else .ok neededMoney

def neededMoney (dsts : List (TxDestinationEntry P)) : Except AdjustError ℕ :=
  dsts.foldlM addMoney 0

/-- The destinations of a transaction under construction, each with its mark. -/
structure Tx (P : Type*) where
  dsts : List (TxDestinationEntry P)
  dstsAreFeeSubtractable : List Bool
  length_eq : dstsAreFeeSubtractable.length = dsts.length

def amountAt (dsts : List (TxDestinationEntry P)) (i : ℕ) : ℕ :=
  dsts[i]?.elim 0 TxDestinationEntry.amount

def subtract (a : ℕ) (d : TxDestinationEntry P) : TxDestinationEntry P :=
  { d with amount := d.amount - a }

namespace Tx

def subtractableIndices (tx : Tx P) : List ℕ :=
  (range tx.dsts.length).filter fun i ↦ tx.dstsAreFeeSubtractable.getD i false

def destTotal (tx : Tx P) : ℕ := (tx.dsts.map TxDestinationEntry.amount).sum % 2 ^ 64

def subtractableDestTotal (tx : Tx P) : ℕ :=
  (tx.subtractableIndices.map (amountAt tx.dsts)).sum % 2 ^ 64

end Tx

/-- The variables of the loop; `si` is the position of `si_it`. -/
structure FeeLoop (P : Type*) where
  res : List (TxDestinationEntry P)
  subtractableRemaining : ℕ
  si : ℕ
  amountToSubtract : ℕ

namespace FeeLoop

def step (indices : List ℕ) (s : FeeLoop P) : Except AdjustError (FeeLoop P) :=
  let amountToSubtract :=
    if s.si = 0 then max (s.subtractableRemaining / indices.length) 1 else s.amountToSubtract
  let i := indices.getD s.si 0
  if amountAt s.res i ≤ amountToSubtract then .error .zeroAmount
  else .ok
    { res := s.res.modify i (subtract amountToSubtract)
      subtractableRemaining := (s.subtractableRemaining + 2 ^ 64 - amountToSubtract) % 2 ^ 64
      si := if s.si + 1 = indices.length then 0 else s.si + 1
      amountToSubtract := amountToSubtract }

/-- The loop for at most `fuel` passes; `none` if it is still running then. -/
def run (indices : List ℕ) :
    ℕ → FeeLoop P → Option (Except AdjustError (List (TxDestinationEntry P)))
  | 0, s => if s.subtractableRemaining = 0 then some (.ok s.res) else none
  | fuel + 1, s =>
    if s.subtractableRemaining = 0 then some (.ok s.res)
    else
      match s.step indices with
      | .error e => some (.error e)
      | .ok s => run indices fuel s

end FeeLoop

def Tx.getAdjustedDsts (fuel : ℕ) (tx : Tx P) (neededFee : ℕ) :
    Option (Except AdjustError (List (TxDestinationEntry P))) :=
  if tx.subtractableIndices = [] then some (.ok tx.dsts)
  else if tx.subtractableDestTotal < neededFee then
    some (.error (.txNotPossible tx.subtractableDestTotal tx.destTotal neededFee))
  else FeeLoop.run tx.subtractableIndices fuel ⟨tx.dsts, neededFee, 0, 0⟩

/-! ## Shares -/

/-- What the fee takes from the fee-bearing destination number `k` of `n`. -/
def feeShare (fee n k : ℕ) : ℕ := fee / n + if k < fee % n then 1 else 0

lemma sum_feeShare_range (fee n m : ℕ) :
    ((range m).map (feeShare fee n)).sum = m * (fee / n) + min m (fee % n) := by
  induction m with
  | zero => simp
  | succ m ih =>
    calc
      ((range (m + 1)).map (feeShare fee n)).sum =
          ((range m).map (feeShare fee n)).sum + feeShare fee n m := by
        rw [range_succ, map_append, sum_append, map_singleton, sum_singleton]
      _ = m * (fee / n) + min m (fee % n) + (fee / n + if m < fee % n then 1 else 0) := by
        rw [ih, feeShare]
      _ = (m + 1) * (fee / n) + min (m + 1) (fee % n) := by
        rw [Nat.succ_mul]
        split_ifs <;> omega

variable (dsts : List (TxDestinationEntry P)) (indices : List ℕ) (fee : ℕ)

/-- In `res` the destinations `indices` have given their shares of the fee. -/
structure SplitsFee (res : List (TxDestinationEntry P)) : Prop where
  others : ∀ i, i ∉ indices → res[i]? = dsts[i]?
  bearing : ∀ k i, indices[k]? = some i →
    res[i]? = dsts[i]?.map (subtract (feeShare fee indices.length k))
  covered : ∀ k i, indices[k]? = some i → feeShare fee indices.length k ≤ amountAt dsts i
  positive : ∀ i ∈ indices, 0 < amountAt res i
  total : (indices.map (amountAt res)).sum + fee = (indices.map (amountAt dsts)).sum

/-- Some fee-bearing destination has no more than its share. -/
def Short : Prop :=
  ∃ k : Fin indices.length, amountAt dsts (indices.get k) ≤ feeShare fee indices.length k

/-! ## The loop -/

/-- The destinations with `taken i` subtracted from the amount of number `i`. -/
def reduceBy (taken : ℕ → ℕ) : List (TxDestinationEntry P) :=
  dsts.mapIdx fun i ↦ subtract (taken i)

/-- What the fee-bearing destinations have given: `base` in the rounds before,
and the first `si` of them `a` in this round. -/
structure Given (base a si : ℕ) (taken : ℕ → ℕ) : Prop where
  others : ∀ i, i ∉ indices → taken i = 0
  given : ∀ k i, indices[k]? = some i → taken i = base + if k < si then a else 0
  below : ∀ i, 0 < taken i → taken i < amountAt dsts i

namespace FeeLoop

/-- The first round takes the quotient of the fee, the second one unit. -/
inductive Round (n : ℕ) (s : FeeLoop P) : ℕ → ℕ → Prop
  | first : 0 < fee / n → s.subtractableRemaining + s.si * (fee / n) = fee → Round n s 0 (fee / n)
  | second : s.subtractableRemaining + s.si = fee % n → Round n s (fee / n) 1

structure Dealing (base a : ℕ) (taken : ℕ → ℕ) (s : FeeLoop P) : Prop where
  round : Round fee indices.length s base a
  given : Given dsts indices base a s.si taken
  res_eq : s.res = reduceBy dsts taken
  si_lt : s.si < indices.length
  kept : s.si ≠ 0 → s.amountToSubtract = a

end FeeLoop

variable {dsts indices fee} {base a : ℕ} {taken : ℕ → ℕ} {s : FeeLoop P}

@[simp]
lemma subtract_zero : subtract 0 = (id : TxDestinationEntry P → TxDestinationEntry P) := rfl

@[simp]
lemma subtract_subtract (a b : ℕ) (d : TxDestinationEntry P) :
    subtract a (subtract b d) = subtract (b + a) d := by
  simp [subtract, Nat.sub_sub]

lemma getElem?_reduceBy (i : ℕ) :
    (reduceBy dsts taken)[i]? = dsts[i]?.map (subtract (taken i)) :=
  getElem?_mapIdx

lemma amountAt_reduceBy (i : ℕ) :
    amountAt (reduceBy dsts taken) i = amountAt dsts i - taken i := by
  rw [amountAt, getElem?_reduceBy, amountAt]
  cases dsts[i]? with
  | none => exact (Nat.zero_sub _).symm
  | some d => rfl

lemma modify_reduceBy (i a : ℕ) :
    (reduceBy dsts taken).modify i (subtract a) =
      reduceBy dsts (update taken i (taken i + a)) := by
  refine ext_getElem? fun j ↦ ?_
  rw [getElem?_modify, getElem?_reduceBy, getElem?_reduceBy]
  by_cases hij : i = j
  · subst hij
    simp [comp_def]
  · simp [hij, update_of_ne (Ne.symm hij)]

lemma Given.update {si i : ℕ} (h : Given dsts indices base a si taken)
    (hnodup : indices.Nodup) (hi : indices[si]? = some i) (hlt : base + a < amountAt dsts i) :
    Given dsts indices base a (si + 1) (update taken i (base + a)) := by
  refine ⟨fun j hj ↦ ?_, fun k j hj ↦ ?_, fun j hj ↦ ?_⟩
  · have hne : j ≠ i := by
      rintro rfl
      exact hj (mem_of_getElem? hi)
    rw [update_of_ne hne, h.others j hj]
  · by_cases hk : k = si
    · rw [hk, hi] at hj
      cases hj
      rw [update_self, hk, if_pos (Nat.lt_succ_self _)]
    · have hne : j ≠ i := by
        rintro rfl
        have hlt := (List.getElem?_eq_some_iff.mp hi).1
        exact hk ((List.getElem?_inj hlt hnodup).mp (hi.trans hj.symm)).symm
      rw [update_of_ne hne, h.given k j hj]
      exact congrArg (base + ·) (if_congr (by omega) rfl rfl)
  · by_cases hji : j = i
    · rw [hji, update_self]
      exact hlt
    · rw [update_of_ne hji] at hj ⊢
      exact h.below j hj

namespace FeeLoop

section

variable (h : Dealing dsts indices fee base a taken s)

include h

lemma Dealing.amount_eq :
    (if s.si = 0 then max (s.subtractableRemaining / indices.length) 1
      else s.amountToSubtract) = a := by
  split_ifs with hsi
  · cases h.round with
    | first hq hrem =>
      rw [hsi, Nat.zero_mul, Nat.add_zero] at hrem
      rw [hrem, max_eq_left hq]
    | second hrem =>
      have hlt := Nat.mod_lt fee (Nat.zero_lt_of_lt h.si_lt)
      rw [Nat.div_eq_of_lt (by omega), max_eq_right (Nat.zero_le 1)]
  · exact h.kept hsi

lemma Dealing.amount_le (hne : s.subtractableRemaining ≠ 0) :
    0 < a ∧ a ≤ s.subtractableRemaining ∧ s.subtractableRemaining ≤ fee ∧
      base + a ≤ feeShare fee indices.length s.si := by
  cases h.round with
  | first hq hrem =>
    have hmul := Nat.mul_le_mul_right (fee / indices.length) h.si_lt
    have hdiv := Nat.mul_div_le fee indices.length
    rw [Nat.succ_mul] at hmul
    exact ⟨hq, by omega, by omega, (Nat.zero_add _).trans_le (Nat.le_add_right _ _)⟩
  | second hrem =>
    have hmod := Nat.mod_le fee indices.length
    rw [feeShare, if_pos (by omega)]
    exact ⟨Nat.one_pos, Nat.one_le_iff_ne_zero.mpr hne, by omega, le_rfl⟩

/-- One pass keeps the invariant, or meets a destination with no more than its share. -/
lemma Dealing.step (hnodup : indices.Nodup) (hfee : fee < 2 ^ 64)
    (hne : s.subtractableRemaining ≠ 0) :
    (s.step indices = .error .zeroAmount ∧ Short dsts indices fee) ∨
    ∃ s', s.step indices = .ok s' ∧ s'.subtractableRemaining < s.subtractableRemaining ∧
      ∃ base a taken, Dealing dsts indices fee base a taken s' := by
  obtain ⟨hpos, hle, hlefee, hshare⟩ := h.amount_le hne
  obtain ⟨i, hget⟩ : ∃ i, indices.get ⟨s.si, h.si_lt⟩ = i := ⟨_, rfl⟩
  have hi : indices[s.si]? = some i := hget ▸ List.getElem?_eq_getElem h.si_lt
  have htaken : taken i = base := by simpa using h.given.given _ i hi
  have hstep : s.step indices = if amountAt dsts i - base ≤ a then .error .zeroAmount
      else .ok ⟨reduceBy dsts (update taken i (base + a)),
        (s.subtractableRemaining + 2 ^ 64 - a) % 2 ^ 64,
        if s.si + 1 = indices.length then 0 else s.si + 1, a⟩ := by
    rw [FeeLoop.step]
    simp only [h.amount_eq, getD_eq_getElem?_getD, hi, Option.getD_some, h.res_eq,
      amountAt_reduceBy, htaken, modify_reduceBy]
  have hsub : (s.subtractableRemaining + 2 ^ 64 - a) % 2 ^ 64 = s.subtractableRemaining - a := by
    omega
  rw [hsub] at hstep
  by_cases hshort : amountAt dsts i - base ≤ a
  · have hle : amountAt dsts i ≤ base + a := by omega
    exact .inl ⟨hstep.trans (if_pos hshort), ⟨s.si, h.si_lt⟩, hget ▸ hle.trans hshare⟩
  refine .inr ⟨_, hstep.trans (if_neg hshort), Nat.sub_lt_of_pos_le hpos hle, ?_⟩
  have hgiven := h.given.update hnodup hi (by omega)
  by_cases hwrap : s.si + 1 = indices.length
  · simp only [if_pos hwrap]
    cases h.round with
    | first hq hrem =>
      -- every fee-bearing destination has given the quotient, the remainder is left
      have hdiv := Nat.div_add_mod fee indices.length
      have hmul : s.si * (fee / indices.length) + fee / indices.length =
          indices.length * (fee / indices.length) :=
        (Nat.succ_mul _ _).symm.trans (congrArg (· * (fee / indices.length)) hwrap)
      refine ⟨_, 1, _, .second (by dsimp only; omega), ⟨hgiven.others, fun k i hk ↦ ?_,
        hgiven.below⟩, rfl, Nat.zero_lt_of_lt h.si_lt, fun h ↦ absurd rfl h⟩
      have hlt := (List.getElem?_eq_some_iff.mp hk).1
      rw [hgiven.given k i hk, if_pos (hwrap ▸ hlt), if_neg (Nat.not_lt_zero k), Nat.add_comm]
    | second hrem =>
      have hmod := Nat.mod_lt fee (Nat.zero_lt_of_lt h.si_lt)
      omega
  · have hlt := h.si_lt
    simp only [if_neg hwrap]
    refine ⟨base, a, _, ?_, hgiven, rfl, by dsimp only; omega, fun _ ↦ rfl⟩
    cases h.round with
    | first hq hrem =>
      refine .first hq ?_
      dsimp only
      rw [Nat.succ_mul]
      omega
    | second hrem => exact .second (by dsimp only; omega)

lemma Dealing.splitsFee (hpositive : ∀ i ∈ indices, 0 < amountAt dsts i)
    (hzero : s.subtractableRemaining = 0) : SplitsFee dsts indices fee s.res := by
  have hn : 0 < indices.length := Nat.zero_lt_of_lt h.si_lt
  have hshare : ∀ k i, indices[k]? = some i → taken i = feeShare fee indices.length k := by
    intro k i hi
    rw [h.given.given k i hi]
    cases h.round with
    | first hq hrem =>
      -- the first round never ends with nothing left
      have hmul := Nat.mul_lt_mul_of_pos_right h.si_lt hq
      have hdiv := Nat.mul_div_le fee indices.length
      omega
    | second hrem =>
      rw [hzero, Nat.zero_add] at hrem
      rw [hrem, feeShare]
  have hle : ∀ i, taken i ≤ amountAt dsts i := fun i ↦ by
    rcases Nat.eq_zero_or_pos (taken i) with hnone | hpos
    · omega
    · exact (h.given.below i hpos).le
  have hsum : (indices.map taken).sum = fee := by
    have hmap : indices.map taken = (range indices.length).map (feeShare fee indices.length) := by
      refine ext_getElem (by simp) fun k hk hk' ↦ ?_
      rw [getElem_map, getElem_map, getElem_range]
      exact hshare k _ (List.getElem?_eq_getElem _)
    rw [hmap, sum_feeShare_range, min_eq_right (Nat.mod_lt _ hn).le, Nat.div_add_mod]
  rw [h.res_eq]
  refine ⟨fun i hi ↦ ?_, fun k i hi ↦ ?_, fun k i hi ↦ ?_, fun i hi ↦ ?_, ?_⟩
  · simp [getElem?_reduceBy, h.given.others i hi]
  · rw [getElem?_reduceBy, hshare k i hi]
  · exact (hshare k i hi).symm.trans_le (hle i)
  · have hpos := hpositive i hi
    have hbelow := h.given.below i
    rw [amountAt_reduceBy]
    omega
  · rw [← hsum, ← sum_map_add]
    refine congrArg sum (map_congr_left fun i _ ↦ ?_)
    rw [amountAt_reduceBy, Nat.sub_add_cancel (hle i)]

omit h in
lemma exists_dealing (dsts : List (TxDestinationEntry P)) (hne : indices ≠ []) (fee : ℕ) :
    ∃ base a taken, Dealing dsts indices fee base a taken ⟨dsts, fee, 0, 0⟩ := by
  have hgiven : ∀ base a, base = 0 → Given dsts indices base a 0 fun _ ↦ 0 := fun base a hbase ↦
    ⟨fun _ _ ↦ rfl, fun _ _ _ ↦ by simp [hbase], fun _ h ↦ absurd h (Nat.lt_irrefl 0)⟩
  have hres : dsts = reduceBy dsts fun _ ↦ 0 := by
    refine ext_getElem? fun i ↦ ?_
    simp [getElem?_reduceBy]
  have hlt := length_pos_iff.mpr hne
  rcases Nat.eq_zero_or_pos (fee / indices.length) with hq | hq
  · have hmod := Nat.div_add_mod fee indices.length
    rw [hq, Nat.mul_zero] at hmod
    exact ⟨_, 1, _, .second (by dsimp only; omega), hgiven _ _ hq, hres, hlt, fun h ↦ absurd rfl h⟩
  · exact ⟨0, _, _, .first hq (by simp), hgiven _ _ rfl, hres, hlt, fun h ↦ absurd rfl h⟩

omit h in
lemma run_succ (hne : s.subtractableRemaining ≠ 0) (fuel : ℕ) :
    run indices (fuel + 1) s = (match s.step indices with
      | .error e => some (.error e)
      | .ok s => run indices fuel s) :=
  if_neg hne

/-- The loop ends within as many passes as the fee has units. -/
lemma Dealing.run (hpositive : ∀ i ∈ indices, 0 < amountAt dsts i) (hnodup : indices.Nodup)
    (hfee : fee < 2 ^ 64) {fuel : ℕ} (hfuel : s.subtractableRemaining ≤ fuel) :
    (∃ res, run indices fuel s = some (.ok res) ∧ SplitsFee dsts indices fee res) ∨
      run indices fuel s = some (.error .zeroAmount) ∧ Short dsts indices fee := by
  induction fuel generalizing s base a taken with
  | zero =>
    have hzero := Nat.le_zero.mp hfuel
    exact .inl ⟨s.res, if_pos hzero, h.splitsFee hpositive hzero⟩
  | succ fuel ih =>
    by_cases hzero : s.subtractableRemaining = 0
    · exact .inl ⟨s.res, if_pos hzero, h.splitsFee hpositive hzero⟩
    rw [run_succ hzero]
    rcases h.step hnodup hfee hzero with ⟨herror, hshort⟩ | ⟨s', hok, hlt, base, a, taken, h'⟩
    · rw [herror]
      exact .inr ⟨rfl, hshort⟩
    · rw [hok]
      exact ih h' (by omega)

end

end FeeLoop

/-! ## The destinations of a transfer -/

lemma foldlM_addMoney {start total : ℕ} (hstart : start < 2 ^ 64)
    (h : dsts.foldlM addMoney start = .ok total) :
    start + (dsts.map TxDestinationEntry.amount).sum < 2 ^ 64 ∧ ∀ d ∈ dsts, 0 < d.amount := by
  induction dsts generalizing start with
  | nil => exact ⟨hstart, by simp⟩
  | cons d dsts ih =>
    rw [foldlM_cons, addMoney] at h
    dsimp only at h
    split_ifs at h with hzero hover
    · cases h
    · cases h
    · -- a sum that wraps around is below the amount that was added
      have hsum : (start + d.amount) % 2 ^ 64 = start + d.amount := by omega
      obtain ⟨hlt, hpos⟩ := ih (Nat.mod_lt _ (by decide)) h
      rw [hsum] at hlt
      rw [map_cons, sum_cons, ← Nat.add_assoc]
      exact ⟨hlt, forall_mem_cons.mpr ⟨Nat.pos_of_ne_zero hzero, hpos⟩⟩

lemma sum_amountAt_le (tx : Tx P) : (tx.subtractableIndices.map (amountAt tx.dsts)).sum ≤
    (tx.dsts.map TxDestinationEntry.amount).sum := by
  have hall : (range tx.dsts.length).map (amountAt tx.dsts) =
      tx.dsts.map TxDestinationEntry.amount := by
    refine ext_getElem (by simp) fun i hi hi' ↦ ?_
    rw [length_map] at hi'
    simp [amountAt, hi']
  rw [← hall]
  exact (filter_sublist.map _).sum_le_sum fun _ _ ↦ Nat.zero_le _

lemma amountAt_pos {tx : Tx P} (h : ∀ d ∈ tx.dsts, 0 < d.amount) :
    ∀ i ∈ tx.subtractableIndices, 0 < amountAt tx.dsts i := by
  intro i hi
  have hlt := mem_range.mp (mem_of_mem_filter hi)
  rw [amountAt, List.getElem?_eq_getElem hlt]
  exact h _ (getElem_mem hlt)

/-- With destinations that `create_transactions_2` lets through and at least one that bears the
fee, `get_adjusted_dsts` terminates.  If it returns, each of them has given its share of the fee,
and it throws only if one of them has no more than its share or their total is below the fee. -/
theorem getAdjustedDsts_splits (tx : Tx P) {money : ℕ} (hmoney : neededMoney tx.dsts = .ok money)
    (hmarked : tx.subtractableIndices ≠ []) {fee : ℕ} (hfee : fee < 2 ^ 64) {fuel : ℕ}
    (hfuel : fee ≤ fuel) :
    (∃ res, tx.getAdjustedDsts fuel fee = some (.ok res) ∧
      SplitsFee tx.dsts tx.subtractableIndices fee res) ∨
    ∃ e, tx.getAdjustedDsts fuel fee = some (.error e) ∧
      ((tx.subtractableIndices.map (amountAt tx.dsts)).sum < fee ∨
        Short tx.dsts tx.subtractableIndices fee) := by
  obtain ⟨hlt, hpos⟩ := foldlM_addMoney (by decide) hmoney
  rw [Nat.zero_add] at hlt
  have hsum : tx.subtractableDestTotal = (tx.subtractableIndices.map (amountAt tx.dsts)).sum :=
    Nat.mod_eq_of_lt ((sum_amountAt_le tx).trans_lt hlt)
  rw [Tx.getAdjustedDsts, if_neg hmarked]
  by_cases htotal : tx.subtractableDestTotal < fee
  · exact .inr ⟨_, if_pos htotal, .inl (hsum ▸ htotal)⟩
  rw [if_neg htotal]
  obtain ⟨base, a, taken, h⟩ := FeeLoop.exists_dealing tx.dsts hmarked fee
  rcases h.run (amountAt_pos hpos) (nodup_range.filter _) hfee hfuel with hok | ⟨herror, hshort⟩
  · exact .inl hok
  · exact .inr ⟨_, herror, .inr hshort⟩

def payTo (amount : ℕ) : TxDestinationEntry ℕ := ⟨amount, ⟨0, 0⟩, false⟩

def threePayments : Tx ℕ := ⟨[payTo 10, payTo 7, payTo 4], [true, false, true], rfl⟩

theorem getAdjustedDsts_splits_three :
    ∃ res, threePayments.getAdjustedDsts 5 5 = some (.ok res) ∧
      SplitsFee threePayments.dsts [0, 2] 5 res := by
  have hmoney : neededMoney threePayments.dsts = .ok 21 := rfl
  rcases getAdjustedDsts_splits threePayments hmoney (by decide) (show 5 < 2 ^ 64 by decide)
    le_rfl with hok | ⟨e, -, hthrows⟩
  · exact hok
  · refine absurd hthrows ?_
    simp only [Short]
    decide

end Monero.Transfers
