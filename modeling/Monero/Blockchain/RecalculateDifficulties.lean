import Monero.Blockchain.DifficultyCache

/-!
# Recalculating difficulties

`recalculate_difficulties` goes through the chain with a window of its own, compares
each cumulative difficulty with the stored one and overwrites the stored ones from the
first that differs.
-/

namespace Monero.Blockchain

open HardFork Monero.Lib List Option

variable {β H : Type}

/-! ## The function -/

structure Recalculation where
  timestamps : List ℕ
  difficulties : List ℕ
  lastCumDiff : ℕ
  driftStartHeight : ℕ
  newCumulativeDifficulties : List ℕ
  deriving DecidableEq

/-- Goes down from a height and inserts each value at the front; the genesis block
is left out. -/
def windowBelow (f : Row β → ℕ) (chain : List (Row β)) : ℕ → ℕ → List ℕ
  | 0, _ => []
  | count + 1, height =>
    if height = 0 then []
    else windowBelow f chain count (height - 1) ++ [readAt f chain height]

namespace Recalculation

def start (chain : List (Row β)) (startHeight : ℕ) : Recalculation :=
  let timestamps :=
    if 1 < startHeight then
      windowBelow Row.timestamp chain difficultyBlocksCount (startHeight - 1)
    else []
  let difficulties :=
    if 1 < startHeight then
      windowBelow Row.cumulativeDifficulty chain difficultyBlocksCount (startHeight - 1)
    else []
  ⟨timestamps, difficulties,
    if startHeight ≤ 1 then startHeight else difficulties.getLastD 0, 0, []⟩

/-- The genesis block is not pushed. -/
def pushBack (height : ℕ) (window : List ℕ) (x : ℕ) : List ℕ :=
  if 0 < height then window ++ [x] else window

def eraseBegin (long : Prop) [Decidable long] (window : List ℕ) : List ℕ :=
  if long then window.tail else window

def step (getIdealHardForkVersion : ℕ → UInt8) (chain : List (Row β)) (r : Recalculation)
    (height : ℕ) : Except String Recalculation := do
  let target := targetOfVersion (getIdealHardForkVersion height)
  let recalculatedDiff := nextDifficulty r.timestamps r.difficulties target
  let recalculatedCumDiff := recalculatedDiff + r.lastCumDiff
  check (recalculatedCumDiff < 2 ^ 128) "Difficulty overflow!"
  let driftStartHeight :=
    if r.driftStartHeight = 0 ∧
        recalculatedCumDiff ≠ getBlockCumulativeDifficulty chain height then height
    else r.driftStartHeight
  let newCumulativeDifficulties :=
    if 0 < driftStartHeight then r.newCumulativeDifficulties ++ [recalculatedCumDiff]
    else r.newCumulativeDifficulties
  let timestamps := pushBack height r.timestamps (getBlockTimestamp chain height)
  let difficulties := pushBack height r.difficulties recalculatedCumDiff
  check (timestamps.length ≤ difficultyBlocksCount + 1)
    ("Wrong timestamps size: " ++ toString timestamps.length)
  .ok ⟨eraseBegin (difficultyBlocksCount < timestamps.length) timestamps,
    eraseBegin (difficultyBlocksCount < timestamps.length) difficulties,
    recalculatedCumDiff, driftStartHeight, newCumulativeDifficulties⟩

end Recalculation

def correctBlockCumulativeDifficulties (chain : List (Row β)) (startHeight : ℕ)
    (newCumulativeDifficulties : List ℕ) : Except String (List (Row β)) := do
  check (startHeight + newCumulativeDifficulties.length = chain.length)
    "Incorrect new_cumulative_difficulties size"
  .ok (chain.mapIdx fun height row ↦
    if startHeight ≤ height then
      { row with cumulativeDifficulty := newCumulativeDifficulties.getD (height - startHeight) 0 }
    else row)

/-- The points are in the order of their heights. -/
def checkDifficultyCheckpoints (chain : List (Row β)) : List (ℕ × ℕ) → ℕ → Bool × ℕ
  | [], res => (true, res)
  | point :: points, res =>
    if chain.length ≤ point.1 then (true, res)
    else if getBlockCumulativeDifficulty chain point.1 ≠ point.2 then (false, res)
    else checkDifficultyCheckpoints chain points point.1

/-- Without a height the function starts at the last checkpoint that agrees.  An
exception of the database is caught. -/
def CacheState.recalculateDifficulties (fixedDifficulty : ℕ) (hf : HardFork) (nullHash : H)
    (difficultyPoints : List (ℕ × ℕ)) (s : CacheState β H) (startHeightOpt : Option ℕ) :
    Except String (CacheState β H × ℕ) :=
  if fixedDifficulty ≠ 0 then .ok (s, 0)
  else do
    let startHeight :=
      startHeightOpt.getD (checkDifficultyCheckpoints s.chain difficultyPoints 0).2
    let r ← (range' startHeight (s.chain.length - startHeight)).foldlM
      (Recalculation.step hf.getIdealVersion s.chain) (Recalculation.start s.chain startHeight)
    if 0 < r.driftStartHeight then
      let chain :=
        match correctBlockCumulativeDifficulties s.chain r.driftStartHeight
          r.newCumulativeDifficulties with
        | .ok chain => chain
        | .error _ => s.chain
      .ok ({ s with
        chain := chain
        difficultyForNextBlockTopHash := nullHash
        timestampsAndDifficultiesHeight := 0 }, r.newCumulativeDifficulties.length)
    else .ok (s, r.newCumulativeDifficulties.length)

/-! ## The window -/

open Recalculation (eraseBegin pushBack)

lemma slide_rtake {n : ℕ} (hn : 1 ≤ n) (l : List ℕ) (x : ℕ) :
    (if n < (l.rtake n ++ [x]).length then (l.rtake n ++ [x]).tail else l.rtake n ++ [x]) =
      (l ++ [x]).rtake n := by
  rw [length_append, length_rtake, length_singleton]
  split_ifs with hfull
  · have hne : l.rtake n ≠ [] := by
      intro hnil
      have hzero := congrArg length hnil
      rw [length_rtake, length_nil] at hzero
      omega
    rw [rtake_concat hn, tail_append_of_ne_nil hne, ← drop_one, rtake, rtake]
    congr 2
    rw [length_drop]
    omega
  · rw [rtake_eq_self (by omega), rtake_eq_self]
    rw [length_append, length_singleton]
    omega

variable {C : List (Row β)} {h : ℕ}

lemma tail_take_succ (hpos : 0 < h) (hlt : h < C.length) :
    (C.take (h + 1)).tail = (C.take h).tail ++ [C[h]] := by
  rw [take_succ_eq_append_getElem hlt, tail_append_of_ne_nil]
  exact ne_nil_of_length_pos (by rw [length_take]; omega)

lemma tail_take_one (C : List (Row β)) : (C.take 1).tail = [] := by
  cases C <;> rfl

variable (f : Row β → ℕ)

lemma readAt_eq_getElem (hlt : h < C.length) :
    readAt f C h = f C[h] := readAt_eq (getElem?_eq_getElem hlt)

lemma difficultyColumn_take_succ (hlt : h < C.length) : difficultyColumn f (C.take (h + 1)) =
      if 0 < h then
        ((C.take h).tail.map f ++ [readAt f C h]).rtake difficultyBlocksCount
      else [] := by
  rw [difficultyColumn_eq_rtake]
  split_ifs with hpos
  · rw [tail_take_succ hpos hlt, map_append, map_singleton, readAt_eq_getElem f hlt]
  · obtain rfl : h = 0 := by omega
    rw [Nat.zero_add, tail_take_one, map_nil]
    rfl

lemma length_difficultyColumn_le (C : List (Row β)) :
    (difficultyColumn f C).length ≤ difficultyBlocksCount := by
  rw [difficultyColumn_eq_rtake, length_rtake]
  exact min_le_left _ _

lemma length_difficultyColumn (f g : Row β → ℕ) (C : List (Row β)) :
    (difficultyColumn f C).length = (difficultyColumn g C).length := by
  rw [difficultyColumn_eq_rtake, difficultyColumn_eq_rtake, length_rtake, length_rtake,
    length_map, length_map]

lemma length_pushBack_le (C : List (Row β)) (h x : ℕ) :
    (pushBack h (difficultyColumn f C) x).length ≤ difficultyBlocksCount + 1 := by
  have hle := length_difficultyColumn_le f C
  rw [pushBack]
  split_ifs
  · rw [length_append, length_singleton]
    omega
  · omega

lemma eraseBegin_pushBack (hlt : h < C.length) (x : ℕ) :
    eraseBegin (difficultyBlocksCount <
        (pushBack h (difficultyColumn Row.timestamp (C.take h)) x).length)
      (pushBack h (difficultyColumn f (C.take h)) (readAt f C h)) =
        difficultyColumn f (C.take (h + 1)) := by
  rw [difficultyColumn_take_succ f hlt, eraseBegin, pushBack,
    pushBack]
  by_cases hpos : 0 < h
  · have hlength : (difficultyColumn Row.timestamp (C.take h) ++ [x]).length =
        (difficultyColumn f (C.take h) ++ [readAt f C h]).length := by
      rw [length_append, length_append, length_difficultyColumn Row.timestamp f]
      rfl
    rw [if_pos hpos, if_pos hpos, if_pos hpos, hlength, difficultyColumn_eq_rtake]
    exact slide_rtake (by decide) _ _
  · obtain rfl : h = 0 := by omega
    rfl

lemma windowBelow_eq {count : ℕ} (hlt : h < C.length) :
    windowBelow f C count h = ((C.take (h + 1)).tail.map f).rtake count := by
  induction count generalizing h with
  | zero =>
    rw [windowBelow, rtake, Nat.sub_zero, drop_length]
  | succ count ih =>
    rw [windowBelow]
    split_ifs with hzero
    · subst hzero
      rw [Nat.zero_add, tail_take_one, map_nil, rtake_nil]
    · rw [ih (by omega), Nat.sub_add_cancel (by omega), tail_take_succ (by omega) hlt,
        map_append, map_singleton, rtake_append_of_ge (by simp), readAt_eq_getElem f hlt,
        length_singleton, Nat.add_sub_cancel]

/-! ## On a chain that drifted -/

/-- Each cumulative difficulty is the one before it plus the difficulty that
`get_difficulty_for_next_block` gives at that point. -/
def FollowsDifficulty (hf₀ : HardFork) (C : List (Row β)) : Prop :=
  ∀ h < C.length, ∃ s, addBlocks (hf₀.init Db.empty, Db.empty) ((C.take h).map Row.versions) =
    some s ∧
    getBlockCumulativeDifficulty C h = uncachedDifficulty (getDifficultyTarget s.1) (C.take h) +
      (if h = 0 then 0 else getBlockCumulativeDifficulty C (h - 1)) ∧
    getBlockCumulativeDifficulty C h < 2 ^ 128

variable (C chain : List (Row β))

/-- The rows are those of `C` but for the cumulative difficulties from a height on. -/
structure Drifted (startHeight : ℕ) : Prop where
  others : chain.map (fun row ↦ { row with cumulativeDifficulty := 0 }) =
    C.map fun row ↦ { row with cumulativeDifficulty := 0 }
  below : ∀ h < startHeight, getBlockCumulativeDifficulty chain h =
    getBlockCumulativeDifficulty C h

/-- The first height below `h` at which the chains differ, or zero. -/
def firstDrift (h : ℕ) : ℕ := ((range h).find? fun i ↦
    getBlockCumulativeDifficulty C i ≠ getBlockCumulativeDifficulty chain i).getD 0

def Recalculation.expected (h : ℕ) : Recalculation where
  timestamps := difficultyColumn Row.timestamp (C.take h)
  difficulties := difficultyColumn Row.cumulativeDifficulty (C.take h)
  lastCumDiff := if h = 0 then 0 else getBlockCumulativeDifficulty C (h - 1)
  driftStartHeight := firstDrift C chain h
  newCumulativeDifficulties :=
    if firstDrift C chain h = 0 then []
    else ((C.take h).map Row.cumulativeDifficulty).drop (firstDrift C chain h)

abbrev AgreeAt (h : ℕ) : Prop :=
  getBlockCumulativeDifficulty C h = getBlockCumulativeDifficulty chain h

section

variable {C chain : List (Row β)} {startHeight : ℕ}

lemma Drifted.length_eq (h : Drifted C chain startHeight) : chain.length = C.length := by
  have hlength := congrArg length h.others
  rwa [length_map, length_map] at hlength

lemma Drifted.timestamp_eq (h : Drifted C chain startHeight) (height : ℕ) :
    getBlockTimestamp chain height = getBlockTimestamp C height := by
  have hrows := congrArg (fun l ↦ (l[height]?.map Row.timestamp).getD 0) h.others
  simpa [getBlockTimestamp, readAt, Function.comp_def] using hrows

lemma firstDrift_succ (hzero : AgreeAt C chain 0) (h : ℕ) :
    firstDrift C chain (h + 1) =
      if firstDrift C chain h = 0 ∧
          getBlockCumulativeDifficulty C h ≠ getBlockCumulativeDifficulty chain h then h
      else firstDrift C chain h := by
  rw [firstDrift, range_succ, find?_append]
  cases hfind : (range h).find? fun i ↦
      getBlockCumulativeDifficulty C i ≠ getBlockCumulativeDifficulty chain i with
  | some d =>
    have hd : firstDrift C chain h = d := by rw [firstDrift, hfind, getD_some]
    have hne : d ≠ 0 := by
      rintro rfl
      have hbad := find?_some hfind
      exact of_decide_eq_true hbad hzero
    rw [some_or, getD_some, hd, if_neg fun hbad ↦ hne hbad.1]
  | none =>
    have hd : firstDrift C chain h = 0 := by rw [firstDrift, hfind, getD_none]
    rw [none_or, hd]
    by_cases hdrift : ¬AgreeAt C chain h
    · rw [if_pos ⟨rfl, hdrift⟩, find?_cons_of_pos (by simpa using hdrift), getD_some]
    · rw [if_neg fun hbad ↦ hdrift hbad.2, find?_cons_of_neg (by simpa using hdrift)]
      rfl

lemma firstDrift_le (C chain : List (Row β)) (h : ℕ) : firstDrift C chain h ≤ h := by
  rw [firstDrift]
  cases hfind : (range h).find? fun i ↦
      getBlockCumulativeDifficulty C i ≠ getBlockCumulativeDifficulty chain i with
  | none => exact Nat.zero_le _
  | some d => exact (mem_range.mp (mem_of_find?_eq_some hfind)).le

variable {f : Row β → ℕ}

lemma new_expected (hlt : h < C.length) (hzero : AgreeAt C chain 0) :
    (if 0 < firstDrift C chain (h + 1) then
        (Recalculation.expected C chain h).newCumulativeDifficulties ++
          [getBlockCumulativeDifficulty C h]
      else (Recalculation.expected C chain h).newCumulativeDifficulties) =
      (Recalculation.expected C chain (h + 1)).newCumulativeDifficulties := by
  have hlast : (C.take (h + 1)).map Row.cumulativeDifficulty =
      (C.take h).map Row.cumulativeDifficulty ++ [getBlockCumulativeDifficulty C h] := by
    rw [take_succ_eq_append_getElem hlt, map_append, map_singleton,
      getBlockCumulativeDifficulty, readAt_eq_getElem _ hlt]
  have hlength : ((C.take h).map Row.cumulativeDifficulty).length = h := by
    rw [length_map, length_take, min_eq_left hlt.le]
  have hsucc := firstDrift_succ hzero h
  simp only [Recalculation.expected]
  by_cases hold : firstDrift C chain h = 0
  · by_cases hchange : ¬AgreeAt C chain h
    · rw [if_pos ⟨hold, hchange⟩] at hsucc
      have hne : h ≠ 0 := by
        rintro rfl
        exact hchange hzero
      rw [hsucc, hold, if_pos (Nat.pos_of_ne_zero hne), if_pos rfl, if_neg hne, hlast,
        drop_append_of_le_length hlength.ge, drop_eq_nil_of_le hlength.le]
    · rw [if_neg fun hbad ↦ hchange hbad.2] at hsucc
      rw [hsucc, hold, if_neg (lt_irrefl 0), if_pos rfl, if_pos rfl]
  · rw [if_neg fun hbad ↦ hold hbad.1] at hsucc
    rw [hsucc, if_pos (Nat.pos_of_ne_zero hold), if_neg hold, if_neg hold, hlast,
      drop_append_of_le_length (by rw [hlength]; exact firstDrift_le C chain h)]

lemma firstDrift_eq_zero (hsame : ∀ i < h, AgreeAt C chain i) : firstDrift C chain h = 0 := by
  have hnone : ((range h).find? fun i ↦ decide
      (getBlockCumulativeDifficulty C i ≠ getBlockCumulativeDifficulty chain i)) = none :=
    find?_eq_none.mpr fun i hi ↦ by simpa using hsame i (mem_range.mp hi)
  rw [firstDrift, hnone, getD_none]

lemma windowBelow_congr {count : ℕ} (hsame : ∀ i ≤ h, readAt f chain i = readAt f C i) :
    windowBelow f chain count h = windowBelow f C count h := by
  induction count generalizing h with
  | zero => rfl
  | succ count ih =>
    rw [windowBelow, windowBelow, hsame h le_rfl, ih fun i hi ↦ hsame i (by omega)]

lemma start_window (hlt : startHeight < C.length)
    (hsame : ∀ i < startHeight, readAt f chain i = readAt f C i) :
    (if 1 < startHeight then windowBelow f chain difficultyBlocksCount (startHeight - 1) else []) =
      difficultyColumn f (C.take startHeight) := by
  split_ifs with hone
  · rw [windowBelow_congr fun i hi ↦ hsame i (by omega), windowBelow_eq f (by omega),
      Nat.sub_add_cancel (by omega), difficultyColumn_eq_rtake]
  · rw [difficultyColumn_eq_rtake]
    have hnil : (C.take startHeight).tail = [] := by
      rcases Nat.le_one_iff_eq_zero_or_eq_one.mp (not_lt.mp hone) with rfl | rfl
      · rfl
      · exact tail_take_one C
    rw [hnil, map_nil, rtake_nil]

lemma getLastD_windowBelow (f : Row β → ℕ) (chain : List (Row β)) (hne : h ≠ 0) :
    (windowBelow f chain difficultyBlocksCount h).getLastD 0 = readAt f chain h := by
  have hcount : difficultyBlocksCount = 734 + 1 := rfl
  rw [hcount, windowBelow, if_neg hne, getLastD_concat]

lemma firstDrift_eq_of_isLeast {first : ℕ} (hfirst : IsLeast {h | h < C.length ∧
      getBlockCumulativeDifficulty chain h ≠ getBlockCumulativeDifficulty C h} first) :
    firstDrift C chain C.length = first := by
  have hfind : ((range C.length).find? fun i ↦ decide
      (getBlockCumulativeDifficulty C i ≠ getBlockCumulativeDifficulty chain i)) = some first := by
    refine find?_range_eq_some.mpr ⟨?_, mem_range.mpr hfirst.1.1, fun j hj ↦ ?_⟩
    · exact decide_eq_true hfirst.1.2.symm
    · by_contra hbad
      have hne : ¬AgreeAt C chain j := by simpa using hbad
      exact absurd (hfirst.2 ⟨hj.trans hfirst.1.1, Ne.symm hne⟩) (not_le.mpr hj)
  rw [firstDrift, hfind, getD_some]

lemma Drifted.row_eq (h : Drifted C chain startHeight) {i : ℕ} (hi : i < C.length)
    (hi' : i < chain.length) (x : ℕ) :
    { chain[i] with cumulativeDifficulty := x } = { C[i] with cumulativeDifficulty := x } := by
  have hrows := congrArg (fun l ↦ l[i]?) h.others
  simp only [getElem?_map, getElem?_eq_getElem hi, getElem?_eq_getElem hi',
    map_some, some_inj] at hrows
  exact congrArg (fun row : Row β ↦ { row with cumulativeDifficulty := x }) hrows

lemma Drifted.correct (h : Drifted C chain startHeight) {d : ℕ} (hd : d ≤ C.length)
    (hbelow : ∀ i < d, AgreeAt C chain i) :
    correctBlockCumulativeDifficulties chain d ((C.map Row.cumulativeDifficulty).drop d) =
      .ok C := by
  have hlength := h.length_eq
  have hsize : d + ((C.map Row.cumulativeDifficulty).drop d).length = chain.length := by
    rw [length_drop, length_map, hlength]
    omega
  rw [correctBlockCumulativeDifficulties, check_bind hsize]
  refine congrArg Except.ok (ext_getElem (by rw [length_mapIdx, hlength]) fun i hi hi' ↦ ?_)
  rw [length_mapIdx] at hi
  rw [getElem_mapIdx]
  split_ifs with hle
  · have hvalue : ((C.map Row.cumulativeDifficulty).drop d).getD (i - d) 0 =
        C[i].cumulativeDifficulty := by
      rw [getD_eq_getElem?_getD, getElem?_drop, Nat.add_sub_cancel' hle, getElem?_map,
        getElem?_eq_getElem hi']
      rfl
    rw [hvalue, h.row_eq hi' hi]
  · have hsame := hbelow i (by omega)
    rw [AgreeAt, getBlockCumulativeDifficulty, readAt_eq_getElem _ hi',
      readAt_eq_getElem _ hi] at hsame
    have hrow := h.row_eq hi' hi C[i].cumulativeDifficulty
    conv at hrow =>
      lhs
      rw [hsame]
    exact hrow

end

section

variable {w : ℕ} {version : UInt8} {hf₀ : HardFork} (hbuilt : Built w version hf₀) (hw : 1 ≤ w)
  (hthreshold : ∀ f ∈ hf₀.heights, f.threshold = 0)
  (hfirst : ∀ f ∈ hf₀.heights.head?, f.version = version)
  {C chain : List (Row β)} {startHeight : ℕ} (hC : FollowsDifficulty hf₀ C)

include hbuilt hw hthreshold hfirst hC

lemma step_expected (hdrift : Drifted C chain startHeight) (hlt : h < C.length)
    (hzero : AgreeAt C chain 0) :
    Recalculation.step hf₀.withPlaceholder.getIdealVersion chain
      (Recalculation.expected C chain h) h = .ok (Recalculation.expected C chain (h + 1)) := by
  obtain ⟨s, hrun, hrule, hbound⟩ := hC h hlt
  have hcum : nextDifficulty (Recalculation.expected C chain h).timestamps
      (Recalculation.expected C chain h).difficulties
      (targetOfVersion (hf₀.withPlaceholder.getIdealVersion h)) +
        (Recalculation.expected C chain h).lastCumDiff = getBlockCumulativeDifficulty C h := by
    have hversion := hbuilt.currentVersion_eq hw hthreshold hfirst hrun
    rw [length_map, length_take, min_eq_left hlt.le] at hversion
    rw [hrule, uncachedDifficulty, getDifficultyTarget, hversion]
    rfl
  have hdrifted : (if (Recalculation.expected C chain h).driftStartHeight = 0 ∧
      getBlockCumulativeDifficulty C h ≠ getBlockCumulativeDifficulty chain h then h
      else (Recalculation.expected C chain h).driftStartHeight) = firstDrift C chain (h + 1) :=
    (firstDrift_succ hzero h).symm
  have hlength : (pushBack h (Recalculation.expected C chain h).timestamps
      (getBlockTimestamp C h)).length ≤ difficultyBlocksCount + 1 :=
    length_pushBack_le Row.timestamp (C.take h) h _
  rw [Recalculation.step, hcum, check_bind hbound]
  dsimp only
  rw [hdrift.timestamp_eq, check_bind hlength, hdrifted]
  refine congrArg Except.ok ?_
  rw [Recalculation.mk.injEq]
  exact ⟨eraseBegin_pushBack Row.timestamp hlt _,
    eraseBegin_pushBack Row.cumulativeDifficulty hlt _, rfl, rfl, new_expected hlt hzero⟩

lemma foldlM_expected (hdrift : Drifted C chain startHeight) (hzero : AgreeAt C chain 0) {n : ℕ}
    (hle : h + n ≤ C.length) :
    (range' h n).foldlM (Recalculation.step hf₀.withPlaceholder.getIdealVersion chain)
      (Recalculation.expected C chain h) = .ok (Recalculation.expected C chain (h + n)) := by
  induction n generalizing h with
  | zero => rfl
  | succ n ih =>
    rw [range'_succ, foldlM_cons,
      step_expected hbuilt hw hthreshold hfirst hC hdrift (by omega) hzero, ok_bind,
      ih (by omega), Nat.add_assoc, Nat.add_comm 1]

omit hbuilt hw hthreshold hfirst in
lemma cumulativeDifficulty_zero (hlt : 0 < C.length) : getBlockCumulativeDifficulty C 0 = 1 := by
  obtain ⟨s, -, hrule, -⟩ := hC 0 hlt
  exact hrule

omit hbuilt hw hthreshold hfirst in
lemma start_expected (hdrift : Drifted C chain startHeight) (hlt : startHeight < C.length) :
    Recalculation.start chain startHeight = Recalculation.expected C chain startHeight := by
  have hdrifted := firstDrift_eq_zero fun i hi ↦ (hdrift.below i hi).symm
  have hdifficulties := start_window hlt hdrift.below
  rw [Recalculation.start, Recalculation.expected, Recalculation.mk.injEq]
  refine ⟨start_window hlt fun i _ ↦ hdrift.timestamp_eq i, hdifficulties, ?_, hdrifted.symm, ?_⟩
  · by_cases hone : startHeight ≤ 1
    · rw [if_pos hone]
      rcases Nat.le_one_iff_eq_zero_or_eq_one.mp hone with rfl | rfl
      · rfl
      · exact (cumulativeDifficulty_zero hC (by omega)).symm
    · rw [if_neg hone, if_pos (by omega), if_neg (by omega), getLastD_windowBelow _ _ (by omega)]
      exact hdrift.below _ (by omega)
  · rw [hdrifted, if_pos rfl]

lemma loop_expected {t : HardFork × Db}
    (hrun : addBlocks (hf₀.init Db.empty, Db.empty) (C.map Row.versions) = some t)
    (hdrift : Drifted C chain startHeight) (hstart : startHeight < C.length)
    (hzero : AgreeAt C chain 0) :
    (range' startHeight (chain.length - startHeight)).foldlM
        (Recalculation.step t.1.getIdealVersion chain) (Recalculation.start chain startHeight) =
      .ok (Recalculation.expected C chain C.length) := by
  have hideal : t.1.getIdealVersion = hf₀.withPlaceholder.getIdealVersion :=
    funext (hbuilt.idealVersion_eq hw hrun)
  rw [hideal, start_expected hC hdrift hstart, hdrift.length_eq,
    foldlM_expected hbuilt hw hthreshold hfirst hC hdrift hzero (by omega),
    Nat.add_sub_cancel' hstart.le]

/-- On a chain with the right difficulties nothing is done.  Where they have drifted from
some height on, they are all put right, and the number of corrected blocks is returned. -/
theorem recalculate_restores {t : HardFork × Db}
    (hrun : addBlocks (hf₀.init Db.empty, Db.empty) (C.map Row.versions) = some t) (nullHash : H)
    (difficultyPoints : List (ℕ × ℕ)) {s : CacheState β H} (hstart : startHeight < C.length) :
    (s.chain = C →
      s.recalculateDifficulties 0 t.1 nullHash difficultyPoints (some startHeight) = .ok (s, 0)) ∧
    (1 ≤ startHeight → Drifted C s.chain startHeight → ∀ first,
      IsLeast {h | h < C.length ∧
        getBlockCumulativeDifficulty s.chain h ≠ getBlockCumulativeDifficulty C h} first →
      ∃ s', s.recalculateDifficulties 0 t.1 nullHash difficultyPoints (some startHeight) =
        .ok (s', C.length - first) ∧ s'.chain = C) := by
  constructor
  · intro hchain
    have hdrift : Drifted C s.chain startHeight := by
      rw [hchain]
      exact ⟨rfl, fun _ _ ↦ rfl⟩
    have hnone : firstDrift C s.chain C.length = 0 := firstDrift_eq_zero fun i _ ↦ by rw [hchain]
    rw [CacheState.recalculateDifficulties, if_neg (not_not.mpr rfl)]
    simp only [getD_some]
    rw [loop_expected hbuilt hw hthreshold hfirst hC hrun hdrift hstart (by rw [hchain]), ok_bind]
    simp [Recalculation.expected, hnone]
  · intro hone hdrift first hleast
    have hzero : AgreeAt C s.chain 0 := (hdrift.below 0 (by omega)).symm
    have hpos : 0 < first := by
      rcases Nat.eq_zero_or_pos first with rfl | hpos
      · exact absurd hzero.symm hleast.1.2
      · exact hpos
    have hbelow : ∀ i < first, AgreeAt C s.chain i := by
      intro i hi
      by_contra hne
      exact absurd (hleast.2 ⟨hi.trans hleast.1.1, Ne.symm hne⟩) (not_le.mpr hi)
    have hlength : ((C.map Row.cumulativeDifficulty).drop first).length = C.length - first := by
      rw [length_drop, length_map]
    rw [CacheState.recalculateDifficulties, if_neg (not_not.mpr rfl)]
    simp only [getD_some]
    rw [loop_expected hbuilt hw hthreshold hfirst hC hrun hdrift hstart hzero, ok_bind]
    simp only [Recalculation.expected, firstDrift_eq_of_isLeast hleast, if_pos hpos,
      if_neg hpos.ne', take_length, hdrift.correct hleast.1.1.le hbelow, hlength]
    exact ⟨_, rfl, rfl⟩

end

def ruleChain (version : UInt8) (last : ℕ) : List (Row Unit) :=
  [headerRow version 0 1, headerRow version 10 2, headerRow version 20 3,
    headerRow version 30 last]

def ruleState (chain : List (Row Unit)) : CacheState Unit ℕ := CacheState.start 0 chain 1

theorem recalculate_restores_sample :
    ∃ t, addBlocks ((oneFork 1).init Db.empty, Db.empty) ((ruleChain 1 9).map Row.versions) =
      some t ∧ (ruleState (ruleChain 1 9)).recalculateDifficulties 0 t.1 0 [] (some 0) =
        .ok (ruleState (ruleChain 1 9), 0) ∧
      ∃ s', (ruleState (ruleChain 1 7)).recalculateDifficulties 0 t.1 0 [] (some 1) = .ok (s', 1) ∧
        s'.chain = ruleChain 1 9 := by
  have hrule : FollowsDifficulty (oneFork 1) (ruleChain 1 9) := by
    intro h hlt
    change h < 4 at hlt
    interval_cases h <;> exact ⟨_, rfl, by decide, by decide⟩
  have hleast : IsLeast {h | h < (ruleChain 1 9).length ∧
      getBlockCumulativeDifficulty (ruleChain 1 7) h ≠
        getBlockCumulativeDifficulty (ruleChain 1 9) h} 3 := by
    refine ⟨⟨by decide, by decide⟩, fun h hh ↦ ?_⟩
    by_contra hlt
    rw [not_le] at hlt
    interval_cases h <;> exact hh.2 rfl
  refine ⟨_, rfl, ?_, ?_⟩
  · exact (recalculate_restores (oneFork_built (by decide)) le_rfl (by decide) (by decide) hrule
      rfl 0 [] (by decide : 0 < (ruleChain 1 9).length)).1 rfl
  · refine (recalculate_restores (oneFork_built (by decide)) le_rfl (by decide) (by decide) hrule
      rfl 0 [] (by decide : 1 < (ruleChain 1 9).length)).2 le_rfl ⟨rfl, fun h hh ↦ ?_⟩ 3 hleast
    obtain rfl : h = 0 := by omega
    rfl

/-- A first fork with another version than the original one: the rule counts with the
target of the fork, and the recalculation with that of the original version. -/
theorem recalculate_changes_rule :
    ∃ t, Built 1 1 (oneFork 2) ∧ (∀ f ∈ (oneFork 2).heights, f.threshold = 0) ∧
      addBlocks ((oneFork 2).init Db.empty, Db.empty) ((ruleChain 2 15).map Row.versions) =
        some t ∧
      FollowsDifficulty (oneFork 2) (ruleChain 2 15) ∧
      ∃ s', (ruleState (ruleChain 2 15)).recalculateDifficulties 0 t.1 0 [] (some 0) =
        .ok (s', 1) ∧ s'.chain = ruleChain 2 9 := by
  refine ⟨_, oneFork_built (by decide), by decide, rfl, ?_, _, rfl, rfl⟩
  intro h hlt
  change h < 4 at hlt
  interval_cases h <;> exact ⟨_, rfl, by decide, by decide⟩

end Monero.Blockchain
