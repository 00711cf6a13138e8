import Monero.Database.Pruning

/-!
# Moving between stripes

`get_next_unpruned_block_height` and `get_next_pruned_block_height` of `pruning.cpp`
find the next block that a pruned database has, or does not have, by arithmetic on
cycles of stripes.  They agree with `has_unpruned_block`.
-/

namespace Monero.Database

/-- Making the seed of the next stripe may throw. -/
def getNextPrunedBlockHeight (blockHeight blockchainHeight pruningSeed : ℕ) : Except DbError ℕ :=
  let stripe := getPruningStripe pruningSeed
  if stripe = 0 then .ok blockchainHeight
  else if blockchainHeight ≤ blockHeight + cryptonotePruningTipBlocks then .ok blockchainHeight
  else
    let seedLogStripes := getPruningLogStripes pruningSeed
    let logStripes :=
      if seedLogStripes ≠ 0 then seedLogStripes else cryptonotePruningLogStripes
    let mask := 1 <<< logStripes - 1
    let blockPruningSeed := (blockHeight / cryptonotePruningStripeSize &&& mask) + 1
    if blockPruningSeed ≠ stripe then .ok blockHeight
    else
      let nextStripe := 1 + (blockPruningSeed &&& mask)
      (makePruningSeed nextStripe logStripes).map
        (getNextUnprunedBlockHeight blockHeight blockchainHeight)

/-! ## Seeds -/

variable {logStripes seed stripe t n q : ℕ}

lemma and_mask (q : ℕ) : q &&& 1 <<< logStripes - 1 = q % 2 ^ logStripes := by
  rw [Nat.shiftLeft_eq, one_mul, Nat.and_two_pow_sub_one_eq_mod]

lemma makePruningSeed_eq_ok (h : makePruningSeed stripe logStripes = .ok seed) :
    logStripes ≤ 7 ∧ 0 < stripe ∧ stripe ≤ 2 ^ logStripes ∧
    seed = 128 * logStripes + (stripe - 1) := by
  rw [makePruningSeed] at h
  split_ifs at h with hlog hstripe
  push Not at hlog hstripe
  obtain ⟨hpos, hle⟩ := hstripe
  rw [Nat.shiftLeft_eq, one_mul] at hle
  have hpow : 2 ^ logStripes ≤ 2 ^ 7 := Nat.pow_le_pow_right (by decide) hlog
  cases h
  refine ⟨hlog, Nat.pos_of_ne_zero hpos, hle, ?_⟩
  rw [Nat.shiftLeft_zero, ← Nat.shiftLeft_add_eq_or_of_lt (by omega), Nat.shiftLeft_eq]
  omega

lemma makePruningSeed_ok (hlog : logStripes ≤ 7) (hpos : 0 < stripe)
    (hle : stripe ≤ 2 ^ logStripes)
    : makePruningSeed stripe logStripes = .ok (logStripes <<< 7 ||| (stripe - 1) <<< 0) := by
  rw [makePruningSeed, if_neg (by omega), if_neg]
  rw [Nat.shiftLeft_eq, one_mul]
  omega

section

variable (h : makePruningSeed stripe logStripes = .ok seed) (hseed : seed ≠ 0)

include h hseed

lemma stripe_of_seed :
    getPruningStripe seed = stripe ∧ getPruningLogStripes seed = logStripes := by
  obtain ⟨hlog, hpos, hle, heq⟩ := makePruningSeed_eq_ok h
  have hpow : 2 ^ logStripes ≤ 2 ^ 7 := Nat.pow_le_pow_right (by decide) hlog
  have hlow : ∀ n, n &&& 0x7f = n % 2 ^ 7 := fun n ↦ Nat.and_two_pow_sub_one_eq_mod n 7
  have hhigh : ∀ n, n &&& 0x7 = n % 2 ^ 3 := fun n ↦ Nat.and_two_pow_sub_one_eq_mod n 3
  constructor
  · rw [getPruningStripe, if_neg hseed, hlow, Nat.shiftRight_zero]
    omega
  · rw [getPruningLogStripes, hhigh, Nat.shiftRight_eq_div_pow]
    omega

lemma log_ne_zero_of_seed : logStripes ≠ 0 := by
  obtain ⟨-, hpos, hle, heq⟩ := makePruningSeed_eq_ok h
  rintro rfl
  rw [pow_zero] at hle
  omega

lemma makePruningSeed_next :
    ∃ seed', makePruningSeed (1 + stripe % 2 ^ logStripes) logStripes = .ok seed' ∧ seed' ≠ 0 ∧
      stripe % 2 ^ logStripes ≠ stripe - 1 := by
  obtain ⟨hlog, hpos, hle, -⟩ := makePruningSeed_eq_ok h
  have hlogne := log_ne_zero_of_seed h hseed
  have htwo : 2 ^ 1 ≤ 2 ^ logStripes :=
    Nat.pow_le_pow_right (by decide) (Nat.one_le_iff_ne_zero.mpr hlogne)
  have hmod : stripe % 2 ^ logStripes < 2 ^ logStripes := Nat.mod_lt _ (by omega)
  have hok := makePruningSeed_ok hlog (by omega : 0 < 1 + stripe % 2 ^ logStripes) (by omega)
  refine ⟨_, hok, ?_, ?_⟩
  · obtain ⟨-, -, -, heq⟩ := makePruningSeed_eq_ok hok
    omega
  · rcases Nat.lt_or_eq_of_le hle with hlt | heq
    · rw [Nat.mod_eq_of_lt hlt]
      omega
    · rw [← heq, Nat.mod_self]
      omega

lemma hasUnprunedBlock_iff {b H : ℕ} :
    hasUnprunedBlock b H seed = true ↔ H ≤ b + cryptonotePruningTipBlocks ∨
        b / cryptonotePruningStripeSize % 2 ^ logStripes = stripe - 1 := by
  obtain ⟨hstripe, hlog⟩ := stripe_of_seed h hseed
  obtain ⟨-, hpos, -, -⟩ := makePruningSeed_eq_ok h
  simp only [hasUnprunedBlock, hstripe, hlog, getPruningStripeAt, and_mask]
  rw [if_neg hpos.ne']
  split_ifs with htip
  · simp [htip]
  · simp only [htip, false_or, decide_eq_true_eq]
    omega

end

/-! ## The next block of a stripe -/

/-- The next number with a given remainder. -/
def nextWithRemainder (q n t : ℕ) : ℕ := (q / n + if q % n ≤ t then 0 else 1) * n + t

lemma nextWithRemainder_mod (q : ℕ) (ht : t < n) : nextWithRemainder q n t % n = t := by
  rw [nextWithRemainder, Nat.mul_comm, Nat.mul_add_mod, Nat.mod_eq_of_lt ht]

lemma nextWithRemainder_le {y : ℕ} (hy : q ≤ y) (hmod : y % n = t) :
    nextWithRemainder q n t ≤ y := by
  have hdiv : q / n ≤ y / n := Nat.div_le_div_right hy
  have hy' := Nat.div_add_mod y n
  have hq' := Nat.div_add_mod q n
  rw [nextWithRemainder]
  split_ifs with hle
  · have hmul : q / n * n ≤ y / n * n := Nat.mul_le_mul_right n hdiv
    rw [Nat.mul_comm n] at hy'
    rw [Nat.add_zero]
    omega
  · -- in the cycle of `q` the remainder has passed
    have hlt : q / n < y / n := by
      by_contra hge
      have heq : y / n = q / n := by omega
      rw [heq] at hy'
      omega
    have hmul : (q / n + 1) * n ≤ y / n * n := Nat.mul_le_mul_right n hlt
    rw [Nat.mul_comm n] at hy'
    omega

lemma le_nextWithRemainder (ht : t < n) : q ≤ nextWithRemainder q n t := by
  have hq := Nat.div_add_mod q n
  have hlt : q % n < n := Nat.mod_lt q (Nat.zero_lt_of_lt ht)
  rw [nextWithRemainder]
  rw [Nat.mul_comm n] at hq
  split_ifs with hle
  · rw [Nat.add_zero]
    omega
  · rw [Nat.add_mul]
    omega

lemma lt_nextWithRemainder (ht : t < n) (hne : q % n ≠ t) : q < nextWithRemainder q n t := by
  refine lt_of_le_of_ne (le_nextWithRemainder ht) fun heq ↦ hne ?_
  conv_lhs => rw [heq]
  exact nextWithRemainder_mod _ ht

lemma nextWithRemainder_succ (ht : (t + 1) % n ≠ t) (hn : 0 < n) (hq : q % n = t) :
    nextWithRemainder q n ((t + 1) % n) = q + 1 := by
  have hle : nextWithRemainder q n ((t + 1) % n) ≤ q + 1 :=
    nextWithRemainder_le (Nat.le_succ q) (by rw [← hq, Nat.mod_add_mod])
  exact hle.antisymm (lt_nextWithRemainder (Nat.mod_lt _ hn) (hq ▸ ht.symm))

lemma isLeast_stripe {b size : ℕ} (hsize : 0 < size) (ht : t < n) (hne : b / size % n ≠ t) :
    IsLeast {h | b ≤ h ∧ h / size % n = t} (nextWithRemainder (b / size) n t * size) := by
  have hlt := lt_nextWithRemainder ht hne
  refine ⟨⟨?_, ?_⟩, ?_⟩
  · exact ((Nat.div_lt_iff_lt_mul hsize).mp hlt).le
  · rw [Nat.mul_div_cancel _ hsize]
    exact nextWithRemainder_mod _ ht
  · rintro h ⟨hb, hmod⟩
    have hdiv := nextWithRemainder_le (Nat.div_le_div_right hb) hmod
    exact (Nat.le_div_iff_mul_le hsize).mp hdiv

/-! ## Navigation -/

section

variable {stripe logStripes seed b H : ℕ}

lemma getNextUnprunedBlockHeight_zero (b H : ℕ) : getNextUnprunedBlockHeight b H 0 = b := by
  simp [getNextUnprunedBlockHeight, getPruningStripe]

variable (h : makePruningSeed stripe logStripes = .ok seed)
  (hb : b ≤ cryptonoteMaxBlockNumber + 1) (hH : H ≤ cryptonoteMaxBlockNumber + 1)

include h hb hH

lemma getNextUnprunedBlockHeight_eq (hseed : seed ≠ 0) :
    getNextUnprunedBlockHeight b H seed =
      if H ≤ b + cryptonotePruningTipBlocks ∨
        b / cryptonotePruningStripeSize % 2 ^ logStripes = stripe - 1 then b
      else min (nextWithRemainder (b / cryptonotePruningStripeSize) (2 ^ logStripes) (stripe - 1) *
        cryptonotePruningStripeSize) (H - cryptonotePruningTipBlocks) := by
  obtain ⟨hstripe, hlog⟩ := stripe_of_seed h hseed
  obtain ⟨-, hpos, hle, -⟩ := makePruningSeed_eq_ok h
  have hlogne := log_ne_zero_of_seed h hseed
  simp only [getNextUnprunedBlockHeight, hstripe, hlog, if_pos hlogne, and_mask]
  rw [if_neg (by omega), if_neg (by omega), if_neg hpos.ne']
  by_cases htip : H ≤ b + cryptonotePruningTipBlocks
  · rw [if_pos htip, if_pos (.inl htip)]
  rw [if_neg htip]
  by_cases hin : b / cryptonotePruningStripeSize % 2 ^ logStripes = stripe - 1
  · rw [if_pos (by omega), if_pos (.inr hin)]
  rw [if_neg (by omega), if_neg (not_or.mpr ⟨htip, hin⟩)]
  have hnext : (((b / cryptonotePruningStripeSize) >>> logStripes +
        if b / cryptonotePruningStripeSize % 2 ^ logStripes + 1 < stripe then 0 else 1) *
          cryptonotePruningStripeSize <<< logStripes +
            (stripe - 1) * cryptonotePruningStripeSize) =
      nextWithRemainder (b / cryptonotePruningStripeSize) (2 ^ logStripes) (stripe - 1) *
        cryptonotePruningStripeSize := by
    have hif : (if b / cryptonotePruningStripeSize % 2 ^ logStripes + 1 < stripe then 0 else 1) =
        if b / cryptonotePruningStripeSize % 2 ^ logStripes ≤ stripe - 1 then 0 else 1 :=
      if_congr (by omega) rfl rfl
    rw [nextWithRemainder, Nat.shiftRight_eq_div_pow, Nat.shiftLeft_eq, hif]
    ring
  rw [hnext]
  have hleast := (isLeast_stripe (by decide : 0 < cryptonotePruningStripeSize)
    (by omega : stripe - 1 < 2 ^ logStripes) hin).1.1
  split_ifs <;> omega

lemma isLeast_getNextUnprunedBlockHeight :
    IsLeast {x | b ≤ x ∧ hasUnprunedBlock x H seed = true}
      (getNextUnprunedBlockHeight b H seed) := by
  rcases eq_or_ne seed 0 with rfl | hseed
  · rw [getNextUnprunedBlockHeight_zero]
    exact ⟨⟨le_rfl, rfl⟩, fun x hx ↦ hx.1⟩
  obtain ⟨-, hpos, hle, -⟩ := makePruningSeed_eq_ok h
  rw [getNextUnprunedBlockHeight_eq h hb hH hseed]
  split_ifs with hkept
  · exact ⟨⟨le_rfl, (hasUnprunedBlock_iff h hseed).mpr hkept⟩, fun x hx ↦ hx.1⟩
  push Not at hkept
  obtain ⟨⟨hbnext, hnext⟩, hleast⟩ := isLeast_stripe (by decide : 0 < cryptonotePruningStripeSize)
    (by omega : stripe - 1 < 2 ^ logStripes) hkept.2
  refine ⟨⟨by omega, (hasUnprunedBlock_iff h hseed).mpr ?_⟩, ?_⟩
  · rcases min_cases
      (nextWithRemainder (b / cryptonotePruningStripeSize) (2 ^ logStripes) (stripe - 1) *
      cryptonotePruningStripeSize) (H - cryptonotePruningTipBlocks) with ⟨hmin, -⟩ | ⟨hmin, -⟩
    · rw [hmin]
      exact .inr hnext
    · rw [hmin]
      exact .inl (by omega)
  · rintro x ⟨hbx, hx⟩
    rcases (hasUnprunedBlock_iff h hseed).mp hx with htip | hin
    · exact (min_le_right _ _).trans (by omega)
    · exact (min_le_left _ _).trans (hleast ⟨hbx, hin⟩)

lemma getNextPrunedBlockHeight_eq (hseed : seed ≠ 0) :
    getNextPrunedBlockHeight b H seed = .ok (if H ≤ b + cryptonotePruningTipBlocks then H
      else if b / cryptonotePruningStripeSize % 2 ^ logStripes = stripe - 1 then
        min ((b / cryptonotePruningStripeSize + 1) * cryptonotePruningStripeSize)
          (H - cryptonotePruningTipBlocks)
      else b) := by
  obtain ⟨hstripe, hlog⟩ := stripe_of_seed h hseed
  obtain ⟨-, hpos, hle, -⟩ := makePruningSeed_eq_ok h
  have hlogne := log_ne_zero_of_seed h hseed
  simp only [getNextPrunedBlockHeight, hstripe, hlog, if_pos hlogne, and_mask]
  rw [if_neg hpos.ne']
  by_cases htip : H ≤ b + cryptonotePruningTipBlocks
  · rw [if_pos htip, if_pos htip]
  rw [if_neg htip, if_neg htip]
  by_cases hin : b / cryptonotePruningStripeSize % 2 ^ logStripes = stripe - 1
  · obtain ⟨seed', hok, hseed', hother⟩ := makePruningSeed_next h hseed
    have hback : b / cryptonotePruningStripeSize % 2 ^ logStripes + 1 = stripe := by omega
    have hnext :=
      nextWithRemainder_succ (q := b / cryptonotePruningStripeSize) (n := 2 ^ logStripes)
      (t := stripe - 1) (by rwa [Nat.sub_add_cancel hpos]) (by omega) hin
    rw [Nat.sub_add_cancel hpos] at hnext
    rw [if_neg (not_not.mpr hback), hback, hok, if_pos hin, Except.map,
      getNextUnprunedBlockHeight_eq hok hb hH hseed', if_neg, Nat.add_sub_cancel_left, hnext]
    rw [Nat.add_sub_cancel_left]
    omega
  · rw [if_pos (by omega), if_neg hin]

/-- From a seed on, the next height that is kept is the least one, and all heights up to the next
one that is pruned are kept; that is at the latest where the last blocks begin. -/
theorem stripe_navigation :
    IsLeast {x | b ≤ x ∧ hasUnprunedBlock x H seed = true} (getNextUnprunedBlockHeight b H seed) ∧
      ∃ r, getNextPrunedBlockHeight b H seed = .ok r ∧
        (∀ x, b ≤ x → x < r → hasUnprunedBlock x H seed = true) ∧
        (hasUnprunedBlock r H seed = false ∨ H ≤ r + cryptonotePruningTipBlocks) := by
  refine ⟨isLeast_getNextUnprunedBlockHeight h hb hH, ?_⟩
  rcases eq_or_ne seed 0 with rfl | hseed
  · exact ⟨H, rfl, fun x _ _ ↦ rfl, .inr (Nat.le_add_right H _)⟩
  refine ⟨_, getNextPrunedBlockHeight_eq h hb hH hseed, ?_⟩
  split_ifs with htip hin
  · exact ⟨fun x hx _ ↦ (hasUnprunedBlock_iff h hseed).mpr (.inl (by omega)),
      .inr (Nat.le_add_right H _)⟩
  · -- up to the end of the stripe
    have hsize : 0 < cryptonotePruningStripeSize := by decide
    obtain ⟨seed', -, -, hother⟩ := makePruningSeed_next h hseed
    obtain ⟨-, hpos, -, -⟩ := makePruningSeed_eq_ok h
    constructor
    · intro x hx hxr
      have hdiv : x / cryptonotePruningStripeSize = b / cryptonotePruningStripeSize := by
        have hlt := (Nat.div_lt_iff_lt_mul hsize).mpr (lt_of_lt_of_le hxr (min_le_left _ _))
        have hge : b / cryptonotePruningStripeSize ≤ x / cryptonotePruningStripeSize :=
          Nat.div_le_div_right hx
        omega
      exact (hasUnprunedBlock_iff h hseed).mpr (.inr (by rw [hdiv, hin]))
    · rcases min_cases ((b / cryptonotePruningStripeSize + 1) * cryptonotePruningStripeSize)
        (H - cryptonotePruningTipBlocks) with ⟨hmin, -⟩ | ⟨hmin, -⟩
      · rw [hmin, or_iff_not_imp_right]
        intro hbelow
        rw [Bool.eq_false_iff, ne_eq, hasUnprunedBlock_iff h hseed, Nat.mul_div_cancel _ hsize,
          ← Nat.mod_add_mod, hin, Nat.sub_add_cancel hpos]
        exact not_or.mpr ⟨hbelow, hother⟩
      · exact .inr (by omega)
  · refine ⟨fun x hx hxb ↦ absurd hxb (by omega), .inl ?_⟩
    rw [Bool.eq_false_iff, ne_eq, hasUnprunedBlock_iff h hseed]
    exact not_or.mpr ⟨htip, hin⟩

omit h hb hH

/-- With the second of eight stripes, from a block of the first stripe and from one of the
second. -/
theorem stripe_navigation_sample : makePruningSeed 2 3 = .ok 385 ∧
      IsLeast {x | 10 ≤ x ∧ hasUnprunedBlock x 20000 385 = true}
        (getNextUnprunedBlockHeight 10 20000 385) ∧
      ∃ r, getNextPrunedBlockHeight 10 20000 385 = .ok r ∧
        (∀ x, 10 ≤ x → x < r → hasUnprunedBlock x 20000 385 = true) ∧
        (hasUnprunedBlock r 20000 385 = false ∨ 20000 ≤ r + cryptonotePruningTipBlocks) :=
  ⟨rfl, @stripe_navigation 2 3 385 10 20000 rfl (by decide) (by decide)⟩

end

end Monero.Database
