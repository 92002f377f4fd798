import LoxLang.Proofs.Numbers.Fields
/-! The digits of a number are the shortest ones. No decimal that is read as the number has fewer
digits, and none with as few digits is nearer to it. -/
namespace LoxLang

/-- The decimal needs no more digits than the other one. -/
def Decimal.NoLonger (d d' : Decimal) : Prop := ∀ n, d'.digits < 10 ^ n → d.digits < 10 ^ n

theorem Decimal.strip_le (d : Decimal) : d.strip.digits ≤ d.digits := by
  induction d using strip.induct with
  | case1 d more ih =>
    rw [strip, dif_pos more]
    exact ih.trans (Nat.div_le_self _ _)
  | case2 d done => rw [strip, dif_neg done]

namespace Binary

/-- The decimal is read as the magnitude, in as few digits as possible and as near as these
allow. -/
structure Shortest (x : Binary) (d : Decimal) : Prop where
  rounds : x.Rounds d.value
  fewest : ∀ d' : Decimal, x.Rounds d'.value → d.NoLonger d'
  nearest : ∀ d' : Decimal, x.Rounds d'.value → d'.NoLonger d →
    |d.value - x.value| ≤ |d'.value - x.value|

variable {x : Binary} {d : Decimal} {p q r : ℚ} {e : ℤ}

/-- What lies between two numbers that round to a magnitude rounds to it. -/
theorem Rounds.between (first : x.Rounds p) (last : x.Rounds r) (above : p ≤ q) (below : q ≤ r) :
    x.Rounds q := by
  unfold Rounds at first last ⊢
  by_cases even : x.significand % 2 = 0
  · rw [if_pos even] at first last ⊢
    exact ⟨first.1.trans above, below.trans last.2⟩
  · rw [if_neg even] at first last ⊢
    exact ⟨first.1.trans_le above, below.trans_lt last.2⟩

theorem rounds_inside (above : x.low < q) (below : q < x.high) : x.Rounds q := by
  unfold Rounds
  split
  · exact ⟨above.le, below.le⟩
  · exact ⟨above, below⟩

/-! ### The scale -/

/-- The estimated power of ten is not above the power of two, and the second one after it is not
below the next. -/
theorem scale_estimate : ∀ i ∈ List.range 2098,
    compareScaled 1 ((i : ℤ) - 1074) 1 (((i : ℤ) - 1074) * 30103 / 100000) ≠ .lt ∧
      compareScaled 1 ((i : ℤ) - 1074 + 1) 1 (((i : ℤ) - 1074) * 30103 / 100000 + 2) ≠ .gt := by
  decide +kernel

/-- A magnitude lies between two powers of two. -/
theorem log2_bounds (some : x.significand ≠ 0) :
    (2 : ℚ) ^ ((x.significand.log2 : ℤ) + x.exponent) ≤ x.value ∧
      x.value < 2 ^ ((x.significand.log2 : ℤ) + x.exponent + 1) := by
  have power : (0 : ℚ) < 2 ^ x.exponent := by positivity
  have least : (2 : ℚ) ^ x.significand.log2 ≤ x.significand := by
    exact_mod_cast Nat.log2_self_le some
  have most : (x.significand : ℚ) < 2 ^ (x.significand.log2 + 1) := by
    exact_mod_cast Nat.lt_log2_self
  constructor
  · rw [zpow_add₀ (by norm_num), zpow_natCast]
    exact mul_le_mul_of_nonneg_right least power.le
  · rw [add_right_comm, zpow_add₀ (by norm_num), ← Nat.cast_succ, zpow_natCast]
    exact mul_lt_mul_of_pos_right most power

/-- The scale is the place of the first digit. -/
theorem Held.scale_bounds (held : x.Held) (some : x.significand ≠ 0) :
    (10 : ℚ) ^ (x.scale - 1) ≤ x.value ∧ x.value < 10 ^ x.scale := by
  obtain ⟨least, most⟩ := log2_bounds some
  have short : x.significand.log2 < 53 := (Nat.log2_lt some).mpr held.below
  have first := held.least
  have last := held.most
  set place := (x.significand.log2 : ℤ) + x.exponent
  have whole : ((place + 1074).toNat : ℤ) - 1074 = place := by omega
  have estimate := scale_estimate (place + 1074).toNat (List.mem_range.mpr (by omega))
  simp only [whole, compareScaled_eq, ne_eq, compare_lt_iff_lt, compare_gt_iff_gt, Nat.cast_one,
    one_mul, not_lt] at estimate
  have guess : x.scale = if x.lt ⟨1, place * 30103 / 100000 + 1⟩ then place * 30103 / 100000 + 1
      else place * 30103 / 100000 + 1 + 1 := rfl
  rw [guess]
  split
  next small =>
    rw [lt_iff] at small
    simp only [Decimal.value, Nat.cast_one, one_mul] at small
    rw [add_sub_cancel_right]
    exact ⟨estimate.1.trans least, small⟩
  next large =>
    rw [lt_iff, not_lt] at large
    simp only [Decimal.value, Nat.cast_one, one_mul] at large
    rw [add_sub_cancel_right, add_assoc]
    exact ⟨large, most.trans_le estimate.2⟩

/-! ### Grids -/

theorem steps_bounds (x : Binary) (e : ℤ) :
    (x.steps e : ℚ) * 10 ^ e ≤ x.value ∧ x.value < (x.steps e + 1) * 10 ^ e := by
  have scale : (0 : ℚ) < 2 ^ (-x.exponent).toNat * 10 ^ (-e).toNat := by positivity
  set above := x.significand * Nat.pow 2 x.exponent.toNat * Nat.pow 10 (-e).toNat with upper
  set below := Nat.pow 10 e.toNat * Nat.pow 2 (-x.exponent).toNat with lower
  have value : (above : ℚ) = x.value * (2 ^ (-x.exponent).toNat * 10 ^ (-e).toNat) := by
    rw [upper, Nat.pow_eq, Nat.pow_eq, Binary.value]
    push_cast
    rw [← zpow_mul_pow (by norm_num : (0 : ℚ) < 2) x.exponent]
    ring
  have step : (below : ℚ) = 10 ^ e * (2 ^ (-x.exponent).toNat * 10 ^ (-e).toNat) := by
    rw [lower, Nat.pow_eq, Nat.pow_eq]
    push_cast
    rw [← zpow_mul_pow (by norm_num : (0 : ℚ) < 10) e]
    ring
  have positive : 0 < below := by
    have : (0 : ℚ) < below := by
      rw [step]
      positivity
    exact_mod_cast this
  have whole : x.steps e = above / below := rfl
  rw [whole]
  constructor
  · have least : ((above / below * below : Nat) : ℚ) ≤ above := by
      exact_mod_cast Nat.div_mul_le_self above below
    push_cast at least
    rw [value, step, ← mul_assoc] at least
    exact le_of_mul_le_mul_right least scale
  · have most : (above : ℚ) < ((above / below + 1) * below : Nat) := by
      exact_mod_cast Nat.lt_mul_of_div_lt (Nat.lt_succ_self _) positive
    push_cast at most
    rw [value, step, ← mul_assoc (_ + 1)] at most
    exact lt_of_mul_lt_mul_right most scale.le

theorem value_down (n : Nat) (e : ℤ) : Decimal.value ⟨n, e⟩ = n * 10 ^ e := rfl

theorem value_up (n : Nat) (e : ℤ) : Decimal.value ⟨n + 1, e⟩ = (n + 1) * 10 ^ e := by
  simp [Decimal.value]

/-- Nothing is found on a grid only if neither neighbour of the magnitude there reads back. -/
theorem onGrid?_none (some : x.significand ≠ 0) (none : x.onGrid? e = none) :
    ¬x.Rounds (x.steps e * 10 ^ e) ∧ ¬x.Rounds ((x.steps e + 1) * 10 ^ e) := by
  rw [← value_down, ← value_up, ← readsBack_iff some, ← readsBack_iff some]
  unfold onGrid? at none
  dsimp only at none
  split at none
  next down up => exact ⟨Bool.not_eq_true _ ▸ down, Bool.not_eq_true _ ▸ up⟩
  · cases none
  · cases none
  · split at none
    · cases none
    · cases none
    · cases none

/-- What is found on a grid is a neighbour of the magnitude there, the nearer one if both read
back. -/
theorem onGrid?_some (some : x.significand ≠ 0) (found : x.onGrid? e = Option.some d) :
    (d = ⟨x.steps e, e⟩ ∧ (x.Rounds ((x.steps e + 1) * 10 ^ e) →
        x.value - x.steps e * 10 ^ e ≤ (x.steps e + 1) * 10 ^ e - x.value)) ∨
      d = ⟨x.steps e + 1, e⟩ ∧ (x.Rounds (x.steps e * 10 ^ e) →
        (x.steps e + 1) * 10 ^ e - x.value ≤ x.value - x.steps e * 10 ^ e) := by
  have twice : ((2 * x.significand : Nat) : ℚ) * 2 ^ x.exponent = 2 * x.value := by
    rw [Binary.value]
    push_cast
    ring
  have middle : ((2 * x.steps e + 1 : Nat) : ℚ) * 10 ^ e
      = x.steps e * 10 ^ e + (x.steps e + 1) * 10 ^ e := by
    push_cast
    ring
  rw [← value_down, ← value_up, ← readsBack_iff some, ← readsBack_iff some]
  unfold onGrid? at found
  simp only [compareScaled_eq, twice, middle] at found
  split at found
  · cases found
  next _ up =>
    exact .inl ⟨(Option.some.inj found).symm, fun reads => absurd reads (Bool.not_eq_true _ ▸ up)⟩
  next down _ =>
    exact .inr ⟨(Option.some.inj found).symm, fun reads => absurd reads (Bool.not_eq_true _ ▸ down)⟩
  · split at found
    next less =>
      rw [compare_lt_iff_lt] at less
      exact .inl ⟨(Option.some.inj found).symm, fun _ => by rw [value_up, value_down]; linarith⟩
    next more =>
      rw [compare_gt_iff_gt] at more
      exact .inr ⟨(Option.some.inj found).symm, fun _ => by rw [value_up, value_down]; linarith⟩
    next equal =>
      rw [compare_eq_iff_eq] at equal
      have near : x.value - Decimal.value ⟨x.steps e, e⟩
          = Decimal.value ⟨x.steps e + 1, e⟩ - x.value := by
        rw [value_up, value_down]
        linarith
      split at found
      · exact .inl ⟨(Option.some.inj found).symm, fun _ => near.le⟩
      · exact .inr ⟨(Option.some.inj found).symm, fun _ => near.ge⟩

/-- What is found on a grid is as near as each neighbour there that reads back. -/
theorem onGrid?_near (some : x.significand ≠ 0) (found : x.onGrid? e = Option.some d) :
    (x.Rounds (x.steps e * 10 ^ e) → |d.value - x.value| ≤ x.value - x.steps e * 10 ^ e) ∧
      (x.Rounds ((x.steps e + 1) * 10 ^ e) →
        |d.value - x.value| ≤ (x.steps e + 1) * 10 ^ e - x.value) := by
  obtain ⟨below, above⟩ := x.steps_bounds e
  rcases onGrid?_some some found with ⟨rfl, near⟩ | ⟨rfl, near⟩
  · rw [value_down, abs_of_nonpos (by linarith), neg_sub]
    exact ⟨fun _ => le_rfl, near⟩
  · rw [value_up, abs_of_nonneg (by linarith)]
    exact ⟨near, fun _ => le_rfl⟩

/-- If a decimal of a grid reads back, one that is at least as near is found there. -/
theorem onGrid?_nearest (some : x.significand ≠ 0) {m : Nat} (rounds : x.Rounds (m * 10 ^ e)) :
    ∃ d, x.onGrid? e = Option.some d ∧ |d.value - x.value| ≤ |m * 10 ^ e - x.value| := by
  have step : (0 : ℚ) < 10 ^ e := by positivity
  obtain ⟨below, above⟩ := x.steps_bounds e
  rcases Nat.lt_or_ge (x.steps e) m with behind | before
  · have further : ((x.steps e : ℚ) + 1) * 10 ^ e ≤ m * 10 ^ e :=
      mul_le_mul_of_nonneg_right (by exact_mod_cast behind) step.le
    have up : x.Rounds ((x.steps e + 1) * 10 ^ e) := x.rounds_value.between rounds above.le further
    cases found : x.onGrid? e with
    | none => exact absurd up (onGrid?_none some found).2
    | some d =>
      refine ⟨d, rfl, ((onGrid?_near some found).2 up).trans ?_⟩
      exact (sub_le_sub_right further _).trans (le_abs_self _)
  · have further : (m : ℚ) * 10 ^ e ≤ x.steps e * 10 ^ e :=
      mul_le_mul_of_nonneg_right (by exact_mod_cast before) step.le
    have down : x.Rounds (x.steps e * 10 ^ e) := rounds.between x.rounds_value further below
    cases found : x.onGrid? e with
    | none => exact absurd down (onGrid?_none some found).1
    | some d =>
      refine ⟨d, rfl, ((onGrid?_near some found).1 down).trans ?_⟩
      exact (sub_le_sub_left further _).trans (abs_sub_comm _ x.value ▸ le_abs_self _)

/-! ### Digits -/

/-- A decimal of few digits that reads back is on the grid of that many digits, or a power of ten
that is nearer is. -/
theorem Held.on_grid (held : x.Held) (some : x.significand ≠ 0) {n : Nat}
    (rounds : x.Rounds d.value) (short : d.digits < 10 ^ (n + 1)) :
    ∃ m : Nat, x.Rounds (m * 10 ^ (x.scale - n - 1)) ∧
      |m * 10 ^ (x.scale - n - 1) - x.value| ≤ |d.value - x.value| := by
  obtain ⟨least, most⟩ := held.scale_bounds some
  rcases lt_or_ge d.value (10 ^ (x.scale - 1)) with small | large
  · have power : ((10 ^ n : Nat) : ℚ) * 10 ^ (x.scale - n - 1) = 10 ^ (x.scale - 1) := by
      push_cast
      rw [← zpow_natCast, ← zpow_add₀ (by norm_num)]
      congr 1
      ring
    refine ⟨10 ^ n, power ▸ rounds.between x.rounds_value small.le least, ?_⟩
    rw [power, abs_of_nonpos (by linarith), abs_of_nonpos (by linarith)]
    linarith
  · have fine : x.scale - n - 1 ≤ d.exponent := by
      have above : (10 : ℚ) ^ (x.scale - 1) < 10 ^ (((n + 1 : Nat) : ℤ) + d.exponent) := by
        rw [zpow_add₀ (by norm_num), zpow_natCast]
        refine large.trans_lt (mul_lt_mul_of_pos_right ?_ (by positivity))
        exact_mod_cast short
      have := (zpow_lt_zpow_iff_right₀ (by norm_num)).mp above
      omega
    have same : ((d.digits * 10 ^ (d.exponent - (x.scale - n - 1)).toNat : Nat) : ℚ)
        * 10 ^ (x.scale - n - 1) = d.value := by
      push_cast
      rw [Decimal.value, ← zpow_natCast, mul_assoc, ← zpow_add₀ (by norm_num)]
      congr 2
      omega
    exact ⟨_, same.symm ▸ rounds, same.symm ▸ le_rfl⟩

/-- What is found on the grid of so many digits has no more, but for a power of ten. -/
theorem Held.onGrid?_short (held : x.Held) (some : x.significand ≠ 0) {n : Nat}
    (found : x.onGrid? (x.scale - n - 1) = Option.some d) : d.digits ≤ 10 ^ (n + 1) := by
  have step : (0 : ℚ) < 10 ^ (x.scale - n - 1) := by positivity
  have whole : (10 : ℚ) ^ x.scale = 10 ^ (n + 1) * 10 ^ (x.scale - n - 1) := by
    rw [← zpow_natCast, ← zpow_add₀ (by norm_num)]
    congr 1
    push_cast
    ring
  have below : x.steps (x.scale - n - 1) < 10 ^ (n + 1) := by
    have := (x.steps_bounds (x.scale - n - 1)).1.trans_lt (held.scale_bounds some).2
    rw [whole] at this
    exact_mod_cast lt_of_mul_lt_mul_right this step.le
  rcases onGrid?_some some found with ⟨rfl, -⟩ | ⟨rfl, -⟩
  · exact below.le
  · exact below

/-- Seventeen digits suffice: a step of their grid is shorter than the gap between the midpoints. -/
theorem Held.on_finest (held : x.Held) (some : x.significand ≠ 0) :
    ∃ m : Nat, x.Rounds (m * 10 ^ (x.scale - 16 - 1)) := by
  obtain ⟨least, most⟩ := held.scale_bounds some
  obtain ⟨below, above⟩ := x.steps_bounds (x.scale - 16 - 1)
  have unit_pos : (0 : ℚ) < 2 ^ x.exponent := by positivity
  have fine : (10 : ℚ) ^ (x.scale - 16 - 1) * 10 ^ 16 ≤ x.value := by
    rw [← zpow_natCast, ← zpow_add₀ (by norm_num)]
    exact (zpow_le_zpow_right₀ (by norm_num) (by omega)).trans least
  set step := (10 : ℚ) ^ (x.scale - 16 - 1)
  set unit := (2 : ℚ) ^ x.exponent
  have value : x.value = x.significand * unit := rfl
  have high : x.high = x.value + 1 / 2 * unit := add_mul _ _ _
  by_cases narrow : x.narrowBelow = true
  · have short : step < 1 / 2 * unit := by
      rw [value, (held.narrow.mp narrow).1] at fine
      push_cast at fine
      linarith
    have last : (x.steps (x.scale - 16 - 1) + 1) * step < x.high := by linarith
    refine ⟨x.steps (x.scale - 16 - 1) + 1, ?_⟩
    rw [Nat.cast_succ]
    exact rounds_inside (low_lt_value.trans above) last
  · have low : x.low = x.value - 1 / 2 * unit := by
      rw [low, if_neg narrow]
      exact sub_mul _ _ _
    have short : step < unit := by
      have fits : (x.significand : ℚ) < 2 ^ 53 := by exact_mod_cast held.below
      have := mul_lt_mul_of_pos_right fits unit_pos
      rw [← value] at this
      linarith
    rcases lt_or_ge x.low (x.steps (x.scale - 16 - 1) * step) with inside | outside
    · exact ⟨_, rounds_inside inside (below.trans_lt value_lt_high)⟩
    · have last : (x.steps (x.scale - 16 - 1) + 1) * step < x.high := by linarith
      refine ⟨x.steps (x.scale - 16 - 1) + 1, ?_⟩
      rw [Nat.cast_succ]
      exact rounds_inside (low_lt_value.trans above) last

/-! ### The search -/

/-- In a range, what is smaller than a number stands before it. -/
theorem mem_before {k m n : Nat} {before behind : List Nat}
    (split : List.range k = before ++ n :: behind) (less : m < n) : m ∈ before := by
  have sorted : (before ++ n :: behind).Pairwise (· < ·) := split ▸ List.pairwise_lt_range
  have last : n < k := List.mem_range.mp (split ▸ List.mem_append_cons_self)
  have inside : m ∈ before ++ n :: behind := split ▸ List.mem_range.mpr (less.trans last)
  rcases List.mem_append.mp inside with early | late
  · exact early
  · rcases List.mem_cons.mp late with rfl | later
    · exact absurd less (lt_irrefl _)
    · exact absurd less ((List.pairwise_cons.mp (List.pairwise_append.mp sorted).2.1).1 m later).asymm

/-- The search ends at the first grid on which something is found. -/
theorem Held.search (held : x.Held) (some : x.significand ≠ 0) :
    ∃ (n : Nat) (d : Decimal), x.shortest = d.strip ∧ x.onGrid? (x.scale - n - 1) = Option.some d ∧
      ∀ m < n, x.onGrid? (x.scale - m - 1) = none := by
  obtain ⟨m, rounds⟩ := held.on_finest some
  obtain ⟨last, found, -⟩ := onGrid?_nearest some rounds
  simp only [shortest, isZero_iff, some, if_false]
  cases search : (List.range 17).findSome? fun (n : Nat) => x.onGrid? (x.scale - n - 1) with
  | none =>
    have nothing := List.findSome?_eq_none_iff.mp search 16 (by decide)
    exact absurd (found.symm.trans nothing) (by simp)
  | some d =>
    obtain ⟨before, n, behind, split, here, earlier⟩ := List.findSome?_eq_some_iff.mp search
    exact ⟨n, d, rfl, here, fun m less => earlier m (mem_before split less)⟩

theorem strip_short {n : Nat} (most : d.digits ≤ 10 ^ (n + 1)) (some : d.digits ≠ 0) :
    d.strip.digits < 10 ^ (n + 1) := by
  have stripped := Decimal.strip_digits some
  refine lt_of_le_of_ne (d.strip_le.trans most) fun same => stripped ?_
  rw [same, pow_succ]
  exact Nat.mul_mod_left _ _

/-- The search comes to the shortest decimal that is read as the magnitude, and to the nearest of
these. -/
theorem Held.shortest (held : x.Held) (some : x.significand ≠ 0) : x.Shortest x.shortest := by
  obtain ⟨n, d, same, found, earlier⟩ := held.search some
  have rounds := shortest_rounds some
  have short : x.shortest.digits < 10 ^ (n + 1) := by
    rw [same]
    refine strip_short (held.onGrid?_short some found) (Decimal.digits_of_value_pos ?_)
    rw [← d.strip_value, ← same]
    exact rounds.pos some
  refine ⟨rounds, fun d' rounds' m short' => ?_, fun d' rounds' shorter => ?_⟩
  · rcases Nat.lt_or_ge n m with enough | few
    · exact short.trans_le (Nat.pow_le_pow_right (by norm_num) enough)
    · cases m with
      | zero =>
        have : d'.digits ≠ 0 := Decimal.digits_of_value_pos (rounds'.pos some)
        omega
      | succ m =>
        obtain ⟨i, on, -⟩ := held.on_grid some rounds' short'
        obtain ⟨_, there, -⟩ := onGrid?_nearest some on
        exact absurd (there.symm.trans (earlier m few)) (by simp)
  · obtain ⟨i, on, near⟩ := held.on_grid some rounds' (shorter _ short)
    obtain ⟨_, there, nearest⟩ := onGrid?_nearest some on
    cases there.symm.trans found
    rw [same, Decimal.strip_value]
    exact nearest.trans near

end Binary
end LoxLang
