import Mathlib

/-! A rounding of `x` into a set of numbers is an element no other one is nearer to. It never
crosses an element of the set, and it is monotone. -/
namespace NearestRounding

section

variable {K : Type*} [AddCommGroup K] [LinearOrder K] [IsOrderedAddMonoid K]

structure Nearest (F : Set K) (x y : K) : Prop where
  mem : y ∈ F
  closest : ∀ z ∈ F, |x - y| ≤ |x - z|

variable {F : Set K} {x x' y y' z : K}

theorem nearest_self (mem : x ∈ F) : Nearest F x x :=
  ⟨mem, fun z _ => by simp⟩

theorem Nearest.le_of_le (near : Nearest F x y) (mem : z ∈ F) (le : z ≤ x) : z ≤ y := by
  by_contra lt
  have lt : y < z := not_le.mp lt
  have dist := near.closest z mem
  rw [abs_of_nonneg (sub_nonneg.mpr le), abs_of_nonneg (sub_nonneg.mpr (lt.le.trans le))] at dist
  exact absurd (sub_le_sub_iff_left x |>.mp dist) (not_le.mpr lt)

omit [IsOrderedAddMonoid K] in
theorem Nearest.neg (near : Nearest F x y) (symmetric : ∀ z ∈ F, -z ∈ F) : Nearest F (-x) (-y) := by
  refine ⟨symmetric y near.mem, fun z mem => ?_⟩
  have dist := near.closest (-z) (symmetric z mem)
  rw [← abs_neg, ← abs_neg (x - -z)] at dist
  convert dist using 2 <;> abel

theorem Nearest.ge_of_ge (near : Nearest F x y) (mem : z ∈ F) (le : x ≤ z) : y ≤ z := by
  by_contra lt
  have lt : z < y := not_le.mp lt
  have dist := near.closest z mem
  rw [abs_of_nonpos (sub_nonpos.mpr le), abs_of_nonpos (sub_nonpos.mpr (le.trans lt.le)),
    neg_sub, neg_sub] at dist
  exact absurd (sub_le_sub_iff_right x |>.mp dist) (not_le.mpr lt)

theorem Nearest.mono (near : Nearest F x y) (near' : Nearest F x' y') (lt : x < x') : y ≤ y' := by
  by_contra crossed
  have crossed : y' < y := not_le.mp crossed
  -- neither number can be rounded across the other's result
  have right : x' < y := by
    by_contra le
    exact absurd (near'.le_of_le near.mem (not_lt.mp le)) (not_le.mpr crossed)
  have left : y' < x := by
    by_contra le
    exact absurd (near.ge_of_ge near'.mem (not_lt.mp le)) (not_le.mpr crossed)
  have dist := near.closest y' near'.mem
  have dist' := near'.closest y near.mem
  rw [abs_of_nonpos (sub_nonpos.mpr (lt.trans right).le), abs_of_pos (sub_pos.mpr left),
    neg_sub] at dist
  rw [abs_of_pos (sub_pos.mpr (left.trans lt)), abs_of_neg (sub_neg.mpr right), neg_sub] at dist'
  have chain : y - x' < y - x' := calc
    y - x' < y - x := sub_lt_sub_left lt y
    _ ≤ x - y' := dist
    _ < x' - y' := sub_lt_sub_right lt y'
    _ ≤ y - x' := dist'
  exact lt_irrefl _ chain

theorem nearest_lower (mem : y ∈ F) (lower : y ≤ x)
    (gap : ∀ z ∈ F, z ≤ y ∨ y' ≤ z) (nearer : x - y ≤ y' - x) : Nearest F x y := by
  refine ⟨mem, fun z member => ?_⟩
  rw [abs_of_nonneg (sub_nonneg.mpr lower)]
  rcases gap z member with below | above
  · exact (sub_le_sub_left below x).trans (le_abs_self _)
  · rw [abs_sub_comm]
    exact nearer.trans ((sub_le_sub_right above x).trans (le_abs_self _))

theorem nearest_upper (mem : y' ∈ F) (upper : x ≤ y')
    (gap : ∀ z ∈ F, z ≤ y ∨ y' ≤ z) (nearer : y' - x ≤ x - y) : Nearest F x y' := by
  refine ⟨mem, fun z member => ?_⟩
  rw [abs_sub_comm, abs_of_nonneg (sub_nonneg.mpr upper)]
  rcases gap z member with below | above
  · exact nearer.trans ((sub_le_sub_left below x).trans (le_abs_self _))
  · rw [abs_sub_comm]
    exact (sub_le_sub_right above x).trans (le_abs_self _)

end

/-- The numbers with at most `p` significant binary digits. -/
def Digits (p : ℕ) : Set ℚ := {x | ∃ m e : ℤ, |m| < 2 ^ p ∧ x = m * 2 ^ e}

variable {p : ℕ} {x : ℚ}

theorem neg_mem_digits (mem : x ∈ Digits p) : -x ∈ Digits p := by
  obtain ⟨m, e, small, rfl⟩ := mem
  exact ⟨-m, e, by rwa [abs_neg], by push_cast; ring⟩

theorem natCast_mem_digits {q : ℕ} (e : ℕ) (small : q < 2 ^ p) :
    ((q * 2 ^ e : ℕ) : ℚ) ∈ Digits p := by
  refine ⟨q, e, ?_, by push_cast; simp⟩
  exact_mod_cast small

theorem digits_gap {q e : ℕ} (full : 2 ^ p ≤ 2 * q) (mem : x ∈ Digits p) :
    x ≤ (q * 2 ^ e : ℕ) ∨ ((q + 1) * 2 ^ e : ℕ) ≤ x := by
  obtain ⟨m, f, small, rfl⟩ := mem
  rcases le_or_gt (e : ℤ) f with coarse | fine
  · -- a multiple of the common unit
    obtain ⟨d, rfl⟩ := Int.le.dest coarse
    have unit : (m : ℚ) * 2 ^ ((e : ℤ) + d) = ((m * 2 ^ d : ℤ) : ℚ) * ((2 ^ e : ℕ) : ℚ) := by
      rw [zpow_add₀ two_ne_zero]
      push_cast
      rw [zpow_natCast, zpow_natCast]
      ring
    have pos : (0 : ℚ) ≤ ((2 ^ e : ℕ) : ℚ) := by positivity
    rw [unit]
    rcases le_or_gt (m * 2 ^ d) (q : ℤ) with below | above
    · refine .inl ?_
      rw [Nat.cast_mul]
      exact mul_le_mul_of_nonneg_right (by exact_mod_cast below) pos
    · refine .inr ?_
      rw [Nat.cast_mul]
      exact mul_le_mul_of_nonneg_right (by exact_mod_cast above) pos
  · -- too small for the unit to matter
    refine .inl ?_
    have bound : (m : ℚ) ≤ 2 ^ p := by exact_mod_cast (le_abs_self m).trans small.le
    have unit : (2 : ℚ) ^ f ≤ 2 ^ ((e : ℤ) - 1) := zpow_le_zpow_right₀ one_le_two (by omega)
    calc (m : ℚ) * 2 ^ f ≤ 2 ^ p * 2 ^ f := mul_le_mul_of_nonneg_right bound (by positivity)
      _ ≤ 2 ^ p * 2 ^ ((e : ℤ) - 1) := mul_le_mul_of_nonneg_left unit (by positivity)
      _ ≤ (2 * q : ℕ) * 2 ^ ((e : ℤ) - 1) :=
        mul_le_mul_of_nonneg_right (by exact_mod_cast full) (by positivity)
      _ = (q * 2 ^ e : ℕ) := by
        rw [zpow_sub₀ two_ne_zero]
        push_cast
        rw [zpow_natCast]
        ring

end NearestRounding
