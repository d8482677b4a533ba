import Ares.ClearingCircuit

/-! The comparator is a half and an odd polynomial, a truncation of the series of tanh. An odd
number of terms returns to a half at 0 only, an even number does so elsewhere for a large gain. -/

namespace ComparatorSigns

open ClearingCircuit PoolClearing

def factor (m : ℕ) (w : ℚ) : ℚ := ∑ i ∈ Finset.range m, tanhSeries.getD i 0 * w ^ i

theorem factor_seven {m : ℕ} (long : 7 ≤ m) (w : ℚ) : factor m w = factor 7 w := by
  induction m, long using Nat.le_induction with
  | base => rfl
  | succ m long ih =>
    have ended : tanhSeries.getD m 0 = 0 := by
      rw [List.getD_eq_default]
      exact long
    rw [factor, Finset.sum_range_succ, ended, zero_mul, add_zero]
    exact ih

theorem evalPolyAt_logistic (degree : ℕ) (pos : 1 ≤ degree) (gain x : ℚ) :
    evalPolyAt (logisticCoeffs degree gain) x =
      1 / 2 + 1 / 2 * (gain / 2 * x) * factor ((degree + 1) / 2) ((gain / 2 * x) ^ 2) := by
  have clamped : ¬ (degree : ℤ) < 1 := by omega
  rw [logisticCoeffs]
  simp only [if_neg clamped, Int.toNat_natCast, evalPolyAt_map_range]
  clear clamped
  induction degree, pos using Nat.le_induction with
  | base =>
    simp [Finset.sum_range_succ, logisticCoeff, factor]
    ring
  | succ degree pos ih =>
    rw [Finset.sum_range_succ, ih]
    rcases Nat.even_or_odd' degree with ⟨i, rfl | rfl⟩
    · -- an odd power is added to both sides
      have before : (2 * i + 1) / 2 = i := by omega
      have after : (2 * i + 1 + 1) / 2 = i + 1 := by omega
      have term : logisticCoeff gain (2 * i + 1) =
          1 / 2 * tanhSeries.getD i 0 * (gain / 2) ^ (2 * i + 1) := by
        have half : (2 * i + 1) / 2 = i := by omega
        simp [logisticCoeff, half]
      rw [before, after, factor, factor, Finset.sum_range_succ, term, ← pow_mul]
      ring
    · have same : (2 * i + 1 + 1 + 1) / 2 = (2 * i + 1 + 1) / 2 := by omega
      have even : (2 * i + 1 + 1) % 2 = 0 := by omega
      have term : logisticCoeff gain (2 * i + 1 + 1) = 0 := by simp [logisticCoeff, even]
      rw [same, term, zero_mul, add_zero]

theorem quadratic_pos {a b c : ℚ} (lead : 0 < a) (discriminant : b ^ 2 < 4 * a * c) (x : ℚ) :
    0 < c + b * x + a * x ^ 2 := by
  have square := sq_nonneg (2 * a * x + b)
  have scaled : 0 < 4 * a * (c + b * x + a * x ^ 2) := by linarith
  exact pos_of_mul_pos_right scaled (by linarith)

theorem factor_pos_of_odd {m : ℕ} (odd : m = 1 ∨ m = 3 ∨ m = 5 ∨ 7 ≤ m) (w : ℚ) :
    0 < factor m w := by
  have low := quadratic_pos (a := 1 / 20) (b := -1 / 3) (c := 1) (by norm_num) (by norm_num) w
  have square := sq_nonneg w
  rcases odd with rfl | rfl | rfl | long
  · simp [factor, tanhSeries]
  · simp only [factor, Finset.sum_range_succ, tanhSeries]
    norm_num
    linarith
  · have high := quadratic_pos (a := 62 / 2835) (b := -17 / 315) (c := 2 / 15 - 1 / 20)
      (by norm_num) (by norm_num) w
    have product := mul_nonneg square high.le
    simp only [factor, Finset.sum_range_succ, tanhSeries]
    norm_num
    linarith
  · have middle := quadratic_pos (a := 1 / 100) (b := -17 / 315) (c := 2 / 15 - 1 / 20)
      (by norm_num) (by norm_num) w
    have high := quadratic_pos (a := 21844 / 6081075) (b := -1382 / 155925)
      (c := 62 / 2835 - 1 / 100) (by norm_num) (by norm_num) w
    have product := mul_nonneg square middle.le
    have product' := mul_nonneg (sq_nonneg (w ^ 2)) high.le
    rw [factor_seven long]
    simp only [factor, Finset.sum_range_succ, tanhSeries]
    norm_num
    linarith

theorem factor_anti_of_even {m : ℕ} (even : m = 2 ∨ m = 4 ∨ m = 6) {v w : ℚ} (le : v ≤ w) :
    factor m w ≤ factor m v := by
  have apart : 0 ≤ w - v := sub_nonneg.mpr le
  rcases even with rfl | rfl | rfl
  · simp only [factor, Finset.sum_range_succ, tanhSeries]
    norm_num
    linarith
  · have sum := quadratic_pos (a := 3 / 4 * (17 / 315)) (b := -2 / 15) (c := 1 / 3) (by norm_num)
      (by norm_num) (v + w)
    have slope : 0 ≤ 1 / 3 - 2 / 15 * (v + w) + 17 / 315 * (v ^ 2 + v * w + w ^ 2) := by
      have square := sq_nonneg (v - w)
      linarith
    have product := mul_nonneg apart slope
    simp only [factor, Finset.sum_range_succ, tanhSeries]
    norm_num
    linarith
  · have low := quadratic_pos (a := 1 / 50) (b := -2 / 15) (c := 1 / 3) (by norm_num)
      (by norm_num) (v + w)
    have high := quadratic_pos (a := 5 / 16 * (1382 / 155925)) (b := -1 / 2 * (62 / 2835))
      (c := 3 / 4 * (17 / 315) - 1 / 50) (by norm_num) (by norm_num) (v + w)
    have cross := quadratic_pos (a := 10 / 16 * (1382 / 155925)) (b := -1 / 2 * (62 / 2835))
      (c := 1 / 4 * (17 / 315)) (by norm_num) (by norm_num) (v + w)
    have slope : 0 ≤ 1 / 3 - 2 / 15 * (v + w) + 17 / 315 * (v ^ 2 + v * w + w ^ 2) -
        62 / 2835 * (v ^ 3 + v ^ 2 * w + v * w ^ 2 + w ^ 3) +
        1382 / 155925 * (v ^ 4 + v ^ 3 * w + v ^ 2 * w ^ 2 + v * w ^ 3 + w ^ 4) := by
      have sum := mul_nonneg (sq_nonneg (v + w)) high.le
      have difference := mul_nonneg (sq_nonneg (v - w)) cross.le
      have fourth := sq_nonneg ((v - w) ^ 2)
      linarith
    have product := mul_nonneg apart slope
    simp only [factor, Finset.sum_range_succ, tanhSeries]
    norm_num
    linarith

theorem factor_pos {m : ℕ} (terms : 1 ≤ m) {v w : ℚ} (le : v ≤ w) (last : 0 < factor m w) :
    0 < factor m v := by
  have parity : (m = 1 ∨ m = 3 ∨ m = 5 ∨ 7 ≤ m) ∨ m = 2 ∨ m = 4 ∨ m = 6 := by omega
  rcases parity with odd | even
  · exact factor_pos_of_odd odd v
  · exact last.trans_le (factor_anti_of_even even le)

def TellsSign (degree : ℤ) (gain : ℚ) : Prop :=
  ∀ x : ℚ, |x| ≤ 1 → (1 / 2 ≤ evalPolyAt (logisticCoeffs degree gain) x ↔ 0 ≤ x)

theorem tellsSign_iff {degree : ℕ} (pos : 1 ≤ degree) {gain : ℚ} (gain_pos : 0 < gain) :
    TellsSign degree gain ↔ 0 < factor ((degree + 1) / 2) ((gain / 2) ^ 2) := by
  have terms : 1 ≤ (degree + 1) / 2 := by omega
  constructor
  · intro tells
    by_contra low
    -- at 1 the comparator cannot be above a half, and at -1 it cannot be at a half
    have up := (tells 1 (by norm_num)).mpr zero_le_one
    have down := mt (tells (-1) (by norm_num)).mp (by norm_num)
    rw [logistic_odd] at down
    rw [evalPolyAt_logistic degree pos, mul_one] at up down
    have small : 1 / 2 * (gain / 2) * factor ((degree + 1) / 2) ((gain / 2) ^ 2) ≤ 0 :=
      mul_nonpos_of_nonneg_of_nonpos (by linarith) (not_lt.mp low)
    exact down (by linarith)
  · intro last x bound
    have square : (gain / 2 * x) ^ 2 ≤ (gain / 2) ^ 2 := by
      rw [mul_pow]
      apply mul_le_of_le_one_right (sq_nonneg _)
      rwa [sq_le_one_iff_abs_le_one]
    have positive := factor_pos terms square last
    rw [evalPolyAt_logistic degree pos, le_add_iff_nonneg_right, mul_nonneg_iff_left_nonneg_of_pos
      positive]
    constructor
    · intro nonneg
      by_contra negative
      have product := mul_neg_of_pos_of_neg gain_pos (not_le.mp negative)
      linarith
    · intro nonneg
      have product := mul_nonneg gain_pos.le nonneg
      linarith

def crossingWithin (tolerance : ℚ) (g : GridSpec) (step : List ℚ) (slot : ℤ) : ℤ :=
  ((Int.range 1 g.numBuckets).find? fun k =>
    1 / 2 - tolerance ≤ entry step (g.index slot k)).getD noClearing

def decodeCrossingWithin (tolerance : ℚ) (g : GridSpec) (step : List ℚ) : List ℤ :=
  (List.range g.numSlots.toNat).map fun (slot : ℕ) => crossingWithin tolerance g step slot

def FindsCrossing (degree : ℤ) (gain : ℚ) : Prop :=
  ∀ (n : ℕ) (g : GridSpec) (supply demand : List ℚ) (scale : ℚ), g.len ≤ n → 0 < scale →
    (∀ slot k, (0 ≤ slot ∧ slot < g.numSlots) → (1 ≤ k ∧ k < g.numBuckets) →
      |normalized g supply demand scale slot k| ≤ 1) →
    decodeCrossingWithin 0 g
        (decrypt (exactStep n supply demand (logisticCoeffs degree gain) scale)) =
      (List.range g.numSlots.toNat).map fun (slot : ℕ) =>
        (crossing g supply demand slot).getD noClearing

theorem TellsSign.findsCrossing {degree : ℤ} {gain : ℚ} (tells : TellsSign degree gain) :
    FindsCrossing degree gain := by
  intro n g supply demand scale room pos bounded
  apply List.map_congr_left
  intro slot mem
  have hslot : (0 : ℤ) ≤ slot ∧ (slot : ℤ) < g.numSlots := by
    have lt := List.mem_range.mp mem
    omega
  unfold crossingWithin crossing
  congr 1
  apply List.find?_congr
  intro k mem
  obtain ⟨lower, upper⟩ := Int.mem_range_iff.mp mem
  have reads := tells _ (bounded slot k hslot ⟨lower, upper⟩)
  rw [entry_step room hslot ⟨by omega, upper⟩, sub_zero, decide_eq_decide, stepAt, reads,
    ← not_lt, normalized_neg_iff pos]

/-- Degrees whose truncation has an even number of terms need a gain at which it is still
positive; `w` is the square of half the gain. -/
structure Tame (degree : ℤ) (gain : ℚ) : Prop where
  two_terms : degree = 3 ∨ degree = 4 → gain ^ 2 < 12
  four_terms : degree = 7 ∨ degree = 8 → ∀ w, w = (gain / 2) ^ 2 →
    0 < 1 - w / 3 + 2 * w ^ 2 / 15 - 17 * w ^ 3 / 315
  six_terms : degree = 11 ∨ degree = 12 → ∀ w, w = (gain / 2) ^ 2 →
    0 < 1 - w / 3 + 2 * w ^ 2 / 15 - 17 * w ^ 3 / 315 + 62 * w ^ 4 / 2835 -
      1382 * w ^ 5 / 155925

theorem tame_iff {degree : ℕ} (pos : 1 ≤ degree) (gain : ℚ) :
    Tame degree gain ↔ 0 < factor ((degree + 1) / 2) ((gain / 2) ^ 2) := by
  have parity : ((degree + 1) / 2 = 1 ∨ (degree + 1) / 2 = 3 ∨ (degree + 1) / 2 = 5 ∨
      7 ≤ (degree + 1) / 2) ∨ (degree + 1) / 2 = 2 ∨ (degree + 1) / 2 = 4 ∨
      (degree + 1) / 2 = 6 := by omega
  rcases parity with odd | two | four | six
  · apply iff_of_true _ (factor_pos_of_odd odd _)
    constructor <;> intro degrees <;> omega
  · have value : factor 2 ((gain / 2) ^ 2) = 1 - gain ^ 2 / 12 := by
      simp only [factor, Finset.sum_range_succ, tanhSeries]
      norm_num
      ring
    rw [two, value]
    constructor
    · intro tame
      have bound := tame.two_terms (by omega)
      linarith
    · intro last
      exact ⟨fun _ => by linarith, by omega, by omega⟩
  · have value : ∀ w, factor 4 w = 1 - w / 3 + 2 * w ^ 2 / 15 - 17 * w ^ 3 / 315 := by
      intro w
      simp only [factor, Finset.sum_range_succ, tanhSeries]
      norm_num
      ring
    rw [four, value]
    constructor
    · intro tame
      exact tame.four_terms (by omega) _ rfl
    · intro last
      exact ⟨by omega, fun _ w eq => eq ▸ last, by omega⟩
  · have value : ∀ w, factor 6 w = 1 - w / 3 + 2 * w ^ 2 / 15 - 17 * w ^ 3 / 315 +
        62 * w ^ 4 / 2835 - 1382 * w ^ 5 / 155925 := by
      intro w
      simp only [factor, Finset.sum_range_succ, tanhSeries]
      norm_num
      ring
    rw [six, value]
    constructor
    · intro tame
      exact tame.six_terms (by omega) _ rfl
    · intro last
      exact ⟨by omega, by omega, fun _ w eq => eq ▸ last⟩

/-- The comparator tells the sign of every normalised excess, and the readout finds the crossing,
exactly for the degrees with an odd number of terms and, with an even number, for the gains at which
the truncation has not yet fallen to a half. -/
theorem comparator_sign_iff {degree : ℤ} (pos : 1 ≤ degree) {gain : ℚ} (gain_pos : 0 < gain) :
    TellsSign degree gain ∧ FindsCrossing degree gain ↔ Tame degree gain := by
  obtain ⟨d, rfl⟩ := Int.eq_ofNat_of_zero_le (by omega : 0 ≤ degree)
  have pos' : 1 ≤ d := by omega
  rw [tame_iff pos', ← tellsSign_iff pos' gain_pos]
  exact ⟨fun both => both.1, fun tells => ⟨tells, tells.findsCrossing⟩⟩

theorem comparator_sign_iff_thirteen : TellsSign 13 4 ∧ FindsCrossing 13 4 :=
  (comparator_sign_iff (by decide) (by decide +kernel)).mpr
    ⟨by omega, by omega, by omega⟩

/-- Two terms at a gain of 4: the comparator has fallen to a sixth at full excess, and the bucket is
passed over. -/
theorem cubic_passes_over :
    let step : Slots 2 := exactStep 2 [0, 2] [1, 1] (logisticCoeffs 3 4) 1
    evalPolyAt (logisticCoeffs 3 4) 1 = 1 / 6 ∧ ¬ TellsSign 3 4 ∧
      crossing ⟨1, 2, 1⟩ [0, 2] [1, 1] 0 = some 1 ∧
      decodeCrossingWithin 0 ⟨1, 2, 1⟩ (decrypt step) = [noClearing] := by
  have value : evalPolyAt (logisticCoeffs 3 4) 1 = 1 / 6 := by decide +kernel
  refine ⟨value, ?_, by decide +kernel, by decide +kernel⟩
  intro tells
  have above := (tells 1 (by norm_num)).mpr zero_le_one
  rw [value] at above
  norm_num at above

end ComparatorSigns
