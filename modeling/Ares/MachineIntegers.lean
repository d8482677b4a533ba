import Mathlib.Data.Nat.Log
import Mathlib.Data.Nat.Bitwise

/-! The wrap of a signed word, the bit trick that rounds a word up to a power of two, and the loop
that reaches the same power by doubling. -/
namespace MachineIntegers

def int32 (x : ℤ) : ℤ := (x + 2 ^ 31) % 2 ^ 32 - 2 ^ 31

def int64 (x : ℤ) : ℤ := (x + 2 ^ 63) % 2 ^ 64 - 2 ^ 63

def InInt32 (x : ℤ) : Prop := -2 ^ 31 ≤ x ∧ x < 2 ^ 31

instance : DecidablePred InInt32 := fun x =>
  inferInstanceAs (Decidable (-2 ^ 31 ≤ x ∧ x < 2 ^ 31))

theorem int32_of_inInt32 {x : ℤ} (h : InInt32 x) : int32 x = x := by
  unfold InInt32 at h
  unfold int32
  omega

theorem int32_sub_int32 (x y : ℤ) : int32 (int32 x - y) = int32 (x - y) := by
  unfold int32
  omega

theorem int32_of_overflow {x : ℤ} (low : 2 ^ 31 ≤ x) (high : x < 2 ^ 32 + 2 ^ 31) :
    int32 x = x - 2 ^ 32 := by
  unfold int32
  omega

def smear (v : ℕ) : ℕ :=
  let v := v ||| v >>> 1
  let v := v ||| v >>> 2
  let v := v ||| v >>> 4
  let v := v ||| v >>> 8
  v ||| v >>> 16

theorem testBit_or_shiftRight {x v w : ℕ}
    (gathered : ∀ i, v.testBit i = true ↔ ∃ j < w, x.testBit (i + j) = true) (i : ℕ) :
    (v ||| v >>> w).testBit i = true ↔ ∃ j < 2 * w, x.testBit (i + j) = true := by
  rw [Nat.testBit_or, Nat.testBit_shiftRight, Bool.or_eq_true, gathered, gathered]
  constructor
  · intro h
    rcases h with ⟨j, small, set⟩ | ⟨j, small, set⟩
    · exact ⟨j, by omega, set⟩
    · exact ⟨w + j, by omega, by rwa [show i + (w + j) = w + i + j by omega]⟩
  · intro h
    obtain ⟨j, small, set⟩ := h
    by_cases near : j < w
    · exact Or.inl ⟨j, near, set⟩
    · exact Or.inr ⟨j - w, by omega, by rwa [show w + i + (j - w) = i + j by omega]⟩

theorem testBit_smear (x i : ℕ) :
    (smear x).testBit i = true ↔ ∃ j < 32, x.testBit (i + j) = true := by
  have one : ∀ i, x.testBit i = true ↔ ∃ j < 1, x.testBit (i + j) = true := by
    intro i
    constructor
    · intro set
      exact ⟨0, by omega, set⟩
    · intro h
      obtain ⟨j, small, set⟩ := h
      rwa [show i + j = i by omega] at set
  exact testBit_or_shiftRight (testBit_or_shiftRight (testBit_or_shiftRight
    (testBit_or_shiftRight (testBit_or_shiftRight one)))) i

theorem smear_eq {x : ℕ} (positive : x ≠ 0) (word : x < 2 ^ 32) :
    smear x = 2 ^ (x.log2 + 1) - 1 := by
  apply Nat.eq_of_testBit_eq
  intro i
  rw [Bool.eq_iff_iff, testBit_smear, Nat.testBit_two_pow_sub_one, decide_eq_true_eq]
  constructor
  · intro h
    obtain ⟨j, _, set⟩ := h
    by_contra above
    have small : x < 2 ^ (i + j) := (Nat.log2_lt positive).mp (by omega)
    rw [Nat.testBit_lt_two_pow small] at set
    exact Bool.false_ne_true set
  · intro below
    have top : x.log2 < 32 := (Nat.log2_lt positive).mpr word
    refine ⟨x.log2 - i, by omega, ?_⟩
    rw [show i + (x.log2 - i) = x.log2 by omega]
    exact Nat.testBit_log2 positive

/-- The bit trick on an unsigned word; the final increment wraps. -/
def nextPowerOfTwo (value : ℕ) : ℕ :=
  if value ≤ 1 then 1 else (smear (value - 1) + 1) % 2 ^ 32

variable {v : ℕ}

theorem clog_two_eq (h : 1 < v) : Nat.clog 2 v = (v - 1).log2 + 1 := by
  have positive : v - 1 ≠ 0 := by omega
  apply le_antisymm
  · rw [Nat.clog_le_iff_le_pow (by omega)]
    have := (Nat.log2_lt positive).mp (Nat.lt_succ_self _)
    omega
  · by_contra above
    have fits : v ≤ 2 ^ (v - 1).log2 := (Nat.clog_le_iff_le_pow (by omega)).mp (by omega)
    have low := Nat.log2_self_le positive
    omega

theorem nextPowerOfTwo_eq (h : v ≤ 2 ^ 31) : nextPowerOfTwo v = 2 ^ Nat.clog 2 v := by
  unfold nextPowerOfTwo
  split
  · next small => rw [Nat.clog_of_right_le_one small, pow_zero]
  · have rounded := (Nat.clog_le_iff_le_pow (by omega)).mpr h
    have bound : 2 ^ Nat.clog 2 v ≤ 2 ^ 31 := Nat.pow_le_pow_right (by omega) rounded
    have positive : 0 < 2 ^ Nat.clog 2 v := Nat.two_pow_pos _
    rw [smear_eq (by omega) (by omega), ← clog_two_eq (by omega)]
    omega

/-- The doubling loop. A word has at most sixty-three doublings before it overflows. -/
def doubleUpTo (bound : ℤ) : ℕ → ℤ → ℤ
  | 0, size => size
  | fuel + 1, size => if size < bound then doubleUpTo bound fuel (2 * size) else size

theorem doubleUpTo_pow {v fuel j : ℕ} (enough : Nat.clog 2 v ≤ j + fuel)
    (low : j ≤ Nat.clog 2 v) : doubleUpTo v fuel (2 ^ j) = 2 ^ Nat.clog 2 v := by
  induction fuel generalizing j with
  | zero => rw [doubleUpTo, show j = Nat.clog 2 v by omega]
  | succ fuel ih =>
    rw [doubleUpTo]
    split
    · have grows : j < Nat.clog 2 v := by
        by_contra reached
        have fits : v ≤ 2 ^ j := (Nat.clog_le_iff_le_pow (by omega)).mp (by omega)
        have : (v : ℤ) ≤ 2 ^ j := by exact_mod_cast fits
        omega
      rw [← pow_succ']
      exact ih (by omega) (by omega)
    · next reached =>
      have fits : v ≤ 2 ^ j := by exact_mod_cast not_lt.mp reached
      rw [show j = Nat.clog 2 v from
        le_antisymm low ((Nat.clog_le_iff_le_pow (by omega)).mpr fits)]

theorem doubleUpTo_one (h : v ≤ 2 ^ 31) : doubleUpTo v 63 1 = nextPowerOfTwo v := by
  have rounded := (Nat.clog_le_iff_le_pow (by omega)).mpr h
  have looped : doubleUpTo v 63 (2 ^ 0) = 2 ^ Nat.clog 2 v := doubleUpTo_pow (by omega) (by omega)
  rw [nextPowerOfTwo_eq h]
  simpa using looped

theorem nextPowerOfTwo_pos (h : v ≤ 2 ^ 31) : 0 < nextPowerOfTwo v := by
  rw [nextPowerOfTwo_eq h]
  exact Nat.two_pow_pos _

theorem nextPowerOfTwo_le {v k : ℕ} (h : v ≤ 2 ^ k) (word : k ≤ 31) : nextPowerOfTwo v ≤ 2 ^ k := by
  have top : (2 : ℕ) ^ k ≤ 2 ^ 31 := Nat.pow_le_pow_right (by omega) word
  rw [nextPowerOfTwo_eq (h.trans top)]
  exact Nat.pow_le_pow_right (by omega) ((Nat.clog_le_iff_le_pow (by omega)).mpr h)

theorem nextPowerOfTwo_top (low : 2 ^ 30 < v) (h : v ≤ 2 ^ 31) : nextPowerOfTwo v = 2 ^ 31 := by
  have rounded := (Nat.clog_le_iff_le_pow (by omega)).mpr h
  have above : ¬ Nat.clog 2 v ≤ 30 := by
    rw [Nat.clog_le_iff_le_pow (by omega)]
    omega
  rw [nextPowerOfTwo_eq h, show Nat.clog 2 v = 31 by omega]

end MachineIntegers
