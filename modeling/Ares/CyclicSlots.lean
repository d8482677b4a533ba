import Mathlib

/-! A vector of values at the positions of an additive group with a unit: rotation, the sum of a
window of positions, and the doubling loop of rotations and additions that computes it, in either
direction. -/

namespace CyclicSlots

open List Finset

def doublings (bound : ℕ) : ℕ → ℕ → List ℕ
  | 0, _ => []
  | fuel + 1, shift => if shift < bound then shift :: doublings bound fuel (2 * shift) else []

def shifts (bound : ℕ) : List ℕ := doublings bound bound 1

theorem doublings_eq {bound fuel j : ℕ} (enough : Nat.clog 2 bound ≤ j + fuel)
    (low : j ≤ Nat.clog 2 bound) :
    doublings bound fuel (2 ^ j) = (List.range (Nat.clog 2 bound - j)).map fun i =>
      2 ^ (j + i) := by
  induction fuel generalizing j with
  | zero => rw [show Nat.clog 2 bound - j = 0 by omega, doublings, List.range_zero, List.map_nil]
  | succ fuel ih =>
    have short : 2 ^ j < bound ↔ j < Nat.clog 2 bound := by
      rw [← not_le, ← not_le, ← Nat.clog_le_iff_le_pow (by omega)]
    rw [doublings]
    by_cases more : j < Nat.clog 2 bound
    · have rest := ih (j := j + 1) (by omega) (by omega)
      rw [if_pos (short.mpr more), ← pow_succ', rest,
        show Nat.clog 2 bound - j = Nat.clog 2 bound - (j + 1) + 1 by omega,
        List.range_succ_eq_map, List.map_cons, List.map_map, add_zero]
      congr 1
      apply map_congr_left
      intro i _
      rw [Function.comp_apply, Nat.succ_eq_add_one, show j + 1 + i = j + (i + 1) by omega]
    · rw [if_neg (mt short.mp more), show Nat.clog 2 bound - j = 0 by omega, List.range_zero,
        map_nil]

theorem shifts_eq (bound : ℕ) :
    shifts bound = (List.range (Nat.clog 2 bound)).map fun i => 2 ^ i := by
  have enough : Nat.clog 2 bound ≤ bound :=
    (Nat.clog_le_iff_le_pow (by omega)).mpr (Nat.lt_two_pow_self).le
  have loop : doublings bound bound (2 ^ 0) = _ := doublings_eq (by omega) (by omega)
  rw [shifts]
  simpa using loop

section

variable {G R : Type*} [AddGroupWithOne G]

def rotate (k : ℤ) (v : G → R) : G → R := fun s => v (s + k)

variable [AddCommMonoid R]

def window (w : ℕ) (v : G → R) : G → R := fun s => ∑ t ∈ Finset.range w, v (s + t)

def windowBack (w : ℕ) (v : G → R) : G → R := fun s => ∑ t ∈ Finset.range w, v (s - t)

def foldDoubling (direction : ℤ) (bound : ℕ) (v : G → R) : G → R :=
  (shifts bound).foldl (fun acc (shift : ℕ) => acc + rotate (direction * shift) acc) v

theorem foldl_rotate (direction : ℤ) (k : ℕ) (v : G → R) (s : G) :
    ((List.range k).map fun i => 2 ^ i).foldl
        (fun acc (shift : ℕ) => acc + rotate (direction * shift) acc) v s =
      ∑ t ∈ Finset.range (2 ^ k), v (s + (direction * t : ℤ)) := by
  induction k generalizing s with
  | zero => simp
  | succ k ih =>
    rw [List.range_succ, List.map_append, List.foldl_append, List.map_singleton,
      foldl_cons, foldl_nil, Pi.add_apply, rotate, ih, ih, pow_succ, mul_two,
      sum_range_add]
    congr 1
    apply sum_congr rfl
    intro t _
    rw [add_assoc, ← Int.cast_add, ← mul_add]
    rfl

theorem foldDoubling_forward (bound : ℕ) (v : G → R) :
    foldDoubling 1 bound v = window (2 ^ Nat.clog 2 bound) v := by
  funext s
  rw [foldDoubling, shifts_eq, foldl_rotate, window]
  simp

theorem foldDoubling_back (bound : ℕ) (v : G → R) :
    foldDoubling (-1) bound v = windowBack (2 ^ Nat.clog 2 bound) v := by
  funext s
  rw [foldDoubling, shifts_eq, foldl_rotate, windowBack]
  simp [sub_eq_add_neg]

theorem window_of_le {n w : ℕ} (le : n ≤ w) (v : G → R) (s : G) :
    window w v s = window n v s + ∑ t ∈ Finset.Ico n w, v (s + t) := by
  rw [window, window, sum_range_add_sum_Ico _ le]

theorem window_eq_of_zero {n w : ℕ} (le : n ≤ w) {v : G → R} {s : G}
    (zero : ∀ t, n ≤ t → t < w → v (s + t) = 0) : window w v s = window n v s := by
  rw [window_of_le le, Finset.sum_eq_zero, add_zero]
  intro t mem
  rw [Finset.mem_Ico] at mem
  exact zero t mem.1 mem.2

theorem foldDoubling_first {n : ℕ} {v : G → R}
    (zero : ∀ t : ℕ, n ≤ t → t < 2 ^ Nat.clog 2 n → v t = 0) :
    foldDoubling 1 n v 0 = ∑ t ∈ Finset.range n, v t := by
  rw [foldDoubling_forward, window_eq_of_zero (Nat.le_pow_clog (by omega) n)]
  · simp [window]
  · simpa only [zero_add] using zero

end

section

variable {m : ℕ} {R : Type*} [AddCommMonoid R]

theorem cast_inj_of_lt {a b : ℕ} (ha : a < m) (hb : b < m) : (a : ZMod m) = b ↔ a = b := by
  rw [ZMod.natCast_eq_natCast_iff', Nat.mod_eq_of_lt ha, Nat.mod_eq_of_lt hb]

theorem window_all [NeZero m] (v : ZMod m → R) (s : ZMod m) : window m v s = ∑ p, v p := by
  refine sum_nbij (fun t : ℕ => s + t) (fun _ _ => mem_univ _) ?_ ?_
    fun _ _ => rfl
  · intro a ha b hb eq
    rw [coe_range, Set.mem_Iio] at ha hb
    exact (cast_inj_of_lt ha hb).mp (add_left_cancel eq)
  · intro p _
    refine ⟨(p - s).val, ?_, ?_⟩
    · rw [coe_range, Set.mem_Iio]
      exact ZMod.val_lt _
    · dsimp only
      rw [ZMod.natCast_val, ZMod.cast_id', id_eq, add_sub_cancel]

def firstOnly (v : ZMod m → R) : ZMod m → R := fun s => if s = 0 then v s else 0

theorem foldDoubling_firstOnly {n : ℕ} (fits : 2 ^ Nat.clog 2 n ≤ m) (v : ZMod m → R) {q : ℕ}
    (small : q < n) : foldDoubling (-1) n (firstOnly v) q = v 0 := by
  have reach : q < 2 ^ Nat.clog 2 n := small.trans_le (Nat.le_pow_clog (by omega) n)
  rw [foldDoubling_back, windowBack, sum_eq_single_of_mem q (mem_range.mpr reach)]
  · rw [sub_self, firstOnly, if_pos rfl]
  · intro t mem ne
    rw [Finset.mem_range] at mem
    rw [firstOnly, if_neg]
    intro zero
    exact ne ((cast_inj_of_lt (by omega) (by omega)).mp (sub_eq_zero.mp zero)).symm

theorem mul_first {R : Type*} [CommRing R] (v : ZMod m → R) :
    (v * fun s => if s = 0 then 1 else 0) = firstOnly v := by
  funext s
  rw [Pi.mul_apply, firstOnly, mul_ite, mul_one, mul_zero]

end

end CyclicSlots
