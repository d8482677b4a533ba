import Mathlib

/-! Three ways to keep powers at hand: every power up to a bound, the powers at powers of two, and
any power from the latter by the binary digits of its exponent. -/

namespace PowerTables

open List

section

variable {M : Type*} [Monoid M]

def extend (t : List M) (i : ℕ) : List M := t ++ [t.getD (i / 2) 1 * t.getD (i - i / 2) 1]

def table (one x : M) (count : ℕ) : List M :=
  ((List.range (count - 2)).map fun i => i + 2).foldl extend [one, x]

theorem extend_powers (x : M) {n : ℕ} (two : 2 ≤ n) :
    extend ((List.range n).map (x ^ ·)) n = (List.range (n + 1)).map (x ^ ·) := by
  have entry : ∀ i < n, ((List.range n).map (x ^ ·)).getD i 1 = x ^ i := by
    intro i small
    rw [getD_eq_getElem?_getD, List.getElem?_map, List.getElem?_range small]
    rfl
  rw [extend, entry _ (by omega), entry _ (by omega), ← pow_add, range_succ, map_append,
    show n / 2 + (n - n / 2) = n by omega, map_singleton]

theorem foldl_extend (x : M) (k : ℕ) :
    ((List.range k).map fun i => i + 2).foldl extend [1, x] = (List.range (k + 2)).map (x ^ ·) := by
  induction k with
  | zero => simp [range_succ]
  | succ k ih =>
    rw [range_succ, map_append, foldl_append, ih, map_singleton,
      foldl_cons, foldl_nil, extend_powers x (by omega)]

theorem table_getElem? (x : M) {count i : ℕ} (small : i < count) :
    (table 1 x count)[i]? = some (x ^ i) := by
  rw [table, foldl_extend, List.getElem?_map, List.getElem?_range (by omega)]
  rfl

end

section

variable {M : Type*} [Monoid M]

def squarings (maxExp : ℕ) : ℕ → ℕ → M → List M
  | 0, _, _ => []
  | fuel + 1, covered, last =>
    if covered * 2 ≤ maxExp then last * last :: squarings maxExp fuel (covered * 2) (last * last)
    else []

def powerOfTwoCache (base : M) (maxExp : ℕ) : List M :=
  if maxExp = 0 then [] else base :: squarings maxExp maxExp 1 base

theorem squarings_getElem? (base : M) {maxExp fuel j b : ℕ} (enough : b < fuel)
    (inside : 2 ^ (j + b + 1) ≤ maxExp) :
    (squarings maxExp fuel (2 ^ j) (base ^ 2 ^ j))[b]? = some (base ^ 2 ^ (j + b + 1)) := by
  induction b generalizing fuel j with
  | zero =>
    obtain ⟨fuel, rfl⟩ : ∃ f, fuel = f + 1 := ⟨fuel - 1, by omega⟩
    have more : 2 ^ j * 2 ≤ maxExp := by
      exact inside
    rw [squarings, if_pos more, List.getElem?_cons_zero, ← pow_add, ← mul_two, ← pow_succ, add_zero]
  | succ b ih =>
    obtain ⟨fuel, rfl⟩ : ∃ f, fuel = f + 1 := ⟨fuel - 1, by omega⟩
    have deeper : 2 ^ (j + 1 + b + 1) ≤ maxExp := by
      rw [show j + 1 + b + 1 = j + (b + 1) + 1 by omega]
      exact inside
    have more : 2 ^ j * 2 ≤ maxExp := by
      rw [← pow_succ]
      exact (Nat.pow_le_pow_right (by omega) (by omega)).trans inside
    have rest : (squarings maxExp fuel (2 ^ (j + 1)) (base ^ 2 ^ (j + 1)))[b]? = _ :=
      ih (by omega) deeper
    rw [squarings, if_pos more, List.getElem?_cons_succ, ← pow_add, ← mul_two, ← pow_succ, rest,
      show j + 1 + b + 1 = j + (b + 1) + 1 by omega]

theorem powerOfTwoCache_getElem? (base : M) {maxExp b : ℕ} (inside : 2 ^ b ≤ maxExp) :
    (powerOfTwoCache base maxExp)[b]? = some (base ^ 2 ^ b) := by
  have positive : maxExp ≠ 0 := by
    have := Nat.two_pow_pos b
    omega
  rw [powerOfTwoCache, if_neg positive]
  cases b with
  | zero => simp
  | succ b =>
    have below : b < maxExp := by
      have := Nat.lt_two_pow_self (n := b + 1)
      omega
    have entry := squarings_getElem? base (j := 0) below (by simpa using inside)
    simpa using entry

def binaryFactors (powers : List M) : ℕ → ℕ → ℕ → Option (List M)
  | 0, _, _ => some []
  | fuel + 1, exponent, bit =>
    if exponent = 0 then some []
    else if exponent % 2 = 1 then do
      let power ← powers[bit]?
      let rest ← binaryFactors powers fuel (exponent / 2) (bit + 1)
      return power :: rest
    else binaryFactors powers fuel (exponent / 2) (bit + 1)

theorem binaryFactors_prod {powers : List M} {y : M} {maxExp : ℕ}
    (cached : ∀ b, 2 ^ b ≤ maxExp → powers[b]? = some (y ^ 2 ^ b)) {fuel exponent bit : ℕ}
    (enough : exponent ≤ fuel) (inside : exponent * 2 ^ bit ≤ maxExp) :
    ∃ factors, binaryFactors powers fuel exponent bit = some factors ∧
      factors.prod = y ^ (exponent * 2 ^ bit) ∧ (0 < exponent → factors ≠ []) := by
  induction fuel generalizing exponent bit with
  | zero =>
    obtain rfl : exponent = 0 := by omega
    exact ⟨[], rfl, by simp, by simp⟩
  | succ fuel ih =>
    by_cases zero : exponent = 0
    · subst zero
      exact ⟨[], by simp [binaryFactors], by simp, by simp⟩
    · have shifted : exponent / 2 * 2 ^ (bit + 1) + exponent % 2 * 2 ^ bit =
          exponent * 2 ^ bit := by
        rw [pow_succ']
        calc exponent / 2 * (2 * 2 ^ bit) + exponent % 2 * 2 ^ bit
            = (2 * (exponent / 2) + exponent % 2) * 2 ^ bit := by ring
          _ = exponent * 2 ^ bit := by rw [Nat.div_add_mod]
      obtain ⟨rest, found, product, nonempty⟩ :
          ∃ rest, binaryFactors powers fuel (exponent / 2) (bit + 1) = some rest ∧ _ :=
        ih (by omega) (by omega)
      by_cases odd : exponent % 2 = 1
      · rw [odd, one_mul] at shifted
        have power := cached bit (by omega)
        refine ⟨y ^ 2 ^ bit :: rest, ?_, ?_, by simp⟩
        · rw [binaryFactors, if_neg zero, if_pos odd, power, found]
          rfl
        · rw [prod_cons, product, ← pow_add, ← shifted, add_comm]
      · rw [show exponent % 2 = 0 by omega, zero_mul, add_zero] at shifted
        refine ⟨rest, ?_, ?_, ?_⟩
        · rw [binaryFactors, if_neg zero, if_neg odd, found]
        · rw [product, shifted]
        · intro _
          exact nonempty (by omega)

end

section

theorem sum_range_blocks {M : Type*} [AddCommMonoid M] (f : ℕ → M) (k blocks : ℕ) :
    ∑ j ∈ Finset.range (blocks * k), f j =
      ∑ b ∈ Finset.range blocks, ∑ i ∈ Finset.range k, f (b * k + i) := by
  induction blocks with
  | zero => simp
  | succ blocks ih => rw [Finset.sum_range_succ, ← ih, add_mul, one_mul, Finset.sum_range_add]

end

end PowerTables
