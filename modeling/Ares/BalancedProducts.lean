import Mathlib

/-! The reduction of a list by rounds: neighbours are combined in pairs, an odd last element is
passed up. -/

namespace BalancedProducts

open List

variable {α : Type*} (op : α → α → α)

def pairUp : List α → List α
  | [] => []
  | [a] => [a]
  | a :: b :: rest => op a b :: pairUp rest

@[simp] theorem length_pairUp (l : List α) : (pairUp op l).length = (l.length + 1) / 2 := by
  induction l using pairUp.induct with
  | case1 | case2 a => simp [pairUp]
  | case3 a b rest ih =>
    simp only [pairUp, length_cons]
    omega

def reduce (l : List α) : List α :=
  if 1 < l.length then reduce (pairUp op l) else l
termination_by l.length
decreasing_by
  rw [length_pairUp]
  omega

theorem length_reduce (l : List α) : (reduce op l).length = min 1 l.length := by
  induction l using reduce.induct op with
  | case1 l long ih =>
    rw [reduce, if_pos long, ih, length_pairUp]
    omega
  | case2 l short =>
    rw [reduce, if_neg short]
    omega

section

variable {op} {M : Type*} [Monoid M]

section

variable {f : α → M} (hom : ∀ a b, f (op a b) = f a * f b)
include hom

theorem prod_pairUp (l : List α) : ((pairUp op l).map f).prod = (l.map f).prod := by
  induction l using pairUp.induct with
  | case1 | case2 a => simp [pairUp]
  | case3 a b rest ih => simp only [pairUp, map_cons, prod_cons, ih, hom, mul_assoc]

theorem prod_reduce (l : List α) : ((reduce op l).map f).prod = (l.map f).prod := by
  induction l using reduce.induct op with
  | case1 l long ih => rw [reduce, if_pos long, ih, prod_pairUp hom]
  | case2 l short => rw [reduce, if_neg short]

end

theorem reduce_mul {l : List M} (nonempty : l ≠ []) : reduce (· * ·) l = [l.prod] := by
  have one : (reduce (· * ·) l).length = 1 := by
    have := length_pos_iff.mpr nonempty
    rw [length_reduce]
    omega
  have product : ((reduce (· * ·) l).map id).prod = (l.map id).prod :=
    prod_reduce (fun _ _ => rfl) l
  obtain ⟨x, eq⟩ := length_eq_one_iff.mp one
  rw [map_id, map_id, eq, prod_singleton] at product
  rw [eq, product]

end

section

variable {op} {d : α → ℕ}

/-- A round at depth `r`: no element is deeper, and the first one is that deep. -/
structure Ranked (d : α → ℕ) (r : ℕ) (l : List α) : Prop where
  le : ∀ a ∈ l, d a ≤ r
  head : ∀ a ∈ l.head?, d a = r

variable (succ : ∀ a b, d (op a b) = max (d a) (d b) + 1) {l : List α}
include succ

theorem le_pairUp {r : ℕ} (le : ∀ a ∈ l, d a ≤ r) : ∀ a ∈ pairUp op l, d a ≤ r + 1 := by
  induction l using pairUp.induct with
  | case1 => simp [pairUp]
  | case2 a =>
    have here := le a (by simp)
    simp only [pairUp, mem_singleton, forall_eq]
    omega
  | case3 a b rest ih =>
    have left := le a (by simp)
    have right := le b (by simp)
    intro c mem
    rw [pairUp, mem_cons] at mem
    rcases mem with rfl | mem
    · rw [succ]
      omega
    · exact ih (fun c mem => le c (by simp [mem])) c mem

theorem Ranked.pairUp {r : ℕ} (long : 1 < l.length) (ranked : Ranked d r l) :
    Ranked d (r + 1) (pairUp op l) := by
  refine ⟨le_pairUp succ ranked.le, ?_⟩
  obtain ⟨a, tail, rfl⟩ := exists_cons_of_length_pos (Nat.zero_lt_of_lt long)
  obtain ⟨b, rest, rfl⟩ := exists_cons_of_length_pos (Nat.lt_of_succ_lt_succ long)
  have first := ranked.head a rfl
  have second := ranked.le b (by simp)
  intro c mem
  obtain rfl : op a b = c := by simpa [BalancedProducts.pairUp] using mem
  rw [succ]
  omega

theorem Ranked.reduce {r : ℕ} (ranked : Ranked d r l) :
    Ranked d (r + Nat.clog 2 l.length) (reduce op l) := by
  induction l using reduce.induct op generalizing r with
  | case1 l long ih =>
    have rounds : Nat.clog 2 l.length = Nat.clog 2 ((l.length + 1) / 2) + 1 :=
      Nat.clog_of_two_le (by omega) long
    have next := ih (ranked.pairUp succ long)
    rw [length_pairUp] at next
    rw [BalancedProducts.reduce, if_pos long, rounds]
    convert next using 1
    omega
  | case2 l short =>
    rw [BalancedProducts.reduce, if_neg short, Nat.clog_of_right_le_one (by omega), add_zero]
    exact ranked

end

section

variable {ι R : Type*} [DecidableEq ι] [Semiring R]

theorem sum_map_ite_eq {l : List ι} (nodup : l.Nodup) {w : ι} (mem : w ∈ l) (f : ι → R) :
    (l.map fun i => if i = w then f i else 0).sum = f w := by
  rw [← List.sum_toFinset _ nodup, Finset.sum_ite_eq', if_pos (mem_toFinset.mpr mem)]

theorem sum_masks {l : List ι} (nodup : l.Nodup) {w : ι} (mem : w ∈ l) {sel : ι → ι → R}
    (wins : ∀ j ∈ l, j ≠ w → sel w j = 1) (beaten : ∀ i ∈ l, i ≠ w → sel i w = 0) (f : ι → R) :
    (l.map fun i => ((l.filter fun j => i ≠ j).map (sel i)).prod * f i).sum = f w := by
  rw [← sum_map_ite_eq nodup mem f]
  congr 1
  apply map_congr_left
  intro i inside
  by_cases here : i = w
  · subst here
    rw [if_pos rfl, prod_eq_one, one_mul]
    intro x factor
    obtain ⟨j, other, rfl⟩ := mem_map.mp factor
    obtain ⟨inside, ne⟩ := mem_filter.mp other
    exact wins j inside (Ne.symm (of_decide_eq_true ne))
  · have zero : (0 : R) ∈ (l.filter fun j => i ≠ j).map (sel i) := by
      refine mem_map.mpr ⟨w, mem_filter.mpr ⟨mem, decide_eq_true here⟩, ?_⟩
      exact beaten i inside here
    rw [if_neg here, prod_eq_zero zero, zero_mul]

end

section

def gather : List α → Option α
  | [] => none
  | a :: l => some (l.foldl op a)

theorem gather_getD {M : Type*} [AddMonoid M] (l : List M) : (gather (· + ·) l).getD 0 = l.sum := by
  cases l with
  | nil => rfl
  | cons a l => rw [gather, Option.getD_some, sum_eq_foldl, foldl_cons, zero_add]

theorem sum_filterMap {β M : Type*} [AddMonoid M] (f : β → Option M) (l : List β) :
    (l.filterMap f).sum = (l.map fun b => (f b).getD 0).sum := by
  induction l with
  | nil => rfl
  | cons b l ih =>
    rw [filterMap_cons, map_cons, sum_cons, ← ih]
    cases f b with
    | none => rw [Option.getD_none, zero_add]
    | some a => rw [Option.getD_some, sum_cons]

end

end BalancedProducts
