import Mathlib

/-! A list of orders, each with a price in a linear order and a quantity in an ordered field. -/

namespace StepCurves

section

variable {ι P K : Type*} [Field K] {price : ι → P} {qty : ι → K}

def weigh (price : ι → P) (qty : ι → K) (w : P → K) (orders : List ι) : K :=
  (orders.map fun o => w (price o) * qty o).sum

@[simp] theorem weigh_nil (w : P → K) : weigh price qty w [] = 0 := rfl

@[simp] theorem weigh_cons (w : P → K) (o : ι) (orders : List ι) :
    weigh price qty w (o :: orders) = w (price o) * qty o + weigh price qty w orders := by
  simp [weigh]

theorem weigh_combination (a b : K) (u v : P → K) (orders : List ι) :
    weigh price qty (fun x => a * u x + b * v x) orders =
      a * weigh price qty u orders + b * weigh price qty v orders := by
  induction orders with
  | nil => simp
  | cons o orders ih =>
    simp only [weigh_cons, ih]
    ring

section

variable [LinearOrder K] [IsStrictOrderedRing K] {orders : List ι}
  (nonneg : ∀ o ∈ orders, 0 ≤ qty o)

include nonneg

theorem weigh_mono {u v : P → K} (le : ∀ x, u x ≤ v x) :
    weigh price qty u orders ≤ weigh price qty v orders := by
  induction orders with
  | nil => simp
  | cons o orders ih =>
    have head := mul_le_mul_of_nonneg_right (le (price o)) (nonneg o (by simp))
    have tail := ih fun o' mem => nonneg o' (by simp [mem])
    simpa using add_le_add head tail

theorem weigh_nonneg {w : P → K} (weights : ∀ x, 0 ≤ w x) : 0 ≤ weigh price qty w orders := by
  have zero : weigh price qty (fun _ => (0 : K)) orders = 0 := by simp [weigh]
  rw [← zero]
  exact weigh_mono nonneg weights

end

variable [LinearOrder P]

def upTo (p x : P) : K := if x ≤ p then 1 else 0
def below (p x : P) : K := if x < p then 1 else 0
def atLeast (p x : P) : K := if p ≤ x then 1 else 0

def share (infra marg : K) (p x : P) : K :=
  if x < p then infra else if x = p then marg else 0

theorem share_eq (infra marg : K) (p x : P) :
    share infra marg p x = (infra - marg) * below p x + marg * upTo p x := by
  unfold share below upTo
  rcases lt_trichotomy x p with lt | rfl | gt
  · simp [lt, lt.le]
  · simp
  · simp [gt.not_gt, gt.ne', gt.not_ge]

theorem weigh_share (infra marg : K) (p : P) (orders : List ι) :
    weigh price qty (share infra marg p) orders = infra * weigh price qty (below p) orders +
        marg * (weigh price qty (upTo p) orders - weigh price qty (below p) orders) := by
  have split_weight : share infra marg p =
      fun x => (infra - marg) * below p x + marg * upTo p x := by
    funext x
    exact share_eq ..
  rw [split_weight, weigh_combination]
  ring

variable [LinearOrder K] [IsStrictOrderedRing K]

theorem taken_le {p q : Prop} [Decidable p] [Decidable q] (more : p → q) :
    (if p then 1 else 0 : K) ≤ if q then 1 else 0 := by
  split
  · rw [if_pos (more ‹_›)]
  · split
    · exact zero_le_one
    · exact le_rfl

theorem taken_nonneg (p : Prop) [Decidable p] : (0 : K) ≤ if p then 1 else 0 := by
  split
  · exact zero_le_one
  · exact le_rfl

theorem below_le_upTo (p x : P) : (below p x : K) ≤ upTo p x := taken_le le_of_lt

theorem upTo_mono {p q : P} (le : p ≤ q) (x : P) : (upTo p x : K) ≤ upTo q x :=
  taken_le fun reach => reach.trans le

theorem upTo_nonneg (p x : P) : (0 : K) ≤ upTo p x := taken_nonneg _

theorem atLeast_nonneg (p x : P) : (0 : K) ≤ atLeast p x := taken_nonneg _

end

section

variable {K : Type*} [Field K] [LinearOrder K] [IsStrictOrderedRing K] {below total level : K}

def infraRatio (below level : K) : K := if level < below ∧ 0 < below then level / below else 1

def clamp (x : K) : K :=
  let x := if x < 0 then 0 else x
  if 1 < x then 1 else x

def margRatio (below total level : K) : K :=
  if 0 < total - below then clamp ((level - below) / (total - below)) else 0

theorem infraRatio_mem {below level : K} (pos : 0 ≤ level) :
    0 ≤ infraRatio below level ∧ infraRatio below level ≤ 1 := by
  unfold infraRatio
  split
  · rename_i h
    exact ⟨div_nonneg pos h.2.le, (div_le_one h.2).mpr h.1.le⟩
  · exact ⟨zero_le_one, le_rfl⟩

theorem infraRatio_pos {below level : K} (pos : 0 < level) : 0 < infraRatio below level := by
  unfold infraRatio
  split
  · exact div_pos pos (‹_ ∧ _›).2
  · exact zero_lt_one

theorem clamp_mem (x : K) : 0 ≤ clamp x ∧ clamp x ≤ 1 := by
  unfold clamp
  dsimp only
  split_ifs with neg big big
  · exact ⟨zero_le_one, le_rfl⟩
  · exact ⟨le_rfl, zero_le_one⟩
  · exact ⟨zero_le_one, le_rfl⟩
  · exact ⟨not_lt.mp neg, not_lt.mp big⟩

theorem clamp_of_neg {x : K} (neg : x < 0) : clamp x = 0 := by
  simp [clamp, neg]

omit [IsStrictOrderedRing K] in
theorem clamp_of_mem {x : K} (nonneg : 0 ≤ x) (small : x ≤ 1) : clamp x = x := by
  simp [clamp, nonneg.not_gt, small.not_gt]

theorem margRatio_mem (below total level : K) :
    0 ≤ margRatio below total level ∧ margRatio below total level ≤ 1 := by
  unfold margRatio
  split
  · exact clamp_mem _
  · exact ⟨le_rfl, zero_le_one⟩

theorem margRatio_of_oversupply (oversupply : level < below) : margRatio below total level = 0 := by
  unfold margRatio
  split
  · rename_i tranche
    exact clamp_of_neg (div_neg_of_neg_of_pos (sub_neg.mpr oversupply) tranche)
  · rfl

theorem margRatio_of_within (lower : below ≤ level) (upper : level ≤ total)
    (tranche : 0 < total - below) :
    margRatio below total level = (level - below) / (total - below) := by
  rw [margRatio, if_pos tranche]
  apply clamp_of_mem
  · exact div_nonneg (sub_nonneg.mpr lower) tranche.le
  · exact (div_le_one tranche).mpr (sub_le_sub_right upper below)

theorem ratios_fill (pos : 0 < level) (upper : level ≤ total) (mono : below ≤ total) :
    infraRatio below level * below + margRatio below total level * (total - below) = level := by
  rcases lt_or_ge level below with oversupply | lower
  · have below_pos : 0 < below := pos.trans oversupply
    rw [margRatio_of_oversupply oversupply, infraRatio, if_pos ⟨oversupply, below_pos⟩]
    field_simp
    ring
  · rw [infraRatio, if_neg fun h => h.1.not_ge lower]
    rcases mono.lt_or_eq with lt | eq
    · have tranche := sub_pos.mpr lt
      rw [margRatio_of_within lower upper tranche, div_mul_cancel₀ _ tranche.ne']
      ring
    · have level_eq := le_antisymm (upper.trans eq.ge) lower
      simp [level_eq, eq]

end

end StepCurves
