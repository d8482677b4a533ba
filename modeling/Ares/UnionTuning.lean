import Mathlib.Data.List.GetD
import Mathlib.Data.List.Induction
import Mathlib.Data.List.Sort
import Mathlib.Order.WithBot
import Mathlib.Algebra.Order.Field.Rat
import Mathlib.Order.Bounds.Basic
import Mathlib.Tactic.Linarith
import Mathlib.Tactic.FieldSimp
import Mathlib.Tactic.Positivity

/-! Score statistics of sample cohorts and the comparator ranges tuned to them, over exact
rationals. -/

namespace UnionTuning

open List

structure UnionComparator where
  id : String
  comparator : String
  schedule : String
  gain : ℚ
  bound : ℚ
  inputScale : ℚ
  rangeMargin : ℚ
  degree : ℤ

structure DistributionMetadata where
  minMargin : ℚ
  medianMargin : ℚ
  maxMargin : ℚ
  maxPairwiseDiff : ℚ

/-- The infinities the loop starts with are `⊥` and `⊤`. -/
structure Extremes where
  best : WithBot ℚ := ⊥
  second : WithBot ℚ := ⊥
  worst : WithTop ℚ := ⊤

def Extremes.see (e : Extremes) (d : ℚ) : Extremes where
  best := if e.best < d then d else e.best
  second := if e.best < d then e.best else if e.second < d then d else e.second
  worst := if d < e.worst then d else e.worst

def scores : List (List ℚ) → List ℚ
  | [] => []
  | init :: candidates => candidates.map fun cand => (zipWith (· * ·) init cand).sum

def extremes (ch : List (List ℚ)) : Extremes := (scores ch).foldl Extremes.see {}

def Extremes.margin (e : Extremes) : ℚ := e.best.unbotD 0 - e.second.unbotD 0

def Extremes.pairwise (e : Extremes) : ℚ := e.best.unbotD 0 - e.worst.untopD 0

def marginStatsFromCohorts (cohorts : List (List (List ℚ))) : DistributionMetadata :=
  let seen := (cohorts.filter fun ch => 3 ≤ ch.length).map extremes
  let margins := (seen.map Extremes.margin).mergeSort
  let maxPairwise := seen.foldl (fun m e => if m < e.pairwise then e.pairwise else m) 0
  if margins = [] then ⟨5 / 1000, 126 / 10000, 5 / 100, 5 / 100⟩
  else
    { minMargin := margins.getD 0 0
      medianMargin := margins.getD (margins.length / 2) 0
      maxMargin := margins.getD (margins.length - 1) 0
      maxPairwiseDiff :=
        if maxPairwise ≤ 0 then margins.getD (margins.length - 1) 0 else maxPairwise }

def tuneComparator (scoreScale rangeMargin target : ℚ) (c : UnionComparator) : UnionComparator :=
  let compRangeMargin := if 0 < c.rangeMargin then c.rangeMargin else rangeMargin
  let scaled := scoreScale / 2 * compRangeMargin
  let compMaxDiff := if scaled ≤ 0 then target else scaled
  let inputScale := if 0 < c.bound then c.bound / (compMaxDiff * (115 / 100))
    else 67 / 10 / (compMaxDiff * (105 / 100))
  { c with inputScale := if 1 < inputScale then 1 else inputScale }

def tuneUnion (stats : DistributionMetadata) (base : List UnionComparator) (target : ℚ) :
    ℚ × List UnionComparator :=
  let target := if target ≤ 0 then 4 else target
  let med := if stats.medianMargin ≤ 0 then 126 / 10000 else stats.medianMargin
  let scoreScale := 2 * target / med
  let rangeMargin := if stats.maxMargin < stats.maxPairwiseDiff then stats.maxPairwiseDiff
    else stats.maxMargin
  (scoreScale, base.map (tuneComparator scoreScale rangeMargin target))

/-- What the loop knows of the scores it has seen. -/
structure Extremes.Of (e : Extremes) (l : List ℚ) : Prop where
  best : ∀ d ∈ l, (d : WithBot ℚ) ≤ e.best
  worst : ∀ d ∈ l, e.worst ≤ d
  best_mem : l = [] ∧ e.best = ⊥ ∨ ∃ d ∈ l, e.best = d
  worst_mem : l = [] ∧ e.worst = ⊤ ∨ ∃ d ∈ l, e.worst = d
  second : e.second ≤ e.best
  second_mem : l.length ≤ 1 ∧ e.second = ⊥ ∨ ∃ d ∈ l, e.second = d

theorem Extremes.Of.see {e : Extremes} {l : List ℚ} (h : e.Of l) (d : ℚ) :
    (e.see d).Of (l ++ [d]) := by
  have best : (e.see d).best = max e.best d := (max_def_lt _ _).symm
  have worst : (e.see d).worst = min ↑d e.worst := (min_def_lt _ _).symm
  have last : d ∈ l ++ [d] := by simp
  have keep : ∀ {P : ℚ → Prop}, (∃ x ∈ l, P x) → ∃ x ∈ l ++ [d], P x :=
    fun ⟨x, mem, px⟩ => ⟨x, mem_append_left _ mem, px⟩
  refine ⟨fun x mem => ?_, fun x mem => ?_, .inr ?_, .inr ?_, ?_, ?_⟩
  · rw [best]
    obtain old | rfl : x ∈ l ∨ x = d := by simpa using mem
    · exact (h.best x old).trans (le_max_left _ _)
    · exact le_max_right _ _
  · rw [worst]
    obtain old | rfl : x ∈ l ∨ x = d := by simpa using mem
    · exact (min_le_right _ _).trans (h.worst x old)
    · exact min_le_left _ _
  · obtain ⟨-, none⟩ | some := h.best_mem
    · exact ⟨d, last, by rw [best, none, max_eq_right bot_le]⟩
    · obtain eq | eq := max_choice e.best (d : WithBot ℚ)
      · rw [best, eq]
        exact keep some
      · exact ⟨d, last, best.trans eq⟩
  · obtain eq | eq := min_choice (d : WithTop ℚ) e.worst
    · exact ⟨d, last, worst.trans eq⟩
    · obtain ⟨-, none⟩ | some := h.worst_mem
      · exact ⟨d, last, by rw [worst, none, min_eq_left le_top]⟩
      · rw [worst, eq]
        exact keep some
  · rw [best]
    unfold Extremes.see
    dsimp only
    split_ifs with above between
    · exact le_max_left _ _
    · exact le_max_right _ _
    · exact h.second.trans (le_max_left _ _)
  · unfold Extremes.see
    dsimp only
    split_ifs with above between
    · obtain ⟨rfl, none⟩ | some := h.best_mem
      · exact .inl ⟨by simp, none⟩
      · exact .inr (keep some)
    · exact .inr ⟨d, last, rfl⟩
    · obtain ⟨-, none⟩ | some := h.second_mem
      · exact absurd (none ▸ WithBot.bot_lt_coe d) between
      · exact .inr (keep some)

theorem extremes_of (l : List ℚ) : (l.foldl Extremes.see {}).Of l := by
  induction l using List.reverseRecOn with
  | nil => exact ⟨by simp, by simp, .inl ⟨rfl, rfl⟩, .inl ⟨rfl, rfl⟩, le_rfl, .inl ⟨by simp, rfl⟩⟩
  | append_singleton l d ih =>
    rw [foldl_append]
    exact ih.see d

/-- A cohort that counts: its margin, its widest gap, and that no two scores are further apart. -/
theorem extremes_spec {ch : List (List ℚ)} (counts : 3 ≤ ch.length) :
    0 ≤ (extremes ch).margin ∧ (extremes ch).margin ≤ (extremes ch).pairwise ∧
      IsGreatest {x | ∃ s ∈ scores ch, ∃ s' ∈ scores ch, |s - s'| = x} (extremes ch).pairwise := by
  have two : 2 ≤ (scores ch).length := by
    match ch, counts with
    | _ :: _, counts => simpa [scores] using counts
  obtain ⟨best, worst, best_mem, worst_mem, second, second_mem⟩ := extremes_of (scores ch)
  obtain ⟨b, hb, eb⟩ := best_mem.resolve_left fun h => by simp [h.1] at two
  obtain ⟨w, hw, ew⟩ := worst_mem.resolve_left fun h => by simp [h.1] at two
  obtain ⟨s, hs, es⟩ := second_mem.resolve_left fun h => by omega
  simp only [eb, ew, es, WithBot.coe_le_coe, WithTop.coe_le_coe] at best worst second
  have margin : (extremes ch).margin = b - s := by
    simp [Extremes.margin, extremes, eb, es]
  have pairwise : (extremes ch).pairwise = b - w := by
    simp [Extremes.pairwise, extremes, eb, ew]
  have low := worst s hs
  have high := worst b hb
  rw [margin, pairwise]
  refine ⟨by linarith, by linarith, ⟨b, hb, w, hw, abs_of_nonneg (by linarith)⟩, ?_⟩
  rintro x ⟨s, hs, s', hs', rfl⟩
  rw [abs_le]
  have := best s hs
  have := best s' hs'
  have := worst s hs
  have := worst s' hs'
  constructor <;> linarith

theorem foldl_pairwise (seen : List Extremes) (m : ℚ) :
    let r := seen.foldl (fun m e => if m < e.pairwise then e.pairwise else m) m
    m ≤ r ∧ (∀ e ∈ seen, e.pairwise ≤ r) ∧ (r = m ∨ ∃ e ∈ seen, e.pairwise = r) := by
  induction seen generalizing m with
  | nil => simp
  | cons e seen ih =>
    rw [foldl_cons, ← max_def_lt m]
    obtain ⟨le, all, attained⟩ := ih (max m e.pairwise)
    refine ⟨(le_max_left _ _).trans le, forall_mem_cons.mpr ⟨(le_max_right _ _).trans le, all⟩, ?_⟩
    obtain eq | ⟨e', mem, eq⟩ := attained
    · obtain first | first := max_choice m e.pairwise
      · exact .inl (eq.trans first)
      · exact .inr ⟨e, mem_cons_self, (eq.trans first).symm⟩
    · exact .inr ⟨e', mem_cons_of_mem e mem, eq⟩

/-- The score gaps of the sample. -/
def gaps (cohorts : List (List (List ℚ))) : Set ℚ :=
  {x | ∃ ch ∈ cohorts, ∃ s ∈ scores ch, ∃ s' ∈ scores ch, |s - s'| = x}

theorem gap_of_short {ch : List (List ℚ)} (short : ¬ 3 ≤ ch.length) {s s' : ℚ}
    (hs : s ∈ scores ch) (hs' : s' ∈ scores ch) : |s - s'| = 0 := by
  have one : (scores ch).length ≤ 1 := by
    cases ch with
    | nil => simp [scores]
    | cons init candidates =>
      simp only [scores, length_map, length_cons] at short ⊢
      omega
  generalize scores ch = l at hs hs' one
  match l, one with
  | [], _ => cases hs
  | [a], _ => rw [mem_singleton.mp hs, mem_singleton.mp hs', sub_self, abs_zero]

theorem marginStats_spec {cohorts : List (List (List ℚ))} (some : ∃ ch ∈ cohorts, 3 ≤ ch.length) :
    let m := marginStatsFromCohorts cohorts
    m.minMargin ≤ m.medianMargin ∧ m.medianMargin ≤ m.maxMargin ∧
      m.maxMargin ≤ m.maxPairwiseDiff ∧ IsGreatest (gaps cohorts) m.maxPairwiseDiff := by
  set seen := (cohorts.filter fun ch => 3 ≤ ch.length).map extremes with hseen
  have spec : ∀ e ∈ seen, ∃ ch ∈ cohorts, 3 ≤ ch.length ∧ extremes ch = e := by
    simp only [hseen, mem_map, mem_filter, decide_eq_true_eq, and_assoc]
    exact fun e h => h
  set margins := (seen.map Extremes.margin).mergeSort with hmargins
  have mem_margins : ∀ x, x ∈ margins ↔ ∃ e ∈ seen, e.margin = x := by simp [hmargins]
  have sorted : margins.Pairwise (· ≤ ·) := by
    simpa using pairwise_mergeSort' (· ≤ ·) (seen.map Extremes.margin)
  have nonempty : margins ≠ [] := by
    obtain ⟨ch, mem, long⟩ := some
    refine ne_nil_of_mem ((mem_margins _).mpr ⟨extremes ch, ?_, rfl⟩)
    exact mem_map_of_mem (mem_filter.mpr ⟨mem, decide_eq_true long⟩)
  have positive : 0 < margins.length := length_pos_of_ne_nil nonempty
  have mono : ∀ i j, i ≤ j → j < margins.length → margins.getD i 0 ≤ margins.getD j 0 := by
    intro i j le lt
    rw [getD_eq_getElem _ _ (le.trans_lt lt), getD_eq_getElem _ _ lt]
    obtain rfl | less := le.eq_or_lt
    · exact le_rfl
    · exact pairwise_iff_getElem.mp sorted i j _ lt less
  obtain ⟨last, last_mem, last_eq⟩ :
      ∃ e ∈ seen, e.margin = margins.getD (margins.length - 1) 0 := by
    rw [← mem_margins, getD_eq_getElem _ _ (by omega)]
    exact getElem_mem _
  obtain ⟨zero_le, all, attained⟩ := foldl_pairwise seen 0
  set widest := seen.foldl (fun m e => if m < e.pairwise then e.pairwise else m) 0
  have last_le : last.margin ≤ last.pairwise ∧ 0 ≤ last.margin := by
    obtain ⟨ch, -, long, rfl⟩ := spec last last_mem
    exact ⟨(extremes_spec long).2.1, (extremes_spec long).1⟩
  have bound := all last last_mem
  have eq : (if widest ≤ 0 then margins.getD (margins.length - 1) 0 else widest) = widest := by
    split_ifs with none
    · rw [← last_eq]
      linarith
    · rfl
  simp only [marginStatsFromCohorts, ← hseen, ← hmargins, if_neg nonempty]
  rw [eq]
  refine ⟨mono _ _ (Nat.zero_le _) (by omega), mono _ _ (by omega) (by omega), ?_, ?_, ?_⟩
  · rw [← last_eq]
    linarith
  · obtain ⟨e, mem, top⟩ : ∃ e ∈ seen, e.pairwise = widest := by
      obtain zero | found := attained
      · exact ⟨last, last_mem, by linarith⟩
      · exact found
    obtain ⟨ch, cohort, long, rfl⟩ := spec e mem
    exact ⟨ch, cohort, top ▸ (extremes_spec long).2.2.1⟩
  · rintro x ⟨ch, mem, s, hs, s', hs', rfl⟩
    by_cases long : 3 ≤ ch.length
    · have counted : extremes ch ∈ seen :=
        mem_map_of_mem (mem_filter.mpr ⟨mem, decide_eq_true long⟩)
      exact ((extremes_spec long).2.2.2 ⟨s, hs, s', hs', rfl⟩).trans (all _ counted)
    · rw [gap_of_short long hs hs']
      exact zero_le

theorem tuneComparator_covers {scale range target x : ℚ} {c : UnionComparator}
    (amplifies : 0 < scale) (aim : 0 < target) (default : c.rangeMargin = 0) (bounded : 0 < c.bound)
    (gap : x ≤ range) :
    let t := tuneComparator scale range target c
    0 < t.inputScale ∧ t.inputScale ≤ 1 ∧ t.inputScale * (scale / 2) * x ≤ t.bound := by
  have diff : scale / 2 * x ≤ scale / 2 * range := by gcongr
  simp only [tuneComparator, default, lt_irrefl, if_false, if_pos bounded, ← min_def_lt]
  set d := if scale / 2 * range ≤ 0 then target else scale / 2 * range
  have positive : 0 < d := by
    unfold d
    split_ifs with none
    · exact aim
    · exact not_le.mp none
  have le_d : scale / 2 * x ≤ d := by
    unfold d
    split_ifs with none
    · linarith
    · exact diff
  have scaled : 0 < min 1 (c.bound / (d * (115 / 100))) := by positivity
  refine ⟨scaled, min_le_left _ _, ?_⟩
  calc min 1 (c.bound / (d * (115 / 100))) * (scale / 2) * x
      = min 1 (c.bound / (d * (115 / 100))) * (scale / 2 * x) := mul_assoc _ _ _
    _ ≤ min 1 (c.bound / (d * (115 / 100))) * d := by gcongr
    _ ≤ c.bound / (d * (115 / 100)) * d := by gcongr; exact min_le_right _ _
    _ = c.bound * (100 / 115) := by field_simp
    _ ≤ c.bound := by linarith

/-- Tuned to a sample, each comparator that takes its range from the sample covers all its gaps. -/
theorem tuned_union_covers (cohorts : List (List (List ℚ))) (base : List UnionComparator)
    (target : ℚ) (some : ∃ ch ∈ cohorts, 3 ≤ ch.length) :
    let m := marginStatsFromCohorts cohorts
    let (scale, tuned) := tuneUnion m base target
    (∀ c ∈ tuned, c.rangeMargin = 0 → 0 < c.bound → 0 < c.inputScale ∧ c.inputScale ≤ 1 ∧
      ∀ x ∈ gaps cohorts, c.inputScale * (scale / 2) * x ≤ c.bound) ∧
    m.minMargin ≤ m.medianMargin ∧ m.medianMargin ≤ m.maxMargin ∧
      m.maxMargin ≤ m.maxPairwiseDiff ∧ IsGreatest (gaps cohorts) m.maxPairwiseDiff := by
  intro m
  have spec := marginStats_spec some
  refine ⟨fun c mem default bounded => ?_, spec⟩
  obtain ⟨c, -, rfl⟩ := mem_map.mp mem
  have aim : 0 < if target ≤ 0 then 4 else target := by
    split_ifs with none
    · norm_num
    · exact not_le.mp none
  have med : 0 < if m.medianMargin ≤ 0 then 126 / 10000 else m.medianMargin := by
    split_ifs with none
    · norm_num
    · exact not_le.mp none
  have range : ∀ x ∈ gaps cohorts,
      x ≤ if m.maxMargin < m.maxPairwiseDiff then m.maxPairwiseDiff else m.maxMargin := by
    intro x gap
    rw [← max_def_lt]
    exact (spec.2.2.2.2 gap).trans (le_max_right _ _)
  have covers := fun x gap => tuneComparator_covers (div_pos (mul_pos two_pos aim) med) aim default
    bounded (range x gap)
  exact ⟨(covers _ spec.2.2.2.1).1, (covers _ spec.2.2.2.1).2.1, fun x gap => (covers x gap).2.2⟩

def sampleCohorts : List (List (List ℚ)) := [[[1], [1], [1 / 2]]]

def sampleBase : List UnionComparator := [⟨"wide", "tanh", "", 1, 2, 1, 0, 3⟩]

theorem tuned_union_covers_sample :
    (∃ ch ∈ sampleCohorts, 3 ≤ ch.length) ∧
      ∀ c ∈ (tuneUnion (marginStatsFromCohorts sampleCohorts) sampleBase 4).2,
        c.rangeMargin = 0 → 0 < c.bound → 0 < c.inputScale ∧ c.inputScale ≤ 1 := by
  have long : ∃ ch ∈ sampleCohorts, 3 ≤ ch.length := ⟨_, mem_cons_self, by decide⟩
  refine ⟨long, fun c mem default bounded => ?_⟩
  have covers := (tuned_union_covers sampleCohorts sampleBase 4 long).1 c mem default bounded
  exact ⟨covers.1, covers.2.1⟩

end UnionTuning
