import Ares.FallibleLists
import Ares.PhasePipelines

/-! What the schemas of a pipeline declare is compared by converting numbers to `float64` and
everything else to text. -/
namespace DataFlowChecks

open ConstraintValues FallibleLists PhasePipelines List Function

variable {α L : Type}

def erase : ConstraintValue → ConstraintValue
  | .float kind x _ => .float kind x ""
  | .named type x _ => .named type x ""
  | .other type value _ => .other type value ""
  | v => v

def Same (v w : ConstraintValue) : Prop := erase v = erase w

instance (v w : ConstraintValue) : Decidable (Same v w) := inferInstanceAs (Decidable (_ = _))

def exactNumber : GoNumber → Option (WithBot (WithTop ℚ))
  | .int n => some ((n.val : ℚ) : WithTop ℚ)
  | .float _ x => x.value

def exactValue : ConstraintValue → Option (WithBot (WithTop ℚ))
  | .int n => exactNumber (.int n)
  | .float kind x _ => exactNumber (.float kind x)
  | .named _ x _ => exactNumber x
  | _ => none

def Reaches (v least : ConstraintValue) : Prop :=
  ∃ a b, exactValue v = some a ∧ exactValue least = some b ∧ b ≤ a

def IsMin (cname name : String) : Prop := name ≠ "" ∧ cname = name ++ "_min"

def Meets (got : StringMap ConstraintValue) (c : String × ConstraintValue) : Prop :=
  (∀ name, IsMin c.1 name → ∃ v, got.get name = some v ∧ Reaches v c.2) ∧
    ((∀ name, ¬ IsMin c.1 name) → ∃ v, got.get c.1 = some v ∧ Same v c.2)

def lastProvider (before : List (Phase α L)) (key : String) : Option ContextKeyType :=
  before.reverse.findSome? fun p => p.provides.get key

structure Satisfied (before : List (Phase α L)) (key : String) (want : ContextKeyType) : Prop where
  provided : want.required = true → ∃ got, lastProvider before key = some got
  typed : ∀ got, lastProvider before key = some got →
    want.typeName = "" ∨ got.typeName = "" ∨ want.typeName = got.typeName
  constrained : ∀ got, lastProvider before key = some got →
    ∀ c ∈ want.constraints.entries, Meets got.constraints c

def AllSatisfied (before : List (Phase α L)) (p : Phase α L) : Prop :=
  ∀ req ∈ p.requires.entries, Satisfied before req.1 req.2

theorem minKey_iff {cname name : String} : minKey cname = some name ↔ IsMin cname name := by
  unfold minKey IsMin
  dsimp only
  constructor
  · intro found
    split_ifs at found with suffix
    obtain ⟨longer, ending⟩ := suffix
    rw [← Option.some.inj found]
    have split := take_append_drop (cname.toList.length - 4) cname.toList
    rw [ending] at split
    constructor
    · intro empty
      have none : cname.toList.take (cname.toList.length - 4) = [] := by
        simpa using congrArg String.toList empty
      rw [none] at split
      rw [← split] at longer
      simp at longer
    · apply String.toList_injective
      rw [String.toList_append, String.toList_ofList]
      exact split.symm
  · rintro ⟨nonempty, rfl⟩
    have chars : (name ++ "_min").toList = name.toList ++ ['_', 'm', 'i', 'n'] := by
      rw [String.toList_append]
      rfl
    have length : (name.toList ++ ['_', 'm', 'i', 'n']).length - 4 = name.toList.length := by simp
    have longer : 0 < name.toList.length := by
      rw [length_pos_iff]
      simpa using nonempty
    have longer' : 4 < (name.toList ++ ['_', 'm', 'i', 'n']).length := by
      rw [length_append]
      exact Nat.lt_add_of_pos_left longer
    rw [chars, length, drop_left, take_left, String.ofList_toList,
      if_pos ⟨longer', rfl⟩]

theorem isMin_unique {cname name name' : String} (min : IsMin cname name)
    (min' : IsMin cname name') : name = name' := by
  have eq := minKey_iff.mpr min
  rw [minKey_iff.mpr min'] at eq
  exact (Option.some.inj eq).symm

theorem not_isMin_empty (name : String) : ¬ IsMin "" name := by
  intro min
  have found := minKey_iff.mpr min
  cases found

def Passes (got : StringMap ConstraintValue) (c : String × ConstraintValue) : Prop :=
  c.1 = "" ∨ (∃ name v, IsMin c.1 name ∧ got.get name = some v ∧ atLeast v c.2 = some true) ∨
    ((∀ name, ¬ IsMin c.1 name) ∧ ∃ v, got.get c.1 = some v ∧ equalConstraint v c.2 = true)

variable {got : StringMap ConstraintValue}

theorem checkConstraint_ok_iff {phaseName key : String} {c : String × ConstraintValue} :
    checkConstraint phaseName key got c = .ok () ↔ Passes got c := by
  unfold checkConstraint Passes
  by_cases unnamed : c.1 = ""
  · simp [unnamed]
  rw [if_neg unnamed]
  cases least : minKey c.1 with
  | some name =>
    have min := minKey_iff.mp least
    constructor
    · intro ok
      cases given : got.get name with
      | none => simp [given] at ok
      | some v =>
        cases compared : atLeast v c.2 with
        | none => simp [given, compared] at ok
        | some reached =>
          cases reached with
          | false => simp [given, compared] at ok
          | true => exact .inr (.inl ⟨name, v, min, given, compared⟩)
    · rintro (empty | ⟨name', v, min', given, compared⟩ | ⟨plain, -⟩)
      · exact absurd empty unnamed
      · rw [isMin_unique min' min] at given
        simp [given, compared]
      · exact absurd min (plain name)
  | none =>
    have plain : ∀ name, ¬ IsMin c.1 name := by
      intro name min
      rw [minKey_iff.mpr min] at least
      cases least
    constructor
    · intro ok
      cases given : got.get c.1 with
      | none => simp [given] at ok
      | some v =>
        by_cases alike : equalConstraint v c.2
        · exact .inr (.inr ⟨plain, v, rfl, alike⟩)
        · simp [given, alike] at ok
    · rintro (empty | ⟨name, v, min, -⟩ | ⟨-, v, given, alike⟩)
      · exact absurd empty unnamed
      · exact absurd min (plain name)
      · simp [given, alike]

section

variable {m n : ℤ} {b : WithBot (WithTop ℚ)} {x : GoFloat}

theorem float64OfInt_mono (le : m ≤ n) : float64OfInt m ≤ float64OfInt n := by
  rcases le.eq_or_lt with rfl | lt
  · exact le_rfl
  · have near := (float64OfInt_nearest m).mono (float64OfInt_nearest n) (by exact_mod_cast lt)
    exact_mod_cast near

theorem le_float64OfInt (value : x.value = some b) (le : b ≤ ((n : ℚ) : WithTop ℚ)) :
    b ≤ ((float64OfInt n : ℚ) : WithTop ℚ) := by
  have near := float64OfInt_nearest n
  cases x with
  | nan => cases value
  | negInf =>
    cases value
    exact bot_le
  | posInf =>
    cases value
    simp at le
  | negZero =>
    cases value
    have le : (0 : ℚ) ≤ n := by exact_mod_cast le
    exact_mod_cast near.le_of_le ⟨0, 0, by norm_num, by simp⟩ le
  | finite z digits =>
    cases value
    have le : z ≤ n := by exact_mod_cast le
    exact_mod_cast near.le_of_le digits le

theorem float64OfInt_le (value : x.value = some b) (le : ((n : ℚ) : WithTop ℚ) ≤ b) :
    ((float64OfInt n : ℚ) : WithTop ℚ) ≤ b := by
  have near := float64OfInt_nearest n
  cases x with
  | nan => cases value
  | negInf =>
    cases value
    simp at le
  | posInf =>
    cases value
    exact_mod_cast le_top
  | negZero =>
    cases value
    have le : (n : ℚ) ≤ 0 := by exact_mod_cast le
    exact_mod_cast near.ge_of_ge ⟨0, 0, by norm_num, by simp⟩ le
  | finite z digits =>
    cases value
    have le : (n : ℚ) ≤ z := by exact_mod_cast le
    exact_mod_cast near.ge_of_ge digits le

end

def Converts (v : ConstraintValue) : Prop := ∃ x, asFloat v = some x

theorem atLeast_of_reaches {v w : ConstraintValue} (left : Converts v) (right : Converts w)
    (reaches : Reaches v w) : atLeast v w = some true := by
  obtain ⟨x, asX⟩ := left
  obtain ⟨y, asY⟩ := right
  obtain ⟨a, b, exactV, exactW, le⟩ := reaches
  have compared : ∃ a' b', x.value = some a' ∧ y.value = some b' ∧ b' ≤ a' := by
    cases v with
    | int n =>
      simp only [asFloat, Option.ite_none_right_eq_some, Option.some.injEq] at asX
      obtain ⟨-, rfl⟩ := asX
      cases exactV
      cases w with
      | int m =>
        simp only [asFloat, Option.ite_none_right_eq_some, Option.some.injEq] at asY
        obtain ⟨-, rfl⟩ := asY
        cases exactW
        have le : m.val ≤ n.val := by exact_mod_cast le
        exact ⟨_, _, rfl, rfl, by exact_mod_cast float64OfInt_mono le⟩
      | float kind z shown =>
        cases asY
        exact ⟨_, b, rfl, exactW, le_float64OfInt exactW le⟩
      | nil | bool | string | named | other => cases asY
    | float kind z shown =>
      cases asX
      cases w with
      | int m =>
        simp only [asFloat, Option.ite_none_right_eq_some, Option.some.injEq] at asY
        obtain ⟨-, rfl⟩ := asY
        cases exactW
        exact ⟨a, _, exactV, rfl, float64OfInt_le exactV le⟩
      | float kind' z' shown' =>
        cases asY
        exact ⟨a, b, exactV, exactW, le⟩
      | nil | bool | string | named | other => cases asY
    | nil | bool | string | named | other => cases asX
  obtain ⟨a', b', valueX, valueY, le'⟩ := compared
  simp [atLeast, asX, asY, GoFloat.ge, valueX, valueY, le']

theorem converts_of_atLeast {v w : ConstraintValue} {reached : Bool}
    (compared : atLeast v w = some reached) : Converts v ∧ Converts w := by
  unfold atLeast at compared
  split at compared
  · rename_i x y asX asY
    exact ⟨⟨x, asX⟩, y, asY⟩
  · cases compared

variable {got : StringMap ConstraintValue} {c : String × ConstraintValue}

/-- The constraints that pass without being met. -/
inductive Overlooked (got : StringMap ConstraintValue) : String × ConstraintValue → Prop where
  | unnamed {v} (unmet : ∀ w, got.get "" = some w → ¬ Same w v) : Overlooked got ("", v)
  | rounded {cname name v w} (min : IsMin cname name) (given : got.get name = some w)
      (missed : ¬ Reaches w v) (reached : atLeast w v = some true) : Overlooked got (cname, v)
  | printed {cname v w} (named : cname ≠ "") (plain : ∀ name, ¬ IsMin cname name)
      (given : got.get cname = some w) (differ : ¬ Same w v) (alike : w.shown = v.shown) :
      Overlooked got (cname, v)

/-- The constraints that are met and do not pass. -/
inductive Overstrict (got : StringMap ConstraintValue) : String × ConstraintValue → Prop where
  | unknown {cname name v w} (min : IsMin cname name) (given : got.get name = some w)
      (reaches : Reaches w v) (kind : ¬ Converts w ∨ ¬ Converts v) : Overstrict got (cname, v)
  | printed {cname v w} (named : cname ≠ "") (plain : ∀ name, ¬ IsMin cname name)
      (given : got.get cname = some w) (same : Same w v) (unlike : w.shown ≠ v.shown) :
      Overstrict got (cname, v)

theorem overlooked_iff : Overlooked got c ↔ Passes got c ∧ ¬ Meets got c := by
  constructor
  · intro overlooked
    cases overlooked with
    | unnamed unmet =>
      refine ⟨.inl rfl, fun meets => ?_⟩
      obtain ⟨w, given, same⟩ := meets.2 not_isMin_empty
      exact unmet w given same
    | @rounded cname name v w min given missed reached =>
      refine ⟨.inr (.inl ⟨name, w, min, given, reached⟩), fun meets => ?_⟩
      obtain ⟨w', given', reaches⟩ := meets.1 name min
      rw [given, Option.some.injEq] at given'
      exact missed (given' ▸ reaches)
    | @printed cname v w named plain given differ alike =>
      have alike : equalConstraint w v = true := by simpa [equalConstraint] using alike
      refine ⟨.inr (.inr ⟨plain, w, given, alike⟩), fun meets => ?_⟩
      obtain ⟨w', given', same⟩ := meets.2 plain
      rw [given, Option.some.injEq] at given'
      exact differ (given' ▸ same)
  · rintro ⟨passes, unmet⟩
    obtain ⟨cname, v⟩ := c
    by_cases unnamed : cname = ""
    · subst unnamed
      refine .unnamed fun w given same => unmet ⟨fun name min => ?_, fun _ => ⟨w, given, same⟩⟩
      exact absurd min (not_isMin_empty name)
    rcases passes with empty | ⟨name, w, min, given, reached⟩ | ⟨plain, w, given, alike⟩
    · exact absurd empty unnamed
    · refine .rounded min given (fun reaches => unmet ⟨fun name' min' => ?_, fun plain => ?_⟩)
        reached
      · exact ⟨w, isMin_unique min min' ▸ given, reaches⟩
      · exact absurd min (plain name)
    · refine .printed unnamed plain given (fun same => unmet ⟨fun name min => ?_, fun _ => ?_⟩)
        (by simpa [equalConstraint] using alike)
      · exact absurd min (plain name)
      · exact ⟨w, given, same⟩

theorem overstrict_iff : Overstrict got c ↔ ¬ Passes got c ∧ Meets got c := by
  constructor
  · intro overstrict
    cases overstrict with
    | @unknown cname name v w min given reaches kind =>
      constructor
      · rintro (rfl | ⟨name', w', min', given', reached⟩ | ⟨plain, -⟩)
        · exact not_isMin_empty name min
        · rw [isMin_unique min' min, given, Option.some.injEq] at given'
          subst given'
          obtain ⟨left, right⟩ := converts_of_atLeast reached
          exact kind.elim (absurd left) (absurd right)
        · exact plain name min
      · refine ⟨fun name' min' => ⟨w, isMin_unique min min' ▸ given, reaches⟩, fun plain => ?_⟩
        exact absurd min (plain name)
    | @printed cname v w named plain given same unlike =>
      constructor
      · rintro (empty | ⟨name, w', min, -⟩ | ⟨-, w', given', alike⟩)
        · exact named empty
        · exact plain name min
        · rw [given, Option.some.injEq] at given'
          subst given'
          exact unlike (by simpa [equalConstraint] using alike)
      · exact ⟨fun name min => absurd min (plain name), fun _ => ⟨w, given, same⟩⟩
  · rintro ⟨fails, meets⟩
    obtain ⟨cname, v⟩ := c
    have named : cname ≠ "" := fun empty => fails (.inl empty)
    by_cases least : ∃ name, IsMin cname name
    · obtain ⟨name, min⟩ := least
      obtain ⟨w, given, reaches⟩ := meets.1 name min
      refine .unknown min given reaches (not_and_or.mp fun both => fails (.inr (.inl ?_)))
      exact ⟨name, w, min, given, atLeast_of_reaches both.1 both.2 reaches⟩
    · have plain := not_exists.mp least
      obtain ⟨w, given, same⟩ := meets.2 plain
      refine .printed named plain given same fun alike => fails (.inr (.inr ⟨plain, w, given, ?_⟩))
      simpa [equalConstraint] using alike

section

variable {done : List (Phase α L)} {st st' : ComposeState α L} {p : Phase α L}

theorem foldl_update_eq {ν : Type} {entries : List (String × ν)}
    (nodup : (entries.map Prod.fst).Nodup) (m : String → Option ν) (key : String) :
    entries.foldl (fun (m : String → Option ν) e => update m e.1 (some e.2)) m key =
      (entries.lookup key).or (m key) := by
  induction entries generalizing m with
  | nil => rfl
  | cons e entries ih =>
    obtain ⟨fresh, nodup⟩ := nodup_cons.mp nodup
    rw [foldl_cons, ih nodup]
    by_cases here : key = e.1
    · subst here
      have later : entries.lookup e.1 = none := by
        rw [lookup_eq_none_iff]
        intro d mem
        have apart : e.1 ≠ d.1 := fun same => fresh (same ▸ mem_map_of_mem mem)
        simpa using apart
      rw [later, update_self, lookup_cons_self]
      rfl
    · rw [update_of_ne here, lookup_cons, beq_false_of_ne here]

theorem lastProvider_snoc (key : String) :
    lastProvider (done ++ [p]) key = (p.provides.get key).or (lastProvider done key) := by
  unfold lastProvider
  rw [reverse_append, reverse_singleton, singleton_append, List.findSome?_cons]
  cases p.provides.get key <;> rfl

theorem addInline_provided (ok : addInline st p = .ok st') : st'.provided = st.provided := by
  unfold addInline at ok
  split_ifs at ok
  split at ok
  · cases ok
  · dsimp only at ok
    split at ok
    · cases ok
    · split at ok
      · cases ok
        rfl
      · split_ifs at ok
        cases ok
        rfl

theorem composeStep_provided (ok : composeStep st p = .ok st') (key : String) :
    st'.provided key = (p.provides.get key).or (st.provided key) := by
  have folded := foldl_update_eq p.provides.keys_nodup st.provided key
  by_cases unnamed : p.name = ""
  · simp [composeStep, unnamed] at ok
  simp only [composeStep, if_neg unnamed] at ok
  split at ok
  · cases ok
  split at ok
  · cases ok
  split_ifs at ok
  · rw [addInline_provided ok]
    exact folded
  · cases ok
    exact folded

theorem composeLoop_provided {ps : List (Phase α L)} (ok : composeLoop ps st = .ok st')
    (seen : st.provided = lastProvider done) : st'.provided = lastProvider (done ++ ps) := by
  induction ps generalizing done st with
  | nil =>
    cases ok
    simpa using seen
  | cons p ps ih =>
    unfold composeLoop at ok
    split at ok
    · cases ok
    · rename_i st₁ step
      have seen₁ : st₁.provided = lastProvider (done ++ [p]) := by
        funext key
        rw [composeStep_provided step, lastProvider_snoc, seen]
      simpa using ih ok seen₁

end

section

variable {before : List (Phase α L)} {p : Phase α L}

def Compared (before : List (Phase α L)) (p : Phase α L) (got : StringMap ConstraintValue)
    (c : String × ConstraintValue) : Prop :=
  ∃ req ∈ p.requires.entries, ∃ provider, lastProvider before req.1 = some provider ∧
    provider.constraints = got ∧ c ∈ req.2.constraints.entries

def Matched (before : List (Phase α L)) (p : Phase α L) : Prop :=
  ∀ req ∈ p.requires.entries,
    (req.2.required = true → ∃ got, lastProvider before req.1 = some got) ∧
    ∀ got, lastProvider before req.1 = some got →
      req.2.typeName = "" ∨ got.typeName = "" ∨ req.2.typeName = got.typeName

theorem allSatisfied_iff : AllSatisfied before p ↔
    Matched before p ∧ ∀ got c, Compared before p got c → Meets got c := by
  constructor
  · intro satisfied
    refine ⟨fun req mem => ⟨(satisfied req mem).provided, (satisfied req mem).typed⟩, ?_⟩
    rintro got c ⟨req, mem, provider, provided, rfl, constrains⟩
    exact (satisfied req mem).constrained provider provided c constrains
  · rintro ⟨matched, met⟩ req mem
    exact ⟨(matched req mem).1, (matched req mem).2, fun got provided c constrains =>
      met _ c ⟨req, mem, got, provided, rfl, constrains⟩⟩

theorem validateRequire_ok_iff {name : String} {provided : String → Option ContextKeyType}
    {req : String × ContextKeyType} : validateRequire name provided req = .ok () ↔
      ((req.2.required = true → ∃ got, provided req.1 = some got) ∧
      ∀ got, provided req.1 = some got →
        req.2.typeName = "" ∨ got.typeName = "" ∨ req.2.typeName = got.typeName) ∧
      ∀ got, provided req.1 = some got →
        ∀ c ∈ req.2.constraints.entries, Passes got.constraints c := by
  unfold validateRequire
  cases found : provided req.1 with
  | none =>
    cases required : req.2.required <;> simp
  | some got =>
    by_cases mismatch : req.2.typeName ≠ "" ∧ got.typeName ≠ "" ∧ req.2.typeName ≠ got.typeName
    · have incompatible :
          ¬ (req.2.typeName = "" ∨ got.typeName = "" ∨ req.2.typeName = got.typeName) := by tauto
      simp [mismatch]
    · have compatible :
          req.2.typeName = "" ∨ got.typeName = "" ∨ req.2.typeName = got.typeName := by tauto
      simp only [if_neg mismatch, checkConstraints, forM_eq_ok, checkConstraint_ok_iff]
      simp [compatible]

theorem validateRequires_ok_iff {name : String} :
    validateRequires name p.requires (lastProvider before) = .ok () ↔
      Matched before p ∧ ∀ got c, Compared before p got c → Passes got c := by
  rw [validateRequires, forM_eq_ok]
  constructor
  · intro ok
    refine ⟨fun req mem => (validateRequire_ok_iff.mp (ok req mem)).1, ?_⟩
    rintro got c ⟨req, mem, provider, provided, rfl, constrains⟩
    exact (validateRequire_ok_iff.mp (ok req mem)).2 provider provided c constrains
  · rintro ⟨matched, passes⟩ req mem
    exact validateRequire_ok_iff.mpr ⟨matched req mem, fun got provided c constrains =>
      passes _ c ⟨req, mem, got, provided, rfl, constrains⟩⟩

def Judged (before : List (Phase α L)) (p : Phase α L) : Prop :=
  (∀ got c, Compared before p got c → ¬ Overlooked got c ∧ ¬ Overstrict got c) ∨
    ¬ Matched before p ∨
    (∃ got c, Compared before p got c ∧ ¬ Passes got c ∧ ¬ Meets got c) ∨
    ((∃ got c, Compared before p got c ∧ Overlooked got c) ∧
      ∃ got c, Compared before p got c ∧ Overstrict got c)

theorem judged_of_exact
    (exact : (Matched before p ∧ ∀ got c, Compared before p got c → Passes got c) ↔
      Matched before p ∧ ∀ got c, Compared before p got c → Meets got c) : Judged before p := by
  by_cases matched : Matched before p
  · by_cases passes : ∀ got c, Compared before p got c → Passes got c
    · have meets := (exact.mp ⟨matched, passes⟩).2
      refine .inl fun got c compared => ⟨fun overlooked => ?_, fun overstrict => ?_⟩
      · exact (overlooked_iff.mp overlooked).2 (meets got c compared)
      · exact (overstrict_iff.mp overstrict).1 (passes got c compared)
    · have unmet : ¬ ∀ got c, Compared before p got c → Meets got c := fun meets =>
        passes (exact.mpr ⟨matched, meets⟩).2
      push Not at passes unmet
      obtain ⟨got, c, compared, fails⟩ := passes
      obtain ⟨got', c', compared', unmet⟩ := unmet
      by_cases meets : Meets got c
      · by_cases passes' : Passes got' c'
        · exact .inr (.inr (.inr ⟨⟨got', c', compared', overlooked_iff.mpr ⟨passes', unmet⟩⟩,
            got, c, compared, overstrict_iff.mpr ⟨fails, meets⟩⟩))
        · exact .inr (.inr (.inl ⟨got', c', compared', passes', unmet⟩))
      · exact .inr (.inr (.inl ⟨got, c, compared, fails, meets⟩))
  · exact .inr (.inl matched)

theorem exact_of_judged (judged : Judged before p) :
    (Matched before p ∧ ∀ got c, Compared before p got c → Passes got c) ↔
      Matched before p ∧ ∀ got c, Compared before p got c → Meets got c := by
  rcases judged with fair | unmatched | ⟨got, c, compared, fails, unmet⟩ |
    ⟨⟨got, c, compared, overlooked⟩, got', c', compared', overstrict⟩
  · constructor
    · rintro ⟨matched, passes⟩
      refine ⟨matched, fun got c compared => ?_⟩
      by_contra unmet
      exact (fair got c compared).1 (overlooked_iff.mpr ⟨passes got c compared, unmet⟩)
    · rintro ⟨matched, meets⟩
      refine ⟨matched, fun got c compared => ?_⟩
      by_contra fails
      exact (fair got c compared).2 (overstrict_iff.mpr ⟨fails, meets got c compared⟩)
  · exact ⟨fun left => absurd left.1 unmatched, fun right => absurd right.1 unmatched⟩
  · exact ⟨fun left => absurd (left.2 got c compared) fails,
      fun right => absurd (right.2 got c compared) unmet⟩
  · exact ⟨fun left => absurd (left.2 got' c' compared') (overstrict_iff.mp overstrict).1,
      fun right => absurd (right.2 got c compared) (overlooked_iff.mp overlooked).2⟩

/-- `Compose` accepts what a phase requires just if the phases before it provide it, where the check
is right on the constraints at hand. -/
theorem requires_exact_iff {st : ComposeState α L} (walked : composeLoop before .empty = .ok st)
    (p : Phase α L) :
    (validateRequires p.name p.requires st.provided = .ok () ↔ AllSatisfied before p) ↔
      Judged before p := by
  have seen : st.provided = lastProvider before := by
    simpa using composeLoop_provided walked (show _ = lastProvider [] from rfl)
  rw [seen, validateRequires_ok_iff, allSatisfied_iff]
  exact ⟨judged_of_exact, exact_of_judged⟩

end

def keygenPhase (constraints : StringMap ConstraintValue) : Phase Unit Unit :=
  { quorumPhase "keygen" "KEYGEN" "SCORE" "share" "shares" 1 with
    provides := ⟨[("crypto_ctx", ⟨"KeyBundle", false, constraints, false⟩)], by simp⟩ }

def scoringPhase (constraints : StringMap ConstraintValue) : Phase Unit Unit :=
  { quorumPhase "scoring" "SCORE" stateNone "bid" "bids" 1 with
    requires := ⟨[("crypto_ctx", ⟨"KeyBundle", true, constraints, false⟩)], by simp⟩ }

def accepts (got want : StringMap ConstraintValue) : Bool :=
  let composed : Except ComposeErr (SessionRunner Unit Unit Unit) :=
    compose [keygenPhase got, scoringPhase want]
  composed.isOk

def one (cname : String) (v : ConstraintValue) : StringMap ConstraintValue :=
  ⟨[(cname, v)], by simp⟩

theorem satisfied_pair_iff {cname : String} {v : ConstraintValue} :
    AllSatisfied [keygenPhase got] (scoringPhase (one cname v)) ↔ Meets got (cname, v) := by
  have provider : lastProvider [keygenPhase got] "crypto_ctx" =
      some ⟨"KeyBundle", false, got, false⟩ := rfl
  constructor
  · intro satisfied
    exact (satisfied _ (mem_singleton_self _)).constrained _ provider _
      (mem_singleton_self _)
  · intro meets req mem
    cases mem_singleton.mp mem
    refine ⟨fun _ => ⟨_, provider⟩, fun got' provided => ?_, fun got' provided c constrains => ?_⟩
    · rw [provider, Option.some.injEq] at provided
      exact .inr (.inr (provided ▸ rfl))
    · rw [provider, Option.some.injEq] at provided
      subst provided
      cases mem_singleton.mp constrains
      exact meets

theorem isMin_depth : IsMin "depth_min" "depth" := ⟨by decide, by decide⟩

theorem meets_depth_iff {v w : ConstraintValue} :
    Meets (one "depth" w) ("depth_min", v) ↔ Reaches w v := by
  constructor
  · intro meets
    obtain ⟨w', given, reaches⟩ := meets.1 "depth" isMin_depth
    cases given
    exact reaches
  · intro reaches
    refine ⟨fun name min => ?_, fun plain => absurd isMin_depth (plain "depth")⟩
    rw [isMin_unique min isMin_depth]
    exact ⟨w, rfl, reaches⟩

def ten : ConstraintValue := .int ⟨.int, 10, by decide⟩

def four : ConstraintValue := .int ⟨.int, 4, by decide⟩

theorem requires_exact_iff_depth :
    let keygen := keygenPhase (one "depth" ten)
    let scoring := scoringPhase (one "depth_min" four)
    ∃ st, composeLoop [keygen] .empty = .ok st ∧
      (validateRequires "scoring" scoring.requires st.provided = .ok () ↔
        AllSatisfied [keygen] scoring) ∧ AllSatisfied [keygen] scoring := by
  intro keygen scoring
  have meets : Meets (one "depth" ten) ("depth_min", four) :=
    meets_depth_iff.mpr ⟨_, _, rfl, rfl, by decide⟩
  have passes : Passes (one "depth" ten) ("depth_min", four) :=
    .inr (.inl ⟨"depth", ten, isMin_depth, rfl, by decide⟩)
  have judged : Judged [keygen] scoring := by
    left
    rintro got c ⟨req, mem, provider, provided, rfl, constrains⟩
    cases mem_singleton.mp mem
    cases provided
    cases mem_singleton.mp constrains
    exact ⟨fun overlooked => (overlooked_iff.mp overlooked).2 meets,
      fun overstrict => (overstrict_iff.mp overstrict).1 passes⟩
  exact ⟨_, rfl, (requires_exact_iff rfl _).mpr judged, satisfied_pair_iff.mpr meets⟩

def wide : ConstraintValue := .int ⟨.int64, 2 ^ 53, by decide⟩

def wider : ConstraintValue := .int ⟨.int64, 2 ^ 53 + 1, by decide⟩

def byteTen : ConstraintValue := .int ⟨.uint8, 10, by decide⟩

def byteFour : ConstraintValue := .int ⟨.uint8, 4, by decide⟩

/-- A minimum missed by one, a number where its text is required, and a constraint without a name
are accepted; a reached minimum of bytes is refused. -/
theorem misjudged_pipelines :
    (accepts (one "depth" wide) (one "depth_min" wider) = true ∧
      ¬ AllSatisfied [keygenPhase (one "depth" wide)] (scoringPhase (one "depth_min" wider))) ∧
    (accepts (one "parties" ten) (one "parties" (.string "10")) = true ∧
      ¬ AllSatisfied [keygenPhase (one "parties" ten)]
        (scoringPhase (one "parties" (.string "10")))) ∧
    (accepts (one "depth" ten) (one "" four) = true ∧
      ¬ AllSatisfied [keygenPhase (one "depth" ten)] (scoringPhase (one "" four))) ∧
    accepts (one "depth" byteTen) (one "depth_min" byteFour) = false ∧
      AllSatisfied [keygenPhase (one "depth" byteTen)]
        (scoringPhase (one "depth_min" byteFour)) := by
  simp only [satisfied_pair_iff, meets_depth_iff]
  refine ⟨⟨by decide, ?_⟩, ⟨by decide, ?_⟩, ⟨by decide, ?_⟩, by decide, ?_⟩
  · rintro ⟨a, b, exactW, exactV, le⟩
    cases exactW
    cases exactV
    exact absurd le (by decide)
  · intro meets
    have plain : ∀ name, ¬ IsMin "parties" name := by
      intro name min
      cases minKey_iff.mpr min
    obtain ⟨w, given, same⟩ := meets.2 plain
    cases given
    exact absurd same (by decide)
  · intro meets
    obtain ⟨w, given, -⟩ := meets.2 not_isMin_empty
    cases given
  · exact ⟨_, _, rfl, rfl, by decide⟩

end DataFlowChecks
