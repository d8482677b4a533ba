import Ares.BoundedWalks
import Ares.SessionRunnerDiscipline

/-! Exit states lead from phase to phase: along the pipeline, and from its last phase to
`StateNone`, to a state no phase enters, or back into the pipeline. -/
namespace PipelineShapes

open BoundedWalks LineageNodes PhasePipelines SessionRunnerDiscipline List Function

variable {α L S : Type}

structure Hooks (α L : Type) where
  enter : HookEnv α L → HookOut α L
  onMessage : String → String → Bytes → HookEnv α L → HookOut α L
  checkComplete : HookEnv α L → Bool
  exit : HookEnv α L → HookOut α L

def refit (hooks : String → Hooks α L) (p : Phase α L) : Phase α L :=
  { p with
    enter := (hooks p.name).enter
    onMessage := (hooks p.name).onMessage
    checkComplete := (hooks p.name).checkComplete
    exit := (hooks p.name).exit }

section

variable (hooks : String → Hooks α L)

variable (p : Phase α L)

@[simp] theorem refit_name : (refit hooks p).name = p.name := rfl

@[simp] theorem refit_runsAt : (refit hooks p).runsAt = p.runsAt := rfl

@[simp] theorem refit_entryState : (refit hooks p).entryState = p.entryState := rfl

@[simp] theorem refit_exitState : (refit hooks p).exitState = p.exitState := rfl

@[simp] theorem refit_internalStates : (refit hooks p).internalStates = p.internalStates := rfl

@[simp] theorem refit_consumedMessageTypes :
    (refit hooks p).consumedMessageTypes = p.consumedMessageTypes := rfl

@[simp] theorem refit_requires : (refit hooks p).requires = p.requires := rfl

@[simp] theorem refit_provides : (refit hooks p).provides = p.provides := rfl

def refitMap (m : String → Option (Phase α L)) : String → Option (Phase α L) :=
  fun k => (m k).map (refit hooks)

def refitState (st : ComposeState α L) : ComposeState α L :=
  { st with
    byName := refitMap hooks st.byName
    byEntryState := refitMap hooks st.byEntryState
    byInternalState := refitMap hooks st.byInternalState
    prevInline := st.prevInline.map (refit hooks) }

theorem refitMap_apply (m : String → Option (Phase α L)) (k : String) :
    refitMap hooks m k = (m k).map (refit hooks) := rfl

theorem refitMap_update (m : String → Option (Phase α L)) (k : String) (p : Phase α L) :
    update (refitMap hooks m) k (some (refit hooks p)) = refitMap hooks (update m k (some p)) := by
  funext k'
  by_cases same : k' = k
  · subst same
    simp [refitMap]
  · simp [refitMap, same]

theorem addInternalStates_refit (byEntry : SessionState → Option (Phase α L))
    (subs : List SessionState) (byInternal : SessionState → Option (Phase α L)) :
    addInternalStates (refit hooks p) (refitMap hooks byEntry) subs (refitMap hooks byInternal) =
      (addInternalStates p byEntry subs byInternal).map (refitMap hooks) := by
  induction subs generalizing byInternal with
  | nil => rfl
  | cons sub subs ih =>
    simp only [addInternalStates, refit_name, refit_entryState, refitMap_apply, refitMap_update]
    by_cases unnamed : sub = stateNone
    · simp only [if_pos unnamed, Except.map]
    by_cases own : sub = p.entryState
    · simp only [if_neg unnamed, if_pos own, Except.map]
    simp only [if_neg unnamed, if_neg own]
    cases byEntry sub with
    | some existing => rfl
    | none =>
      cases byInternal sub with
      | some existing => rfl
      | none => exact ih _

theorem addInline_refit (st : ComposeState α L) (p : Phase α L) :
    addInline (refitState hooks st) (refit hooks p) = (addInline st p).map (refitState hooks) := by
  simp only [addInline, refitState, refit_name, refit_entryState, refit_internalStates,
    refitMap_apply, refitMap_update, addInternalStates_refit]
  by_cases unnamed : p.entryState = stateNone
  · simp only [if_pos unnamed, Except.map]
  simp only [if_neg unnamed]
  cases st.byEntryState p.entryState with
  | some existing => rfl
  | none =>
    cases addInternalStates p (update st.byEntryState p.entryState (some p))
        p.internalStates st.byInternalState with
    | error e => rfl
    | ok byInternal =>
      cases st.prevInline with
      | none => rfl
      | some prev =>
        dsimp only
        by_cases apart : prev.exitState ≠ p.entryState
        · rw [if_pos apart]
          exact if_pos apart
        · rw [if_neg apart]
          exact if_neg apart

theorem composeStep_refit (st : ComposeState α L) (p : Phase α L) :
    composeStep (refitState hooks st) (refit hooks p) =
      (composeStep st p).map (refitState hooks) := by
  simp only [composeStep, refit_name, refit_runsAt, refit_entryState, refit_exitState,
    refit_requires]
  by_cases unnamed : p.name = ""
  · rw [if_pos unnamed]
    exact if_pos unnamed
  rw [if_neg unnamed]
  refine (if_neg unnamed).trans ?_
  simp only [refitState, refitMap_apply, refitMap_update]
  cases st.byName p.name with
  | some existing => rfl
  | none =>
    cases validateRequires p.name p.requires st.provided with
    | error e => rfl
    | ok _ =>
      by_cases inline : p.runsAt = .inline
      · simp only [if_pos inline]
        refine Eq.trans ?_ (addInline_refit hooks _ p)
        rfl
      · simp only [if_neg inline]
        by_cases stated : p.entryState ≠ stateNone ∨ p.exitState ≠ stateNone
        · rw [if_pos stated, if_pos stated]
          rfl
        · rw [if_neg stated, if_neg stated]
          rfl

theorem composeLoop_refit (phases : List (Phase α L)) (st : ComposeState α L) :
    composeLoop (phases.map (refit hooks)) (refitState hooks st) =
      (composeLoop phases st).map (refitState hooks) := by
  induction phases generalizing st with
  | nil => rfl
  | cons p phases ih =>
    simp only [map_cons, composeLoop, composeStep_refit]
    cases composeStep st p with
    | error e => rfl
    | ok st' => exact ih st'

theorem compose_refit {phases : List (Phase α L)} {r : SessionRunner α L S}
    (accepted : compose phases = .ok r) :
    ∃ r' : SessionRunner α L S, compose (phases.map (refit hooks)) = .ok r' := by
  have same := composeLoop_refit hooks phases .empty
  have fresh : refitState hooks ComposeState.empty = (ComposeState.empty : ComposeState α L) := rfl
  rw [fresh] at same
  simp only [compose] at accepted ⊢
  by_cases noPhases : phases = []
  · rw [if_pos noPhases] at accepted
    cases accepted
  rw [if_neg noPhases] at accepted
  rw [if_neg (mt map_eq_nil_iff.mp noPhases), same]
  cases built : composeLoop phases ComposeState.empty with
  | error e =>
    rw [built] at accepted
    cases accepted
  | ok st => exact ⟨_, rfl⟩

end

def Apart (ps : List (Phase α L)) : Prop :=
  ps.Pairwise fun p q => ∀ s ∈ q.internalStates, s ≠ p.entryState ∧ s ∉ p.internalStates

variable {p : Phase α L}

theorem addInternalStates_ok {byEntry : SessionState → Option (Phase α L)}
    {subs : List SessionState} {byInternal byInternal' : SessionState → Option (Phase α L)}
    (ok : addInternalStates p byEntry subs byInternal = .ok byInternal') :
    (∀ s ∈ subs, s ≠ stateNone ∧ s ≠ p.entryState ∧ byEntry s = none ∧ byInternal s = none) ∧
      ∀ s, byInternal' s = if s ∈ subs then some p else byInternal s := by
  induction subs generalizing byInternal with
  | nil =>
    cases ok
    simp
  | cons sub subs ih =>
    simp only [addInternalStates] at ok
    split_ifs at ok with unnamed own
    split at ok
    · cases ok
    rename_i entryFree
    split at ok
    · cases ok
    rename_i free
    obtain ⟨others, added⟩ := ih ok
    refine ⟨?_, ?_⟩
    · intro s listed
      rcases mem_cons.mp listed with rfl | listed
      · exact ⟨unnamed, own, entryFree, free⟩
      · obtain ⟨named, other, entryFree', free'⟩ := others s listed
        by_cases same : s = sub
        · simp [same] at free'
        · exact ⟨named, other, entryFree', by simpa [same] using free'⟩
    · intro s
      rw [added]
      by_cases same : s = sub
      · simp [same]
      · simp [same]

variable {st st' : ComposeState α L}

theorem addInline_internal (ok : addInline st p = .ok st') :
    addInternalStates p (update st.byEntryState p.entryState (some p)) p.internalStates
      st.byInternalState = .ok st'.byInternalState := by
  simp only [addInline] at ok
  split_ifs at ok with unnamed
  split at ok
  · cases ok
  split at ok
  · cases ok
  rename_i byInternal added
  rw [added]
  split at ok
  · cases ok
    rfl
  · split_ifs at ok
    cases ok
    rfl

/-- The loop invariant of `Compose` for internal states. -/
structure Listed (done : List (Phase α L)) (st : ComposeState α L) : Prop where
  apart : Apart (inlinePhases done)
  internal : ∀ p ∈ inlinePhases done, ∀ s ∈ p.internalStates, s ≠ stateNone ∧ s ≠ p.entryState
  byInternal : ∀ s p, st.byInternalState s = some p ↔ p ∈ inlinePhases done ∧ s ∈ p.internalStates

theorem listed_empty : Listed [] (ComposeState.empty : ComposeState α L) := by
  constructor <;> simp [inlinePhases, Apart, ComposeState.empty]

variable {done : List (Phase α L)}

theorem listed_inline (byEntry : ∀ q ∈ inlinePhases done, st.byEntryState q.entryState = some q)
    (listed : Listed done st) (inline : p.runsAt = .inline) (ok : addInline st p = .ok st') :
    Listed (done ++ [p]) st' := by
  obtain ⟨free, added⟩ := addInternalStates_ok (addInline_internal ok)
  have grown : inlinePhases (done ++ [p]) = inlinePhases done ++ [p] := by
    simp [inlinePhases, inline]
  -- what the new phase lists is neither entered nor listed so far
  have fresh (q : Phase α L) (before : q ∈ inlinePhases done) (s : SessionState)
      (owned : s ∈ p.internalStates) : s ≠ q.entryState ∧ s ∉ q.internalStates := by
    obtain ⟨-, other, entryFree, internalFree⟩ := free s owned
    refine ⟨?_, ?_⟩
    · rintro rfl
      simp [other, byEntry q before] at entryFree
    · intro shared
      rw [(listed.byInternal s q).mpr ⟨before, shared⟩] at internalFree
      cases internalFree
  refine ⟨?_, ?_, ?_⟩
  · rw [grown]
    refine pairwise_append.mpr ⟨listed.apart, pairwise_singleton _ _, ?_⟩
    intro q before p' last s owned
    obtain rfl := mem_singleton.mp last
    exact fresh q before s owned
  · intro q member s owned
    rw [grown, mem_append, mem_singleton] at member
    rcases member with before | rfl
    · exact listed.internal q before s owned
    · obtain ⟨named, other, -, -⟩ := free s owned
      exact ⟨named, other⟩
  · intro s q
    rw [added, grown, mem_append, mem_singleton]
    by_cases owned : s ∈ p.internalStates
    · simp only [owned, if_true, Option.some.injEq]
      constructor
      · rintro rfl
        exact ⟨.inr rfl, owned⟩
      · rintro ⟨before | rfl, shared⟩
        · exact absurd shared (fresh q before s owned).2
        · rfl
    · simp only [owned, if_false, listed.byInternal]
      constructor
      · rintro ⟨before, shared⟩
        exact ⟨.inl before, shared⟩
      · rintro ⟨before | rfl, shared⟩
        · exact ⟨before, shared⟩
        · exact absurd shared owned

theorem listed_step (built : Built done st) (listed : Listed done st)
    (ok : composeStep st p = .ok st') : Listed (done ++ [p]) st' := by
  by_cases unnamed : p.name = ""
  · simp [composeStep, unnamed] at ok
  simp only [composeStep, if_neg unnamed] at ok
  split at ok
  · cases ok
  split at ok
  · cases ok
  by_cases inline : p.runsAt = .inline
  · rw [if_pos inline] at ok
    refine listed_inline ?_ ?_ inline ok
    · exact fun q before => (built.byEntry q.entryState q).mpr ⟨before, rfl⟩
    · exact ⟨listed.apart, listed.internal, listed.byInternal⟩
  · split_ifs at ok
    cases ok
    have same : inlinePhases (done ++ [p]) = inlinePhases done := by
      simp [inlinePhases, inline]
    exact ⟨same.symm ▸ listed.apart, same.symm ▸ listed.internal, same.symm ▸ listed.byInternal⟩

theorem listed_loop {ps : List (Phase α L)} (built : Built done st) (listed : Listed done st)
    (ok : composeLoop ps st = .ok st') : Listed (done ++ ps) st' := by
  induction ps generalizing done st with
  | nil =>
    cases ok
    simpa using listed
  | cons p ps ih =>
    rw [composeLoop] at ok
    split at ok
    · cases ok
    · rename_i st₁ step
      simpa using ih (built_step built step) (listed_step built listed step) ok

structure Indexed (r : SessionRunner α L S) : Prop where
  apart : Apart (inlinePhases r.phases)
  internal : ∀ p ∈ inlinePhases r.phases, ∀ s ∈ p.internalStates, s ≠ stateNone ∧ s ≠ p.entryState
  byInternal : ∀ s p, r.byInternalState s = some p ↔
    p ∈ inlinePhases r.phases ∧ s ∈ p.internalStates

variable {r : SessionRunner α L S}

variable {phases : List (Phase α L)}

theorem compose_indexed (accepted : compose phases = .ok r) : Indexed r := by
  simp only [compose] at accepted
  split_ifs at accepted
  split at accepted
  · cases accepted
  · rename_i st built
    cases accepted
    have listed : Listed phases st := by simpa using listed_loop built_empty listed_empty built
    exact ⟨listed.apart, listed.internal, listed.byInternal⟩

theorem indexed_of_accepted (accepted : Accepted r) : Indexed r := by
  rcases accepted with ⟨phases, composed⟩ | ⟨sha256, phases, o, composed⟩
  · exact compose_indexed composed
  · unfold composeWith at composed
    split at composed
    · cases composed
    split_ifs at composed
    split at composed
    · cases composed
    rename_i r' inner
    cases composed
    have indexed := compose_indexed inner
    exact ⟨indexed.apart, indexed.internal, indexed.byInternal⟩

theorem compose_apart (accepted : compose phases = .ok r) : Apart (inlinePhases phases) :=
  (compose_pipeline accepted).1 ▸ (compose_indexed accepted).apart

def rejoined (ps : List (Phase α L)) (exit : SessionState) : List (Phase α L) :=
  ps.dropWhile fun p => p.entryState ≠ exit

/-- The phases `AdvanceToState` can bring a session to: from the first one it only leaves for a
state that is not internal to it. -/
def resting : List (Phase α L) → List (Phase α L)
  | [] => []
  | first :: rest => first :: rest.dropWhile fun p => p.entryState ∈ first.internalStates

/-- There is a phase to begin with, and the last one leads to `StateNone`. A last phase that
leads elsewhere is harmless only where no call can go on past it without end: internal states
beyond the first phase are entered too, and a message is waited for by one of the phases it leads
back to, or by none that a session can come to. -/
def Steady (phases : List (Phase α L)) : Prop :=
  inlinePhases phases ≠ [] ∧ ∀ last ∈ (inlinePhases phases).getLast?,
    last.exitState = stateNone ∨
      (∀ p ∈ (inlinePhases phases).tail, ∀ s ∈ p.internalStates,
        s ∈ (inlinePhases phases).map Phase.entryState) ∧
      ((∃ p ∈ rejoined (inlinePhases phases) last.exitState, p.consumedMessageTypes ≠ []) ∨
        ∀ p ∈ resting (inlinePhases phases), p.consumedMessageTypes = [])

instance (phases : List (Phase α L)) : Decidable (Steady phases) :=
  inferInstanceAs (Decidable (_ ∧ _))

variable (hooks : String → Hooks α L)

theorem inlinePhases_refit (phases : List (Phase α L)) :
    inlinePhases (phases.map (refit hooks)) = (inlinePhases phases).map (refit hooks) := by
  rw [inlinePhases, filter_map]
  rfl

theorem rejoined_refit (ps : List (Phase α L)) (exit : SessionState) :
    rejoined (ps.map (refit hooks)) exit = (rejoined ps exit).map (refit hooks) := by
  rw [rejoined, dropWhile_map]
  rfl

theorem resting_refit (ps : List (Phase α L)) :
    resting (ps.map (refit hooks)) = (resting ps).map (refit hooks) := by
  cases ps with
  | nil => rfl
  | cons first rest =>
    rw [map_cons, resting, dropWhile_map]
    rfl

theorem steady_refit (phases : List (Phase α L)) :
    Steady (phases.map (refit hooks)) ↔ Steady phases := by
  simp only [Steady, inlinePhases_refit, rejoined_refit, resting_refit, ne_eq,
    map_eq_nil_iff, List.getLast?_map, Option.mem_def, Option.map_eq_some_iff,
    forall_exists_index, and_imp, forall_apply_eq_imp_iff₂, ← map_tail, mem_map,
      exists_exists_and_eq_and]
  rfl

def follow (r : SessionRunner α L S) (p : Phase α L) : Option (Phase α L) :=
  r.byEntryState p.exitState

def Halts (r : SessionRunner α L S) (p : Phase α L) : Prop :=
  p.exitState = stateNone ∨ ∃ q ∈ follow r p, q.consumedMessageTypes ≠ []

/-- The last phase leads on, and back to none that waits for a message. -/
structure Endless (r : SessionRunner α L S) (last : Phase α L) : Prop where
  isLast : (inlinePhases r.phases).getLast? = some last
  goesOn : last.exitState ≠ stateNone
  silent : ∀ p ∈ rejoined (inlinePhases r.phases) last.exitState, p.consumedMessageTypes = []

def Arrives (target : SessionState) (p : Phase α L) : Prop :=
  p.entryState = target ∨ p.exitState = stateNone

section

variable {r : SessionRunner α L S} {p q last : Phase α L} {k m : ℕ} {target : SessionState}
  {P : Phase α L → Prop} {ps : List (Phase α L)}

theorem follow_mem (hr : Pipeline r) (next : follow r p = some q) :
    q ∈ inlinePhases r.phases := ((hr.byEntry _ _).mp next).1

theorem follow_none (hr : Pipeline r) (ends : p.exitState = stateNone) : follow r p = none := by
  cases next : follow r p with
  | none => rfl
  | some q =>
    obtain ⟨member, entry⟩ := (hr.byEntry _ _).mp next
    exact absurd (entry.trans ends) (hr.chained.entered q member)

theorem follow_leads (hr : Pipeline r) : Leads (follow r) (inlinePhases r.phases) :=
  fun _ _ _ here after => hr.next here after

theorem last_or_before (here : (inlinePhases r.phases)[k]? = some p) :
    (∃ q, (inlinePhases r.phases)[k + 1]? = some q) ∨
      (inlinePhases r.phases).getLast? = some p := by
  have inside := (List.getElem?_eq_some_iff.mp here).1
  by_cases more : k + 1 < (inlinePhases r.phases).length
  · exact .inl ⟨_, List.getElem?_eq_getElem more⟩
  · refine .inr ?_
    rw [List.getLast?_eq_getElem?, ← here]
    congr 1
    omega

theorem exitState_ne (hr : Pipeline r) (isLast : (inlinePhases r.phases).getLast? = some last)
    (goesOn : last.exitState ≠ stateNone) (member : p ∈ inlinePhases r.phases) :
    p.exitState ≠ stateNone := by
  obtain ⟨k, here⟩ := mem_iff_getElem?.mp member
  intro ends
  rcases last_or_before here with ⟨q, after⟩ | atEnd
  · rw [next_none hr here ends] at after
    cases after
  · rw [isLast] at atEnd
    cases atEnd
    exact goesOn ends

theorem meets_ahead {n : ℕ} (hr : Pipeline r)
    (here : (inlinePhases r.phases)[k]? = some p) (ahead : k ≤ m)
    (there : (inlinePhases r.phases)[m]? = some q) (meets : Meets (follow r) P n q) :
    Meets (follow r) P (m - k + n) p := by
  refine meets.later (follow_leads hr) ?_ here
  rw [← there]
  congr 1
  omega

theorem position_lt (here : (inlinePhases r.phases)[k]? = some p) : k < r.phases.length :=
  lt_of_lt_of_le (List.getElem?_eq_some_iff.mp here).1 (inlinePhases_length_le r)

theorem meets_at (hr : Pipeline r) (here : (inlinePhases r.phases)[k]? = some p) (ahead : k ≤ m)
    (there : (inlinePhases r.phases)[m]? = some q) (holds : P q) :
    Meets (follow r) P (r.phases.length + 1) p := by
  have meets := meets_ahead (n := 1) hr here ahead there (.inl holds)
  have inside := position_lt there
  exact meets.mono (by omega)

theorem last_at (isLast : (inlinePhases r.phases).getLast? = some last) :
    (inlinePhases r.phases)[(inlinePhases r.phases).length - 1]? = some last := by
  rw [← List.getLast?_eq_getElem?]
  exact isLast

theorem mem_rejoined {exit : SessionState} :
    q ∈ rejoined ps exit ↔ ∃ (j : ℕ) (b : Phase α L), ps[j]? = some b ∧ b.entryState = exit ∧
      ∃ m, j ≤ m ∧ ps[m]? = some q := by
  simp [rejoined, mem_dropWhile]

theorem resting_mem (rests : p ∈ resting ps) : p ∈ ps := by
  cases ps with
  | nil => cases rests
  | cons first rest =>
    rcases mem_cons.mp rests with rfl | later
    · exact mem_cons_self
    · exact mem_cons_of_mem _ ((dropWhile_sublist _).subset later)

theorem position_unique (hr : Pipeline r) (here : (inlinePhases r.phases)[k]? = some p)
    (there : (inlinePhases r.phases)[m]? = some q) (same : p.entryState = q.entryState) :
    k = m := by
  have inside : k < ((inlinePhases r.phases).map Phase.entryState).length := by
    rw [length_map]
    exact (List.getElem?_eq_some_iff.mp here).1
  refine (List.getElem?_inj inside hr.chained.entries).mp ?_
  rw [List.getElem?_map, List.getElem?_map, here, there, Option.map_some, Option.map_some, same]

theorem mem_resting (hr : Pipeline r) {first : Phase α L}
    (isFirst : (inlinePhases r.phases)[0]? = some first)
    (there : (inlinePhases r.phases)[m]? = some q) :
    q ∈ resting (inlinePhases r.phases) ↔ m = 0 ∨ ∃ (j : ℕ) (b : Phase α L), 0 < j ∧ j ≤ m ∧
      (inlinePhases r.phases)[j]? = some b ∧ b.entryState ∉ first.internalStates := by
  have unique {i : ℕ} (here : (inlinePhases r.phases)[i]? = some q) : i = m :=
    position_unique hr here there rfl
  revert isFirst there unique
  cases inlinePhases r.phases with
  | nil => simp
  | cons a rest =>
    intro isFirst there unique
    obtain rfl : a = first := by simpa using isFirst
    simp only [resting, mem_cons, mem_dropWhile, decide_eq_false_iff_not]
    constructor
    · rintro (rfl | ⟨j, b, from_, leaves, i, after, here⟩)
      · exact .inl (unique rfl).symm
      · have := unique (i := i + 1) (by simpa using here)
        exact .inr ⟨j + 1, b, by omega, by omega, by simpa using from_, leaves⟩
    · rintro (rfl | ⟨j, b, positive, le, from_, leaves⟩)
      · exact .inl (by simpa using there.symm)
      · obtain ⟨j, rfl⟩ : ∃ j', j = j' + 1 := ⟨j - 1, by omega⟩
        obtain ⟨m, rfl⟩ : ∃ m', m = m' + 1 := ⟨m - 1, by omega⟩
        exact .inr ⟨j, b, by simpa using from_, leaves, m, by omega, by simpa using there⟩

theorem halts_before (hr : Pipeline r) {y b c : Phase α L} {j : ℕ} (next : follow r y = some b)
    (first : (inlinePhases r.phases)[j]? = some b) (after : j ≤ m)
    (there : (inlinePhases r.phases)[m]? = some c) (waits : c.consumedMessageTypes ≠ []) :
    Meets (follow r) (Halts r) (m - j + 1) y := by
  by_cases same : j = m
  · subst same
    obtain rfl : b = c := Option.some.inj (first.symm.trans there)
    exact (show Meets (follow r) (Halts r) 1 y from .inl (.inr ⟨b, next, waits⟩)).mono (by omega)
  · have inside : m - 1 < (inlinePhases r.phases).length := by
      have := (List.getElem?_eq_some_iff.mp there).1
      omega
    have before := List.getElem?_eq_getElem inside
    have step : follow r (inlinePhases r.phases)[m - 1] = some c := by
      refine follow_leads hr (m - 1) _ _ before ?_
      rw [← there]
      congr 1
      omega
    have halts : Meets (follow r) (Halts r) 1 (inlinePhases r.phases)[m - 1] :=
      .inl (.inr ⟨c, step, waits⟩)
    have rest := meets_ahead hr first (by omega) before halts
    exact .inr ⟨b, next, rest.mono (by omega)⟩

theorem halts_of_last (hr : Pipeline r) (isLast : (inlinePhases r.phases).getLast? = some last)
    (halts : last.exitState = stateNone ∨
      ∃ c ∈ rejoined (inlinePhases r.phases) last.exitState, c.consumedMessageTypes ≠ [])
    (here : (inlinePhases r.phases)[k]? = some p) :
    Meets (follow r) (Halts r) (r.phases.length + 1) p := by
  have inside := (List.getElem?_eq_some_iff.mp here).1
  have within := inlinePhases_length_le r
  have atEnd := last_at isLast
  rcases halts with ends | ⟨c, member, cWaits⟩
  · exact meets_at hr here (by omega) atEnd (.inl ends)
  · obtain ⟨j, b, first, entered, m, after, there⟩ := mem_rejoined.mp member
    have back := (hr.byEntry _ _).mpr ⟨mem_of_getElem? first, entered⟩
    have inside' := (List.getElem?_eq_some_iff.mp there).1
    by_cases before : k < m
    · -- the waiting phase is met on the way to the end
      have following := List.getElem?_eq_getElem (by omega : k + 1 < (inlinePhases r.phases).length)
      have next := follow_leads hr k _ _ here following
      exact (halts_before hr next following before there cWaits).mono (by omega)
    · -- it is met once the end has led back
      have wrapped := halts_before hr back first after there cWaits
      exact (meets_ahead hr here (by omega) atEnd wrapped).mono (by omega)

theorem entered_ahead (apart : Apart (inlinePhases r.phases))
    (entries : ∀ p ∈ (inlinePhases r.phases).tail, ∀ s ∈ p.internalStates,
      s ∈ (inlinePhases r.phases).map Phase.entryState)
    (ahead : k < m) (there : (inlinePhases r.phases)[m]? = some q)
    (internal : target ∈ q.internalStates) :
    ∃ (i : ℕ) (b : Phase α L), k ≤ i ∧ (inlinePhases r.phases)[i]? = some b ∧
      b.entryState = target := by
  have inTail : q ∈ (inlinePhases r.phases).tail := by
    refine mem_iff_getElem?.mpr ⟨m - 1, ?_⟩
    rw [List.getElem?_tail, ← there]
    congr 1
    omega
  obtain ⟨b, member, entered⟩ := mem_map.mp (entries q inTail target internal)
  obtain ⟨i, there'⟩ := mem_iff_getElem?.mp member
  refine ⟨i, b, ?_, there', entered⟩
  -- a state listed by a phase is not one that an earlier phase enters
  by_contra before
  obtain ⟨inside, rfl⟩ := List.getElem?_eq_some_iff.mp there
  obtain ⟨inside', rfl⟩ := List.getElem?_eq_some_iff.mp there'
  exact ((pairwise_iff_getElem.mp apart i m inside' inside (by omega)) target
    internal).1 entered.symm

theorem ahead_of_steady (apart : Apart (inlinePhases r.phases))
    (steady : Steady r.phases) (isLast : (inlinePhases r.phases).getLast? = some last)
    (here : (inlinePhases r.phases)[k]? = some p) (ahead : k ≤ m)
    (there : (inlinePhases r.phases)[m]? = some q)
    (owned : q.entryState = target ∨ target ∈ q.internalStates)
    (elsewhere : target ∉ p.internalStates) :
    (∃ (i : ℕ) (b : Phase α L), k ≤ i ∧ (inlinePhases r.phases)[i]? = some b ∧
      b.entryState = target) ∨ last.exitState = stateNone := by
  rcases owned with entered | internal
  · exact .inl ⟨m, q, ahead, there, entered⟩
  have further : k ≠ m := by
    rintro rfl
    obtain rfl : p = q := Option.some.inj (here.symm.trans there)
    exact elsewhere internal
  rcases steady.2 last isLast with ends | ⟨entries, -⟩
  · exact .inr ends
  · exact .inl (entered_ahead apart entries (by omega) there internal)

theorem not_arrives (hr : Pipeline r) (isLast : (inlinePhases r.phases).getLast? = some last)
    (goesOn : last.exitState ≠ stateNone)
    (notEntered : target ∉ (inlinePhases r.phases).map Phase.entryState)
    (member : p ∈ inlinePhases r.phases) (n : ℕ) : ¬ Meets (follow r) (Arrives target) n p := by
  refine not_meets ?_ (fun _ _ _ => follow_mem hr) member
  rintro x inside (entered | ends)
  · exact notEntered (mem_map.mpr ⟨x, inside, entered⟩)
  · exact exitState_ne hr isLast goesOn inside ends

theorem follow_onward (hr : Pipeline r) (endless : Endless r last)
    (here : (inlinePhases r.phases)[k]? = some p) (waits : p.consumedMessageTypes ≠ [])
    {x y : Phase α L} (from_ : k ≤ m) (there : (inlinePhases r.phases)[m]? = some x)
    (next : follow r x = some y) : ∃ m', k < m' ∧ (inlinePhases r.phases)[m']? = some y := by
  rcases last_or_before there with ⟨q, following⟩ | atEnd
  · rw [follow_leads hr m x q there following] at next
    cases next
    exact ⟨m + 1, by omega, following⟩
  · rw [endless.isLast] at atEnd
    cases atEnd
    obtain ⟨member, entered⟩ := (hr.byEntry _ _).mp next
    obtain ⟨j, first⟩ := mem_iff_getElem?.mp member
    refine ⟨j, ?_, first⟩
    by_contra before
    exact waits (endless.silent p (mem_rejoined.mpr ⟨j, y, first, entered, k, by omega, here⟩))

end

end PipelineShapes
