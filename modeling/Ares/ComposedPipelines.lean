import Ares.PipelineShapes
import Ares.SessionRunnerFailures

/-! Which pipelines accepted by `Compose` can lead a session to an error of the framework's own,
whatever the hooks do as long as they succeed. -/
namespace ComposedPipelines

open BoundedWalks InterleavedPrograms PhasePipelines PipelineShapes SessionRunner
  SessionRunnerDiscipline SessionRunnerFailures List

variable {α L S : Type} {r : SessionRunner α L S} {ω : MapOrder} {t : Ref} {p : Phase α L}
  {s : RunnerState α L S}

def bug {β : Type} : Outcome (Except RunErr β) → Prop
  | .returned (.error e) => Sentinel.frameworkBug ∈ e.classes
  | _ => False

instance {β : Type} (o : Outcome (Except RunErr β)) : Decidable (bug o) :=
  match o with
  | .returned (.error _) => inferInstanceAs (Decidable (_ ∈ _))
  | .returned (.ok _) | .panicked => isFalse id

def Bug (r : SessionRunner α L S) (ω : MapOrder) (s : RunnerState α L S) : Call → Prop
  | .begin sid cohortID => bug ((beginSession sid cohortID : RunnerProg α L _).result (sem r ω) s)
  | .message sid m => bug ((handleMessage r sid m.msgType m.sender m.payload).result (sem r ω) s)
  | .advanceTo sid target => bug ((advanceToState r sid target).result (sem r ω) s)
  | .ended _ => False

def Ahead (r : SessionRunner α L S) (s : RunnerState α L S) (sid : String)
    (target : SessionState) : Prop :=
  ∀ t, s.sessions sid = some t → ∃ (k m : ℕ) (p q : Phase α L),
    (inlinePhases r.phases)[k]? = some p ∧ (s.trackers t).current = some p ∧ k ≤ m ∧
      (inlinePhases r.phases)[m]? = some q ∧
      (q.entryState = target ∨ target ∈ q.internalStates)

def InOrder (r : SessionRunner α L S) (ω : MapOrder) (s : RunnerState α L S) (c : Call) : Prop :=
  HooksSucceed ((c.prog r).events (sem r ω) s) ∧
    match c with
    | .advanceTo sid target => Ahead r s sid target
    | _ => True

def Reliable (r : SessionRunner α L S) (ω : MapOrder) (store : S) (app : L) : Prop :=
  ∀ l, CallRun r ω (InOrder r ω) store app l → ∀ c, InOrder r ω l.state c → ¬ Bug r ω l.state c

def Rests (r : SessionRunner α L S) (s : RunnerState α L S) : Prop :=
  ∀ t p, (s.trackers t).current = some p →
    p ∈ inlinePhases r.phases ∧ (s.trackers t).state = p.entryState

def Enters (r : SessionRunner α L S) (a : Action α L) : Prop :=
  ∀ t state q, a = .moveTo t state q → r.byEntryState state = some q

section

theorem rests_sem (hr : Pipeline r) (a : Action α L) (s : RunnerState α L S) (enters : Enters r a)
    (rests : Rests r s) : Rests r (sem r ω a s).2 := by
  intro t p current
  by_cases moves : Moves s t a
  · cases a with
    | moveTo t' state q =>
      obtain rfl : t' = t := moves
      simp only [sem, updateTracker_apply, if_true, Option.some.injEq] at current ⊢
      obtain ⟨member, entry⟩ := (hr.byEntry _ _).mp (enters t' state q rfl)
      exact current ▸ ⟨member, entry.symm⟩
    | clearCurrent t' =>
      obtain rfl : t' = t := moves
      simp [sem] at current
    | create sid cohortID =>
      simp only [sem, createSession] at current ⊢
      split at current
      · exact rests t p current
      · split at current
        · exact rests t p current
        · rename_i first found
          obtain rfl : t = s.nextRef := moves
          simp only [Function.update_self, Option.some.injEq] at current ⊢
          obtain ⟨member, entry⟩ := (hr.byEntry _ _).mp found
          exact current ▸ ⟨member, entry.symm⟩
    | _ => exact moves.elim
  · obtain ⟨state, phase⟩ := sem_position r ω moves
    rw [phase] at current
    rw [state]
    exact rests t p current

theorem WalkStep.enters {a : Action α L} (step : WalkStep r t a) : Enters r a := by
  rintro t' state q rfl
  exact step.2

theorem enters_call (r : SessionRunner α L S) (c : Call) : (c.prog r).Always (Enters r) := by
  cases c with
  | begin sid cohortID =>
    refine (beginSession_steps sid cohortID).mono ?_
    rintro a step _ _ _ rfl
    exact step.elim
  | message sid m =>
    exact handleMessage_always r nofun (fun _ _ _ => nofun) fun _ _ step => WalkStep.enters step
  | advanceTo sid target =>
    exact advanceToState_always r target nofun fun _ _ step => WalkStep.enters step
  | ended sid => exact ⟨nofun, fun _ => trivial⟩

theorem rests_final (hr : Pipeline r) {β : Type} {prog : RunnerProg α L β}
    (enters : prog.Always (Enters r)) (rests : Rests r s) :
    Rests r (prog.final (sem r ω) s) :=
  enters.final _ (rests_sem hr) rests

theorem rests_run (hr : Pipeline r) {guard : RunnerState α L S → Call → Prop} {store : S} {app : L}
    {l : Log α L S} (run : CallRun r ω guard store app l) : Rests r l.state := by
  induction run with
  | start => exact nofun
  | call c _ _ ih => exact rests_final hr (enters_call r c) ih

end

section

theorem advance_sound (noLineage : r.lineage = none) (current : (s.trackers t).current = some p)
    {hops : ℕ} (succeed : HooksSucceed ((advance r t hops).events (sem r ω) s))
    (halts : Meets (follow r) (Halts r) hops p) :
    ¬ bug ((advance r t hops).result (sem r ω) s) := by
  induction hops generalizing p s with
  | zero => cases halts
  | succ hops ih =>
    obtain ⟨es, l, s', run, events, result, -⟩ := advance_hop current hops
    rw [events, hooksSucceed_cons, hooksSucceed_append] at succeed
    obtain ⟨-, left, rest⟩ := succeed
    rw [result]
    cases run with
    | exitFailed | enterFailed => simp [hookErr] at left
    | commitFailed _ failed =>
      rw [commit_succeeds noLineage] at failed
      cases failed
    | terminal => simp [afterLeave, call, bug]
    | unclaimed _ _ goesOn unclaimed =>
      exfalso
      rcases halts with (ends | ⟨q, next, -⟩) | ⟨q, next, -⟩
      · exact goesOn ends
      · exact Option.some_ne_none q (next.symm.trans unclaimed)
      · exact Option.some_ne_none q (next.symm.trans unclaimed)
    | @entered q _ _ goesOn next _ =>
      rcases waits_or_done q ((afterSetEntered r ω t p s q).env r t) with stop | ⟨silent, done⟩
      · rw [(afterLeave_stop hops stop).1]
        exact id
      · obtain ⟨result, -, events⟩ := afterLeave_cascade hops silent done
        rw [result]
        rw [events, hooksSucceed_cons] at rest
        refine ih (afterSetEntered_position r ω t p s q).2 rest.2 ?_
        rcases halts with (ends | ⟨q', next', waits⟩) | ⟨q', next', onward⟩
        · exact absurd ends goesOn
        · cases next.symm.trans next'
          exact absurd silent waits
        · cases next.symm.trans next'
          exact onward

end

section

variable {sid : String} {target : SessionState}

theorem walk_outcome (hr : Pipeline r) (noLineage : r.lineage = none)
    (current : (s.trackers t).current = some p) (state : (s.trackers t).state = p.entryState)
    {hops : ℕ} (succeed : HooksSucceed ((advanceWalk r sid target t hops).events (sem r ω) s)) :
    (Meets (follow r) (Arrives target) hops p ∧ ∃ q,
        (advanceWalk r sid target t hops).result (sem r ω) s = .returned (.ok ()) ∧
        (((advanceWalk r sid target t hops).final (sem r ω) s).trackers t).current = some q ∧
        q.entryState = target) ∨
      (Meets (follow r) (Arrives target) hops p ∧
        ¬ Meets (follow r) (fun q => q.entryState = target) hops p ∧ ∃ name,
        (advanceWalk r sid target t hops).result (sem r ω) s =
          .returned (.error (.terminalReached sid name target))) ∨
      (¬ Meets (follow r) (Arrives target) hops p ∧
        bug ((advanceWalk r sid target t hops).result (sem r ω) s)) := by
  induction hops generalizing p s with
  | zero => exact .inr (.inr ⟨id, by simp [advanceWalk, bug, RunErr.classes]⟩)
  | succ hops ih =>
    by_cases arrived : p.entryState = target
    · refine .inl ⟨.inl (.inl arrived), p, ?_⟩
      rw [advanceWalk_succ]
      have readState : sem r ω (.readState t) s = (target, s) := by simp [sem, state, arrived]
      simp [call, readState, current, arrived]
    have away : (s.trackers t).state ≠ target := by rwa [state]
    obtain ⟨es, l, s', run, events, result, final⟩ :=
      advanceWalk_hop r ω sid target t hops s away current
    rw [events, hooksSucceed_cons, hooksSucceed_cons, hooksSucceed_append] at succeed
    obtain ⟨-, -, left, rest⟩ := succeed
    rw [result, final]
    cases run with
    | exitFailed | enterFailed => simp [hookErr] at left
    | commitFailed _ failed =>
      rw [commit_succeeds noLineage] at failed
      cases failed
    | terminal _ _ ends =>
      refine .inr (.inl ⟨.inl (.inr ends), ?_, p.name, rfl⟩)
      rintro (here | ⟨q, next, -⟩)
      · exact arrived here
      · rw [follow_none hr ends] at next
        cases next
    | unclaimed _ _ goesOn unclaimed =>
      refine .inr (.inr ⟨?_, by simp [walkOn, bug, RunErr.classes]⟩)
      rintro ((here | ends) | ⟨q, next, -⟩)
      · exact arrived here
      · exact goesOn ends
      · exact Option.some_ne_none q (next.symm.trans unclaimed)
    | @entered q _ _ goesOn next _ =>
      obtain ⟨state', current'⟩ := afterSetEntered_position r ω t p s q
      have entry := ((hr.byEntry _ _).mp next).2
      have onward {P : Phase α L → Prop} (notHere : ¬ P p)
          (meets : Meets (follow r) P (hops + 1) p) : Meets (follow r) P hops q := by
        rcases meets with here | ⟨q', next', rest⟩
        · exact absurd here notHere
        · cases next.symm.trans next'
          exact rest
      rcases ih current' (state'.trans entry.symm) rest with
        ⟨meets, ok⟩ | ⟨meets, no, ended⟩ | ⟨no, isBug⟩
      · exact .inl ⟨.inr ⟨q, next, meets⟩, ok⟩
      · exact .inr (.inl ⟨.inr ⟨q, next, meets⟩, fun meets => no (onward arrived meets), ended⟩)
      · refine .inr (.inr ⟨fun meets => no (onward ?_ meets), isBug⟩)
        rintro (here | ends)
        · exact arrived here
        · exact goesOn ends

theorem walk_arrives (hr : Pipeline r) (noLineage : r.lineage = none) (rests : Rests r s)
    (current : (s.trackers t).current = some p) {b : Phase α L} {k i : ℕ}
    (here : (inlinePhases r.phases)[k]? = some p) (ahead : k ≤ i)
    (there : (inlinePhases r.phases)[i]? = some b) (entered : b.entryState = target)
    (succeed : HooksSucceed
      ((advanceWalk r sid target t (r.phases.length + 1)).events (sem r ω) s)) :
    (((advanceWalk r sid target t (r.phases.length + 1)).final (sem r ω) s).trackers t).current =
      some b := by
  rcases walk_outcome hr noLineage current (rests t p current).2 succeed with
    ⟨-, c, -, final, atTarget⟩ | ⟨-, no, -⟩ | ⟨no, -⟩
  · have rests' := rests_final hr (ω := ω)
      ((advanceWalk_steps r sid target t (r.phases.length + 1)).mono fun _ => WalkStep.enters) rests
    obtain ⟨i', position⟩ := mem_iff_getElem?.mp (rests' t c final).1
    obtain rfl := position_unique hr position there (atTarget.trans entered.symm)
    rw [final, ← position, there]
  · exact absurd (meets_at hr here ahead there entered) no
  · exact absurd (meets_at hr here ahead there (.inl entered)) no

end

section

theorem begin_sound (hr : Pipeline r) (inhabited : inlinePhases r.phases ≠ [])
    {sid cohortID : String} (succeed : HooksSucceed
      ((beginSession sid cohortID : RunnerProg α L _).events (sem r ω) s)) :
    ¬ Bug r ω s (.begin sid cohortID) := by
  obtain ⟨first, rest, eq⟩ := exists_cons_of_ne_nil inhabited
  have initial : r.byEntryState r.initialState = some first := by
    rw [hr.byEntry, hr.initial, eq]
    simp
  simp only [Bug, beginSession, call, Prog.call_bind] at succeed ⊢
  by_cases unnamed : sid = ""
  · simp [unnamed, bug, RunErr.classes]
  simp only [if_neg unnamed, Prog.events_act, Prog.result_act] at succeed ⊢
  cases active : s.sessions sid with
  | some t =>
    have taken : sem r ω (.create sid cohortID) s = (.error (.alreadyActive sid), s) := by
      simp [sem, createSession, active]
    simp [taken, bug, RunErr.classes]
  | none =>
    have created : (sem r ω (.create sid cohortID) s).1 = .ok (s.nextRef, first) := by
      simp [sem, createSession, active, initial]
    rw [created] at succeed ⊢
    simp only [Prog.result_act] at succeed ⊢
    cases entered : (sem r ω (.enter s.nextRef first) (sem r ω (.create sid cohortID) s).2).1 with
    | none => simp [bug]
    | some e => simp [entered, hookErr] at succeed

def Idle (s : RunnerState α L S) (sid : String) (target : SessionState) : Prop :=
  ∀ t, s.sessions sid = some t → (s.trackers t).state = target ∨
    ∃ p, (s.trackers t).current = some p ∧ target ∈ p.internalStates

theorem advanceTo_run (r : SessionRunner α L S) (ω : MapOrder) (s : RunnerState α L S)
    (sid : String) (target : SessionState) :
    (Idle s sid target ∧ ¬ Bug r ω s (.advanceTo sid target) ∧
        (advanceToState r sid target).final (sem r ω) s = s ∧
        HooksSucceed ((advanceToState r sid target).events (sem r ω) s)) ∨
      ∃ t, s.sessions sid = some t ∧ (s.trackers t).state ≠ target ∧
        (∀ p, (s.trackers t).current = some p → target ∉ p.internalStates) ∧
        (∃ before, HooksSucceed before ∧ (advanceToState r sid target).events (sem r ω) s =
            before ++ (advanceWalk r sid target t (r.phases.length + 1)).events (sem r ω) s) ∧
        (advanceToState r sid target).result (sem r ω) s =
          (advanceWalk r sid target t (r.phases.length + 1)).result (sem r ω) s ∧
        (advanceToState r sid target).final (sem r ω) s =
          (advanceWalk r sid target t (r.phases.length + 1)).final (sem r ω) s := by
  simp only [Bug, advanceToState, call, Prog.call_bind, Prog.events_act,
    Prog.result_act, Prog.final_act]
  cases active : s.sessions sid with
  | none =>
    have lookup : sem r ω (.lookup sid) s = (none, s) := by simp [sem, active]
    rw [lookup]
    exact .inl ⟨by simp [Idle, active], by simp [bug, RunErr.classes], rfl, by simp [hookErr]⟩
  | some t =>
    have lookup : sem r ω (.lookup sid) s = (some t, s) := by simp [sem, active]
    have readState : sem r ω (.readState t) s = ((s.trackers t).state, s) := rfl
    have readCurrent : sem r ω (.readCurrent t) s = ((s.trackers t).current, s) := rfl
    rw [lookup]
    simp only [Prog.events_act, Prog.result_act, Prog.final_act, readState]
    by_cases here : (s.trackers t).state = target
    · rw [if_pos here]
      refine .inl ⟨?_, by simp [bug], rfl, by simp [hookErr]⟩
      intro t' active'
      cases active.symm.trans active'
      exact .inl here
    rw [if_neg here]
    simp only [Prog.events_act, Prog.result_act, Prog.final_act, readCurrent]
    by_cases inside : (s.trackers t).current.any fun p => target ∈ p.internalStates
    · rw [if_pos inside]
      refine .inl ⟨?_, by simp [bug], rfl, by simp [hookErr]⟩
      intro t' active'
      cases active.symm.trans active'
      obtain ⟨p, current, internal⟩ := (Option.any_eq_true _ _).mp inside
      exact .inr ⟨p, current, by simpa using internal⟩
    rw [if_neg inside]
    refine .inr ⟨t, rfl, here, ?_, ⟨[⟨s, .lookup sid, some t⟩,
      ⟨s, .readState t, (s.trackers t).state⟩, ⟨s, .readCurrent t, (s.trackers t).current⟩],
      by simp [hookErr], rfl⟩, rfl, rfl⟩
    intro p current internal
    apply inside
    simp [current, internal]

theorem advanceTo_sound (hr : Pipeline r) (noLineage : r.lineage = none)
    (apart : Apart (inlinePhases r.phases)) (steady : Steady r.phases) (rests : Rests r s)
    {sid : String} {target : SessionState}
    (inOrder : InOrder r ω s (.advanceTo sid target)) : ¬ Bug r ω s (.advanceTo sid target) := by
  obtain ⟨succeed, ahead⟩ := inOrder
  rcases advanceTo_run r ω s sid target with ⟨-, fine, -⟩ |
    ⟨t, active, -, elsewhere, ⟨before, -, events⟩, result, -⟩
  · exact fine
  obtain ⟨k, m, p, q, here, current, le, there, owned⟩ := ahead t active
  obtain ⟨last, isLast⟩ := Option.isSome_iff_exists.mp (List.getLast?_isSome.mpr steady.1)
  have walkSucceeds := (hooksSucceed_append _ _).mp (events ▸ succeed)
  have arrives : Meets (follow r) (Arrives target) (r.phases.length + 1) p := by
    rcases ahead_of_steady apart steady isLast here le there owned (elsewhere p current) with
      ⟨i, b, further, there', entered⟩ | ends
    · exact meets_at hr here further there' (.inl entered)
    · have inside := (List.getElem?_eq_some_iff.mp here).1
      exact meets_at hr here (by omega) (last_at isLast) (.inr ends)
  rw [Bug, result]
  rcases walk_outcome hr noLineage current (rests t p current).2 walkSucceeds.2 with
    ⟨-, q, ok, -⟩ | ⟨-, -, name, ended⟩ | ⟨no, -⟩
  · rw [ok]
    exact id
  · rw [ended]
    simp [bug, RunErr.classes]
  · exact absurd arrives no

theorem message_sound (noLineage : r.lineage = none) {sid : String} {m : Message}
    (halts : ∀ t p, (s.trackers t).current = some p → p.consumedMessageTypes ≠ [] →
      Meets (follow r) (Halts r) (r.phases.length + 1) p)
    (succeed : HooksSucceed
      ((handleMessage r sid m.msgType m.sender m.payload).events (sem r ω) s)) :
    ¬ Bug r ω s (.message sid m) := by
  have run := handleMessage_run r ω sid m s
  rw [Bug]
  generalize handleMessage .. = f at *
  generalize f.events _ _ = es, f.result _ _ = o, f.final _ _ = s' at *
  cases run with
  | inactive | noPhase | notConsumed | waiting => simp [bug, RunErr.classes]
  | messageFailed => simp [hookErr] at succeed
  | @advancing t p active current consumed =>
    have position := (afterMessage_position r ω m s t t p).2.trans current
    have advanceSucceeds := ((hooksSucceed_append _ _).mp succeed).2
    exact advance_sound noLineage position advanceSucceeds
      (halts t p current (ne_nil_of_mem consumed))

def Stands (r : SessionRunner α L S) (s : RunnerState α L S) : Prop :=
  ∀ t p, (s.trackers t).current = some p → p ∈ resting (inlinePhases r.phases)

theorem stands_begin (hr : Pipeline r) {sid cohortID : String} (stands : Stands r s) :
    Stands r ((beginSession sid cohortID : RunnerProg α L _).final (sem r ω) s) := by
  refine (beginSession_steps sid cohortID).final _ ?_ stands
  intro a s step stands t p current
  by_cases moves : Moves s t a
  · cases a with
    | create sid cohortID =>
      simp only [sem, createSession] at current
      split at current
      · exact stands t p current
      · split at current
        · exact stands t p current
        · rename_i first found
          obtain rfl : t = s.nextRef := moves
          simp only [Function.update_self, Option.some.injEq] at current
          obtain ⟨isFirst, -⟩ := initial_first hr found
          exact current ▸ (mem_resting hr isFirst isFirst).mpr (.inl rfl)
    | moveTo | clearCurrent => exact step.elim
    | _ => exact moves.elim
  · rw [(sem_position r ω moves).2] at current
    exact stands t p current

theorem stands_message (silent : ∀ p ∈ resting (inlinePhases r.phases),
    p.consumedMessageTypes = []) (stands : Stands r s) (sid : String) (m : Message) :
    (handleMessage r sid m.msgType m.sender m.payload).final (sem r ω) s = s := by
  have run := handleMessage_run r ω sid m s
  generalize handleMessage .. = f at *
  generalize f.events _ _ = es, f.result _ _ = o, f.final _ _ = s' at *
  cases run with
  | inactive | noPhase | notConsumed => rfl
  | @messageFailed t p _ _ current consumed _ | @waiting t p _ current consumed _ _
  | @advancing t p _ current consumed _ _ =>
    rw [silent p (stands t p current)] at consumed
    cases consumed

section

variable (hr : Pipeline r) (noLineage : r.lineage = none) (apart : Apart (inlinePhases r.phases))
  (steady : Steady r.phases)

include hr noLineage apart steady

theorem stands_advanceTo {last : Phase α L} (isLast : (inlinePhases r.phases).getLast? = some last)
    (goesOn : last.exitState ≠ stateNone) (rests : Rests r s) (stands : Stands r s) {sid : String}
    {target : SessionState} (inOrder : InOrder r ω s (.advanceTo sid target)) :
    Stands r ((advanceToState r sid target).final (sem r ω) s) := by
  obtain ⟨succeed, ahead⟩ := inOrder
  rcases advanceTo_run r ω s sid target with ⟨-, -, same, -⟩ |
    ⟨t, active, away, elsewhere, ⟨before, -, events⟩, -, final⟩
  · rw [same]
    exact stands
  rw [final]
  intro t' q' current'
  have steps := advanceWalk_steps r sid target t (r.phases.length + 1)
  by_cases moved : t' = t
  swap
  · rw [(local_final (steps.mono fun _ => WalkStep.local) s).others t' moved] at current'
    exact stands t' q' current'
  subst moved
  obtain ⟨k, m, p, q, here, current, le, there, owned⟩ := ahead t' active
  obtain ⟨i, b, further, there', entered⟩ := (ahead_of_steady apart steady isLast here le there
    owned (elsewhere p current)).resolve_right goesOn
  have walkSucceeds := (hooksSucceed_append _ _).mp (events ▸ succeed)
  have arrived := walk_arrives hr noLineage rests current here further there' entered walkSucceeds.2
  cases arrived.symm.trans current'
  have beyond : k ≠ i := by
    rintro rfl
    cases here.symm.trans there'
    exact away ((rests t' _ current).2.trans entered)
  have inside := (List.getElem?_eq_some_iff.mp here).1
  have isFirst := List.getElem?_eq_getElem (by omega : 0 < (inlinePhases r.phases).length)
  refine (mem_resting hr isFirst there').mpr (.inr ?_)
  rcases (mem_resting hr isFirst here).mp (stands t' p current) with
    rfl | ⟨j, a, positive, le', from_, leaves⟩
  · cases here.symm.trans isFirst
    exact ⟨i, _, by omega, le_rfl, there', entered ▸ elsewhere _ current⟩
  · exact ⟨j, a, positive, by omega, from_, leaves⟩

theorem stands_run {last : Phase α L} (isLast : (inlinePhases r.phases).getLast? = some last)
    (goesOn : last.exitState ≠ stateNone)
    (silent : ∀ p ∈ resting (inlinePhases r.phases), p.consumedMessageTypes = []) {store : S}
    {app : L} {l : Log α L S} (run : CallRun r ω (InOrder r ω) store app l) : Stands r l.state := by
  induction run with
  | start => exact nofun
  | call c run inOrder stands =>
    cases c with
    | begin sid cohortID => exact stands_begin hr stands
    | message sid m =>
      show Stands r ((handleMessage r sid m.msgType m.sender m.payload).final (sem r ω) _)
      rw [stands_message silent stands sid m]
      exact stands
    | advanceTo sid target =>
      exact stands_advanceTo hr noLineage apart steady isLast goesOn (rests_run hr run) stands
        inOrder
    | ended sid => exact stands

theorem steady_reliable (ω : MapOrder) (store : S) (app : L) : Reliable r ω store app := by
  intro l run c inOrder
  have rests := rests_run hr run
  cases c with
  | begin sid cohortID => exact begin_sound hr steady.1 inOrder.1
  | message sid m =>
    refine message_sound noLineage ?_ inOrder.1
    intro t p current waits
    obtain ⟨k, here⟩ := mem_iff_getElem?.mp (rests t p current).1
    obtain ⟨last, isLast⟩ := Option.isSome_iff_exists.mp (List.getLast?_isSome.mpr steady.1)
    by_cases ends : last.exitState = stateNone
    · exact halts_of_last hr isLast (.inl ends) here
    rcases ((steady.2 last isLast).resolve_left ends).2 with halting | silent
    · exact halts_of_last hr isLast (.inr halting) here
    · have stands := stands_run hr noLineage apart steady isLast ends silent run
      exact absurd (silent p (stands t p current)) waits
  | advanceTo sid target => exact advanceTo_sound hr noLineage apart steady rests inOrder
  | ended sid => exact id

end

end

def willingHooks : Hooks α L :=
  ⟨HookEnv.unchanged, fun _ _ _ => HookEnv.unchanged, fun _ => true, HookEnv.unchanged⟩

structure Willing (p : Phase α L) : Prop where
  enter : ∀ e, (p.enter e).err = none
  onMessage : ∀ msgType sender payload e, (p.onMessage msgType sender payload e).err = none
  complete : ∀ e, p.checkComplete e = true
  exit : ∀ e, (p.exit e).err = none

theorem willing_refit (p : Phase α L) : Willing (refit (fun _ => willingHooks) p) :=
  ⟨fun _ => rfl, fun _ _ _ _ => rfl, fun _ => rfl, fun _ => rfl⟩

section

variable {p last : Phase α L} {s s' : RunnerState α L S}

section

variable (hr : Pipeline r) (willing : ∀ p ∈ inlinePhases r.phases, Willing p)
  (member : p ∈ inlinePhases r.phases)

include hr willing member

theorem leave_succeeds {w : Walk} {es : List (RunnerEvent α L S)} {l : Leaving α L}
    (run : LeaveRun r ω t p s w es l s') : HooksSucceed es := by
  cases run with
  | exitFailed failed => cases failed.symm.trans ((willing p member).exit _)
  | enterFailed _ _ _ next failed =>
    have member' := ((hr.byEntry _ _).mp next).1
    cases failed.symm.trans ((willing _ member').enter _)
  | _ => simp [hookErr]

theorem walk_succeeds (current : (s.trackers t).current = some p) (sid : String)
    (target : SessionState) (hops : ℕ) :
    HooksSucceed ((advanceWalk r sid target t hops).events (sem r ω) s) := by
  induction hops generalizing p s with
  | zero => simp [advanceWalk]
  | succ hops ih =>
    by_cases arrived : (s.trackers t).state = target
    · rw [advanceWalk_succ]
      have readState : sem r ω (.readState t) s = (target, s) := by simp [sem, arrived]
      simp [call, readState, hookErr]
    obtain ⟨es, l, s', run, events, -⟩ := advanceWalk_hop r ω sid target t hops s arrived current
    rw [events, hooksSucceed_cons, hooksSucceed_cons, hooksSucceed_append]
    refine ⟨rfl, rfl, leave_succeeds hr willing member run, ?_⟩
    cases run with
    | @entered q _ _ _ next _ =>
      exact ih ((hr.byEntry _ _).mp next).1 (afterSetEntered_position r ω t p s q).2
    | _ => simp [walkOn]

end

section

variable (hr : Pipeline r) (noLineage : r.lineage = none)
  (willing : ∀ p ∈ inlinePhases r.phases, Willing p) (endless : Endless r last)

include hr noLineage willing endless

theorem advance_willing {c : Phase α L} {k m : ℕ} (waiting : (inlinePhases r.phases)[k]? = some c)
    (waits : c.consumedMessageTypes ≠ []) (from_ : k ≤ m)
    (here : (inlinePhases r.phases)[m]? = some p) (current : (s.trackers t).current = some p)
    (hops : ℕ) :
    HooksSucceed ((advance r t hops).events (sem r ω) s) ∧
      (bug ((advance r t hops).result (sem r ω) s) ∨
        ∃ (m' : ℕ) (q : Phase α L), k < m' ∧ (inlinePhases r.phases)[m']? = some q ∧
          q.consumedMessageTypes ≠ [] ∧
          (((advance r t hops).final (sem r ω) s).trackers t).current = some q) := by
  induction hops generalizing m p s with
  | zero => exact ⟨by simp [advance], .inl (by simp [advance, bug, RunErr.classes])⟩
  | succ hops ih =>
    obtain ⟨es, l, s', run, events, result, final⟩ := advance_hop current hops
    have member := mem_of_getElem? here
    have left := leave_succeeds hr willing member run
    rw [events, result, final, hooksSucceed_cons, hooksSucceed_append]
    cases run with
    | exitFailed failed => cases failed.symm.trans ((willing p member).exit _)
    | commitFailed _ failed =>
      rw [commit_succeeds noLineage] at failed
      cases failed
    | terminal _ _ ends => exact absurd ends (exitState_ne hr endless.isLast endless.goesOn member)
    | unclaimed =>
      exact ⟨⟨rfl, left, by simp [afterLeave]⟩, .inl (by simp [afterLeave, bug, RunErr.classes])⟩
    | enterFailed _ _ _ next failed =>
      have member' := ((hr.byEntry _ _).mp next).1
      cases failed.symm.trans ((willing _ member').enter _)
    | @entered q _ _ _ next _ =>
      obtain ⟨m', later, there⟩ := follow_onward hr endless waiting waits from_ here next
      have current' := (afterSetEntered_position r ω t p s q).2
      rcases waits_or_done q ((afterSetEntered r ω t p s q).env r t) with stop | ⟨noneWaited, done⟩
      · obtain ⟨-, final, quiet⟩ := afterLeave_stop hops stop
        refine ⟨⟨rfl, left, ?_⟩, .inr ⟨m', q, later, there, ?_, by rw [final]; exact current'⟩⟩
        · intro e inside
          rw [quiet e inside]
          rfl
        · refine stop.resolve_right ?_
          rw [(willing q (mem_of_getElem? there)).complete]
          exact Bool.noConfusion
      · obtain ⟨result, final, events⟩ := afterLeave_cascade hops noneWaited done
        obtain ⟨succeed, outcome⟩ := ih (by omega) there current'
        have onward : HooksSucceed ((afterLeave r t hops (.entered q)).events (sem r ω)
            (afterSetEntered r ω t p s q)) := by
          rw [events, hooksSucceed_cons]
          exact ⟨rfl, succeed⟩
        rw [result, final]
        exact ⟨⟨rfl, left, onward⟩, outcome⟩

theorem message_willing {k : ℕ} (here : (inlinePhases r.phases)[k]? = some p) {sid : String}
    (active : s.sessions sid = some t) (current : (s.trackers t).current = some p) {m : Message}
    (listed : m.msgType ∈ p.consumedMessageTypes) :
    InOrder r ω s (.message sid m) ∧ (Bug r ω s (.message sid m) ∨
      ∃ (m' : ℕ) (q : Phase α L), k < m' ∧ (inlinePhases r.phases)[m']? = some q ∧
        q.consumedMessageTypes ≠ [] ∧
        ((((Call.message sid m).prog r).final (sem r ω) s).trackers t).current = some q) := by
  have run := handleMessage_run r ω sid m s
  simp only [InOrder, Bug, Call.prog]
  have same {t' : Ref} (active' : s.sessions sid = some t') : t' = t :=
    Option.some.inj (active'.symm.trans active)
  generalize handleMessage .. = f at *
  generalize f.events _ _ = es, f.result _ _ = o, f.final _ _ = s' at *
  cases run with
  | inactive inactive => cases active.symm.trans inactive
  | noPhase active' gone =>
    cases same active'
    cases current.symm.trans gone
  | notConsumed active' current' notListed =>
    cases same active'
    cases current.symm.trans current'
    exact absurd listed notListed
  | messageFailed active' current' _ failed =>
    cases same active'
    cases current.symm.trans current'
    have succeeds := (willing p (mem_of_getElem? here)).onMessage
    cases failed.symm.trans (succeeds _ _ _ _)
  | waiting active' current' _ _ notDone =>
    cases same active'
    cases current.symm.trans current'
    rw [(willing p (mem_of_getElem? here)).complete] at notDone
    cases notDone
  | advancing active' current' _ _ _ =>
    cases same active'
    cases current.symm.trans current'
    have position := (afterMessage_position r ω m s t t p).2.trans current
    obtain ⟨succeed, outcome⟩ := advance_willing hr noLineage willing endless
      here (ne_nil_of_mem listed) le_rfl here position (r.phases.length + 1)
    refine ⟨⟨?_, trivial⟩, outcome⟩
    rw [hooksSucceed_append]
    exact ⟨by simp [hookErr], succeed⟩

end

theorem sessions_kept {β : Type} {prog : RunnerProg α L β}
    (keeps : prog.Always fun a => ∀ s, (sem r ω a s).2.sessions = s.sessions) :
    (prog.final (sem r ω) s).sessions = s.sessions :=
  keeps.final _ (I := fun s' => s'.sessions = s.sessions)
    (fun _ s' keep same => (keep s').trans same) rfl

/-- A sequence of calls in order after which session `s` is at this phase. -/
structure Standing (r : SessionRunner α L S) (ω : MapOrder) (store : S) (app : L) (l : Log α L S)
    (p : Phase α L) : Prop where
  run : CallRun r ω (InOrder r ω) store app l
  active : l.state.sessions "s" = some 0
  current : (l.state.trackers 0).current = some p

section

variable (hr : Pipeline r) (noLineage : r.lineage = none)
  (willing : ∀ p ∈ inlinePhases r.phases, Willing p) {store : S} {app : L} {l : Log α L S}

include hr noLineage willing

theorem unreliable_of_waiting (endless : Endless r last) (standing : Standing r ω store app l p)
    {k : ℕ} (here : (inlinePhases r.phases)[k]? = some p) (waits : p.consumedMessageTypes ≠ []) :
    ¬ Reliable r ω store app := by
  -- on the number of phases still ahead
  induction left : (inlinePhases r.phases).length - k using Nat.strong_induction_on
    generalizing k p l with
  | _ n ih =>
    intro reliable
    obtain ⟨msgType, listed⟩ := exists_mem_of_ne_nil _ waits
    obtain ⟨inOrder, isBug | ⟨m', q, later, there, waits', current'⟩⟩ :=
      message_willing (m := ⟨msgType, "", []⟩) hr noLineage willing endless here
        standing.active standing.current listed
    · exact reliable l standing.run _ inOrder isBug
    · have inside := (List.getElem?_eq_some_iff.mp there).1
      have sessions : (l.exec r ω (.message "s" ⟨msgType, "", []⟩)).state.sessions =
          l.state.sessions :=
        sessions_kept (handleMessage_always r (fun _ => rfl) (fun _ _ _ _ => rfl)
          fun t a step s => (local_framed step.local s).sessions)
      have standing' : Standing r ω store app (l.exec r ω (.message "s" ⟨msgType, "", []⟩)) q :=
        ⟨.call _ standing.run inOrder, sessions ▸ standing.active, current'⟩
      exact ih _ (by omega) standing' there waits' rfl reliable

theorem standing_advanceTo (standing : Standing r ω store app l p) {b : Phase α L} {k i : ℕ}
    (here : (inlinePhases r.phases)[k]? = some p) (ahead : k ≤ i)
    (there : (inlinePhases r.phases)[i]? = some b) (elsewhere : b.entryState ∉ p.internalStates) :
    Standing r ω store app (l.exec r ω (.advanceTo "s" b.entryState)) b := by
  obtain ⟨run, active, current⟩ := standing
  have rests := rests_run hr run
  have aims : Ahead r l.state "s" b.entryState := by
    intro t' active'
    cases active.symm.trans active'
    exact ⟨k, i, p, b, here, current, ahead, there, .inl rfl⟩
  rcases advanceTo_run r ω l.state "s" b.entryState with ⟨idle, -, final, quiet⟩ |
    ⟨t', active', -, -, ⟨before, quiet, events⟩, -, final⟩
  · have same : (l.exec r ω (.advanceTo "s" b.entryState)).state = l.state := final
    refine ⟨.call _ run ⟨quiet, aims⟩, by rw [same]; exact active, ?_⟩
    rw [same]
    rcases idle 0 active with arrived | ⟨p', current', internal⟩
    · obtain rfl := position_unique hr here there ((rests 0 p current).2.symm.trans arrived)
      exact current.trans (here.symm.trans there)
    · cases current.symm.trans current'
      exact absurd internal elsewhere
  · cases active.symm.trans active'
    have succeed := walk_succeeds (ω := ω) hr willing (mem_of_getElem? here) current "s"
      b.entryState (r.phases.length + 1)
    have inOrder : InOrder r ω l.state (.advanceTo "s" b.entryState) := by
      refine ⟨?_, aims⟩
      show HooksSucceed ((advanceToState r "s" b.entryState).events (sem r ω) l.state)
      rw [events, hooksSucceed_append]
      exact ⟨quiet, succeed⟩
    have walked : (l.exec r ω (.advanceTo "s" b.entryState)).state =
        (advanceWalk r "s" b.entryState 0 (r.phases.length + 1)).final (sem r ω) l.state := final
    have sessions := (local_final (r := r) (ω := ω)
      ((advanceWalk_steps r "s" b.entryState 0 (r.phases.length + 1)).mono
        fun _ => WalkStep.local) l.state).sessions
    refine ⟨.call _ run inOrder, by rw [walked, sessions]; exact active, ?_⟩
    rw [walked]
    exact walk_arrives hr noLineage rests current here ahead there rfl succeed

end

theorem standing_begin (hr : Pipeline r) (willing : ∀ p ∈ inlinePhases r.phases, Willing p)
    (isFirst : (inlinePhases r.phases)[0]? = some p) (store : S) (app : L) :
    Standing r ω store app ((Log.start store app).exec r ω (.begin "s" "")) p := by
  have member := mem_of_getElem? isFirst
  have initial : r.byEntryState r.initialState = some p := by
    rw [hr.byEntry, hr.initial, List.head?_eq_getElem?, isFirst]
    exact ⟨member, rfl⟩
  obtain ⟨c, created⟩ : ∃ c, sem r ω (.create "s" "") (RunnerState.fresh store app) =
      (.ok (0, p), c) := by
    simp [sem, createSession, RunnerState.fresh, initial]
  have sessions : c.sessions "s" = some 0 := by
    simp only [sem, createSession, RunnerState.fresh, initial, Prod.mk.injEq] at created
    rw [← created.2]
    simp
  have current : (c.trackers 0).current = some p := by
    simp only [sem, createSession, RunnerState.fresh, initial, Prod.mk.injEq] at created
    rw [← created.2]
    simp
  have entered : (sem r ω (.enter 0 p) c).1 = none := (willing p member).enter _
  have enterPosition := sem_position r ω (s := c) (t := 0) (a := .enter 0 p) id
  have setPosition := sem_position r ω (s := (sem r ω (.enter 0 p) c).2) (t := 0)
    (a := .setEntered 0) id
  have inOrder : InOrder r ω (RunnerState.fresh store app) (.begin "s" "") := by
    simp [InOrder, Call.prog, beginSession, call, created, entered, hookErr]
  have final : ((Log.start store app).exec r ω (.begin "s" "")).state =
      (sem r ω (.setEntered 0) (sem r ω (.enter 0 p) c).2).2 := by
    simp [Log.exec, Log.start, Call.prog, beginSession, call, created, entered]
  refine ⟨.call _ .start inOrder, by rw [final]; exact sessions, ?_⟩
  rw [final]
  exact setPosition.2.trans (enterPosition.2.trans current)

theorem unreliable_of_empty (hr : Pipeline r) (noPhases : inlinePhases r.phases = []) (store : S)
    (app : L) : ¬ Reliable r ω store app := by
  have initial : r.byEntryState r.initialState = none := by
    cases found : r.byEntryState r.initialState with
    | none => rfl
    | some p => exact absurd ((hr.byEntry _ _).mp found).1 (by simp [noPhases])
  have refused : sem r ω (.create "s" "") (RunnerState.fresh store app) =
      (.error (.noInitialPhase r.initialState), RunnerState.fresh store app) := by
    simp [sem, createSession, RunnerState.fresh, initial]
  intro reliable
  refine reliable _ .start (.begin "s" "") ?_ ?_
  · simp [InOrder, Log.start, Call.prog, beginSession, call, refused, hookErr]
  · simp [Bug, Log.start, beginSession, call, refused, bug, RunErr.classes]

section

variable (hr : Pipeline r) (noLineage : r.lineage = none)
  (willing : ∀ p ∈ inlinePhases r.phases, Willing p) (apart : Apart (inlinePhases r.phases))

include hr noLineage willing apart

theorem unreliable_of_internal (isLast : (inlinePhases r.phases).getLast? = some last)
    (goesOn : last.exitState ≠ stateNone) {q : Phase α L} (later : q ∈ (inlinePhases r.phases).tail)
    {target : SessionState} (internal : target ∈ q.internalStates)
    (notEntered : target ∉ (inlinePhases r.phases).map Phase.entryState) (store : S) (app : L) :
    ¬ Reliable r ω store app := by
  intro reliable
  obtain ⟨i, there⟩ := mem_iff_getElem?.mp later
  rw [List.getElem?_tail] at there
  have inside := (List.getElem?_eq_some_iff.mp there).1
  have isFirst := List.getElem?_eq_getElem (by omega : 0 < (inlinePhases r.phases).length)
  have member := mem_of_getElem? isFirst
  obtain ⟨run, active, current⟩ := standing_begin hr willing isFirst store app
  have rests := rests_run hr run
  generalize (Log.start store app).exec r ω (.begin "s" "") = l at run active current rests
  have aims : Ahead r l.state "s" target := by
    intro t' active'
    cases active.symm.trans active'
    exact ⟨0, i + 1, _, q, isFirst, current, by omega, there, .inr internal⟩
  rcases advanceTo_run r ω l.state "s" target with
    ⟨idle, -⟩ | ⟨t', active', -, -, ⟨before, quiet, events⟩, result, -⟩
  · rcases idle 0 active with arrived | ⟨p', current', shared⟩
    · refine notEntered (mem_map.mpr ⟨_, member, ?_⟩)
      exact (rests 0 _ current).2.symm.trans arrived
    · cases current.symm.trans current'
      obtain ⟨inside', rfl⟩ := List.getElem?_eq_some_iff.mp there
      exact (pairwise_iff_getElem.mp apart 0 (i + 1) _ inside' (by omega) target
        internal).2 shared
  · cases active.symm.trans active'
    have succeed := walk_succeeds (ω := ω) hr willing member current "s" target
      (r.phases.length + 1)
    have inOrder : InOrder r ω l.state (.advanceTo "s" target) := by
      refine ⟨?_, aims⟩
      show HooksSucceed ((advanceToState r "s" target).events (sem r ω) l.state)
      rw [events, hooksSucceed_append]
      exact ⟨quiet, succeed⟩
    refine reliable _ run _ inOrder ?_
    rw [Bug, result]
    have no := not_arrives hr isLast goesOn notEntered member (r.phases.length + 1)
    rcases walk_outcome hr noLineage current (rests 0 _ current).2 succeed with
      ⟨meets, -⟩ | ⟨meets, -⟩ | ⟨-, isBug⟩
    · exact absurd meets no
    · exact absurd meets no
    · exact isBug

theorem unreliable_of_resting (endless : Endless r last) {c : Phase α L}
    (rests : c ∈ resting (inlinePhases r.phases)) (waits : c.consumedMessageTypes ≠ []) (store : S)
    (app : L) : ¬ Reliable r ω store app := by
  obtain ⟨m, there⟩ := mem_iff_getElem?.mp (resting_mem rests)
  have inside := (List.getElem?_eq_some_iff.mp there).1
  have isFirst := List.getElem?_eq_getElem (by omega : 0 < (inlinePhases r.phases).length)
  have atFirst := standing_begin (ω := ω) hr willing isFirst store app
  rcases (mem_resting hr isFirst there).mp rests with rfl | ⟨j, b, positive, le, from_, leaves⟩
  · cases isFirst.symm.trans there
    exact unreliable_of_waiting hr noLineage willing endless atFirst isFirst waits
  by_cases internal : c.entryState ∈ ((inlinePhases r.phases)[0]).internalStates
  · -- the way leads over a phase that the first one does not hold back
    have elsewhere : c.entryState ∉ b.internalStates := by
      intro shared
      obtain ⟨inside', rfl⟩ := List.getElem?_eq_some_iff.mp from_
      exact (pairwise_iff_getElem.mp apart 0 j _ inside' positive _ shared).2 internal
    have between := standing_advanceTo hr noLineage willing atFirst isFirst (Nat.zero_le j) from_
      leaves
    have arrived := standing_advanceTo hr noLineage willing between from_ le there elsewhere
    exact unreliable_of_waiting hr noLineage willing endless arrived there waits
  · have arrived := standing_advanceTo hr noLineage willing atFirst isFirst (Nat.zero_le m) there
      internal
    exact unreliable_of_waiting hr noLineage willing endless arrived there waits

theorem steady_of_reliable {store : S} {app : L} (reliable : Reliable r ω store app) :
    Steady r.phases := by
  refine ⟨fun noPhases => unreliable_of_empty hr noPhases store app reliable, ?_⟩
  intro last isLast
  by_cases ends : last.exitState = stateNone
  · exact .inl ends
  refine .inr ⟨?_, ?_⟩
  · intro p later s internal
    by_contra notEntered
    exact unreliable_of_internal hr noLineage willing apart isLast ends later internal notEntered
      store app reliable
  · by_contra neither
    push Not at neither
    obtain ⟨silent, c, rests, waits⟩ := neither
    exact unreliable_of_resting hr noLineage willing apart ⟨isLast, ends, silent⟩ rests waits store
      app reliable

end

end

/-- Of the pipelines `Compose` accepts, those that never report a framework bug while their hooks
succeed, whatever the hooks, are the steady ones. -/
theorem reliable_iff_steady {phases : List (Phase α L)} {r₀ : SessionRunner α L S}
    (accepted : compose phases = .ok r₀) (ω : MapOrder) (store : S) (app : L) :
    (∀ (hooks : String → Hooks α L) (r : SessionRunner α L S),
      compose (phases.map (refit hooks)) = .ok r → Reliable r ω store app) ↔ Steady phases := by
  constructor
  · intro reliable
    obtain ⟨r, composed⟩ := compose_refit (fun _ => willingHooks) accepted
    obtain ⟨same, noLineage, hr⟩ := compose_pipeline composed
    have willing : ∀ p ∈ inlinePhases r.phases, Willing p := by
      rw [same, inlinePhases_refit]
      intro p member
      obtain ⟨p, -, rfl⟩ := mem_map.mp member
      exact willing_refit p
    have steady := steady_of_reliable hr noLineage willing (same ▸ compose_apart composed)
      (reliable _ r composed)
    rw [same, steady_refit] at steady
    exact steady
  · intro steady hooks r composed
    obtain ⟨same, noLineage, hr⟩ := compose_pipeline composed
    refine steady_reliable hr noLineage (same ▸ compose_apart composed) ?_ ω store app
    rw [same, steady_refit]
    exact steady

theorem reliable_auction : compose auctionPhases = .ok auctionRunner ∧ Steady auctionPhases ∧
    ∀ (hooks : String → Hooks Unit Unit) (r : SessionRunner Unit Unit Unit),
      compose (auctionPhases.map (refit hooks)) = .ok r → Reliable r .listed () () := by
  have accepted : compose auctionPhases = .ok auctionRunner := rfl
  have steady : Steady auctionPhases := by decide
  exact ⟨accepted, steady, (reliable_iff_steady accepted .listed () ()).mpr steady⟩

def sharePhase (exit : SessionState) : Phase Unit Unit :=
  quorumPhase "collect" "collecting" exit "share" "shares" 1

def runnerOf (phases : List (Phase Unit Unit)) : SessionRunner Unit Unit Unit :=
  match compose phases with
  | .ok r => r
  | .error _ => ⟨[], fun _ => none, fun _ => none, fun _ => none, stateNone, none⟩

def afterBegin (r : SessionRunner Unit Unit Unit) : RunnerState Unit Unit Unit :=
  ((Log.start () ()).exec r .listed (.begin "s" "")).state

/-- A pipeline without inline phases, one whose last phase leads to a state no phase enters, and one
whose last phase leads back to itself without waiting for a message. -/
theorem accepted_pipelines_with_bugs :
    let setup := [{ computePhase "setup" stateNone stateNone with runsAt := .registration }]
    let dangling := [sharePhase "sealed"]
    let cyclic := [sharePhase "summing", computePhase "sum" "summing" "summing"]
    let share : Call := .message "s" ⟨"share", "alice", []⟩
    (compose setup = .ok (runnerOf setup) ∧
        InOrder (runnerOf setup) .listed (.fresh () ()) (.begin "s" "") ∧
        Bug (runnerOf setup) .listed (.fresh () ()) (.begin "s" "")) ∧
      (compose dangling = .ok (runnerOf dangling) ∧
        InOrder (runnerOf dangling) .listed (afterBegin (runnerOf dangling)) share ∧
        Bug (runnerOf dangling) .listed (afterBegin (runnerOf dangling)) share) ∧
      compose cyclic = .ok (runnerOf cyclic) ∧
        InOrder (runnerOf cyclic) .listed (afterBegin (runnerOf cyclic)) share ∧
        Bug (runnerOf cyclic) .listed (afterBegin (runnerOf cyclic)) share := by
  refine ⟨⟨rfl, ⟨?_, trivial⟩, ?_⟩, ⟨rfl, ⟨?_, trivial⟩, ?_⟩, rfl, ⟨?_, trivial⟩, ?_⟩
  · unfold HooksSucceed
    decide
  · unfold Bug
    decide
  · unfold HooksSucceed
    decide
  · unfold Bug
    decide
  · unfold HooksSucceed
    decide
  · unfold Bug
    decide

end ComposedPipelines
