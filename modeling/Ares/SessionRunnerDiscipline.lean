import Ares.SessionRunner

/-! Calls that do not overlap. Both loops of the runner leave a phase in the same way, so `leave` is
cut out of them once, with everything one pass can do. -/
namespace SessionRunnerDiscipline

open InterleavedPrograms LineageNodes PhasePipelines SessionRunner List Function

variable {α L S : Type}

/-- What leaving a phase comes to, in either loop. -/
inductive Leaving (α L : Type) where
  | failed (e : RunErr)
  | terminal
  | entered (next : Phase α L)

def leave (r : SessionRunner α L S) (w : Walk) (t : Ref) (current : Phase α L) :
    RunnerProg α L (Leaving α L) := do
  match ← call (.exit t current) with
  | some e => return .failed (.exit current.name w e)
  | none =>
    match ← call (.commit t current) with
    | some e => return .failed (.commit current.name w e)
    | none =>
      if current.exitState = stateNone then
        return .terminal
      else match r.byEntryState current.exitState with
      | none => return .failed (.noPhaseClaims current.exitState current.name w)
      | some next =>
        call (.moveTo t current.exitState next)
        match ← call (.enter t next) with
        | some e => return .failed (.enter next.name w e)
        | none =>
          call (.setEntered t)
          return .entered next

def afterLeave (r : SessionRunner α L S) (t : Ref) (hops : ℕ) :
    Leaving α L → RunnerProg α L (Outcome (Except RunErr Bool))
  | .failed e => return .returned (.error e)
  | .terminal => do
    call (.clearCurrent t)
    return .returned (.ok true)
  | .entered next => do
    if 0 < next.consumedMessageTypes.length then
      return .returned (.ok true)
    else if ← call (.checkComplete t next) then
      advance r t hops
    else
      return .returned (.ok true)

theorem leave_bind {β : Type} (r : SessionRunner α L S) (w : Walk) (t : Ref)
    (current : Phase α L) (f : Leaving α L → RunnerProg α L β) :
    leave r w t current >>= f = (do
      match ← call (.exit t current) with
      | some e => f (.failed (.exit current.name w e))
      | none =>
        match ← call (.commit t current) with
        | some e => f (.failed (.commit current.name w e))
        | none =>
          if current.exitState = stateNone then
            f .terminal
          else match r.byEntryState current.exitState with
          | none => f (.failed (.noPhaseClaims current.exitState current.name w))
          | some next =>
            call (.moveTo t current.exitState next)
            match ← call (.enter t next) with
            | some e => f (.failed (.enter next.name w e))
            | none =>
              call (.setEntered t)
              f (.entered next)) := by
  simp only [leave, call, Prog.call_bind, Prog.act_bind]
  congr 1
  funext e
  cases e with
  | some e => rfl
  | none =>
    simp only [Prog.act_bind]
    congr 1
    funext e
    cases e with
    | some e => rfl
    | none =>
      split_ifs
      · rfl
      · cases r.byEntryState current.exitState with
        | none => rfl
        | some next =>
          simp only [Prog.act_bind]
          congr 1
          funext _
          congr 1
          funext e
          cases e <;> rfl

theorem advance_succ (r : SessionRunner α L S) (t : Ref) (hops : ℕ) :
    advance r t (hops + 1) = (do
      match ← call (.readCurrent t) with
      | none => return .panicked
      | some current => leave r .advance t current >>= afterLeave r t hops) := by
  rw [advance]
  congr 1
  funext current
  cases current with
  | none => rfl
  | some current => exact (leave_bind r .advance t current (afterLeave r t hops)).symm

theorem advanceWalk_succ (r : SessionRunner α L S) (sid : String) (target : SessionState)
    (t : Ref) (hops : ℕ) :
    advanceWalk r sid target t (hops + 1) = (do
      let state : SessionState ← call (.readState t)
      if state = target then return .returned (.ok ())
      else match ← call (.readCurrent t) with
      | none => return .returned (.error (.noCurrentPhase sid target))
      | some current =>
        match ← leave r .advanceToState t current with
        | .failed e => return .returned (.error e)
        | .terminal => return .returned (.error (.terminalReached sid current.name target))
        | .entered _ => advanceWalk r sid target t hops) := by
  rw [advanceWalk]
  congr 1
  funext state
  split_ifs
  · rfl
  · congr 1
    funext current
    cases current with
    | none => rfl
    | some current =>
      refine Eq.trans ?_ (leave_bind r .advanceToState t current _).symm
      rfl

section

variable (r : SessionRunner α L S) (ω : MapOrder) (t : Ref) (p : Phase α L)
  (s : RunnerState α L S)

def afterExit : RunnerState α L S := (sem r ω (.exit t p) s).2

def afterCommit : RunnerState α L S := (sem r ω (.commit t p) (afterExit r ω t p s)).2

def afterMove (q : Phase α L) : RunnerState α L S :=
  (sem r ω (.moveTo t p.exitState q) (afterCommit r ω t p s)).2

def afterEnter (q : Phase α L) : RunnerState α L S :=
  (sem r ω (.enter t q) (afterMove r ω t p s q)).2

def afterSetEntered (q : Phase α L) : RunnerState α L S :=
  (sem r ω (.setEntered t) (afterEnter r ω t p s q)).2

/-- Everything one pass through `leave` can do: its events, what it comes to and the
state it leaves. -/
inductive LeaveRun (w : Walk) :
    List (RunnerEvent α L S) → Leaving α L → RunnerState α L S → Prop where
  | exitFailed {e} : (sem r ω (.exit t p) s).1 = some e →
    LeaveRun w [⟨s, .exit t p, some e⟩] (.failed (.exit p.name w e)) (afterExit r ω t p s)
  | commitFailed {e} : (sem r ω (.exit t p) s).1 = none →
    (sem r ω (.commit t p) (afterExit r ω t p s)).1 = some e →
    LeaveRun w [⟨s, .exit t p, none⟩, ⟨afterExit r ω t p s, .commit t p, some e⟩]
      (.failed (.commit p.name w e)) (afterCommit r ω t p s)
  | terminal : (sem r ω (.exit t p) s).1 = none →
    (sem r ω (.commit t p) (afterExit r ω t p s)).1 = none → p.exitState = stateNone →
    LeaveRun w [⟨s, .exit t p, none⟩, ⟨afterExit r ω t p s, .commit t p, none⟩]
      .terminal (afterCommit r ω t p s)
  | unclaimed : (sem r ω (.exit t p) s).1 = none →
    (sem r ω (.commit t p) (afterExit r ω t p s)).1 = none → p.exitState ≠ stateNone →
    r.byEntryState p.exitState = none →
    LeaveRun w [⟨s, .exit t p, none⟩, ⟨afterExit r ω t p s, .commit t p, none⟩]
      (.failed (.noPhaseClaims p.exitState p.name w)) (afterCommit r ω t p s)
  | enterFailed {q e} : (sem r ω (.exit t p) s).1 = none →
    (sem r ω (.commit t p) (afterExit r ω t p s)).1 = none → p.exitState ≠ stateNone →
    r.byEntryState p.exitState = some q →
    (sem r ω (.enter t q) (afterMove r ω t p s q)).1 = some e →
    LeaveRun w [⟨s, .exit t p, none⟩, ⟨afterExit r ω t p s, .commit t p, none⟩,
        ⟨afterCommit r ω t p s, .moveTo t p.exitState q, ()⟩,
        ⟨afterMove r ω t p s q, .enter t q, some e⟩]
      (.failed (.enter q.name w e)) (afterEnter r ω t p s q)
  | entered {q} : (sem r ω (.exit t p) s).1 = none →
    (sem r ω (.commit t p) (afterExit r ω t p s)).1 = none → p.exitState ≠ stateNone →
    r.byEntryState p.exitState = some q →
    (sem r ω (.enter t q) (afterMove r ω t p s q)).1 = none →
    LeaveRun w [⟨s, .exit t p, none⟩, ⟨afterExit r ω t p s, .commit t p, none⟩,
        ⟨afterCommit r ω t p s, .moveTo t p.exitState q, ()⟩,
        ⟨afterMove r ω t p s q, .enter t q, none⟩,
        ⟨afterEnter r ω t p s q, .setEntered t, ()⟩]
      (.entered q) (afterSetEntered r ω t p s q)

theorem leave_run (w : Walk) :
    LeaveRun r ω t p s w ((leave r w t p).events (sem r ω) s)
      ((leave r w t p).result (sem r ω) s) ((leave r w t p).final (sem r ω) s) := by
  simp only [leave, call, Prog.call_bind, Prog.events_act, Prog.result_act,
    Prog.final_act]
  cases hx : (sem r ω (.exit t p) s).1 with
  | some e => exact .exitFailed hx
  | none =>
    simp only [Prog.events_act, Prog.result_act, Prog.final_act]
    cases hc : (sem r ω (.commit t p) (sem r ω (.exit t p) s).2).1 with
    | some e => exact .commitFailed hx hc
    | none =>
      split_ifs with hn
      · exact .terminal hx hc hn
      · cases hq : r.byEntryState p.exitState with
        | none => exact .unclaimed hx hc hn hq
        | some q =>
          simp only [Prog.events_act, Prog.result_act, Prog.final_act]
          cases he : (sem r ω (.enter t q) (afterMove r ω t p s q)).1 with
          | some e =>
            simp only [afterMove, afterCommit, afterExit] at he
            rw [he]
            exact .enterFailed hx hc hn hq he
          | none =>
            simp only [afterMove, afterCommit, afterExit] at he
            rw [he]
            exact .entered hx hc hn hq he

theorem afterMove_position (q : Phase α L) :
    ((afterMove r ω t p s q).trackers t).state = p.exitState ∧
    ((afterMove r ω t p s q).trackers t).current = some q := by
  simp [afterMove, sem]

theorem afterSetEntered_position (q : Phase α L) :
    ((afterSetEntered r ω t p s q).trackers t).state = p.exitState ∧
    ((afterSetEntered r ω t p s q).trackers t).current = some q := by
  have hm := afterMove_position r ω t p s q
  have he := sem_position r ω (s := afterMove r ω t p s q) (t := t) (a := .enter t q) id
  have hs := sem_position r ω (s := afterEnter r ω t p s q) (t := t) (a := .setEntered t) id
  exact ⟨hs.1.trans (he.1.trans hm.1), hs.2.trans (he.2.trans hm.2)⟩

theorem afterSetEntered_env (q : Phase α L) :
    (afterSetEntered r ω t p s q).env r t = (afterEnter r ω t p s q).env r t := by
  simp [afterSetEntered, sem, RunnerState.env, RunnerState.updateTracker]

end

inductive Mark where
  | enter (phase : String)
  | message (phase : String)
  | exit (phase : String)
  deriving DecidableEq

def markOf (t : Ref) : Action α L → Option Mark
  | .enter t' p => if t' = t then some (.enter p.name) else none
  | .onMessage t' p _ _ _ => if t' = t then some (.message p.name) else none
  | .exit t' p => if t' = t then some (.exit p.name) else none
  | _ => none

def hookTrace (t : Ref) (es : List (RunnerEvent α L S)) : List Mark :=
  es.filterMap fun e => markOf t e.act

@[simp] theorem hookTrace_nil (t : Ref) : hookTrace t ([] : List (RunnerEvent α L S)) = [] := rfl

@[simp] theorem hookTrace_cons (t : Ref) (e : RunnerEvent α L S) (es : List (RunnerEvent α L S)) :
    hookTrace t (e :: es) = (markOf t e.act).toList ++ hookTrace t es := by
  cases h : markOf t e.act <;> simp [hookTrace, h]

@[simp] theorem hookTrace_append (t : Ref) (es fs : List (RunnerEvent α L S)) :
    hookTrace t (es ++ fs) = hookTrace t es ++ hookTrace t fs := filterMap_append ..

def hookErr : RunnerEvent α L S → Option AppErr
  | ⟨_, .enter .., e⟩ | ⟨_, .onMessage .., e⟩ | ⟨_, .exit .., e⟩ => e
  | _ => none

def HooksSucceed (es : List (RunnerEvent α L S)) : Prop := ∀ e ∈ es, hookErr e = none

@[simp] theorem hooksSucceed_nil : HooksSucceed ([] : List (RunnerEvent α L S)) := by
  simp [HooksSucceed]

@[simp] theorem hooksSucceed_cons (e : RunnerEvent α L S) (es : List (RunnerEvent α L S)) :
    HooksSucceed (e :: es) ↔ hookErr e = none ∧ HooksSucceed es := by
  simp [HooksSucceed]

@[simp] theorem hooksSucceed_append (es fs : List (RunnerEvent α L S)) :
    HooksSucceed (es ++ fs) ↔ HooksSucceed es ∧ HooksSucceed fs := by
  simp [HooksSucceed, or_imp, forall_and]

def fullTrace (visits : List (String × ℕ)) : List Mark :=
  visits.flatMap fun v => .enter v.1 :: (List.replicate v.2 (.message v.1) ++ [.exit v.1])

def openVisit (n : ℕ) : Option (Phase α L) → List Mark
  | none => []
  | some p => .enter p.name :: List.replicate n (.message p.name)

def TraceAt (ps : List (Phase α L)) (k : ℕ) (tr : List Mark) : Prop :=
  ∃ visits n, visits.map Prod.fst = (ps.take k).map Phase.name ∧
    tr = fullTrace visits ++ openVisit n ps[k]?

section

variable {ps : List (Phase α L)} {k : ℕ} {p : Phase α L} {tr : List Mark}

theorem traceAt_begin (hp : ps[0]? = some p) : TraceAt ps 0 [.enter p.name] :=
  ⟨[], 0, by simp, by simp [fullTrace, openVisit, hp]⟩

theorem TraceAt.message (h : TraceAt ps k tr) (hp : ps[k]? = some p) :
    TraceAt ps k (tr ++ [.message p.name]) := by
  obtain ⟨visits, n, hv, rfl⟩ := h
  refine ⟨visits, n + 1, hv, ?_⟩
  simp [openVisit, hp, replicate_succ']

theorem TraceAt.leave (h : TraceAt ps k tr) (hp : ps[k]? = some p) :
    TraceAt ps (k + 1) (tr ++ .exit p.name :: openVisit 0 ps[k + 1]?) := by
  obtain ⟨visits, n, hv, rfl⟩ := h
  refine ⟨visits ++ [(p.name, n)], 0, ?_, ?_⟩
  · rw [take_add_one, hp]
    simp [hv]
  · simp [fullTrace, openVisit, hp]

theorem TraceAt.full (h : TraceAt ps k tr) : ∃ visits : List (String × ℕ),
    visits.map Prod.fst = ps.map Phase.name ∧ tr <+: fullTrace visits := by
  obtain ⟨visits, n, hv, rfl⟩ := h
  cases hp : ps[k]? with
  | none =>
    have hk := List.getElem?_eq_none_iff.mp hp
    rw [take_of_length_le hk] at hv
    exact ⟨visits, hv, by simp [openVisit]⟩
  | some p =>
    refine ⟨visits ++ (p.name, n) :: (ps.drop (k + 1)).map fun q => (q.name, 0), ?_, ?_⟩
    · have hsplit : ps = ps.take k ++ p :: ps.drop (k + 1) := by
        obtain ⟨hk, rfl⟩ := List.getElem?_eq_some_iff.mp hp
        simp
      conv_rhs => rw [hsplit]
      simp [hv, comp_def]
    · simp only [fullTrace, flatMap_append, flatMap_cons,
        prefix_append_right_inj, cons_append, append_assoc]
      exact prefix_append ..

theorem count_fullTrace {visits : List (String × ℕ)} (h : (visits.map Prod.fst).Nodup)
    (name : String) : (fullTrace visits).count (.enter name) ≤ 1 ∧
      (fullTrace visits).count (.exit name) ≤ 1 := by
  have key : (fullTrace visits).count (.enter name) = (visits.map Prod.fst).count name ∧
      (fullTrace visits).count (.exit name) = (visits.map Prod.fst).count name := by
    clear h
    induction visits with
    | nil => simp [fullTrace]
    | cons v visits ih =>
      simp only [fullTrace] at ih
      simp [fullTrace, count_cons, count_replicate, ih.1, ih.2]
  rw [key.1, key.2]
  exact ⟨nodup_iff_count_le_one.mp h name, nodup_iff_count_le_one.mp h name⟩

end

/-- The tracker is at position `k` of the pipeline, which is past its end when it has no
current phase. -/
def StandsAt (ps : List (Phase α L)) (tr : SessionTracker α L) (k : ℕ) : Prop :=
  tr.current = ps[k]? ∧ tr.state = (ps[k]?.map Phase.entryState).getD stateNone

/-- The last phase of the pipeline leads nowhere. -/
def Terminates (r : SessionRunner α L S) : Prop :=
  ∀ p, (inlinePhases r.phases).getLast? = some p → p.exitState = stateNone

section

variable {r : SessionRunner α L S} {ω : MapOrder} {t : Ref} {k : ℕ} {p q : Phase α L}
  {s : RunnerState α L S} {es : List (RunnerEvent α L S)} {s' : RunnerState α L S} {hops : ℕ}

theorem next_none (hr : Pipeline r) (hp : (inlinePhases r.phases)[k]? = some p)
    (he : p.exitState = stateNone) : (inlinePhases r.phases)[k + 1]? = none := by
  cases hq : (inlinePhases r.phases)[k + 1]? with
  | none => rfl
  | some q =>
    obtain ⟨hmem, hentry⟩ := (hr.byEntry _ _).mp (hr.next hp hq)
    exact absurd (hentry.trans he) (hr.chained.entered q hmem)

theorem next_some (hr : Pipeline r) (hterm : Terminates r)
    (hp : (inlinePhases r.phases)[k]? = some p) (he : p.exitState ≠ stateNone) :
    ∃ q, (inlinePhases r.phases)[k + 1]? = some q ∧ r.byEntryState p.exitState = some q ∧
      q.entryState = p.exitState := by
  cases hq : (inlinePhases r.phases)[k + 1]? with
  | some q =>
    have hn := hr.next hp hq
    exact ⟨q, rfl, hn, ((hr.byEntry _ _).mp hn).2⟩
  | none =>
    refine absurd (hterm p ?_) he
    have hlt := (List.getElem?_eq_some_iff.mp hp).1
    have hge := List.getElem?_eq_none_iff.mp hq
    rw [List.getLast?_eq_getElem?, ← hp]
    congr 1
    omega

theorem commit_succeeds (hl : r.lineage = none) (t : Ref) (p : Phase α L)
    (s : RunnerState α L S) : (sem r ω (.commit t p) s).1 = none := by
  simp [sem, commitPhaseOutputsIfEnabled, hl]

theorem leave_entered (hr : Pipeline r) (hterm : Terminates r)
    (hp : (inlinePhases r.phases)[k]? = some p) {w : Walk}
    (h : LeaveRun r ω t p s w es (.entered q) s') :
    (inlinePhases r.phases)[k + 1]? = some q ∧
      StandsAt (inlinePhases r.phases) (s'.trackers t) (k + 1) ∧
      hookTrace t es = [.exit p.name, .enter q.name] := by
  cases h with
  | entered _ _ hn hq _ =>
    obtain ⟨q', hnext, hq', hentry⟩ := next_some hr hterm hp hn
    rw [hq] at hq'
    cases hq'
    obtain ⟨hstate, hcur⟩ := afterSetEntered_position r ω t p s q
    exact ⟨hnext, ⟨hcur.trans hnext.symm, by simp [hstate, hnext, hentry]⟩, by simp [markOf]⟩

theorem leave_spec (hr : Pipeline r) (hl : r.lineage = none) (hterm : Terminates r)
    (hp : (inlinePhases r.phases)[k]? = some p) {w : Walk}
    {l : Leaving α L} (h : LeaveRun r ω t p s w es l s') (hok : HooksSucceed es) :
    (l = .terminal ∧ (inlinePhases r.phases)[k + 1]? = none ∧
      hookTrace t es = [.exit p.name]) ∨ ∃ q, l = .entered q := by
  cases h with
  | exitFailed | enterFailed => simp [hookErr] at hok
  | commitFailed _ hc =>
    rw [commit_succeeds hl] at hc
    cases hc
  | terminal _ _ hn => exact Or.inl ⟨rfl, next_none hr hp hn, by simp [markOf]⟩
  | unclaimed _ _ hn hq =>
    obtain ⟨q, -, hq', -⟩ := next_some hr hterm hp hn
    rw [hq] at hq'
    cases hq'
  | @entered q => exact Or.inr ⟨q, rfl⟩

theorem waits_or_done (q : Phase α L) (env : HookEnv α L) :
    (q.consumedMessageTypes ≠ [] ∨ q.checkComplete env = false) ∨
      (q.consumedMessageTypes = [] ∧ q.checkComplete env = true) := by
  by_cases hcons : q.consumedMessageTypes = []
  · cases hdone : q.checkComplete env with
    | false => exact .inl (.inr rfl)
    | true => exact .inr ⟨hcons, rfl⟩
  · exact .inl (.inl hcons)

theorem afterLeave_stop (hops : ℕ) (h : q.consumedMessageTypes ≠ [] ∨
    q.checkComplete (s.env r t) = false) :
    (afterLeave r t hops (.entered q)).result (sem r ω) s = .returned (.ok true) ∧
    (afterLeave r t hops (.entered q)).final (sem r ω) s = s ∧
    ∀ e ∈ (afterLeave r t hops (.entered q)).events (sem r ω) s,
      e = ⟨s, .checkComplete t q, false⟩ := by
  by_cases hcons : 0 < q.consumedMessageTypes.length
  · simp [afterLeave, hcons]
  · have hdone : sem r ω (.checkComplete t q) s = (false, s) := by
      simpa [sem] using h.resolve_left (by simpa using hcons)
    simp only [afterLeave, if_neg hcons, call, Prog.call_bind, Prog.events_act,
      Prog.result_act, Prog.final_act, hdone]
    simp

theorem afterLeave_cascade (hops : ℕ) (hcons : q.consumedMessageTypes = [])
    (hdone : q.checkComplete (s.env r t) = true) :
    (afterLeave r t hops (.entered q)).result (sem r ω) s = (advance r t hops).result (sem r ω) s ∧
    (afterLeave r t hops (.entered q)).final (sem r ω) s = (advance r t hops).final (sem r ω) s ∧
    (afterLeave r t hops (.entered q)).events (sem r ω) s =
      ⟨s, .checkComplete t q, true⟩ :: (advance r t hops).events (sem r ω) s := by
  have hsem : sem r ω (.checkComplete t q) s = (true, s) := by simp [sem, hdone]
  simp only [afterLeave, hcons, length_nil, lt_self_iff_false, if_false, call,
    Prog.call_bind, Prog.events_act, Prog.result_act, Prog.final_act, hsem]
  simp

theorem advance_hop (hcur : (s.trackers t).current = some p) (hops : ℕ) :
    ∃ es l s', LeaveRun r ω t p s .advance es l s' ∧ (advance r t (hops + 1)).events (sem r ω) s =
        ⟨s, .readCurrent t, some p⟩ :: (es ++ (afterLeave r t hops l).events (sem r ω) s') ∧
      (advance r t (hops + 1)).result (sem r ω) s = (afterLeave r t hops l).result (sem r ω) s' ∧
      (advance r t (hops + 1)).final (sem r ω) s = (afterLeave r t hops l).final (sem r ω) s' := by
  refine ⟨_, _, _, leave_run r ω t p s .advance, ?_⟩
  rw [advance_succ]
  simp only [call, Prog.call_bind, Prog.events_act, Prog.result_act, Prog.final_act, sem, hcur,
    Prog.events_bind, Prog.result_bind, Prog.final_bind]
  exact ⟨trivial, trivial, trivial⟩

theorem advance_spec (hr : Pipeline r) (hl : r.lineage = none) (hterm : Terminates r)
    (hp : (inlinePhases r.phases)[k]? = some p) (hcur : (s.trackers t).current = some p)
    (hhops : (inlinePhases r.phases).length ≤ k + hops)
    (hok : HooksSucceed ((advance r t hops).events (sem r ω) s)) {tr : List Mark}
    (htr : TraceAt (inlinePhases r.phases) k tr) :
    (advance r t hops).result (sem r ω) s = .returned (.ok true) ∧
    ∃ k', StandsAt (inlinePhases r.phases) (((advance r t hops).final (sem r ω) s).trackers t) k' ∧
      TraceAt (inlinePhases r.phases) k'
        (tr ++ hookTrace t ((advance r t hops).events (sem r ω) s)) := by
  induction hops generalizing k p s tr with
  | zero =>
    have hlt := (List.getElem?_eq_some_iff.mp hp).1
    omega
  | succ hops ih =>
    obtain ⟨es, l, s', hrun, hevents, hresult, hfinal⟩ := advance_hop hcur hops
    rw [hevents] at hok ⊢
    rw [hresult, hfinal]
    simp only [hooksSucceed_cons, hooksSucceed_append] at hok
    obtain ⟨-, hes, hrest⟩ := hok
    rcases leave_spec hr hl hterm hp hrun hes with ⟨rfl, hnext, hmarks⟩ | ⟨q, rfl⟩
    · refine ⟨rfl, k + 1, ?_, ?_⟩
      · simp [afterLeave, call, StandsAt, hnext, sem]
      · have hleave := htr.leave hp
        simpa [afterLeave, call, hmarks, markOf, hnext, openVisit] using hleave
    · obtain ⟨hnext, hat, hmarks⟩ := leave_entered hr hterm hp hrun
      have hleave : TraceAt (inlinePhases r.phases) (k + 1) (tr ++ hookTrace t es) := by
        have hleave := htr.leave hp
        simpa [hmarks, hnext, openVisit] using hleave
      rcases waits_or_done q (s'.env r t) with hstop | ⟨hcons, hdone⟩
      · obtain ⟨hres, hfin, hevs⟩ := afterLeave_stop hops hstop
        rw [hres, hfin]
        refine ⟨rfl, k + 1, hat, ?_⟩
        have hquiet : hookTrace t ((afterLeave r t hops (.entered q)).events (sem r ω) s') =
            [] := by
          refine filterMap_eq_nil_iff.mpr fun e he => ?_
          rw [hevs e he]
          rfl
        simpa [markOf, hquiet] using hleave
      · obtain ⟨hres, hfin, hevs⟩ := afterLeave_cascade hops hcons hdone
        rw [hevs] at hrest ⊢
        rw [hres, hfin]
        obtain ⟨hres', k', hat', htr'⟩ :=
          ih hnext (hat.1.trans hnext) (by omega) (hooksSucceed_cons _ _ |>.mp hrest).2 hleave
        exact ⟨hres', k', hat', by simpa [markOf] using htr'⟩

theorem advance_bounded (hr : Pipeline r) (hterm : Terminates r)
    (hp : (inlinePhases r.phases)[k]? = some p) (hcur : (s.trackers t).current = some p)
    (hhops : (inlinePhases r.phases).length ≤ k + hops) (n : ℕ) :
    (advance r t hops).result (sem r ω) s ≠ .returned (.error (.cascadeHopLimit n)) := by
  induction hops generalizing k p s with
  | zero =>
    have hlt := (List.getElem?_eq_some_iff.mp hp).1
    omega
  | succ hops ih =>
    obtain ⟨es, l, s', hrun, -, hres, -⟩ := advance_hop hcur hops
    rw [hres]
    cases l with
    | failed e => cases hrun <;> simp [afterLeave]
    | terminal => simp [afterLeave, call]
    | entered q =>
      obtain ⟨hnext, hat, -⟩ := leave_entered hr hterm hp hrun
      rcases waits_or_done q (s'.env r t) with hstop | ⟨hcons, hdone⟩
      · rw [(afterLeave_stop hops hstop).1]
        simp
      · rw [(afterLeave_cascade hops hcons hdone).1]
        exact ih hnext (hat.1.trans hnext) (by omega)

theorem advance_ne_panicked (hcur : (s.trackers t).current = some p) (hops : ℕ) :
    (advance r t hops).result (sem r ω) s ≠ .panicked := by
  induction hops generalizing p s with
  | zero => simp [advance]
  | succ hops ih =>
    obtain ⟨es, l, s', hrun, -, hres, -⟩ := advance_hop hcur hops
    rw [hres]
    cases hrun with
    | entered =>
      rename_i q _ _ _ _ _
      rcases waits_or_done q ((afterSetEntered r ω t p s q).env r t) with hstop | ⟨hcons, hdone⟩
      · rw [(afterLeave_stop hops hstop).1]
        simp
      · rw [(afterLeave_cascade hops hcons hdone).1]
        exact ih (afterSetEntered_position r ω t p s q).2
    | _ => simp [afterLeave, call]

def entry : RunnerEvent α L S → Option (RunnerState α L S × Ref × Phase α L)
  | ⟨pre, .enter t q, none⟩ => some (pre, t, q)
  | _ => none

def WalksPast (r : SessionRunner α L S) (ω : MapOrder) (es : List (RunnerEvent α L S)) : Prop :=
  ∀ es₁ x es₂ pre t q, es = es₁ ++ x :: es₂ → entry x = some (pre, t, q) →
    ((∃ e ∈ es₂, e.act = .exit t q) ↔ q.consumedMessageTypes = [] ∧
      q.checkComplete ((sem r ω (.enter t q) pre).2.env r t) = true)

theorem WalksPast.cons (h : WalksPast r ω es)
    {x : RunnerEvent α L S} (hx : ∀ pre t q, entry x = some (pre, t, q) →
      ((∃ e ∈ es, e.act = .exit t q) ↔ q.consumedMessageTypes = [] ∧
        q.checkComplete ((sem r ω (.enter t q) pre).2.env r t) = true)) :
    WalksPast r ω (x :: es) := by
  intro es₁ y es₂ pre t q heq hy
  cases es₁ with
  | nil =>
    obtain ⟨rfl, rfl⟩ := List.cons.inj heq
    exact hx pre t q hy
  | cons z es₁ => exact h es₁ y es₂ pre t q (List.cons.inj heq).2 hy

theorem WalksPast.append {es d : List (RunnerEvent α L S)} (hd : ∀ x ∈ d, entry x = none)
    (h : WalksPast r ω es) : WalksPast r ω (d ++ es) := by
  induction d with
  | nil => exact h
  | cons x d ih =>
    simp only [mem_cons, forall_eq_or_imp] at hd
    refine (ih hd.2).cons fun _ _ _ hx => ?_
    rw [hd.1] at hx
    cases hx

theorem walksPast_of_no_entry (h : ∀ x ∈ es, entry x = none) : WalksPast r ω es := by
  have hnil : WalksPast r ω ([] : List (RunnerEvent α L S)) := by
    intro es₁ x es₂ pre t q heq
    cases es₁ <;> cases heq
  simpa using WalksPast.append h hnil

theorem advance_exits (hcur : (s.trackers t).current = some p) (hops : ℕ) :
    ∃ e ∈ (advance r t (hops + 1)).events (sem r ω) s, e.act = .exit t p := by
  obtain ⟨es, l, s', hrun, hevents, -, -⟩ := advance_hop hcur hops
  rw [hevents]
  cases hrun <;> simp

theorem afterLeave_exits_iff (hops : ℕ) (hcur : (s.trackers t).current = some q) :
    (∃ e ∈ (afterLeave r t (hops + 1) (.entered q)).events (sem r ω) s, e.act = .exit t q) ↔
      q.consumedMessageTypes = [] ∧ q.checkComplete (s.env r t) = true := by
  constructor
  · rintro ⟨e, he, hact⟩
    by_contra hstop
    rw [(afterLeave_stop (hops + 1) (by simpa [imp_iff_not_or] using hstop)).2.2 e he] at hact
    cases hact
  · rintro ⟨hcons, hdone⟩
    obtain ⟨e, he, hact⟩ := advance_exits hcur hops
    rw [(afterLeave_cascade (hops + 1) hcons hdone).2.2]
    exact ⟨e, mem_cons_of_mem _ he, hact⟩

theorem advance_walksPast (hr : Pipeline r) (hterm : Terminates r)
    (hp : (inlinePhases r.phases)[k]? = some p) (hcur : (s.trackers t).current = some p)
    (hhops : (inlinePhases r.phases).length ≤ k + hops) :
    WalksPast r ω ((advance r t hops).events (sem r ω) s) := by
  induction hops generalizing k p s with
  | zero =>
    have hlt := (List.getElem?_eq_some_iff.mp hp).1
    omega
  | succ hops ih =>
    obtain ⟨es, l, s', hrun, hevents, -, -⟩ := advance_hop hcur hops
    rw [hevents]
    cases l with
    | failed e => exact walksPast_of_no_entry (by cases hrun <;> simp [entry, afterLeave])
    | terminal => exact walksPast_of_no_entry (by cases hrun; simp [entry, afterLeave, call])
    | entered q =>
      obtain ⟨hnext, hat, -⟩ := leave_entered hr hterm hp hrun
      obtain ⟨hops, rfl⟩ : ∃ n, hops = n + 1 := by
        have hlt := (List.getElem?_eq_some_iff.mp hnext).1
        exact ⟨hops - 1, by omega⟩
      have hiff := afterLeave_exits_iff (r := r) (ω := ω) hops (hat.1.trans hnext)
      have hrest : WalksPast r ω ((afterLeave r t (hops + 1) (.entered q)).events
          (sem r ω) s') := by
        rcases waits_or_done q (s'.env r t) with hstop | ⟨hcons, hdone⟩
        · refine walksPast_of_no_entry fun x hx => ?_
          rw [(afterLeave_stop (hops + 1) hstop).2.2 x hx]
          rfl
        · rw [(afterLeave_cascade (hops + 1) hcons hdone).2.2]
          exact (ih hnext (hat.1.trans hnext) (by omega)).append (d := [_]) (by simp [entry])
      cases hrun
      refine WalksPast.append (d := [_, _, _, _]) (by simp [entry])
        (WalksPast.cons (hrest.append (by simp [entry])) ?_)
      rintro pre t' q' ⟨⟩
      rw [afterSetEntered_env] at hiff
      simpa [afterEnter] using hiff

end

section

variable (r : SessionRunner α L S) (ω : MapOrder) (sid : String) (m : Message)
  (s : RunnerState α L S)

def afterMessage (t : Ref) (p : Phase α L) : RunnerState α L S :=
  (sem r ω (.onMessage t p m.msgType m.sender m.payload) s).2

/-- Everything a `HandleMessage` call can do. -/
inductive MessageRun : List (RunnerEvent α L S) → Outcome (Except RunErr Bool) →
    RunnerState α L S → Prop where
  | inactive : s.sessions sid = none →
    MessageRun [⟨s, .lookup sid, none⟩] (.returned (.error (.notActive "HandleMessage" sid))) s
  | noPhase {t} : s.sessions sid = some t → (s.trackers t).current = none →
    MessageRun [⟨s, .lookup sid, some t⟩, ⟨s, .readCurrent t, none⟩] .panicked s
  | notConsumed {t p} : s.sessions sid = some t → (s.trackers t).current = some p →
    m.msgType ∉ p.consumedMessageTypes →
    MessageRun [⟨s, .lookup sid, some t⟩, ⟨s, .readCurrent t, some p⟩,
        ⟨s, .readState t, (s.trackers t).state⟩]
      (.returned (.error (.doesNotConsume p.name m.msgType (s.trackers t).state))) s
  | messageFailed {t p e} : s.sessions sid = some t → (s.trackers t).current = some p →
    m.msgType ∈ p.consumedMessageTypes →
    (sem r ω (.onMessage t p m.msgType m.sender m.payload) s).1 = some e →
    MessageRun [⟨s, .lookup sid, some t⟩, ⟨s, .readCurrent t, some p⟩,
        ⟨s, .onMessage t p m.msgType m.sender m.payload, some e⟩]
      (.returned (.error (.onMessage p.name e))) (afterMessage r ω m s t p)
  | waiting {t p} : s.sessions sid = some t → (s.trackers t).current = some p →
    m.msgType ∈ p.consumedMessageTypes →
    (sem r ω (.onMessage t p m.msgType m.sender m.payload) s).1 = none →
    p.checkComplete ((afterMessage r ω m s t p).env r t) = false →
    MessageRun [⟨s, .lookup sid, some t⟩, ⟨s, .readCurrent t, some p⟩,
        ⟨s, .onMessage t p m.msgType m.sender m.payload, none⟩,
        ⟨afterMessage r ω m s t p, .checkComplete t p, false⟩]
      (.returned (.ok false)) (afterMessage r ω m s t p)
  | advancing {t p} : s.sessions sid = some t → (s.trackers t).current = some p →
    m.msgType ∈ p.consumedMessageTypes →
    (sem r ω (.onMessage t p m.msgType m.sender m.payload) s).1 = none →
    p.checkComplete ((afterMessage r ω m s t p).env r t) = true →
    MessageRun ([⟨s, .lookup sid, some t⟩, ⟨s, .readCurrent t, some p⟩,
        ⟨s, .onMessage t p m.msgType m.sender m.payload, none⟩,
        ⟨afterMessage r ω m s t p, .checkComplete t p, true⟩] ++
        (advance r t (r.phases.length + 1)).events (sem r ω) (afterMessage r ω m s t p))
      ((advance r t (r.phases.length + 1)).result (sem r ω) (afterMessage r ω m s t p))
      ((advance r t (r.phases.length + 1)).final (sem r ω) (afterMessage r ω m s t p))

theorem handleMessage_run :
    MessageRun r ω sid m s ((handleMessage r sid m.msgType m.sender m.payload).events (sem r ω) s)
      ((handleMessage r sid m.msgType m.sender m.payload).result (sem r ω) s)
      ((handleMessage r sid m.msgType m.sender m.payload).final (sem r ω) s) := by
  simp only [handleMessage, call, Prog.call_bind, Prog.events_act,
    Prog.result_act, Prog.final_act, sem]
  cases ht : s.sessions sid with
  | none => exact .inactive ht
  | some t =>
    simp only [Prog.events_act, Prog.result_act, Prog.final_act, sem]
    cases hp : (s.trackers t).current with
    | none => exact .noPhase ht hp
    | some p =>
      by_cases hc : phaseConsumes p m.msgType = true
      · have hmem : m.msgType ∈ p.consumedMessageTypes := by simpa using hc
        simp only [if_pos hc, Prog.events_act, Prog.result_act, Prog.final_act]
        cases he : (sem r ω (.onMessage t p m.msgType m.sender m.payload) s).1 with
        | some e => exact .messageFailed ht hp hmem he
        | none =>
          simp only [Prog.events_act, Prog.result_act, Prog.final_act]
          cases hd : p.checkComplete ((afterMessage r ω m s t p).env r t) with
          | false =>
            have hsem : sem r ω (.checkComplete t p) (afterMessage r ω m s t p) =
                (false, afterMessage r ω m s t p) := by simp [sem, hd]
            simp only [afterMessage] at hsem
            rw [hsem]
            exact .waiting ht hp hmem he hd
          | true =>
            have hsem : sem r ω (.checkComplete t p) (afterMessage r ω m s t p) =
                (true, afterMessage r ω m s t p) := by simp [sem, hd]
            simp only [afterMessage] at hsem
            rw [hsem]
            exact .advancing ht hp hmem he hd
      · have hmem : m.msgType ∉ p.consumedMessageTypes := by simpa using hc
        simp only [if_neg hc]
        exact .notConsumed ht hp hmem

theorem afterMessage_position (t t' : Ref) (p : Phase α L) :
    ((afterMessage r ω m s t p).trackers t').state = (s.trackers t').state ∧
    ((afterMessage r ω m s t p).trackers t').current = (s.trackers t').current :=
  sem_position r ω id

end

def Local (t : Ref) : Action α L → Prop
  | .readCurrent t' | .readState t' | .moveTo t' _ _ | .clearCurrent t' | .setEntered t'
  | .enter t' _ | .onMessage t' _ _ _ _ | .checkComplete t' _ | .exit t' _ | .commit t' _ => t' = t
  | _ => False

def WalkStep (r : SessionRunner α L S) (t : Ref) : Action α L → Prop
  | .readCurrent t' | .readState t' | .clearCurrent t' | .setEntered t' | .enter t' _
  | .checkComplete t' _ | .exit t' _ | .commit t' _ => t' = t
  | .moveTo t' state q => t' = t ∧ r.byEntryState state = some q
  | _ => False

def isOnMessage : Action α L → Bool
  | .onMessage .. => true
  | _ => false

/-- The steps that handle a message: it is delivered to a phase that lists its type, and nothing
else is delivered. -/
inductive MessageStep (msgType sender : String) (payload : Bytes) : Action α L → Prop
  | deliver (t : Ref) (p : Phase α L) (h : msgType ∈ p.consumedMessageTypes) :
      MessageStep msgType sender payload (.onMessage t p msgType sender payload)
  | quiet {a : Action α L} (h : isOnMessage a = false) : MessageStep msgType sender payload a

def Consumes (a : Action α L) : Prop :=
  ∀ t p msgType sender payload, a = .onMessage t p msgType sender payload →
    msgType ∈ p.consumedMessageTypes

structure Framed (t : Ref) (s s' : RunnerState α L S) : Prop where
  sessions : s'.sessions = s.sessions
  nextRef : s'.nextRef = s.nextRef
  others : ∀ t', t' ≠ t → s'.trackers t' = s.trackers t'

section

variable {r : SessionRunner α L S} {ω : MapOrder} {t : Ref} {s s' : RunnerState α L S}
  {a : Action α L} {φ : Action α L → Prop}

theorem Framed.refl (t : Ref) (s : RunnerState α L S) : Framed t s s := ⟨rfl, rfl, fun _ _ => rfl⟩

theorem Framed.trans {s'' : RunnerState α L S} (h : Framed t s s') (h' : Framed t s' s'') :
    Framed t s s'' :=
  ⟨h'.sessions.trans h.sessions, h'.nextRef.trans h.nextRef,
    fun t' ht => (h'.others t' ht).trans (h.others t' ht)⟩

theorem framed_commit (p : Phase α L) (t : Ref) (s : RunnerState α L S) :
    Framed t s (commitPhaseOutputsIfEnabled r ω p t s).2 := by
  unfold commitPhaseOutputsIfEnabled
  split
  · exact .refl t s
  · dsimp only
    split <;> exact ⟨rfl, rfl, fun _ _ => rfl⟩

theorem local_framed (h : Local t a) (s : RunnerState α L S) : Framed t s (sem r ω a s).2 := by
  cases a with
  | readCurrent | readState | checkComplete => exact .refl t s
  | moveTo | clearCurrent | setEntered =>
    obtain rfl : _ = t := h
    simp only [sem]
    exact ⟨rfl, rfl, fun t' ht => by simp [ht]⟩
  | enter | onMessage | exit =>
    obtain rfl : _ = t := h
    exact ⟨rfl, rfl, fun t' ht => by simp [sem, applyHook, ht]⟩
  | commit t' p =>
    obtain rfl : t' = t := h
    exact framed_commit ..
  | _ => exact h.elim

theorem local_mark (h : Local t a) {t' : Ref} (ht : t' ≠ t) : markOf t' a = none := by
  cases a with
  | enter | onMessage | exit =>
    obtain rfl : _ = t := h
    simp [markOf, Ne.symm ht]
  | _ => rfl

theorem WalkStep.local (h : WalkStep r t a) : Local t a := by
  cases a with
  | moveTo => exact h.1
  | _ => first | exact h | exact h.elim

theorem WalkStep.quiet (h : WalkStep r t a) : isOnMessage a = false := by
  cases a with
  | onMessage => exact h.elim
  | _ => rfl

theorem leave_steps (r : SessionRunner α L S) (w : Walk) (t : Ref) (p : Phase α L) :
    (leave r w t p).Always (WalkStep r t) := by
  refine ⟨rfl, fun e => ?_⟩
  cases e with
  | some e => trivial
  | none =>
    refine ⟨rfl, fun e => ?_⟩
    cases e with
    | some e => trivial
    | none =>
      split_ifs
      · trivial
      · split
        · trivial
        · rename_i q hq
          refine ⟨⟨rfl, hq⟩, fun _ => ⟨rfl, fun e => ?_⟩⟩
          cases e with
          | some e => trivial
          | none => exact ⟨rfl, fun _ => trivial⟩

theorem advance_steps (r : SessionRunner α L S) (t : Ref) (hops : ℕ) :
    (advance r t hops).Always (WalkStep r t) := by
  induction hops with
  | zero => trivial
  | succ hops ih =>
    rw [advance_succ]
    refine ⟨rfl, fun current => ?_⟩
    cases current with
    | none => trivial
    | some p =>
      refine (leave_steps r .advance t p).bind fun l => ?_
      cases l with
      | failed e => trivial
      | terminal => exact ⟨rfl, fun _ => trivial⟩
      | entered q =>
        simp only [afterLeave]
        split_ifs
        · trivial
        · refine ⟨rfl, fun done => ?_⟩
          cases done with
          | false => trivial
          | true => exact ih

theorem advanceWalk_steps (r : SessionRunner α L S) (sid : String) (target : SessionState)
    (t : Ref) (hops : ℕ) : (advanceWalk r sid target t hops).Always (WalkStep r t) := by
  induction hops with
  | zero => trivial
  | succ hops ih =>
    rw [advanceWalk_succ]
    simp only [call, Prog.call_bind]
    refine ⟨rfl, fun state => ?_⟩
    dsimp only
    split_ifs
    · trivial
    refine ⟨rfl, fun current => ?_⟩
    cases current with
    | none => trivial
    | some p =>
      refine (leave_steps r .advanceToState t p).bind fun l => ?_
      cases l with
      | entered q => exact ih
      | _ => trivial

theorem handleMessage_always (r : SessionRunner α L S)
    {sid msgType sender : String} {payload : Bytes} (lookup : φ (.lookup sid))
    (deliver : ∀ t p, msgType ∈ p.consumedMessageTypes →
      φ (.onMessage t p msgType sender payload)) (walk : ∀ t a, WalkStep r t a → φ a) :
    (handleMessage r sid msgType sender payload).Always φ := by
  simp only [handleMessage, call, Prog.call_bind]
  refine ⟨lookup, fun t => ?_⟩
  cases t with
  | none => trivial
  | some t =>
    refine ⟨walk t _ rfl, fun current => ?_⟩
    cases current with
    | none => trivial
    | some p =>
      dsimp only
      split_ifs with hc
      · refine ⟨deliver t p (phaseConsumes_iff.mp hc), fun e => ?_⟩
        cases e with
        | some e => trivial
        | none =>
          refine ⟨walk t _ rfl, fun done => ?_⟩
          cases done with
          | false => trivial
          | true => exact (advance_steps r t _).mono (walk t)
      · exact ⟨walk t _ rfl, fun _ => trivial⟩

theorem advanceToState_always (r : SessionRunner α L S) {sid : String}
    (target : SessionState) (lookup : φ (.lookup sid)) (walk : ∀ t a, WalkStep r t a → φ a) :
    (advanceToState r sid target).Always φ := by
  simp only [advanceToState, call, Prog.call_bind]
  refine ⟨lookup, fun t => ?_⟩
  cases t with
  | none => trivial
  | some t =>
    refine ⟨walk t _ rfl, fun state => ?_⟩
    dsimp only
    split_ifs
    · trivial
    · refine ⟨walk t _ rfl, fun current => ?_⟩
      dsimp only
      split_ifs
      · trivial
      · exact (advanceWalk_steps r sid target t _).mono (walk t)

theorem Consumes.quiet (h : isOnMessage a = false) : Consumes a := by
  rintro _ _ _ _ _ rfl
  cases h

theorem MessageStep.consumes {msgType sender : String} {payload : Bytes}
    (h : MessageStep msgType sender payload a) : Consumes a := by
  cases h with
  | deliver t p hlisted =>
    rintro _ _ _ _ _ ⟨⟩
    exact hlisted
  | quiet hquiet => exact .quiet hquiet

theorem BeginStep.consumes (h : BeginStep a) : Consumes a := by
  rintro _ _ _ _ _ rfl
  exact h.elim

theorem local_final {β : Type} {prog : RunnerProg α L β} (h : prog.Always (Local t))
    (s : RunnerState α L S) : Framed t s (prog.final (sem r ω) s) :=
  h.final _ (fun _ s' ha hs => hs.trans (local_framed ha s')) (.refl t s)

theorem local_trace {β : Type} {prog : RunnerProg α L β} (h : prog.Always (Local t))
    (s : RunnerState α L S) {t' : Ref} (ht : t' ≠ t) :
    hookTrace t' (prog.events (sem r ω) s) = [] :=
  filterMap_eq_nil_iff.mpr fun e he => local_mark (h.events _ s e he) ht

end

inductive Call where
  | begin (sid cohortID : String)
  | message (sid : String) (m : Message)
  | advanceTo (sid : String) (target : SessionState)
  | ended (sid : String)

abbrev Call.Ret : Call → Type
  | .begin .. => Except RunErr Ref
  | .message .. => Except RunErr Bool
  | .advanceTo .. => Except RunErr Unit
  | .ended _ => Unit

def Call.prog (r : SessionRunner α L S) : (c : Call) → RunnerProg α L (Outcome c.Ret)
  | .begin sid cohortID => beginSession sid cohortID
  | .message sid m => handleMessage r sid m.msgType m.sender m.payload
  | .advanceTo sid target => advanceToState r sid target
  | .ended sid => endSession sid

structure Log (α L S : Type) where
  state : RunnerState α L S
  history : List (RunnerEvent α L S)

def Log.start (store : S) (app : L) : Log α L S := ⟨RunnerState.fresh store app, []⟩

def Log.exec (r : SessionRunner α L S) (ω : MapOrder) (l : Log α L S) (c : Call) : Log α L S :=
  ⟨(c.prog r).final (sem r ω) l.state, l.history ++ (c.prog r).events (sem r ω) l.state⟩

def Orderly (r : SessionRunner α L S) (ω : MapOrder) (s : RunnerState α L S) (c : Call) : Prop :=
  HooksSucceed ((c.prog r).events (sem r ω) s) ∧
  match c with
  | .message sid _ => ∀ t, s.sessions sid = some t → (s.trackers t).current ≠ none
  | .advanceTo .. => False
  | .begin .. | .ended _ => True

/-- Sequences of calls on a new runner, each of which meets `guard` where it is made. -/
inductive CallRun (r : SessionRunner α L S) (ω : MapOrder)
    (guard : RunnerState α L S → Call → Prop) (store : S) (app : L) : Log α L S → Prop where
  | start : CallRun r ω guard store app (Log.start store app)
  | call {l} (c : Call) : CallRun r ω guard store app l → guard l.state c →
    CallRun r ω guard store app (l.exec r ω c)

structure Tracked (r : SessionRunner α L S) (l : Log α L S) : Prop where
  known : ∀ sid t, l.state.sessions sid = some t → t < l.state.nextRef
  fresh : ∀ t, l.state.nextRef ≤ t → (l.state.trackers t).current = none ∧
    (l.state.trackers t).state = stateNone ∧ hookTrace t l.history = []
  placed : ∀ t, t < l.state.nextRef → ∃ k,
    StandsAt (inlinePhases r.phases) (l.state.trackers t) k ∧
    TraceAt (inlinePhases r.phases) k (hookTrace t l.history)

section

variable {r : SessionRunner α L S} {ω : MapOrder} {l : Log α L S} {es : List (RunnerEvent α L S)}
  {p : Phase α L} {sid : String} {s' : RunnerState α L S}

theorem tracked_start (store : S) (app : L) : Tracked r (Log.start store app) where
  known := nofun
  fresh _ _ := ⟨rfl, rfl, rfl⟩
  placed t ht := absurd ht (Nat.not_lt_zero t)

theorem Tracked.idle (h : Tracked r l)
    (hquiet : ∀ t, hookTrace t es = []) : Tracked r ⟨l.state, l.history ++ es⟩ where
  known := h.known
  fresh t ht := by simpa [hquiet] using h.fresh t ht
  placed t ht := by simpa [hquiet] using h.placed t ht

theorem Tracked.on_tracker (h : Tracked r l) {t : Ref} (ht : t < l.state.nextRef)
    (hframe : Framed t l.state s') (hquiet : ∀ t', t' ≠ t → hookTrace t' es = [])
    {k : ℕ} (hat : StandsAt (inlinePhases r.phases) (s'.trackers t) k)
    (htr : TraceAt (inlinePhases r.phases) k (hookTrace t l.history ++ hookTrace t es)) :
    Tracked r ⟨s', l.history ++ es⟩ := by
  refine ⟨?_, ?_, ?_⟩
  · intro sid t' ht'
    rw [hframe.sessions] at ht'
    exact hframe.nextRef ▸ h.known sid t' ht'
  · intro t' ht'
    rw [hframe.nextRef] at ht'
    have hne : t' ≠ t := (lt_of_lt_of_le ht ht').ne'
    rw [hframe.others t' hne, hookTrace_append, hquiet t' hne, append_nil]
    exact h.fresh t' ht'
  · intro t' ht'
    rw [hframe.nextRef] at ht'
    by_cases hne : t' = t
    · subst hne
      exact ⟨k, hat, by simpa using htr⟩
    · simp only [hframe.others t' hne, hookTrace_append, hquiet t' hne, append_nil]
      exact h.placed t' ht'

theorem inlinePhases_length_le (r : SessionRunner α L S) :
    (inlinePhases r.phases).length ≤ r.phases.length := length_filter_le ..

theorem tracked_message (hr : Pipeline r) (hl : r.lineage = none) (hterm : Terminates r)
    (h : Tracked r l) {m : Message}
    (hc : Orderly r ω l.state (.message sid m)) : Tracked r (l.exec r ω (.message sid m)) := by
  obtain ⟨hok, hcurrent⟩ := hc
  have hrun := handleMessage_run r ω sid m l.state
  simp only [Log.exec, Call.prog] at hok ⊢
  generalize handleMessage .. = f at *
  generalize f.events _ _ = es, f.result _ _ = o, f.final _ _ = s' at *
  cases hrun with
  | inactive | notConsumed => exact h.idle fun t => by simp [markOf]
  | noPhase ht hp => exact absurd hp (hcurrent _ ht)
  | messageFailed => simp [hookErr] at hok
  | @waiting t p ht hp =>
    have hknown := h.known sid t ht
    obtain ⟨k, hat, htr⟩ := h.placed t hknown
    obtain ⟨hstate, hcur⟩ := afterMessage_position r ω m l.state t t p
    refine h.on_tracker hknown (local_framed (a := .onMessage t p _ _ _) rfl l.state) ?_ (k := k)
      ⟨hcur.trans hat.1, hstate.trans hat.2⟩ ?_
    · exact fun t' ht' => by simp [markOf, Ne.symm ht']
    · simpa [markOf] using htr.message (hat.1.symm.trans hp)
  | @advancing t p ht hp =>
    have hknown := h.known sid t ht
    obtain ⟨k, hat, htr⟩ := h.placed t hknown
    have hk := hat.1.symm.trans hp
    obtain ⟨-, hcur⟩ := afterMessage_position r ω m l.state t t p
    have hhops : (inlinePhases r.phases).length ≤ k + (r.phases.length + 1) := by
      have := inlinePhases_length_le r
      omega
    rw [hooksSucceed_append] at hok
    obtain ⟨-, k', hat', htr'⟩ :=
      advance_spec hr hl hterm hk (hcur.trans hp) hhops hok.2 (htr.message hk)
    have hlocal := (advance_steps r t (r.phases.length + 1)).mono fun _ => WalkStep.local
    refine h.on_tracker hknown ?_ ?_ hat' (by simpa [markOf] using htr')
    · exact (local_framed (a := .onMessage t p _ _ _) rfl l.state).trans (local_final hlocal _)
    · intro t' ht'
      simp [markOf, Ne.symm ht', local_trace hlocal _ ht']

theorem initial_first (hr : Pipeline r) (h : r.byEntryState r.initialState = some p) :
    (inlinePhases r.phases)[0]? = some p ∧ p.entryState = r.initialState := by
  obtain ⟨hmem, hentry⟩ := (hr.byEntry _ _).mp h
  refine ⟨?_, hentry⟩
  have hinit := hr.initial
  cases hps : inlinePhases r.phases with
  | nil => simp [hps] at hmem
  | cons q ps =>
    have hq : r.byEntryState q.entryState = some q := (hr.byEntry _ _).mpr ⟨by simp [hps], rfl⟩
    simp only [hps, List.head?_cons, Option.map_some, Option.getD_some] at hinit
    rw [hinit, hq] at h
    simpa using h

theorem Tracked.created (h : Tracked r l)
    (hs : s'.sessions = update l.state.sessions sid (some l.state.nextRef))
    (hn : s'.nextRef = l.state.nextRef + 1)
    (hothers : ∀ t, t ≠ l.state.nextRef → s'.trackers t = l.state.trackers t)
    (hp : (inlinePhases r.phases)[0]? = some p)
    (hat : StandsAt (inlinePhases r.phases) (s'.trackers l.state.nextRef) 0)
    (htr : hookTrace l.state.nextRef es = [.enter p.name])
    (hquiet : ∀ t, t ≠ l.state.nextRef → hookTrace t es = []) :
    Tracked r ⟨s', l.history ++ es⟩ := by
  refine ⟨?_, ?_, ?_⟩
  · intro sid' t ht
    simp only [hs, hn, update_apply] at ht ⊢
    split_ifs at ht
    · cases ht
      exact Nat.lt_succ_self _
    · exact Nat.lt_succ_of_lt (h.known sid' t ht)
  · intro t ht
    rw [hn] at ht
    have hne := (Nat.lt_of_succ_le ht).ne'
    rw [hothers t hne, hookTrace_append, hquiet t hne, append_nil]
    exact h.fresh t (Nat.le_of_succ_le ht)
  · intro t ht
    rw [hn] at ht
    by_cases hne : t = l.state.nextRef
    · subst hne
      rw [hookTrace_append, (h.fresh _ le_rfl).2.2, htr]
      exact ⟨0, hat, traceAt_begin hp⟩
    · rw [hothers t hne, hookTrace_append, hquiet t hne, append_nil]
      exact h.placed t (lt_of_le_of_ne (Nat.le_of_lt_succ ht) hne)

theorem tracked_begin (hr : Pipeline r) (h : Tracked r l)
    {sid cohortID : String} (hc : Orderly r ω l.state (.begin sid cohortID)) :
    Tracked r (l.exec r ω (.begin sid cohortID)) := by
  obtain ⟨hok, -⟩ := hc
  simp only [Log.exec, Call.prog, beginSession, call, Prog.call_bind] at hok ⊢
  by_cases hsid : sid = ""
  · simp only [if_pos hsid]
    exact h.idle fun t => rfl
  simp only [if_neg hsid, Prog.events_act, Prog.final_act] at hok ⊢
  cases hs : l.state.sessions sid with
  | some t =>
    have hcreate : sem r ω (.create sid cohortID) l.state =
        (.error (.alreadyActive sid), l.state) := by simp [sem, createSession, hs]
    rw [hcreate]
    exact h.idle fun t => by simp [markOf]
  | none =>
    cases hfirst : r.byEntryState r.initialState with
    | none =>
      have hcreate : sem r ω (.create sid cohortID) l.state =
          (.error (.noInitialPhase r.initialState), l.state) := by
        simp [sem, createSession, hs, hfirst]
      rw [hcreate]
      exact h.idle fun t => by simp [markOf]
    | some first =>
      obtain ⟨hzero, hentry⟩ := initial_first hr hfirst
      obtain ⟨s₁, hcreate, hs₁, hn₁, hothers₁, ht₁⟩ : ∃ s₁,
          sem r ω (.create sid cohortID) l.state = (.ok (l.state.nextRef, first), s₁) ∧
          s₁.sessions = update l.state.sessions sid (some l.state.nextRef) ∧
          s₁.nextRef = l.state.nextRef + 1 ∧
          (∀ t, t ≠ l.state.nextRef → s₁.trackers t = l.state.trackers t) ∧
          StandsAt (inlinePhases r.phases) (s₁.trackers l.state.nextRef) 0 := by
        refine ⟨_, by simp [sem, createSession, hs, hfirst]; rfl, rfl, rfl, ?_, ?_⟩
        · intro t hne
          simp [hne]
        · simp [StandsAt, hzero, hentry]
      rw [hcreate] at hok ⊢
      simp only [Prog.events_act, Prog.final_act] at hok ⊢
      cases he : (sem r ω (.enter l.state.nextRef first) s₁).1 with
      | some e => simp [he, hookErr] at hok
      | none =>
        have hframe : Framed l.state.nextRef s₁
            (sem r ω (.setEntered l.state.nextRef)
              (sem r ω (.enter l.state.nextRef first) s₁).2).2 :=
          (local_framed (a := .enter _ first) rfl s₁).trans
            (local_framed (a := .setEntered l.state.nextRef) rfl _)
        have hpos₁ := sem_position r ω (s := s₁) (t := l.state.nextRef)
          (a := .enter l.state.nextRef first) id
        have hpos₂ := sem_position r ω (s := (sem r ω (.enter l.state.nextRef first) s₁).2)
          (t := l.state.nextRef) (a := .setEntered l.state.nextRef) id
        refine h.created (hframe.sessions.trans hs₁) (hframe.nextRef.trans hn₁) ?_ hzero ?_ ?_ ?_
        · exact fun t hne => (hframe.others t hne).trans (hothers₁ t hne)
        · exact ⟨(hpos₂.2.trans hpos₁.2).trans ht₁.1, (hpos₂.1.trans hpos₁.1).trans ht₁.2⟩
        · simp [markOf]
        · intro t hne
          simp [markOf, Ne.symm hne]

theorem tracked_ended (h : Tracked r l) (sid : String) : Tracked r (l.exec r ω (.ended sid)) := by
  simp only [Log.exec, Call.prog, endSession, call, Prog.call_bind, Prog.pure_def, Prog.final_act,
    Prog.final_ret, sem]
  refine ⟨?_, fun t ht => ?_, fun t ht => ?_⟩
  · intro sid' t ht
    simp only [update_apply] at ht
    split_ifs at ht
    exact h.known sid' t ht
  · simpa [markOf] using h.fresh t ht
  · simpa [markOf] using h.placed t ht

theorem orderlyRun_tracked (hr : Pipeline r) (hl : r.lineage = none) (hterm : Terminates r)
    {store : S} {app : L} (h : CallRun r ω (Orderly r ω) store app l) : Tracked r l := by
  induction h with
  | start => exact tracked_start ..
  | call c _ hc ih =>
    cases c with
    | begin sid cohortID => exact tracked_begin hr ih hc
    | message sid m => exact tracked_message hr hl hterm ih hc
    | advanceTo sid target => exact hc.2.elim
    | ended sid => exact tracked_ended ih sid

theorem orderlyRun_consumes {store : S} {app : L}
    (h : CallRun r ω (Orderly r ω) store app l) : ∀ e ∈ l.history, Consumes e.act := by
  induction h with
  | start => simp [Log.start]
  | call c _ hc ih =>
    have hnew : (c.prog r).Always Consumes := by
      cases c with
      | begin sid cohortID => exact (beginSession_steps sid cohortID).mono fun _ =>
          BeginStep.consumes
      | message sid m =>
        exact (handleMessage_always r (.quiet rfl) .deliver fun _ _ h => .quiet h.quiet).mono
          fun _ => MessageStep.consumes
      | advanceTo sid target => exact hc.2.elim
      | ended sid => exact ⟨.quiet rfl, fun _ => trivial⟩
    intro e he
    rcases mem_append.mp he with he | he
    · exact ih e he
    · exact hnew.events _ _ e he

/-- What holds after any orderly sequence of calls, for every tracked session. -/
structure SequentialDiscipline (r : SessionRunner α L S) (ω : MapOrder) (l : Log α L S) :
    Prop where
  ordered : ∀ t, ∃ visits : List (String × ℕ),
    visits.map Prod.fst = (inlinePhases r.phases).map Phase.name ∧
    hookTrace t l.history <+: fullTrace visits
  once : ∀ t name, (hookTrace t l.history).count (.enter name) ≤ 1 ∧
    (hookTrace t l.history).count (.exit name) ≤ 1
  consumed : ∀ e ∈ l.history, Consumes e.act
  walksPast : ∀ sid (m : Message), WalksPast r ω
    ((handleMessage r sid m.msgType m.sender m.payload).events (sem r ω) l.state)
  bounded : ∀ sid (m : Message) n,
    (handleMessage r sid m.msgType m.sender m.payload).result (sem r ω) l.state ≠
      .returned (.error (.cascadeHopLimit n))
  settled : ∀ t, (∃ p, (l.state.trackers t).current = some p ∧
      (l.state.trackers t).state = p.entryState) ∨
    ((l.state.trackers t).current = none ∧ (l.state.trackers t).state = stateNone)

theorem Tracked.ordered (h : Tracked r l) (t : Ref) :
    ∃ visits : List (String × ℕ), visits.map Prod.fst = (inlinePhases r.phases).map Phase.name ∧
      hookTrace t l.history <+: fullTrace visits := by
  by_cases ht : t < l.state.nextRef
  · obtain ⟨k, -, htr⟩ := h.placed t ht
    exact htr.full
  · rw [(h.fresh t (not_lt.mp ht)).2.2]
    exact ⟨(inlinePhases r.phases).map fun p => (p.name, 0), by simp,
      nil_prefix⟩

theorem Tracked.settled (h : Tracked r l) (t : Ref) :
    (∃ p, (l.state.trackers t).current = some p ∧
      (l.state.trackers t).state = p.entryState) ∨
    ((l.state.trackers t).current = none ∧ (l.state.trackers t).state = stateNone) := by
  by_cases ht : t < l.state.nextRef
  · obtain ⟨k, ⟨hcur, hstate⟩, -⟩ := h.placed t ht
    cases hp : (inlinePhases r.phases)[k]? with
    | none => exact Or.inr ⟨hcur.trans hp, by simpa [hp] using hstate⟩
    | some p => exact Or.inl ⟨p, hcur.trans hp, by simpa [hp] using hstate⟩
  · obtain ⟨hcur, hstate, -⟩ := h.fresh t (not_lt.mp ht)
    exact Or.inr ⟨hcur, hstate⟩

theorem Tracked.cascade (h : Tracked r l) {t : Ref} (ht : l.state.sessions sid = some t)
    (hp : (l.state.trackers t).current = some p) : ∃ k, (inlinePhases r.phases)[k]? = some p ∧
      (inlinePhases r.phases).length ≤ k + (r.phases.length + 1) := by
  obtain ⟨k, hat, -⟩ := h.placed t (h.known sid t ht)
  have := inlinePhases_length_le r
  exact ⟨k, hat.1.symm.trans hp, by omega⟩

theorem Tracked.walksPast (h : Tracked r l) (hr : Pipeline r)
    (hterm : Terminates r) (sid : String) (m : Message) : WalksPast r ω
      ((handleMessage r sid m.msgType m.sender m.payload).events (sem r ω) l.state) := by
  have hrun := handleMessage_run r ω sid m l.state
  generalize handleMessage .. = f at *
  generalize f.events _ _ = es, f.result _ _ = o, f.final _ _ = s' at *
  cases hrun with
  | @advancing t p ht hp =>
    obtain ⟨k, hk, hhops⟩ := h.cascade ht hp
    have hcur := (afterMessage_position r ω m l.state t t p).2.trans hp
    exact WalksPast.append (by simp [entry]) (advance_walksPast hr hterm hk hcur hhops)
  | _ => exact walksPast_of_no_entry (by simp [entry])

theorem Tracked.bounded (h : Tracked r l) (hr : Pipeline r)
    (hterm : Terminates r) (sid : String) (m : Message) (n : ℕ) :
    (handleMessage r sid m.msgType m.sender m.payload).result (sem r ω) l.state ≠
      .returned (.error (.cascadeHopLimit n)) := by
  have hrun := handleMessage_run r ω sid m l.state
  generalize handleMessage .. = f at *
  generalize f.events _ _ = es, f.result _ _ = o, f.final _ _ = s' at *
  cases hrun with
  | @advancing t p ht hp =>
    obtain ⟨k, hk, hhops⟩ := h.cascade ht hp
    have hcur := (afterMessage_position r ω m l.state t t p).2.trans hp
    exact advance_bounded hr hterm hk hcur hhops n
  | _ => simp

/-- Calls that do not overlap take every session through the phases in order, on a pipeline that
ends. -/
theorem sequential_discipline {phases : List (Phase α L)} (hr : compose phases = .ok r)
    (hterm : Terminates r) {store : S} {app : L} {l : Log α L S}
    (h : CallRun r ω (Orderly r ω) store app l) : SequentialDiscipline r ω l := by
  obtain ⟨-, hl, hpipe⟩ := compose_pipeline hr
  have htracked := orderlyRun_tracked hpipe hl hterm h
  refine ⟨htracked.ordered, ?_, orderlyRun_consumes h, htracked.walksPast hpipe hterm,
    htracked.bounded hpipe hterm, htracked.settled⟩
  intro t name
  obtain ⟨visits, hv, hfull⟩ := htracked.ordered t
  have hnodup := hv ▸ hpipe.chained.names
  obtain ⟨henter, hexit⟩ := count_fullTrace hnodup name
  exact ⟨(hfull.sublist.count_le _).trans henter, (hfull.sublist.count_le _).trans hexit⟩

end

def computePhase (name : String) (entryState exitState : SessionState) : Phase Unit Unit :=
  { quorumPhase name entryState exitState "" "" 0 with consumedMessageTypes := [] }

def auctionPhases : List (Phase Unit Unit) :=
  [quorumPhase "collect" "collecting" "summing" "share" "shares" 1,
    computePhase "sum" "summing" "deciding",
    quorumPhase "decide" "deciding" stateNone "vote" "votes" 1]

def auctionRunner : SessionRunner Unit Unit Unit := (compose auctionPhases).toOption.get (by decide)

def afterCalls (cs : List Call) : Log Unit Unit Unit :=
  cs.foldl (Log.exec auctionRunner .listed) (Log.start () ())

def shareCalls : List Call := [.begin "s" "", .message "s" ⟨"share", "alice", []⟩]

theorem sequential_discipline_share : compose auctionPhases = .ok auctionRunner ∧
    hookTrace 0 (afterCalls shareCalls).history = [.enter "collect", .message "collect",
      .exit "collect", .enter "sum", .exit "sum", .enter "decide"] ∧
    SequentialDiscipline auctionRunner .listed (afterCalls shareCalls) := by
  have hterm : Terminates auctionRunner := by
    rintro p ⟨⟩
    rfl
  have hbegin : Orderly auctionRunner .listed (RunnerState.fresh () ()) (.begin "s" "") :=
    ⟨by unfold HooksSucceed; decide, trivial⟩
  have hshare : Orderly auctionRunner .listed (afterCalls [.begin "s" ""]).state
      (.message "s" ⟨"share", "alice", []⟩) := by
    refine ⟨by unfold HooksSucceed; decide, ?_⟩
    nofun
  have hcompose : compose auctionPhases = .ok auctionRunner := rfl
  exact ⟨hcompose, by decide,
    sequential_discipline hcompose hterm (.call _ (.call _ .start hbegin) hshare)⟩

/-- A message call on a tracked session returns, and with an error where there is no current phase,
exactly when there is a current phase: without one it panics. -/
theorem handleMessage_returns_iff (r : SessionRunner α L S) (ω : MapOrder) (sid : String)
    (m : Message) (s : RunnerState α L S) {t : Ref} (ht : s.sessions sid = some t) :
    ((handleMessage r sid m.msgType m.sender m.payload).result (sem r ω) s ≠ .panicked ∧
      ((s.trackers t).current = none → ∃ e,
        (handleMessage r sid m.msgType m.sender m.payload).result (sem r ω) s =
          .returned (.error e))) ↔ (s.trackers t).current ≠ none := by
  have hrun := handleMessage_run r ω sid m s
  generalize handleMessage .. = f at *
  generalize f.events _ _ = es, f.result _ _ = o, f.final _ _ = s' at *
  cases hrun with
  | inactive hs =>
    rw [ht] at hs
    cases hs
  | noPhase hs hp | notConsumed hs hp | messageFailed hs hp | waiting hs hp =>
    rw [ht] at hs
    cases hs
    simp [hp]
  | @advancing _ p hs hp =>
    rw [ht] at hs
    cases hs
    have hcur := (afterMessage_position r ω m s t t p).2.trans hp
    simp [hp, advance_ne_panicked hcur]

theorem handleMessage_returns_begun :
    (afterCalls [.begin "s" ""]).state.sessions "s" = some 0 ∧
    (handleMessage auctionRunner "s" "vote" "alice" []).result (sem auctionRunner .listed)
      (afterCalls [.begin "s" ""]).state ≠ .panicked := by
  refine ⟨rfl, ((handleMessage_returns_iff auctionRunner .listed "s" ⟨"vote", "alice", []⟩
    (afterCalls [.begin "s" ""]).state rfl).mpr ?_).1⟩
  nofun

/-- The last vote leaves the terminal phase; the next message finds no current phase. -/
theorem handleMessage_panics_after_terminal : compose auctionPhases = .ok auctionRunner ∧
    (afterCalls (shareCalls ++ [.message "s" ⟨"vote", "bob", []⟩])).state.sessions "s" = some 0 ∧
    (handleMessage auctionRunner "s" "vote" "carol" []).result (sem auctionRunner .listed)
      (afterCalls (shareCalls ++ [.message "s" ⟨"vote", "bob", []⟩])).state = .panicked := by
  refine ⟨rfl, rfl, ?_⟩
  decide

end SessionRunnerDiscipline
