import Ares.SessionRunnerDiscipline

/-! A failure ends the call it is met in, but the session stays tracked: the next call on it runs
hooks again. -/
namespace SessionRunnerFailures

open InterleavedPrograms LineageNodes PhasePipelines SessionRunner SessionRunnerDiscipline List

variable {α L S : Type}

def failed : RunnerEvent α L S → Bool
  | ⟨_, .exit .., e⟩ | ⟨_, .enter .., e⟩ => e.isSome
  | ⟨_, .commit .., e⟩ => e.isSome
  | _ => false

def isHook : Action α L → Bool
  | .enter .. | .onMessage .. | .checkComplete .. | .exit .. => true
  | _ => false

def Aborts (es : List (RunnerEvent α L S)) : Prop :=
  es.Pairwise fun x y => failed x = true → isHook y.act = false

instance (es : List (RunnerEvent α L S)) : Decidable (Aborts es) :=
  inferInstanceAs (Decidable (es.Pairwise _))

/-- Calls on one session between its begin and its end. -/
inductive SessionCall where
  | message (m : Message)
  | advanceTo (target : SessionState)

def SessionCall.toCall (sid : String) : SessionCall → Call
  | .message m => .message sid m
  | .advanceTo target => .advanceTo sid target

def Inert (sid : String) (s : RunnerState α L S) (c : SessionCall) : Prop :=
  ∀ t p, s.sessions sid = some t → (s.trackers t).current = some p →
    match c with
    | .message m => m.msgType ∉ p.consumedMessageTypes
    | .advanceTo target => target = (s.trackers t).state ∨ target ∈ p.internalStates

section

variable (r : SessionRunner α L S) (ω : MapOrder) (sid : String)

def callEvents (s : RunnerState α L S) (c : SessionCall) : List (RunnerEvent α L S) :=
  ((c.toCall sid).prog r).events (sem r ω) s

def made : List SessionCall → RunnerState α L S → List (RunnerState α L S × SessionCall)
  | [], _ => []
  | c :: cs, s => (s, c) :: made cs (((c.toCall sid).prog r).final (sem r ω) s)

def history (cs : List SessionCall) (s : RunnerState α L S) : List (RunnerEvent α L S) :=
  (made r ω sid cs s).flatMap fun x => callEvents r ω sid x.1 x.2

end

section

variable {r : SessionRunner α L S} {ω : MapOrder} {sid : String} {t : Ref} {p : Phase α L}
  {s s' : RunnerState α L S} {es : List (RunnerEvent α L S)}

theorem aborts_of_no_failure (h : ∀ x ∈ es, failed x = false) : Aborts es := by
  refine pairwise_of_forall_mem_list fun x hx y _ hf => ?_
  rw [h x hx] at hf
  cases hf

theorem leaveRun_aborts {w : Walk} {l : Leaving α L} (h : LeaveRun r ω t p s w es l s') :
    Aborts es ∧ ((∃ e, l = .failed e) ∨ ∀ x ∈ es, failed x = false) := by
  cases h <;> simp [Aborts, failed]

theorem Aborts.cons {x : RunnerEvent α L S} (h : Aborts es) (hx : failed x = false) :
    Aborts (x :: es) := by
  refine pairwise_cons.mpr ⟨fun y _ hf => ?_, h⟩
  rw [hx] at hf
  cases hf

theorem Aborts.append {fs : List (RunnerEvent α L S)} (he : Aborts es) (hf : Aborts fs)
    (h : (∀ x ∈ es, failed x = false) ∨ fs = []) : Aborts (es ++ fs) := by
  refine pairwise_append.mpr ⟨he, hf, fun x hx y hy hfail => ?_⟩
  rcases h with h | rfl
  · rw [h x hx] at hfail
    cases hfail
  · cases hy

theorem afterLeave_aborts {hops : ℕ} (ih : ∀ s : RunnerState α L S,
    Aborts ((advance r t hops).events (sem r ω) s)) (l : Leaving α L) :
    Aborts ((afterLeave r t hops l).events (sem r ω) s) := by
  cases l with
  | failed e => exact Pairwise.nil
  | terminal => exact aborts_of_no_failure (by simp [afterLeave, call, failed])
  | entered q =>
    rcases waits_or_done q (s.env r t) with hstop | ⟨hcons, hdone⟩
    · refine aborts_of_no_failure fun x hx => ?_
      rw [(afterLeave_stop hops hstop).2.2 x hx]
      rfl
    · rw [(afterLeave_cascade hops hcons hdone).2.2]
      exact (ih s).cons rfl

variable (r : SessionRunner α L S) (ω : MapOrder)

theorem advance_aborts (t : Ref) (hops : ℕ) (s : RunnerState α L S) :
    Aborts ((advance r t hops).events (sem r ω) s) := by
  induction hops generalizing s with
  | zero => exact Pairwise.nil
  | succ hops ih =>
    cases hcur : (s.trackers t).current with
    | none =>
      rw [advance_succ]
      simp only [call, Prog.call_bind, Prog.events_act, sem, hcur]
      exact pairwise_singleton ..
    | some p =>
      obtain ⟨es, l, s', hrun, hevents, -, -⟩ := advance_hop hcur hops
      rw [hevents]
      obtain ⟨hes, hfail⟩ := leaveRun_aborts hrun
      refine (hes.append (afterLeave_aborts ih l) ?_).cons rfl
      rcases hfail with ⟨e, rfl⟩ | hok
      · exact Or.inr rfl
      · exact Or.inl hok

variable (sid : String)

theorem message_aborts (m : Message) (s : RunnerState α L S) :
    Aborts (callEvents r ω sid s (.message m)) := by
  have hrun := handleMessage_run r ω sid m s
  simp only [callEvents, SessionCall.toCall, Call.prog]
  generalize handleMessage .. = f at *
  generalize f.events _ _ = es, f.result _ _ = o, f.final _ _ = s' at *
  cases hrun with
  | @advancing t =>
    refine Aborts.append (aborts_of_no_failure (by simp [failed])) (advance_aborts r ω t _ _) ?_
    exact Or.inl (by simp [failed])
  | _ => exact aborts_of_no_failure (by simp [failed])

theorem message_inert_iff (m : Message) (s : RunnerState α L S) :
    (∀ x ∈ callEvents r ω sid s (.message m), isHook x.act = false) ↔ Inert sid s (.message m) := by
  have hrun := handleMessage_run r ω sid m s
  simp only [callEvents, SessionCall.toCall, Call.prog]
  generalize handleMessage .. = f at *
  generalize f.events _ _ = es, f.result _ _ = o, f.final _ _ = s' at *
  cases hrun with
  | inactive hs => simp [Inert, isHook, hs]
  | noPhase hs hp =>
    refine iff_of_true (by simp [isHook]) fun t p ht hcur => ?_
    rw [hs] at ht
    cases ht
    rw [hp] at hcur
    cases hcur
  | notConsumed hs hp hm =>
    refine iff_of_true (by simp [isHook]) fun t p ht hcur => ?_
    rw [hs] at ht
    cases ht
    rw [hp] at hcur
    cases hcur
    exact hm
  | messageFailed hs hp hm | waiting hs hp hm | advancing hs hp hm =>
    exact iff_of_false (by simp [isHook]) fun h => h _ _ hs hp hm

def walkOn (r : SessionRunner α L S) (sid : String) (target : SessionState) (t : Ref) (hops : ℕ)
    (p : Phase α L) : Leaving α L → RunnerProg α L (Outcome (Except RunErr Unit))
  | .failed e => return .returned (.error e)
  | .terminal => return .returned (.error (.terminalReached sid p.name target))
  | .entered _ => advanceWalk r sid target t hops

variable (target : SessionState)

theorem advanceWalk_hop (t : Ref) (hops : ℕ) (s : RunnerState α L S)
    (hne : (s.trackers t).state ≠ target) (hcur : (s.trackers t).current = some p) :
    ∃ es l s', LeaveRun r ω t p s .advanceToState es l s' ∧
      (advanceWalk r sid target t (hops + 1)).events (sem r ω) s =
        ⟨s, .readState t, (s.trackers t).state⟩ :: ⟨s, .readCurrent t, some p⟩ ::
          (es ++ (walkOn r sid target t hops p l).events (sem r ω) s') ∧
      (advanceWalk r sid target t (hops + 1)).result (sem r ω) s =
        (walkOn r sid target t hops p l).result (sem r ω) s' ∧
      (advanceWalk r sid target t (hops + 1)).final (sem r ω) s =
        (walkOn r sid target t hops p l).final (sem r ω) s' := by
  refine ⟨_, _, _, leave_run r ω t p s .advanceToState, ?_⟩
  have hstate : sem r ω (.readState t) s = ((s.trackers t).state, s) := rfl
  have hread : sem r ω (.readCurrent t) s = (some p, s) := by simp [sem, hcur]
  have hon : ∀ l, walkOn r sid target t hops p l = match l with
      | .failed e => return .returned (.error e)
      | .terminal => return .returned (.error (.terminalReached sid p.name target))
      | .entered _ => advanceWalk r sid target t hops := by
    rintro (_ | _ | _) <;> rfl
  rw [advanceWalk_succ]
  simp only [call, Prog.call_bind, Prog.events_act, Prog.result_act, Prog.final_act, hstate]
  rw [if_neg hne]
  simp only [Prog.events_act, Prog.result_act, Prog.final_act, hread, Prog.events_bind,
    Prog.result_bind, Prog.final_bind]
  refine ⟨?_, ?_, ?_⟩ <;> trivial

theorem advanceWalk_idle (t : Ref) (hops : ℕ) (s : RunnerState α L S)
    (h : (s.trackers t).state = target ∨ (s.trackers t).current = none) :
    ∀ x ∈ (advanceWalk r sid target t hops).events (sem r ω) s,
      x.act = .readState t ∨ x.act = .readCurrent t := by
  cases hops with
  | zero => simp [advanceWalk]
  | succ hops =>
    rw [advanceWalk_succ]
    simp only [call, Prog.call_bind, Prog.events_act, sem]
    by_cases heq : (s.trackers t).state = target
    · simp [heq]
    · simp [heq, sem, h.resolve_left]

theorem advanceWalk_aborts (t : Ref) (hops : ℕ) (s : RunnerState α L S) :
    Aborts ((advanceWalk r sid target t hops).events (sem r ω) s) := by
  induction hops generalizing s with
  | zero => exact Pairwise.nil
  | succ hops ih =>
    by_cases hidle : (s.trackers t).state = target ∨ (s.trackers t).current = none
    · refine aborts_of_no_failure fun x hx => ?_
      obtain ⟨pre, act, res⟩ := x
      rcases advanceWalk_idle r ω sid target t (hops + 1) s hidle _ hx with h | h <;>
        (cases h; rfl)
    · obtain ⟨hne, hsome⟩ := not_or.mp hidle
      obtain ⟨p, hcur⟩ := Option.ne_none_iff_exists'.mp hsome
      obtain ⟨es, l, s', hrun, hevents, -⟩ := advanceWalk_hop r ω sid target t hops s hne hcur
      rw [hevents]
      obtain ⟨hes, hfail⟩ := leaveRun_aborts hrun
      refine Aborts.cons (Aborts.cons (hes.append ?_ ?_) rfl) rfl
      · cases l with
        | entered q => exact ih s'
        | _ => exact Pairwise.nil
      · rcases hfail with ⟨e, rfl⟩ | hok
        · exact Or.inr rfl
        · exact Or.inl hok

theorem advanceToState_events (r : SessionRunner α L S) (ω : MapOrder) (sid : String)
    (target : SessionState) (s : RunnerState α L S) :
    let es := callEvents r ω sid s (.advanceTo target)
    (s.sessions sid = none ∧ es = [⟨s, .lookup sid, none⟩]) ∨
    ∃ t, s.sessions sid = some t ∧
      ((∃ ds, es = ⟨s, .lookup sid, some t⟩ :: ds ∧
          (∀ x ∈ ds, x.act = .readState t ∨ x.act = .readCurrent t) ∧
          ((s.trackers t).state = target ∨
            ∃ p, (s.trackers t).current = some p ∧ target ∈ p.internalStates)) ∨
        (es = ⟨s, .lookup sid, some t⟩ :: ⟨s, .readState t, (s.trackers t).state⟩ ::
            ⟨s, .readCurrent t, (s.trackers t).current⟩ ::
            (advanceWalk r sid target t (r.phases.length + 1)).events (sem r ω) s ∧
          (s.trackers t).state ≠ target ∧
          ∀ p, (s.trackers t).current = some p → target ∉ p.internalStates)) := by
  simp only [callEvents, SessionCall.toCall, Call.prog, advanceToState, call, Prog.call_bind,
    Prog.events_act]
  cases ht : s.sessions sid with
  | none =>
    have hlook : sem r ω (.lookup sid) s = (none, s) := by simp [sem, ht]
    rw [hlook]
    exact Or.inl ⟨rfl, rfl⟩
  | some t =>
    have hlook : sem r ω (.lookup sid) s = (some t, s) := by simp [sem, ht]
    have hstate : sem r ω (.readState t) s = ((s.trackers t).state, s) := rfl
    have hread : sem r ω (.readCurrent t) s = ((s.trackers t).current, s) := rfl
    rw [hlook]
    simp only [Prog.events_act, hstate]
    refine Or.inr ⟨t, rfl, ?_⟩
    by_cases heq : (s.trackers t).state = target
    · rw [if_pos heq]
      exact Or.inl ⟨[⟨s, .readState t, (s.trackers t).state⟩], rfl, by simp, Or.inl heq⟩
    · rw [if_neg heq]
      simp only [Prog.events_act, hread]
      cases hcur : (s.trackers t).current with
      | none =>
        refine Or.inr ⟨rfl, heq, ?_⟩
        rintro p ⟨⟩
      | some p =>
        by_cases hint : target ∈ p.internalStates
        · refine Or.inl ⟨[⟨s, .readState t, (s.trackers t).state⟩,
            ⟨s, .readCurrent t, some p⟩], ?_, by simp, Or.inr ⟨p, rfl, hint⟩⟩
          simp [hint]
        · refine Or.inr ⟨?_, heq, ?_⟩
          · simp [hint]
          · rintro q ⟨⟩
            exact hint

theorem advanceTo_aborts (r : SessionRunner α L S) (ω : MapOrder) (sid : String)
    (target : SessionState) (s : RunnerState α L S) :
    Aborts (callEvents r ω sid s (.advanceTo target)) := by
  rcases advanceToState_events r ω sid target s with ⟨-, hes⟩ |
    ⟨t, -, ⟨ds, hes, hds, -⟩ | ⟨hes, -⟩⟩
  · rw [hes]
    exact pairwise_singleton ..
  · rw [hes]
    refine (aborts_of_no_failure fun x hx => ?_).cons rfl
    obtain ⟨pre, act, res⟩ := x
    rcases hds _ hx with h | h <;> (cases h; rfl)
  · rw [hes]
    exact (((advanceWalk_aborts r ω sid target t _ s).cons rfl).cons rfl).cons rfl

theorem advanceTo_inert_iff (r : SessionRunner α L S) (ω : MapOrder) (sid : String)
    (target : SessionState) (s : RunnerState α L S) :
    (∀ x ∈ callEvents r ω sid s (.advanceTo target), isHook x.act = false) ↔
      Inert sid s (.advanceTo target) := by
  rcases advanceToState_events r ω sid target s with ⟨hs, hes⟩ |
    ⟨t, ht, ⟨ds, hes, hds, hreached⟩ | ⟨hes, hne, hint⟩⟩
  · rw [hes]
    exact iff_of_true (by simp [isHook]) fun t p ht => by simp [hs] at ht
  · rw [hes]
    refine iff_of_true ?_ ?_
    · intro x hx
      rcases mem_cons.mp hx with rfl | hx
      · rfl
      · rcases hds x hx with h | h <;> rw [h] <;> rfl
    · intro t' p ht' hp
      rw [ht] at ht'
      cases ht'
      rcases hreached with h | ⟨q, hq, h⟩
      · exact Or.inl h.symm
      · rw [hp] at hq
        cases hq
        exact Or.inr h
  · rw [hes]
    cases hcur : (s.trackers t).current with
    | none =>
      refine iff_of_true ?_ ?_
      · intro x hx
        simp only [mem_cons] at hx
        rcases hx with rfl | rfl | rfl | hx
        · rfl
        · rfl
        · rfl
        · rcases advanceWalk_idle r ω sid target t _ s (Or.inr hcur) x hx with h | h <;>
            rw [h] <;> rfl
      · intro t' p ht' hp
        rw [ht] at ht'
        cases ht'
        rw [hcur] at hp
        cases hp
    | some p =>
      obtain ⟨es, l, s', hrun, hevents, -⟩ :=
        advanceWalk_hop r ω sid target t r.phases.length s hne hcur
      refine iff_of_false ?_ ?_
      · rw [hevents]
        cases hrun <;> simp [isHook]
      · intro h
        rcases h t p ht hcur with h | h
        · exact hne h.symm
        · exact hint p hcur h

end

theorem call_aborts (r : SessionRunner α L S) (ω : MapOrder) (sid : String)
    (s : RunnerState α L S) (c : SessionCall) : Aborts (callEvents r ω sid s c) := by
  cases c with
  | message m => exact message_aborts ..
  | advanceTo target => exact advanceTo_aborts ..

theorem call_inert_iff (r : SessionRunner α L S) (ω : MapOrder) (sid : String)
    (s : RunnerState α L S) (c : SessionCall) :
    (∀ x ∈ callEvents r ω sid s c, isHook x.act = false) ↔ Inert sid s c := by
  cases c with
  | message m => exact message_inert_iff ..
  | advanceTo target => exact advanceTo_inert_iff ..

/-- A failure aborts the session exactly when every call made after it is inert. -/
theorem session_aborts_iff (r : SessionRunner α L S) (ω : MapOrder) (sid : String)
    (cs : List SessionCall) (s : RunnerState α L S) :
    Aborts (history r ω sid cs s) ↔ (made r ω sid cs s).Pairwise fun u v =>
      (∃ x ∈ callEvents r ω sid u.1 u.2, failed x = true) → Inert sid v.1 v.2 := by
  rw [Aborts, history, pairwise_flatMap]
  constructor
  · rintro ⟨-, hcross⟩
    refine hcross.imp fun huv hfail => (call_inert_iff r ω sid _ _).mp fun y hy => ?_
    obtain ⟨x, hx, hf⟩ := hfail
    exact huv x hx y hy hf
  · intro h
    refine ⟨fun u _ => call_aborts r ω sid u.1 u.2, h.imp fun huv x hx y hy hf => ?_⟩
    exact (call_inert_iff r ω sid _ _).mpr (huv ⟨x, hx, hf⟩) y hy

def refusal (e : HookEnv Unit Unit) : HookOut Unit Unit :=
  { e.unchanged with err := some ⟨"refused", []⟩ }

def failingExit : List (Phase Unit Unit) :=
  [{ quorumPhase "collect" "collecting" stateNone "share" "shares" 1 with exit := refusal }]

def failingEnter : List (Phase Unit Unit) :=
  [quorumPhase "collect" "collecting" "deciding" "share" "shares" 1,
    { quorumPhase "decide" "deciding" stateNone "vote" "votes" 1 with enter := refusal }]

def failingExitRunner : SessionRunner Unit Unit Unit :=
  (compose failingExit).toOption.get (by decide)

def failingEnterRunner : SessionRunner Unit Unit Unit :=
  (compose failingEnter).toOption.get (by decide)

def marks (es : List (RunnerEvent Unit Unit Unit)) : List (Mark × Bool) :=
  es.filterMap fun e => (markOf 0 e.act).map (·, failed e)

def twoSharesHistory : List (RunnerEvent Unit Unit Unit) :=
  history failingExitRunner .listed "s"
    [.message ⟨"share", "alice", []⟩, .message ⟨"share", "bob", []⟩]
    (begun failingExitRunner .listed () () "s" "")

def shareAndVoteHistory : List (RunnerEvent Unit Unit Unit) :=
  history failingEnterRunner .listed "s"
    [.message ⟨"share", "alice", []⟩, .message ⟨"vote", "bob", []⟩]
    (begun failingEnterRunner .listed () () "s" "")

/-- A second share is delivered after the failed exit and repeats it; a vote is delivered
to the phase whose enter failed. -/
theorem hooks_after_failure :
    compose failingExit = .ok failingExitRunner ∧ compose failingEnter = .ok failingEnterRunner ∧
    ¬ Aborts twoSharesHistory ∧
    marks twoSharesHistory = [(.message "collect", false), (.exit "collect", true),
      (.message "collect", false), (.exit "collect", true)] ∧ ¬ Aborts shareAndVoteHistory ∧
    marks shareAndVoteHistory = [(.message "collect", false), (.exit "collect", false),
      (.enter "decide", true), (.message "decide", false), (.exit "decide", false)] := by
  refine ⟨rfl, rfl, ?_, ?_, ?_, ?_⟩ <;> decide

end SessionRunnerFailures
