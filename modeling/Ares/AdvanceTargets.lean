import Ares.ComposedPipelines
import Ares.LineageDispatch
import Ares.StateOwnership

/-! The walk to a target compares the state of the session with it, and a session is only ever in
the entry state of its phase. -/
namespace AdvanceTargets

open ComposedPipelines InterleavedPrograms LineageDispatch LineageNodes PhasePipelines
  PipelineShapes SessionRunner SessionRunnerDiscipline SessionRunnerFailures StateOwnership List

variable {α L S : Type} {r : SessionRunner α L S} {ω : MapOrder} {s : RunnerState α L S}
  {sid : String} {target : SessionState} {t : Ref}

def Reached (r : SessionRunner α L S) (ω : MapOrder) (s : RunnerState α L S) : Prop :=
  ∃ (ι : Type) (_ : DecidableEq ι) (store : S) (app : L) (work : ι → List Request)
    (Q : Pool ι (RunnerState α L S) (Action α L) Action.Res Unit),
    Pool.Run (sem r ω) (fun _ _ => True) (service r store app work) Q ∧ Q.state = s

section

theorem serve_enters (r : SessionRunner α L S) (reqs : List Request) :
    (serve r reqs).Always (Enters r) := by
  refine (serve_obeys ?_ ?_ reqs).always
  · rintro x a step _ _ _ rfl
    exact step.elim
  · exact fun c => (enters_call r c).obeys fun _ _ enters => enters

theorem Reached.invariant {I : RunnerState α L S → Prop}
    (keeps : ∀ a s, Enters r a → I s → I (sem r ω a s).2)
    (fresh : ∀ store app, I (.fresh store app)) (reached : Reached r ω s) : I s := by
  obtain ⟨ι, _, store, app, work, Q, run, rfl⟩ := reached
  exact run.keeps (sem r ω) keeps (fun i => serve_enters r (work i)) (fresh store app)

theorem Reached.rests (hr : Pipeline r) (reached : Reached r ω s) : Rests r s :=
  reached.invariant (rests_sem hr) fun _ _ => nofun

def Cleared (s : RunnerState α L S) : Prop :=
  ∀ t, (s.trackers t).current = none → (s.trackers t).state = stateNone

theorem cleared_sem (a : Action α L) (s : RunnerState α L S) (cleared : Cleared s) :
    Cleared (sem r ω a s).2 := by
  intro t current
  by_cases moves : Moves s t a
  · cases a with
    | moveTo t' state q =>
      obtain rfl : t' = t := moves
      simp [sem] at current
    | clearCurrent t' =>
      obtain rfl : t' = t := moves
      simp [sem]
    | create sid cohortID =>
      simp only [sem, createSession] at current ⊢
      split at current
      · exact cleared t current
      · split at current
        · exact cleared t current
        · obtain rfl : t = s.nextRef := moves
          simp at current
    | _ => exact moves.elim
  · obtain ⟨state, phase⟩ := sem_position r ω moves
    rw [phase] at current
    rw [state]
    exact cleared t current

theorem Reached.cleared (reached : Reached r ω s) : Cleared s :=
  reached.invariant (fun a s _ => cleared_sem a s) fun _ _ _ _ => rfl

end

def crossing : List (Phase α L) → List Mark
  | p :: q :: ps => .exit p.name :: .enter q.name :: crossing (q :: ps)
  | _ => []

section

variable {p q : Phase α L}

theorem walk_reaches (hr : Pipeline r) {n hops k : ℕ} (enough : n < hops)
    (current : (s.trackers t).current = some p) (state : (s.trackers t).state = p.entryState)
    (here : (inlinePhases r.phases)[k]? = some p)
    (there : (inlinePhases r.phases)[k + n]? = some q) (entered : q.entryState = target)
    (fine : ∀ x ∈ (advanceWalk r sid target t hops).events (sem r ω) s, failed x = false) :
    (advanceWalk r sid target t hops).result (sem r ω) s = .returned (.ok ()) ∧
      (((advanceWalk r sid target t hops).final (sem r ω) s).trackers t).current = some q ∧
      hookTrace t ((advanceWalk r sid target t hops).events (sem r ω) s) =
        crossing (((inlinePhases r.phases).drop k).take (n + 1)) := by
  obtain ⟨hops, rfl⟩ := Nat.exists_eq_succ_of_ne_zero (Nat.ne_zero_of_lt enough)
  induction n generalizing hops k p s with
  | zero =>
    obtain rfl : p = q := Option.some.inj (here.symm.trans there)
    have readState : sem r ω (.readState t) s = (target, s) := by simp [sem, state, entered]
    have alone : ((inlinePhases r.phases).drop k).take 1 = [p] := by
      rw [take_one, List.head?_drop, here]
      rfl
    rw [advanceWalk_succ, alone]
    simp [call, readState, current, crossing, markOf]
  | succ n ih =>
    obtain ⟨q', next⟩ : ∃ q', (inlinePhases r.phases)[k + 1]? = some q' := by
      have bound := (List.getElem?_eq_some_iff.mp there).1
      exact ⟨_, List.getElem?_eq_getElem (by omega)⟩
    have away : (s.trackers t).state ≠ target := by
      rw [state]
      intro same
      have := position_unique hr here there (same.trans entered.symm)
      omega
    obtain ⟨es, l, s', run, events, result, final⟩ :=
      advanceWalk_hop r ω sid target t hops s away current
    rw [events] at fine ⊢
    rw [result, final]
    simp only [forall_mem_cons, forall_mem_append] at fine
    obtain ⟨-, -, left, rest⟩ := fine
    have claimed := hr.next here next
    have onward : p.exitState ≠ stateNone := by
      intro ends
      have entry := ((hr.byEntry _ _).mp claimed).2
      exact hr.chained.entered q' (mem_of_getElem? next) (entry.trans ends)
    cases run with
    | exitFailed | commitFailed | enterFailed => simp [failed] at left
    | terminal _ _ ends => exact absurd ends onward
    | unclaimed _ _ _ free =>
      rw [claimed] at free
      cases free
    | @entered q'' _ _ _ found _ =>
      obtain rfl : q' = q'' := Option.some.inj (claimed.symm.trans found)
      obtain ⟨state', current'⟩ := afterSetEntered_position r ω t p s q'
      have entry := ((hr.byEntry _ _).mp claimed).2
      have enough' : n < hops := by omega
      obtain ⟨hops, rfl⟩ := Nat.exists_eq_succ_of_ne_zero (Nat.ne_zero_of_lt enough')
      obtain ⟨ok, arrives, trace⟩ := ih current' (state'.trans entry.symm) next
        (by rw [← there]; congr 1; omega) hops enough' rest
      have split : ((inlinePhases r.phases).drop k).take (n + 2) =
          p :: ((inlinePhases r.phases).drop (k + 1)).take (n + 1) := by
        obtain ⟨bound, rfl⟩ := List.getElem?_eq_some_iff.mp here
        rw [drop_eq_getElem_cons, take_succ_cons]
      have head : ((inlinePhases r.phases).drop (k + 1)).take (n + 1) =
          q' :: ((inlinePhases r.phases).drop (k + 2)).take n := by
        obtain ⟨bound, rfl⟩ := List.getElem?_eq_some_iff.mp next
        rw [drop_eq_getElem_cons, take_succ_cons]
      refine ⟨ok, arrives, ?_⟩
      simp only [walkOn] at trace ⊢
      rw [head] at trace
      rw [split, head]
      simp [trace, markOf, crossing]

theorem walk_ok {hops : ℕ}
    (ok : (advanceWalk r sid target t hops).result (sem r ω) s = .returned (.ok ())) :
    (((advanceWalk r sid target t hops).final (sem r ω) s).trackers t).state = target := by
  induction hops generalizing s with
  | zero => simp [advanceWalk] at ok
  | succ hops ih =>
    by_cases arrived : (s.trackers t).state = target
    · have readState : sem r ω (.readState t) s = (target, s) := by simp [sem, arrived]
      rw [advanceWalk_succ]
      simp [call, readState, arrived]
    · cases current : (s.trackers t).current with
      | none =>
        have readState : sem r ω (.readState t) s = ((s.trackers t).state, s) := rfl
        have readCurrent : sem r ω (.readCurrent t) s = (none, s) := by simp [sem, current]
        rw [advanceWalk_succ] at ok
        simp [call, readState, arrived, readCurrent] at ok
      | some p =>
        obtain ⟨es, l, s', -, -, result, final⟩ :=
          advanceWalk_hop r ω sid target t hops s arrived current
        rw [result] at ok
        rw [final]
        cases l with
        | failed e | terminal => simp [walkOn] at ok
        | entered q => exact ih ok

end

section

variable {p : Phase α L}

def At (s : RunnerState α L S) (t : Ref) (target : SessionState) : Prop :=
  (s.trackers t).state = target ∨ ∃ p, (s.trackers t).current = some p ∧ target ∈ p.internalStates

theorem advanceTo_idle (active : s.sessions sid = some t) (idle : At s t target) :
    (advanceToState r sid target).result (sem r ω) s = .returned (.ok ()) ∧
      (advanceToState r sid target).final (sem r ω) s = s ∧
      hookTrace t ((advanceToState r sid target).events (sem r ω) s) = [] := by
  have lookup : sem r ω (.lookup sid) s = (some t, s) := by simp [sem, active]
  have readState : sem r ω (.readState t) s = ((s.trackers t).state, s) := rfl
  by_cases arrived : (s.trackers t).state = target
  · simp [advanceToState, call, lookup, readState, arrived, markOf]
  · obtain ⟨p, current, internal⟩ := idle.resolve_left arrived
    have readCurrent : sem r ω (.readCurrent t) s = (some p, s) := by simp [sem, current]
    simp [advanceToState, call, lookup, readState, arrived, readCurrent, internal, markOf]

theorem advanceTo_walks (active : s.sessions sid = some t) (away : ¬ At s t target) :
    (advanceToState r sid target).result (sem r ω) s =
        (advanceWalk r sid target t (r.phases.length + 1)).result (sem r ω) s ∧
      (advanceToState r sid target).final (sem r ω) s =
        (advanceWalk r sid target t (r.phases.length + 1)).final (sem r ω) s ∧
      (advanceToState r sid target).events (sem r ω) s =
        ⟨s, .lookup sid, some t⟩ :: ⟨s, .readState t, (s.trackers t).state⟩ ::
          ⟨s, .readCurrent t, (s.trackers t).current⟩ ::
          (advanceWalk r sid target t (r.phases.length + 1)).events (sem r ω) s := by
  obtain ⟨notThere, outside⟩ := not_or.mp away
  have lookup : sem r ω (.lookup sid) s = (some t, s) := by simp [sem, active]
  have readState : sem r ω (.readState t) s = ((s.trackers t).state, s) := rfl
  have readCurrent : sem r ω (.readCurrent t) s = ((s.trackers t).current, s) := rfl
  have outside' : ((s.trackers t).current.any fun p => target ∈ p.internalStates) = false := by
    cases current : (s.trackers t).current with
    | none => rfl
    | some p => simpa using fun internal => outside ⟨p, current, internal⟩
  simp [advanceToState, call, lookup, readState, notThere, readCurrent, outside']

theorem advanceTo_ok (active : s.sessions sid = some t)
    (ok : (advanceToState r sid target).result (sem r ω) s = .returned (.ok ())) :
    (((advanceToState r sid target).final (sem r ω) s).trackers t).state = target ∨
      (advanceToState r sid target).final (sem r ω) s = s ∧
        ∃ p, (s.trackers t).current = some p ∧ target ∈ p.internalStates := by
  by_cases idle : At s t target
  · obtain ⟨-, final, -⟩ := advanceTo_idle active idle
    rw [final]
    exact idle.imp_right fun internal => ⟨rfl, internal⟩
  · obtain ⟨result, final, -⟩ := advanceTo_walks active idle
    rw [final]
    exact .inl (walk_ok (result ▸ ok))

theorem rests_advanceTo (sid : String) (target : SessionState) (hr : Pipeline r)
    (rests : Rests r s) : Rests r ((advanceToState r sid target).final (sem r ω) s) :=
  rests_final hr (enters_call r (.advanceTo sid target)) rests

end

section

variable (r : SessionRunner α L S) (ω : MapOrder) (s : RunnerState α L S) (sid : String) (t : Ref)
  (target : SessionState)

/-- A target claimed by a phase not before the current one is reached along the pipeline, and a call
that returns nil leaves the session at the phase the target leads to. -/
structure Reaches : Prop where
  arrives : ∀ (k m : ℕ) (p q : Phase α L), (s.trackers t).current = some p →
    (inlinePhases r.phases)[k]? = some p → k ≤ m → (inlinePhases r.phases)[m]? = some q →
    Claims q target →
      (advanceToState r sid target).result (sem r ω) s = .returned (.ok ()) ∧
      (((advanceToState r sid target).final (sem r ω) s).trackers t).current = some q ∧
      hookTrace t ((advanceToState r sid target).events (sem r ω) s) =
        crossing (((inlinePhases r.phases).drop k).take (m - k + 1))
  owner : (advanceToState r sid target).result (sem r ω) s = .returned (.ok ()) →
    phaseForState r target = (((advanceToState r sid target).final (sem r ω) s).trackers t).current

def EnteredAhead : Prop :=
  ∀ (k m : ℕ) (p q : Phase α L), (s.trackers t).current = some p →
    (inlinePhases r.phases)[k]? = some p → k < m → (inlinePhases r.phases)[m]? = some q →
    target ∉ q.internalStates ∧ (target ∈ p.internalStates → q.entryState ≠ target)

variable {r ω s sid t target}

section

variable (hr : Pipeline r) (indexed : Indexed r) (rests : Rests r s)

include hr indexed rests

theorem enteredAhead_of_reaches (active : s.sessions sid = some t)
    (reaches : Reaches r ω s sid t target) : EnteredAhead r s t target := by
  intro k m p q current here after there
  have different : p ≠ q := by
    rintro rfl
    have := position_unique hr here there rfl
    omega
  refine ⟨fun internal => ?_, fun internal entry => ?_⟩
  · obtain ⟨ok, arrived, -⟩ := reaches.arrives k m p q current here after.le there (.inr internal)
    rcases advanceTo_ok active ok with state | ⟨final, -⟩
    · -- the session would be in the entry state of `q`, which is none of its internal states
      have entry := (rests_advanceTo sid target hr rests t q arrived).2
      exact (indexed.internal q (mem_of_getElem? there) target internal).2
        (state.symm.trans entry)
    · rw [final, current] at arrived
      exact different (Option.some.inj arrived)
  · obtain ⟨-, arrived, -⟩ := reaches.arrives k m p q current here after.le there (.inl entry.symm)
    have idle : At s t target := .inr ⟨p, current, internal⟩
    rw [(advanceTo_idle active idle).2.1, current] at arrived
    exact different (Option.some.inj arrived)

theorem phaseForState_current (ahead : EnteredAhead r s t target) {p : Phase α L}
    (current : (s.trackers t).current = some p) (internal : target ∈ p.internalStates) :
    phaseForState r target = some p := by
  have member := (rests t p current).1
  refine phaseForState_of_internal ?_ ((indexed.byInternal target p).mpr ⟨member, internal⟩)
  cases entered : r.byEntryState target with
  | none => rfl
  | some e =>
    obtain ⟨member', entry⟩ := (hr.byEntry target e).mp entered
    obtain ⟨k, here⟩ := mem_iff_getElem?.mp member
    obtain ⟨m, there⟩ := mem_iff_getElem?.mp member'
    rcases lt_trichotomy k m with after | rfl | before
    · exact absurd entry ((ahead k m p e current here after there).2 internal)
    · obtain rfl : p = e := Option.some.inj (here.symm.trans there)
      exact absurd entry.symm (indexed.internal p member target internal).2
    · obtain ⟨boundK, rfl⟩ := List.getElem?_eq_some_iff.mp here
      obtain ⟨boundM, rfl⟩ := List.getElem?_eq_some_iff.mp there
      have apart := pairwise_iff_getElem.mp indexed.apart m k boundM boundK before
      exact absurd entry.symm (apart target internal).1

theorem reaches_of_enteredAhead (cleared : Cleared s) (active : s.sessions sid = some t)
    (fine : ∀ x ∈ callEvents r ω sid s (.advanceTo target), failed x = false)
    (ahead : EnteredAhead r s t target) : Reaches r ω s sid t target := by
  refine ⟨?_, ?_⟩
  · intro k m p q current here notBefore there claims
    rcases Nat.eq_or_lt_of_le notBefore with rfl | after
    · obtain rfl : p = q := Option.some.inj (here.symm.trans there)
      have idle : At s t target := by
        rcases claims with entry | internal
        · exact .inl ((rests t p current).2.trans entry.symm)
        · exact .inr ⟨p, current, internal⟩
      obtain ⟨result, final, trace⟩ := advanceTo_idle active idle
      have alone : ((inlinePhases r.phases).drop k).take 1 = [p] := by
        rw [take_one, List.head?_drop, here]
        rfl
      rw [final, trace, Nat.sub_self, alone]
      exact ⟨result, current, rfl⟩
    · obtain ⟨notInternal, notBoth⟩ := ahead k m p q current here after there
      have entry := (claims.resolve_right notInternal).symm
      have away : ¬ At s t target := by
        rintro (state | ⟨p', current', internal⟩)
        · rw [(rests t p current).2] at state
          have := position_unique hr here there (state.trans entry.symm)
          omega
        · rw [current] at current'
          cases current'
          exact notBoth internal entry
      obtain ⟨result, final, events⟩ := advanceTo_walks active away
      have fine' : ∀ x ∈ (advanceWalk r sid target t (r.phases.length + 1)).events (sem r ω) s,
          failed x = false := by
        intro x seen
        refine fine x ?_
        simp only [callEvents, SessionCall.toCall, Call.prog]
        rw [events]
        simp [seen]
      have bound := position_lt there
      obtain ⟨ok, arrived, trace⟩ := walk_reaches hr (n := m - k) (by omega) current
        (rests t p current).2 here (by rw [← there]; congr 1; omega) entry fine'
      rw [result, final, events]
      exact ⟨ok, arrived, by simpa [markOf] using trace⟩
  · intro ok
    rcases advanceTo_ok active ok with state | ⟨final, p, current, internal⟩
    · have rests' := rests_advanceTo (ω := ω) sid target hr rests
      have cleared' := (advanceToState r sid target).final_invariant (sem r ω) cleared_sem cleared
      cases current : (((advanceToState r sid target).final (sem r ω) s).trackers t).current with
      | some c =>
        obtain ⟨member, entry⟩ := rests' t c current
        exact phaseForState_of_entry ((hr.byEntry target c).mpr ⟨member, entry.symm.trans state⟩)
      | none =>
        rw [cleared' t current] at state
        exact state ▸ phaseForState_stateNone hr indexed
    · rw [final, current]
      exact phaseForState_current hr indexed rests ahead current internal

end

/-- For every pipeline, accepted with or without lineage and cyclic or not, and every reachable
state: the call does what is expected of it exactly if the target is entered ahead. -/
theorem reaches_iff (accepted : Accepted r) (reached : Reached r ω s)
    (active : s.sessions sid = some t)
    (fine : ∀ x ∈ callEvents r ω sid s (.advanceTo target), failed x = false) :
    Reaches r ω s sid t target ↔ EnteredAhead r s t target := by
  have hr := accepted.pipeline
  have indexed := indexed_of_accepted accepted
  have rests := reached.rests hr
  constructor
  · exact enteredAhead_of_reaches hr indexed rests active
  · exact reaches_of_enteredAhead hr indexed rests reached.cleared active fine

end

def serving (r : SessionRunner Unit Unit Unit) : RunnerState Unit Unit Unit :=
  ((service r () () fun _ : Unit => [.begin "s" ""]).runSchedule (sem r .listed)
    (List.replicate 3 ())).state

theorem reached_serving (r : SessionRunner Unit Unit Unit) : Reached r .listed (serving r) :=
  ⟨Unit, inferInstance, (), (), _, _, Pool.runSchedule_run .., rfl⟩

theorem reaches_iff_auction :
    let s := serving auctionRunner
    Accepted auctionRunner ∧ Reached auctionRunner .listed s ∧ s.sessions "s" = some 0 ∧
      EnteredAhead auctionRunner s 0 "deciding" ∧ Reaches auctionRunner .listed s "s" 0 "deciding" ∧
      hookTrace 0 ((advanceToState auctionRunner "s" "deciding").events
        (sem auctionRunner .listed) s) =
          [.exit "collect", .enter "sum", .exit "sum", .enter "decide"] := by
  intro s
  have accepted : Accepted auctionRunner := .inl ⟨auctionPhases, rfl⟩
  have plain : ∀ q ∈ inlinePhases auctionRunner.phases, q.internalStates = [] := by decide
  have ahead : EnteredAhead auctionRunner s 0 "deciding" := by
    intro k m p q _ here _ there
    simp [plain q (mem_of_getElem? there), plain p (mem_of_getElem? here)]
  exact ⟨accepted, reached_serving _, rfl, ahead,
    (reaches_iff accepted (reached_serving _) rfl (by decide)).mpr ahead, by decide⟩

def countPhases : List (Phase Unit Unit) :=
  [sharePhase "deciding",
    { quorumPhase "decide" "deciding" stateNone "vote" "votes" 1 with
      internalStates := ["counting"] }]

/-- An internal state of the next phase is walked past, to the end of the pipeline; one that is both
internal to the current phase and the entry state of the next leaves the session where it is, though
it leads to the next. -/
theorem targets_missed :
    let r := runnerOf countPhases
    let s := serving r
    let s' := serving overlappingRunner
    (compose countPhases = .ok r ∧ Reached r .listed s ∧
      (phaseForState r "counting").map Phase.name = some "decide" ∧
      (∀ x ∈ callEvents r .listed "s" s (.advanceTo "counting"), failed x = false) ∧
      (advanceToState r "s" "counting").result (sem r .listed) s =
        .returned (.error (.terminalReached "s" "decide" "counting")) ∧
      ¬ Reaches r .listed s "s" 0 "counting") ∧
    compose [lockPhase, keygenPhase] = .ok overlappingRunner ∧
      Reached overlappingRunner .listed s' ∧
      (advanceToState overlappingRunner "s" "keygen").result (sem overlappingRunner .listed) s' =
        .returned (.ok ()) ∧
      ((((advanceToState overlappingRunner "s" "keygen").final
        (sem overlappingRunner .listed) s').trackers 0).current).map Phase.name = some "lock" ∧
      phaseForState overlappingRunner "keygen" = some keygenPhase ∧
      ¬ Reaches overlappingRunner .listed s' "s" 0 "keygen" := by
  intro r s s'
  have missed : (advanceToState r "s" "counting").result (sem r .listed) s =
      .returned (.error (.terminalReached "s" "decide" "counting")) := by decide
  have stays : ((((advanceToState overlappingRunner "s" "keygen").final
      (sem overlappingRunner .listed) s').trackers 0).current).map Phase.name = some "lock" := by
    decide
  have returns : (advanceToState overlappingRunner "s" "keygen").result
      (sem overlappingRunner .listed) s' = .returned (.ok ()) := by decide
  refine ⟨⟨rfl, reached_serving _, by decide, by decide, missed, fun reaches => ?_⟩,
    rfl, reached_serving _, returns, stays, rfl, fun reaches => ?_⟩
  · have ok := (reaches.arrives 0 1 _ _ rfl rfl (by decide) rfl (by decide)).1
    rw [missed] at ok
    cases ok
  · rw [← reaches.owner returns] at stays
    exact absurd stays (by decide)

section

variable (r : SessionRunner α L S) (ω : MapOrder) (s : RunnerState α L S) (sid : String) (t : Ref)
  (target : SessionState)

def Unreachable : Prop :=
  target = stateNone ∨ (∀ q ∈ inlinePhases r.phases, ¬ Claims q target) ∨
    ∃ (k : ℕ) (p : Phase α L), (s.trackers t).current = some p ∧
      (inlinePhases r.phases)[k]? = some p ∧ ∀ (m : ℕ) (q : Phase α L),
        (inlinePhases r.phases)[m]? = some q → Claims q target → m < k

structure Refuses : Prop where
  permanent : ∃ e, (advanceToState r sid target).result (sem r ω) s = .returned (.error e) ∧
    Sentinel.permanent ∈ e.classes
  silent : hookTrace t ((advanceToState r sid target).events (sem r ω) s) = []
  uncommitted : ((advanceToState r sid target).final (sem r ω) s).store = s.store
  state : (((advanceToState r sid target).final (sem r ω) s).trackers t).state =
    (s.trackers t).state
  current : (((advanceToState r sid target).final (sem r ω) s).trackers t).current =
    (s.trackers t).current

variable {r ω s sid t target}

theorem Unreachable.not_claims (hr : Pipeline r) (indexed : Indexed r)
    (unreachable : Unreachable r s t target) {p : Phase α L}
    (current : (s.trackers t).current = some p) (member : p ∈ inlinePhases r.phases) :
    ¬ Claims p target := by
  rcases unreachable with rfl | unclaimed | ⟨k, p', current', here, before⟩
  · exact not_claims_stateNone hr indexed member
  · exact unclaimed p member
  · rw [current] at current'
    cases current'
    exact fun claims => lt_irrefl k (before k p here claims)

theorem walk_exits (sid : String) (hops : ℕ) (away : (s.trackers t).state ≠ target) {p : Phase α L}
    (current : (s.trackers t).current = some p) :
    ∃ ms, hookTrace t ((advanceWalk r sid target t (hops + 1)).events (sem r ω) s) =
      .exit p.name :: ms := by
  obtain ⟨es, l, s', run, events, -⟩ := advanceWalk_hop r ω sid target t hops s away current
  rw [events]
  cases run <;> simp [markOf]

theorem not_refuses (active : s.sessions sid = some t) : ¬ Refuses r ω s sid t target := by
  intro refuses
  obtain ⟨e, error, permanent⟩ := refuses.permanent
  have away : ¬ At s t target := by
    intro idle
    rw [(advanceTo_idle active idle).1] at error
    cases error
  obtain ⟨result, -, events⟩ := advanceTo_walks active away
  have notThere := (not_or.mp away).1
  cases current : (s.trackers t).current with
  | some p =>
    obtain ⟨ms, trace⟩ := walk_exits (r := r) (ω := ω) sid r.phases.length
      notThere current
    have silent := refuses.silent
    rw [events] at silent
    simp [trace] at silent
  | none =>
    have readState : sem r ω (.readState t) s = ((s.trackers t).state, s) := rfl
    have readCurrent : sem r ω (.readCurrent t) s = (none, s) := by simp [sem, current]
    rw [result, advanceWalk_succ] at error
    simp only [call, Prog.call_bind, Prog.result_act, readState, notThere, if_false, readCurrent,
      Prog.pure_def, Prog.result_ret, Outcome.returned.injEq, Except.error.injEq] at error
    rw [← error] at permanent
    simp [RunErr.classes] at permanent

/-- A target the walk cannot come to is never refused: the walk begins all the same, with the
exit of the current phase. -/
theorem unreachable_not_refused (accepted : Accepted r) (reached : Reached r ω s)
    (active : s.sessions sid = some t) (unreachable : Unreachable r s t target) :
    ¬ Refuses r ω s sid t target ∧ ∀ p, (s.trackers t).current = some p → ∃ ms,
      hookTrace t ((advanceToState r sid target).events (sem r ω) s) = .exit p.name :: ms := by
  refine ⟨not_refuses active, fun p current => ?_⟩
  have hr := accepted.pipeline
  obtain ⟨member, state⟩ := reached.rests hr t p current
  have unclaimed := unreachable.not_claims hr (indexed_of_accepted accepted) current member
  have away : ¬ At s t target := by
    rintro (there | ⟨p', current', internal⟩)
    · exact unclaimed (.inl (there.symm.trans state))
    · rw [current] at current'
      cases current'
      exact unclaimed (.inr internal)
  obtain ⟨-, -, events⟩ := advanceTo_walks active away
  obtain ⟨ms, trace⟩ := walk_exits (r := r) (ω := ω) sid r.phases.length
    (not_or.mp away).1 current
  rw [events]
  exact ⟨ms, by simp [markOf, trace]⟩

end

theorem unreachable_not_refused_auction :
    let s := serving auctionRunner
    Accepted auctionRunner ∧ Reached auctionRunner .listed s ∧ s.sessions "s" = some 0 ∧
      Unreachable auctionRunner s 0 "settled" ∧
        ¬ Refuses auctionRunner .listed s "s" 0 "settled" := by
  intro s
  have accepted : Accepted auctionRunner := .inl ⟨auctionPhases, rfl⟩
  have unreachable : Unreachable auctionRunner s 0 "settled" := .inr (.inl (by decide))
  exact ⟨accepted, reached_serving _, rfl, unreachable,
    (unreachable_not_refused accepted (reached_serving _) rfl unreachable).1⟩

/-- A session in its first phase is asked to advance to `StateNone`: the call runs every hook of the
pipeline and leaves the session in the last phase before it returns `ErrPermanent`. -/
theorem stateNone_walks :
    let s := serving auctionRunner
    compose auctionPhases = .ok auctionRunner ∧ Reached auctionRunner .listed s ∧
      Unreachable auctionRunner s 0 stateNone ∧
      (s.trackers 0).state = "collecting" ∧
      (advanceToState auctionRunner "s" stateNone).result (sem auctionRunner .listed) s =
        .returned (.error (.terminalReached "s" "decide" stateNone)) ∧
      hookTrace 0 ((advanceToState auctionRunner "s" stateNone).events
        (sem auctionRunner .listed) s) =
          [.exit "collect", .enter "sum", .exit "sum", .enter "decide", .exit "decide"] ∧
      (((advanceToState auctionRunner "s" stateNone).final
        (sem auctionRunner .listed) s).trackers 0).state = "deciding" ∧
      ¬ Refuses auctionRunner .listed s "s" 0 stateNone := by
  intro s
  have trace : hookTrace 0 ((advanceToState auctionRunner "s" stateNone).events
      (sem auctionRunner .listed) s) =
        [.exit "collect", .enter "sum", .exit "sum", .enter "decide", .exit "decide"] := by decide
  refine ⟨rfl, reached_serving _, .inl rfl, rfl, by decide, trace, by decide, fun refuses => ?_⟩
  rw [refuses.silent] at trace
  cases trace

end AdvanceTargets
