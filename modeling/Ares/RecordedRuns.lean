import Ares.RuntimeRequirements
import Ares.SessionRootedLineage

/-! Some questions about a state of the runner are about the way it was reached: which call brought
a node along, which phase provided a key last. -/
namespace RecordedRuns

open InterleavedPrograms OperationRuns LineageNodes PhasePipelines SessionRunner
  RuntimeRequirements LineageDispatch LineageAttribution SessionRootedLineage

variable {α L τ : Type} {r : SessionRunner α L InMemoryStore} {ω : MapOrder}

abbrev StoreEvent (α L : Type) := RunnerEvent α L InMemoryStore

/-- What is noted of the actions of a call, given the node the call came with, and of the clearing
of a session. -/
structure Recorder (α L τ : Type) where
  start : τ
  note : Option DAGNode → τ → StoreEvent α L → τ
  clear : String → τ → τ

def carrier : Move → Option DAGNode
  | .lineage c => c.lineageNode
  | _ => none

section

variable (r : SessionRunner α L InMemoryStore) (ω : MapOrder) (R : Recorder α L τ)

abbrev Recorded (α L τ : Type) := RunnerState α L InMemoryStore × τ

def recordedEvents (m : Move) (x : Recorded α L τ) :
    List (Event (Recorded α L τ) (Action α L) Action.Res) :=
  (m.prog r).events (Prog.recorded (sem r ω) (R.note (carrier m))) x

def recordedNext (m : Move) (x : Recorded α L τ) : Recorded α L τ :=
  match m with
  | .clear sid => ({ x.1 with store := x.1.store.clear sid }, R.clear sid x.2)
  | m => (m.prog r).final (Prog.recorded (sem r ω) (R.note (carrier m))) x

def afterMoves (app : L) (moves : List Move) : Recorded α L τ :=
  last (recordedNext r ω R) (.fresh .empty app, R.start) moves

theorem recordedNext_fst (m : Move) (x : Recorded α L τ) :
    (recordedNext r ω R m x).1 = m.next r ω x.1 := by
  cases m with
  | clear sid => rfl
  | begin | message | lineage | advanceTo | ended => exact Prog.final_recorded ..

theorem afterMoves_fst (app : L) (moves : List Move) :
    (afterMoves r ω R app moves).1 = last (Move.next r ω) (.fresh .empty app) moves := by
  have each : ∀ x : Recorded α L τ,
      (last (recordedNext r ω R) x moves).1 = last (Move.next r ω) x.1 moves := by
    induction moves with
    | nil => exact fun x => rfl
    | cons m moves ih =>
      intro x
      refine (ih (recordedNext r ω R m x)).trans ?_
      rw [recordedNext_fst]
      rfl
  exact each _

end

def actor : Action α L → Option (Phase α L)
  | .enter _ p | .onMessage _ p _ _ _ | .exit _ p | .commit _ p => some p
  | _ => none

section

def Known (r : SessionRunner α L InMemoryStore) : Place α L → Prop
  | .idle => True
  | .reading _ p | .leaving _ p | .entering _ p => p ∈ inlinePhases r.phases

theorem actor_member {x : Place α L} {a : Action α L} (allows : x.Allows r a) (known : Known r x) :
    ∀ p ∈ actor a, p ∈ inlinePhases r.phases := by
  intro p acts
  cases a with
  | enter t q | onMessage t q msgType sender payload | exit t q | commit t q =>
    cases acts
    subst allows
    exact known
  | _ => cases acts

theorem known_after (hr : Pipeline r) {x : Place α L} {a : Action α L}
    {s : RunnerState α L InMemoryStore} (allows : x.Allows r a) (known : Known r x)
    (on : OnPipeline r s) : Known r (x.after a (sem r ω a s).1) := by
  cases a with
  | readCurrent t =>
    cases current : (s.trackers t).current with
    | none => simp [sem, Place.after, current, Known]
    | some p => simpa [sem, Place.after, current, Known] using on t p current
  | create sid cohortID =>
    simp only [sem, createSession]
    split
    · trivial
    · split
      · trivial
      · rename_i first found
        exact ((hr.byEntry _ _).mp found).1
  | exit t p =>
    obtain rfl : x = .reading t p := allows
    simp only [Place.after]
    split_ifs
    · exact known
    · trivial
  | moveTo t state q => exact ((hr.byEntry _ _).mp allows.1).1
  | _ => exact known

theorem move_keeps (m : Move) : Keeps r (m.prog r) := by
  cases m with
  | begin sid cohortID => exact (beginSession_keeps r sid cohortID).bind fun _ _ => trivial
  | message sid m =>
    exact (handleMessage_keeps r sid m.msgType m.sender m.payload).bind fun _ _ => trivial
  | lineage c =>
    refine (handleLineageMessage_obeys ?_ (handleMessage_keeps r c.sid _ _ _) _).bind
      fun _ _ => trivial
    intro x a step
    cases a <;> trivial
  | advanceTo sid target => exact (advanceToState_keeps r sid target).bind fun _ _ => trivial
  | ended sid => exact fun _ => ⟨trivial, fun _ => trivial⟩
  | clear sid => exact fun _ => trivial

end

section

variable {R : Recorder α L τ} {I : Recorded α L τ → Prop} (hr : Pipeline r)
  (step : ∀ (c : Option DAGNode) (a : Action α L) (x : Recorded α L τ),
    (∀ p ∈ actor a, p ∈ inlinePhases r.phases) → I x →
      I (Prog.recorded (sem r ω) (R.note c) a x).2)

include hr step

theorem move_invariant (m : Move) {x : Recorded α L τ} (on : OnPipeline r x.1) (hx : I x) :
    (OnPipeline r ((m.prog r).final (Prog.recorded (sem r ω) (R.note (carrier m))) x).1 ∧
      I ((m.prog r).final (Prog.recorded (sem r ω) (R.note (carrier m))) x)) ∧
    ∀ d ∈ recordedEvents r ω R m x, (∀ p ∈ actor d.act, p ∈ inlinePhases r.phases) ∧ I d.pre := by
  have keeps : Keeps r (m.prog r) := move_keeps m
  have asserted := (keeps .idle).asserted (Prog.recorded (sem r ω) (R.note (carrier m)))
    (I := fun y x => Known r y ∧ OnPipeline r x.1 ∧ I x) ?_ ⟨trivial, on, hx⟩
  · obtain ⟨⟨-, -, ends⟩, events⟩ := asserted
    refine ⟨ends, fun d mem => ?_⟩
    obtain ⟨y, allows, known, -, here⟩ := events d mem
    exact ⟨actor_member allows known, here⟩
  · rintro y a x allows ⟨known, on, hx⟩
    refine ⟨known_after hr allows known on, ?_, step _ a x (actor_member allows known) hx⟩
    refine onPipeline_sem ω hr a x.1 ?_ on
    rintro t state p rfl
    exact ((hr.byEntry _ _).mp allows.1).1

theorem recorded_invariant (clear : ∀ sid x, I x → I (recordedNext r ω R (.clear sid) x)) {app : L}
    (start : I (.fresh .empty app, R.start)) (moves : List Move) (m : Move) :
    ∀ d ∈ recordedEvents r ω R m (afterMoves r ω R app moves),
      (∀ p ∈ actor d.act, p ∈ inlinePhases r.phases) ∧ I d.pre := by
  have each : ∀ x : Recorded α L τ, OnPipeline r x.1 → I x →
      OnPipeline r (last (recordedNext r ω R) x moves).1 ∧
        I (last (recordedNext r ω R) x moves) := by
    induction moves with
    | nil => exact fun x on hx => ⟨on, hx⟩
    | cons m moves ih =>
      intro x on hx
      have next : OnPipeline r (recordedNext r ω R m x).1 ∧ I (recordedNext r ω R m x) := by
        cases m with
        | clear sid => exact ⟨on, clear sid x hx⟩
        | begin | message | lineage | advanceTo | ended => exact (move_invariant hr step _ on hx).1
      exact ih _ next.1 next.2
  obtain ⟨on, hx⟩ := each _ (onPipeline_fresh r .empty app) start
  exact (move_invariant hr step m on hx).2

end

def headHash (b : Bytes) : NodeRef :=
  Vector.ofFn fun i =>
    if i.val = 0 then .ofNat (b.foldl (fun acc x => acc * 31 + x.toNat) 0) else 0

end RecordedRuns
