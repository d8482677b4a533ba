import Ares.SessionRootedLineage

/-! The documentation of the store has the runner clear a session's nodes on `EndSession`. -/
namespace SessionReuse

open InterleavedPrograms OperationRuns LineageNodes PhasePipelines SessionRunner
  SessionRunnerDiscipline LineageDispatch LineageStoreLog LineageCommits LineageAttribution
  SessionRootedLineage List

section

variable {α L : Type} (r : SessionRunner α L InMemoryStore) (ω : MapOrder)

def broughtIn (sid : String) (s : RunnerState α L InMemoryStore) (m : Move) : List DAGNode :=
  ((m.next r ω s).store.walk sid).filter fun n => n ∉ s.store.walk sid

def committedSince (sid : String) : RunnerState α L InMemoryStore → List Move → List DAGNode
  | _, [] => []
  | s, m :: moves => broughtIn r ω sid s m ++ committedSince sid (m.next r ω s) moves

/-- A history up to an `EndSession` of the identifier, and the calls from there to the next
`BeginSession` of it. -/
structure Reuse where
  sid : String
  history : List Move
  between : List Move
  cohortID : String

namespace Reuse

variable (u : Reuse) (app : L)

def atEnd : RunnerState α L InMemoryStore := last (Move.next r ω) (.fresh .empty app) u.history

def afterEnd : RunnerState α L InMemoryStore := (Move.ended u.sid).next r ω (u.atEnd r ω app)

def atBegin : RunnerState α L InMemoryStore := last (Move.next r ω) (u.afterEnd r ω app) u.between

/-- The session under the identifier that is used again inherits nothing. -/
structure Clean : Prop where
  emptied : (u.afterEnd r ω app).store.walk u.sid = []
  own : ∀ later : List Move,
    ∀ n ∈ (last (Move.next r ω) (u.atBegin r ω app)
        (.begin u.sid u.cohortID :: later)).store.walk u.sid,
      n ∈ committedSince r ω u.sid (u.atBegin r ω app) (.begin u.sid u.cohortID :: later)

end Reuse

variable {r ω}

theorem mem_walk_last {sid : String} {n : DAGNode} (s : RunnerState α L InMemoryStore)
    (moves : List Move) (listed : n ∈ (last (Move.next r ω) s moves).store.walk sid) :
    n ∈ s.store.walk sid ∨ n ∈ committedSince r ω sid s moves := by
  induction moves generalizing s with
  | nil => exact .inl listed
  | cons m moves ih =>
    rcases ih (m.next r ω s) listed with here | later
    · by_cases before : n ∈ s.store.walk sid
      · exact .inl before
      · apply Or.inr
        apply mem_append_left
        exact mem_filter.mpr ⟨here, by simpa using before⟩
    · exact .inr (mem_append_right _ later)

variable {lin : LineageState InMemoryStore} (hl : r.lineage = some lin)
  (ho : lin.store = InMemoryStore.ops)

include hl ho

section

variable {s : RunnerState α L InMemoryStore} (coherent : Coherent s.store)

include coherent

theorem coherent_last (moves : List Move) : Coherent (last (Move.next r ω) s moves).store := by
  induction moves generalizing s with
  | nil => exact coherent
  | cons m moves ih => exact ih (coherent_next hl ho s m coherent)

theorem walk_begin (sid cohortID : String) {n : DAGNode} (listed : n ∈ s.store.walk sid) :
    n ∈ ((Move.begin sid cohortID).next r ω s).store.walk sid := by
  obtain ⟨stored, session⟩ := coherent.mem_walk.mp listed
  rw [(coherent_next hl ho s (.begin sid cohortID) coherent).mem_walk]
  exact ⟨final_keeps hl ho _ s n.hash n stored, session⟩

theorem inherits {sid cohortID : String}
    (own : ∀ n ∈ ((Move.begin sid cohortID).next r ω s).store.walk sid,
      n ∈ committedSince r ω sid s [.begin sid cohortID]) : s.store.walk sid = [] := by
  apply eq_nil_iff_forall_not_mem.mpr
  intro n listed
  have new := own n (walk_begin hl ho coherent sid cohortID listed)
  simp only [committedSince, broughtIn] at new
  simp [listed] at new

end

end

/-- Over every history, the calls that follow it and whatever comes later: the identifier inherits
nothing exactly when the store holds nothing under it at the `EndSession` and again at the
`BeginSession`. -/
theorem reuse_clean_iff {α L : Type} {sha256 : Bytes → NodeRef} {phases : List (Phase α L)}
    {o : ComposeOptions InMemoryStore} {r : SessionRunner α L InMemoryStore}
    (hr : composeWith sha256 phases o = .ok r) (ho : o.store = InMemoryStore.ops) (ω : MapOrder)
    (app : L) (u : Reuse) :
    u.Clean r ω app ↔ (u.atEnd r ω app).store.walk u.sid = [] ∧
      (u.atBegin r ω app).store.walk u.sid = [] := by
  obtain ⟨-, -, signer, -, hl⟩ := composeWith_pipeline hr
  have atEnd : Coherent (u.atEnd r ω app).store := coherent_last hl ho coherent_empty u.history
  have afterEnd : Coherent (u.afterEnd r ω app).store := by
    exact atEnd
  have atBegin : Coherent (u.atBegin r ω app).store := coherent_last hl ho afterEnd u.between
  constructor
  · intro clean
    exact ⟨clean.emptied, inherits hl ho atBegin (clean.own [])⟩
  · rintro ⟨ending, beginning⟩
    refine ⟨ending, ?_⟩
    intro later n listed
    rcases mem_walk_last _ _ listed with before | since
    · rw [beginning] at before
      cases before
    · exact since

theorem reuse_clean_iff_unused :
    let u : Reuse := ⟨"a", [.begin "a" "", .begin "b" "", sendShare "b" (shareOver "b" [])], [], ""⟩
    composeWith foldHash gatePhases gateOptions = .ok foldRunner ∧
      u.Clean foldRunner .listed () := by
  intro u
  exact ⟨rfl, (reuse_clean_iff foldRunner_composed rfl .listed () u).mpr
    ⟨by decide +kernel, by decide +kernel⟩⟩

/-- The share of the first session is in the lineage of the second one from its start. -/
theorem share_inherited :
    let share := shareOver "a" []
    let u : Reuse := ⟨"a", [.begin "a" "", sendShare "a" share], [], ""⟩
    let again : Move := .begin "a" ""
    let s := u.atBegin foldRunner .listed ()
    composeWith foldHash gatePhases gateOptions = .ok foldRunner ∧
      (u.afterEnd foldRunner .listed ()).store.walk "a" = [share] ∧
      (again.next foldRunner .listed s).store.walk "a" = [share] ∧
      committedSince foldRunner .listed "a" s [again] = [] ∧ ¬ u.Clean foldRunner .listed () := by
  intro share u again s
  have kept : (u.afterEnd foldRunner .listed ()).store.walk "a" = [share] := by decide +kernel
  refine ⟨rfl, kept, by decide +kernel, by decide +kernel, ?_⟩
  intro clean
  cases kept.symm.trans clean.emptied

end SessionReuse
