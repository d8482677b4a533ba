import Ares.LineageAttribution

/-! A stored node should have its parents stored before it in its own session. -/
namespace SessionRootedLineage

open InterleavedPrograms OperationRuns LineageNodes PhasePipelines SessionRunner
  SessionRunnerDiscipline LineageDispatch LineageStoreLog LineageCommits LineageAttribution List

def SessionRooted (s : InMemoryStore) : Prop :=
  ∀ h n, s.byHash h = some n → ∀ p ∈ n.parents, ∃ m, s.byHash p = some m ∧
    m.sessionID = n.sessionID ∧ [m, n].Sublist (s.walk n.sessionID)

theorem rooted_empty : SessionRooted .empty := by
  intro h n stored
  cases stored

section

variable {s : InMemoryStore} (coherent : Coherent s)

include coherent

theorem rooted_append {node : DAGNode} (rooted : SessionRooted s)
    (own : s.byHash node.hash = none → OwnParents s node) : SessionRooted (s.append node).2 := by
  have keeps := InMemoryStore.keeps_append node s
  cases found : s.byHash node.hash with
  | some n => simpa only [InMemoryStore.append, found] using rooted
  | none =>
    intro h n stored p hp
    rcases (byHash_append found h n).mp stored with old | ⟨rfl, rfl⟩
    · obtain ⟨m, hm, session, order⟩ := rooted h n old p hp
      exact ⟨m, keeps p m hm, session, order.trans (coherent.walk_sublist_append node _)⟩
    · obtain ⟨m, hm, session⟩ := own found p hp
      refine ⟨m, keeps p m hm, session, ?_⟩
      rw [coherent.walk_append_own found]
      have listed : m ∈ s.walk n.sessionID := by
        rw [coherent.mem_walk, coherent.hash p m hm]
        exact ⟨hm, session⟩
      exact (singleton_sublist.mpr listed).append (Sublist.refl [n])

theorem rooted_clear (rooted : SessionRooted s) (id : String) : SessionRooted (s.clear id) := by
  intro h n stored p hp
  obtain ⟨old, other⟩ := (coherent.byHash_clear id h n).mp stored
  obtain ⟨m, hm, session, order⟩ := rooted h n old p hp
  refine ⟨m, (coherent.byHash_clear id p m).mpr ⟨hm, session ▸ other⟩, session, ?_⟩
  rwa [coherent.walk_clear_other other]

end

section

variable {α L : Type}

/-- The calls of a runner, and the clearing of a session by the application. -/
inductive Move where
  | begin (sid cohortID : String)
  | message (sid : String) (m : Message)
  | lineage (c : Inbound)
  | advanceTo (sid : String) (target : SessionState)
  | ended (sid : String)
  | clear (sid : String)

variable (r : SessionRunner α L InMemoryStore) (ω : MapOrder)

def Move.prog : Move → RunnerProg α L Unit
  | .begin sid cohortID => do
    let _ ← beginSession sid cohortID
  | .message sid m => do
    let _ ← handleMessage r sid m.msgType m.sender m.payload
  | .lineage c => do
    let _ ← c.prog r
  | .advanceTo sid target => do
    let _ ← advanceToState r sid target
  | .ended sid => do
    let _ ← endSession sid
  | .clear _ => return ()

def Move.next (m : Move) (s : RunnerState α L InMemoryStore) : RunnerState α L InMemoryStore :=
  match m with
  | .clear sid => { s with store := s.store.clear sid }
  | m => (m.prog r).final (sem r ω) s

def MoveFromDAG (s : RunnerState α L InMemoryStore) (m : Move) : Prop :=
  ∀ d ∈ (m.prog r).events (sem r ω) s, HooksFromDAG r d.pre d.act

instance (s : RunnerState α L InMemoryStore) (m : Move) : Decidable (MoveFromDAG r ω s m) :=
  inferInstanceAs (Decidable (∀ d ∈ (m.prog r).events (sem r ω) s, HooksFromDAG r d.pre d.act))

def KeepsSession (lin : LineageState InMemoryStore) (s : RunnerState α L InMemoryStore) :
    Move → Prop
  | .lineage c => ∀ node ∈ c.lineageNode, Acceptable lin s.store c.payload node →
      s.store.byHash node.hash = none → OwnParents s.store node
  | _ => True

variable {r ω} {lin : LineageState InMemoryStore}

section

variable (hl : r.lineage = some lin) (ho : lin.store = InMemoryStore.ops)
  {s : RunnerState α L InMemoryStore}

include hl ho

theorem rooted_inner {β : Type} {p : RunnerProg α L β}
    (inner : p.Always fun a => isStoreAppend a = false)
    (dag : ∀ d ∈ p.events (sem r ω) s, HooksFromDAG r d.pre d.act)
    (coherent : Coherent s.store) (rooted : SessionRooted s.store) :
    SessionRooted (p.final (sem r ω) s).store := by
  refine (Prog.final_of_events (sem r ω) (I := fun s => Coherent s.store ∧ SessionRooted s.store)
    (φ := fun s a => HooksFromDAG r s a ∧ isStoreAppend a = false) ?_ p
    (fun d hd => ⟨dag d hd, inner.events (sem r ω) s d hd⟩) ⟨coherent, rooted⟩).2
  intro a s step sound
  refine (sem_appends hl ho a s).invariant
    (I := fun st => Coherent st ∧ SessionRooted st) ?_ sound
  intro st node own sound'
  exact ⟨sound'.1.append node,
    rooted_append sound'.1 sound'.2 fun _ => own ⟨sound.1, step.1, step.2⟩⟩

theorem rooted_lineage (c : Inbound) {node : DAGNode} (hn : c.lineageNode = some node)
    (coherent : Coherent s.store) (rooted : SessionRooted s.store)
    (dag : ∀ d ∈ (c.prog r).events (sem r ω) s, HooksFromDAG r d.pre d.act) :
    SessionRooted ((c.prog r).final (sem r ω) s).store ↔
      (Acceptable lin s.store c.payload node → s.store.byHash node.hash = none →
        OwnParents s.store node) := by
  have hrun := handleLineageMessage_run ω c.sid c.toMessage node s hl
  simp only [Inbound.prog, hn] at dag ⊢
  generalize handleLineageMessage .. = f at *
  generalize f.events _ _ = es, f.result _ _ = o, f.final _ _ = s' at *
  cases hrun with
  | rejected hnot => exact iff_of_true rooted fun h => (hnot h).elim
  | unstored _ _ happ hne =>
    rw [ho] at happ
    simp only [InMemoryStore.ops, InMemoryStore.append] at happ
    split at happ <;> cases happ
    exact (hne rfl).elim
  | passed hacc _ happ _ =>
    have stored : (afterAppend lin node s).store = (s.store.append node).2 := by
      simp only [afterAppend, ho, InMemoryStore.ops]
    constructor
    · intro rooted' _ fresh p hp
      have kept := final_keeps (ω := ω) hl ho
        (handleMessage r c.sid c.msgType c.sender c.payload) (afterAppend lin node s)
      have own : (s.store.append node).2.byHash node.hash = some node := by
        rw [InMemoryStore.append_byHash, fresh]
        rfl
      obtain ⟨m, hm⟩ := hacc.parents p hp
      rw [ho] at hm
      have before := get_ok_iff.mp hm
      have after := kept p m (stored ▸ InMemoryStore.keeps_append node s.store p m before)
      obtain ⟨m', hm', session, -⟩ := rooted' _ node (kept _ node (stored ▸ own)) p hp
      rw [after] at hm'
      cases hm'
      exact ⟨m, before, session⟩
    · intro own
      apply rooted_inner hl ho (handleMessage_inner _ _ _ _)
      · intro d hd
        exact dag d (mem_append_right _ (mem_cons_of_mem _ hd))
      · rw [stored]
        exact coherent.append node
      · rw [stored]
        exact rooted_append coherent rooted (own hacc)

end

theorem inner_prog {m : Move} (h : ∀ c, m ≠ .lineage c) :
    (m.prog r).Always fun a => isStoreAppend a = false := by
  cases m with
  | begin sid cohortID =>
    refine ((beginSession_steps sid cohortID).mono fun a h => ?_).bind fun _ => trivial
    cases a with
    | storeAppend => exact h.elim
    | _ => rfl
  | message sid m => exact (handleMessage_inner _ _ _ _).bind fun _ => trivial
  | lineage c => exact absurd rfl (h c)
  | advanceTo sid target =>
    have inner : (advanceToState r sid target).Always fun a => isStoreAppend a = false := by
      refine advanceToState_always r target rfl fun t a h => ?_
      cases a with
      | storeAppend => exact h.elim
      | _ => rfl
    exact inner.bind fun _ => trivial
  | ended sid => exact ⟨rfl, fun _ => trivial⟩
  | clear sid => trivial

section

variable (hl : r.lineage = some lin) (ho : lin.store = InMemoryStore.ops)

include hl ho

theorem coherent_next (s : RunnerState α L InMemoryStore) (m : Move)
    (coherent : Coherent s.store) : Coherent (m.next r ω s).store := by
  cases m with
  | clear sid => exact coherent.clear sid
  | _ =>
    exact Prog.final_invariant (sem r ω)
      (fun a s h => (sem_appends hl ho a s).invariant (fun _ n _ c => c.append n) h) _ coherent

theorem rooted_next (s : RunnerState α L InMemoryStore) (m : Move) (coherent : Coherent s.store)
    (rooted : SessionRooted s.store) (dag : MoveFromDAG r ω s m) :
    SessionRooted (m.next r ω s).store ↔ KeepsSession lin s m := by
  cases m with
  | clear sid => exact iff_of_true (rooted_clear coherent rooted sid) trivial
  | lineage c =>
    have hevents : ∀ d ∈ (c.prog r).events (sem r ω) s, HooksFromDAG r d.pre d.act := by
      simpa [MoveFromDAG, Move.prog, Prog.events_bind] using dag
    have hfinal : (Move.lineage c).next r ω s = (c.prog r).final (sem r ω) s := by
      simp [Move.next, Move.prog, Prog.final_bind]
    rw [hfinal]
    cases hn : c.lineageNode with
    | none =>
      refine iff_of_true ?_ (by simp [KeepsSession, hn])
      simpa [Inbound.prog, handleLineageMessage, hl, hn] using rooted
    | some node =>
      rw [rooted_lineage hl ho c hn coherent rooted hevents]
      simp [KeepsSession, hn]
  | begin | message | advanceTo | ended =>
    refine iff_of_true (rooted_inner hl ho (inner_prog ?_) dag coherent rooted) trivial
    rintro c ⟨⟩

end

end

/-- Over every run from an empty store whose hooks keep to `LineageDAG`: the store stays rooted
exactly as long as no accepted node names a parent of another session. -/
theorem session_rooted_iff {α L : Type} {sha256 : Bytes → NodeRef} {phases : List (Phase α L)}
    {o : ComposeOptions InMemoryStore} {r : SessionRunner α L InMemoryStore}
    (hr : composeWith sha256 phases o = .ok r) (ho : o.store = InMemoryStore.ops) (ω : MapOrder)
    (app : L) (moves : List Move)
    (dag : AllSteps (Move.next r ω) (MoveFromDAG r ω) (.fresh .empty app) moves) :
    ∃ lin, r.lineage = some lin ∧ lin.sha256 = sha256 ∧
      ((∀ s ∈ visited (Move.next r ω) (.fresh .empty app) moves, SessionRooted s.store) ↔
        AllSteps (Move.next r ω) (KeepsSession lin) (.fresh .empty app) moves) := by
  obtain ⟨-, -, signer, -, hl⟩ := composeWith_pipeline hr
  refine ⟨_, hl, rfl, ?_⟩
  exact forall_visited_iff
    (fun s m coherent _ => coherent_next hl ho s m coherent) (rooted_next hl ho)
    coherent_empty rooted_empty dag

def foldRunner : SessionRunner Unit Unit InMemoryStore :=
  (composeWith foldHash gatePhases gateOptions).toOption.get (by decide)

theorem foldRunner_composed : composeWith foldHash gatePhases gateOptions = .ok foldRunner := rfl

def shareOver (sid : String) (parents : List DAGNode) : DAGNode :=
  (commit foldHash sid "collect" "share" [42] parents toySigner).toOption.get rfl

def sendShare (sid : String) (node : DAGNode) : Move :=
  .lineage ⟨⟨"share", "alice", [42]⟩, sid, some node⟩

def sharing (moves : List Move) : List Move :=
  .begin "a" "" :: .begin "b" "" :: sendShare "a" (shareOver "a" []) :: moves

theorem session_rooted_iff_own :
    let moves := sharing [sendShare "b" (shareOver "b" []),
      sendShare "b" (shareOver "b" [shareOver "b" []]), .clear "a"]
    AllSteps (Move.next foldRunner .listed) (MoveFromDAG foldRunner .listed) (.fresh .empty ())
        moves ∧
      ∀ s ∈ visited (Move.next foldRunner .listed) (.fresh .empty ()) moves,
        SessionRooted s.store := by
  intro moves
  have dag : AllSteps (Move.next foldRunner .listed) (MoveFromDAG foldRunner .listed)
      (.fresh .empty ()) moves := by decide +kernel
  obtain ⟨lin, -, -, hiff⟩ := session_rooted_iff foldRunner_composed rfl .listed () moves dag
  refine ⟨dag, hiff.mpr ⟨trivial, trivial, ?_, ?_, ?_, trivial, trivial⟩⟩
  · rintro _ ⟨⟩ _ _
    decide +kernel
  · rintro _ ⟨⟩ _ _
    decide +kernel
  · rintro _ ⟨⟩ _ _
    decide +kernel

/-- A share of session `b` over one of session `a` is taken. When `a` is cleared, its parent
is gone. -/
theorem foreign_parent_cleared :
    let child := shareOver "b" [shareOver "a" []]
    let moves := sharing [sendShare "b" child]
    let s := last (Move.next foldRunner .listed) (.fresh .empty ()) moves
    composeWith foldHash gatePhases gateOptions = .ok foldRunner ∧
      AllSteps (Move.next foldRunner .listed) (MoveFromDAG foldRunner .listed)
        (.fresh .empty ()) moves ∧
      child.parents = [(shareOver "a" []).hash] ∧
      ¬ SessionRooted s.store ∧
      (s.store.clear "a").byHash child.hash = some child ∧
      (s.store.clear "a").byHash (shareOver "a" []).hash = none := by
  intro child moves s
  have hparents : child.parents = [(shareOver "a" []).hash] := by decide +kernel
  refine ⟨rfl, by decide +kernel, hparents, ?_, by decide +kernel, by decide +kernel⟩
  intro rooted
  have stored : s.store.byHash child.hash = some child := by decide +kernel
  have parent : s.store.byHash (shareOver "a" []).hash = some (shareOver "a" []) := by
    decide +kernel
  obtain ⟨m, hm, session, -⟩ := rooted _ child stored _ (hparents ▸ mem_singleton_self _)
  rw [parent] at hm
  cases hm
  revert session
  decide +kernel

end SessionRootedLineage
