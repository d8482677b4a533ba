import Ares.AdvanceTargets
import Ares.LineageAttribution

/-! `HandleLineageMessage` verifies a node and persists it before the message is dispatched. -/
namespace RejectedMessages

open AdvanceTargets InterleavedPrograms LineageAttribution LineageCommits LineageDispatch
  LineageNodes PhasePipelines SessionRunner SessionRunnerDiscipline List

variable {α L S : Type}

def isExit : Action α L → Bool
  | .exit .. => true
  | _ => false

/-- The call has returned an error, and no phase was left in it. -/
structure Rejected (r : SessionRunner α L S) (ω : MapOrder) (s : RunnerState α L S) (c : Inbound) :
    Prop where
  error : ∃ e, (c.prog r).result (sem r ω) s = .returned (.error e)
  stayed : ∀ x ∈ (c.prog r).events (sem r ω) s, isExit x.act = false

def delivered (r : SessionRunner α L S) (c : Inbound) (s : RunnerState α L S) : S :=
  match s.sessions c.sid with
  | none => s.store
  | some t =>
    match (s.trackers t).current with
    | none => s.store
    | some p =>
      if c.msgType ∈ p.consumedMessageTypes then
        commitArtifacts r (s.trackers t).ctx.sessionID
          (p.onMessage c.msgType c.sender c.payload (s.env r t)).artifacts s.store
      else s.store

def persisted (r : SessionRunner α L S) (lin : LineageState S) (c : Inbound) (node : DAGNode)
    (s : RunnerState α L S) : S :=
  match (lin.store.append node s.store).1 with
  | none | some .nodeExists => delivered r c (afterAppend lin node s)
  | some _ => (lin.store.append node s.store).2

section

variable {r : SessionRunner α L S} {ω : MapOrder} {s : RunnerState α L S} {c : Inbound}

theorem delivered_none (plain : r.lineage = none) : delivered r c s = s.store := by
  unfold delivered
  split
  · rfl
  · split
    · rfl
    · split_ifs
      · unfold commitArtifacts
        split
        · rfl
        · simp [plain]
      · rfl

theorem delivered_foreign (foreign : ∀ t p, s.sessions c.sid = some t →
      (s.trackers t).current = some p → c.msgType ∉ p.consumedMessageTypes) :
    delivered r c s = s.store := by
  unfold delivered
  split
  · rfl
  · rename_i t active
    split
    · rfl
    · rename_i p current
      rw [if_neg (foreign t p active current)]

theorem message_store {e : RunErr}
    (error : (handleMessage r c.sid c.msgType c.sender c.payload).result (sem r ω) s =
      .returned (.error e))
    (stayed : ∀ x ∈ (handleMessage r c.sid c.msgType c.sender c.payload).events (sem r ω) s,
      isExit x.act = false) :
    ((handleMessage r c.sid c.msgType c.sender c.payload).final (sem r ω) s).store =
      delivered r c s := by
  have run := handleMessage_run r ω c.sid c.toMessage s
  generalize handleMessage .. = f at *
  generalize f.events _ _ = es, f.result _ _ = o, f.final _ _ = s' at *
  cases run with
  | inactive inactive => simp [delivered, inactive]
  | noPhase | waiting => cases error
  | notConsumed active current foreign => simp [delivered, active, current, foreign]
  | messageFailed active current consumed _ =>
    simp [delivered, active, current, consumed, afterMessage, sem, applyHook]
  | @advancing t p active current consumed _ _ =>
    have there := (afterMessage_position r ω c.toMessage s t t p).2.trans current
    obtain ⟨x, seen, exits⟩ := advance_exits there r.phases.length
    have stays := stayed x (mem_append_right _ seen)
    rw [exits] at stays
    cases stays

theorem rejected_store (rejected : Rejected r ω s c) :
    (∃ lin node, r.lineage = some lin ∧ c.lineageNode = some node ∧
        Acceptable lin s.store c.payload node ∧
        ((c.prog r).final (sem r ω) s).store = persisted r lin c node s) ∨
      (∀ lin node, r.lineage = some lin → c.lineageNode = some node →
        ¬ Acceptable lin s.store c.payload node) ∧
        ((c.prog r).final (sem r ω) s).store = s.store := by
  obtain ⟨⟨e, error⟩, stayed⟩ := rejected
  cases lineage : r.lineage with
  | none =>
    have plain : c.prog r = handleMessage r c.sid c.msgType c.sender c.payload := by
      simp [Inbound.prog, handleLineageMessage, lineage]
    rw [plain] at error stayed ⊢
    refine .inr ⟨?_, (message_store error stayed).trans (delivered_none lineage)⟩
    intro lin node h
    cases h
  | some lin =>
    cases carried : c.lineageNode with
    | none =>
      refine .inr ⟨?_, ?_⟩
      · intro lin' node h h'
        cases h'
      · simp [Inbound.prog, handleLineageMessage, lineage, carried]
    | some node =>
      have run := handleLineageMessage_run ω c.sid c.toMessage node s lineage
      simp only [Inbound.prog, carried] at error stayed ⊢
      generalize handleLineageMessage .. = f at *
      generalize f.events _ _ = es, f.result _ _ = o, f.final _ _ = s' at *
      cases run with
      | rejected unacceptable =>
        refine .inr ⟨?_, rfl⟩
        rintro lin' node' ⟨⟩ ⟨⟩
        exact unacceptable
      | @unstored reads e' acceptable _ failed other =>
        refine .inl ⟨lin, node, rfl, rfl, acceptable, ?_⟩
        cases e' with
        | nodeExists => exact absurd rfl other
        | nodeNotFound | backend => simp [persisted, failed, afterAppend]
      | passed acceptable _ answer kind =>
        refine .inl ⟨lin, node, rfl, rfl, acceptable, ?_⟩
        have delivery := message_store error fun x seen =>
          stayed x (mem_append_right _ (mem_cons_of_mem _ seen))
        rcases kind with rfl | rfl
        · rw [persisted, answer]
          exact delivery
        · rw [persisted, answer]
          exact delivery

/-- A refused message leaves the store as its lineage node left it, so the store is the old one
exactly if that node was not acceptable or was kept already. -/
theorem rejected_leaves_iff (rejected : Rejected r ω s c) :
    (∀ lin node, r.lineage = some lin → c.lineageNode = some node →
      Acceptable lin s.store c.payload node →
        ((c.prog r).final (sem r ω) s).store = persisted r lin c node s) ∧
    (((c.prog r).final (sem r ω) s).store = s.store ↔
      ∀ lin node, r.lineage = some lin → c.lineageNode = some node →
        Acceptable lin s.store c.payload node → persisted r lin c node s = s.store) := by
  rcases rejected_store rejected with ⟨lin, node, lineage, carried, acceptable, store⟩ |
    ⟨unacceptable, store⟩
  · have only : ∀ lin' node', r.lineage = some lin' → c.lineageNode = some node' →
        lin' = lin ∧ node' = node := by
      intro lin' node' lineage' carried'
      exact ⟨Option.some.inj (lineage'.symm.trans lineage),
        Option.some.inj (carried'.symm.trans carried)⟩
    rw [store]
    refine ⟨fun lin' node' lineage' carried' _ => ?_, fun same lin' node' lineage' carried' _ => ?_,
      fun same => same lin node lineage carried acceptable⟩
    · obtain ⟨rfl, rfl⟩ := only lin' node' lineage' carried'
      rfl
    · obtain ⟨rfl, rfl⟩ := only lin' node' lineage' carried'
      exact same
  · refine ⟨fun lin node lineage carried acceptable => ?_, iff_of_true store ?_⟩
    · exact absurd acceptable (unacceptable lin node lineage carried)
    · intro lin node lineage carried acceptable
      exact absurd acceptable (unacceptable lin node lineage carried)

end

section

variable {r : SessionRunner α L InMemoryStore} {lin : LineageState InMemoryStore}
  {s : RunnerState α L InMemoryStore} {c : Inbound} {node : DAGNode}

theorem delivered_keeps (hl : r.lineage = some lin) (ho : lin.store = InMemoryStore.ops) :
    InMemoryStore.Keeps s.store (delivered r c s) := by
  unfold delivered
  split
  · exact .refl _
  · split
    · exact .refl _
    · split_ifs
      · exact (commitArtifacts_appends (Q := False) nofun hl ho nofun).keeps
      · exact .refl _

theorem persisted_eq_iff (hl : r.lineage = some lin) (ho : lin.store = InMemoryStore.ops) :
    persisted r lin c node s = s.store ↔
      (s.store.byHash node.hash).isSome ∧ delivered r c s = s.store := by
  cases stored : s.store.byHash node.hash with
  | some n =>
    have known : lin.store.append node s.store = (some .nodeExists, s.store) := by
      simp [ho, InMemoryStore.ops, InMemoryStore.append, stored]
    have same : afterAppend lin node s = s := by rw [afterAppend, known]
    simp [persisted, known, same]
  | none =>
    have fresh : (lin.store.append node s.store).1 = none := by
      simp [ho, InMemoryStore.ops, InMemoryStore.append, stored]
    simp only [persisted, fresh, Option.isSome_none, Bool.false_eq_true, false_and, iff_false]
    intro same
    have added : (afterAppend lin node s).store.byHash node.hash = some node := by
      simp [afterAppend, ho, InMemoryStore.ops, InMemoryStore.append, stored]
    have kept := delivered_keeps (c := c) hl ho node.hash node added
    rw [same, stored] at kept
    cases kept

end

def voteWith (node : DAGNode) : Inbound := ⟨⟨"vote", "alice", [42]⟩, "b", some node⟩

theorem vote_rejected (frames : List WSMessage) (node : DAGNode) (e : RunErr)
    (error : ((voteWith node).prog gateRunner).result (sem gateRunner .listed)
      (afterFrames frames).state = .returned (.error e))
    (stayed : (((voteWith node).prog gateRunner).events (sem gateRunner .listed)
      (afterFrames frames).state).all (fun x => !isExit x.act) = true) :
    Rejected gateRunner .listed (afterFrames frames).state (voteWith node) :=
  ⟨⟨e, error⟩, fun x seen => by simpa using all_eq_true.mp stayed x seen⟩

theorem reached_afterFrames (frames : List WSMessage) :
    Reached gateRunner .listed (afterFrames frames).state :=
  ⟨Unit, inferInstance, .empty, (), _, _, afterFrames_run frames, rfl⟩

theorem gateRunner_accepted : composeWith toyHash gatePhases gateOptions = .ok gateRunner := rfl

theorem rejected_leaves_iff_repeated :
    Rejected gateRunner .listed (afterFrames [signedFrame]).state
        (voteWith (signedShare "b" "collect")) ∧
      (((voteWith (signedShare "b" "collect")).prog gateRunner).final (sem gateRunner .listed)
        (afterFrames [signedFrame]).state).store = (afterFrames [signedFrame]).state.store := by
  have rejected := vote_rejected [signedFrame] (signedShare "b" "collect")
    (.doesNotConsume "collect" "vote" "collecting") (by decide +kernel) (by decide +kernel)
  have stored : ((afterFrames [signedFrame]).state.store.byHash
      (signedShare "b" "collect").hash).isSome := by decide +kernel
  have foreign : ∀ p ∈ inlinePhases gateRunner.phases, "vote" ∉ p.consumedMessageTypes := by decide
  obtain ⟨-, pipeline, signer, -, attached⟩ := composeWith_pipeline gateRunner_accepted
  refine ⟨rejected, (rejected_leaves_iff rejected).2.mpr fun lin node lineage carried _ => ?_⟩
  obtain rfl : signedShare "b" "collect" = node := Option.some.inj carried
  refine (persisted_eq_iff lineage ?_).mpr ⟨stored, delivered_foreign fun t p _ current => ?_⟩
  · rw [← Option.some.inj (attached.symm.trans lineage)]
    rfl
  · exact foreign p ((reached_afterFrames [signedFrame]).rests pipeline t p current).1

/-- A first node is kept although its message is refused for its type. -/
theorem rejected_node_kept :
    Reached gateRunner .listed (afterFrames []).state ∧
      Rejected gateRunner .listed (afterFrames []).state (voteWith (signedShare "b" "collect")) ∧
      ((voteWith (signedShare "b" "collect")).prog gateRunner).result (sem gateRunner .listed)
        (afterFrames []).state =
          .returned (.error (.doesNotConsume "collect" "vote" "collecting")) ∧
      (afterFrames []).state.store.byHash (signedShare "b" "collect").hash = none ∧
      (((voteWith (signedShare "b" "collect")).prog gateRunner).final (sem gateRunner .listed)
        (afterFrames []).state).store.byHash (signedShare "b" "collect").hash =
          some (signedShare "b" "collect") := by
  have error : ((voteWith (signedShare "b" "collect")).prog gateRunner).result
      (sem gateRunner .listed) (afterFrames []).state =
        .returned (.error (.doesNotConsume "collect" "vote" "collecting")) := by decide +kernel
  exact ⟨reached_afterFrames [], vote_rejected [] _ _ error (by decide +kernel), error,
    by decide +kernel, by decide +kernel⟩

end RejectedMessages
