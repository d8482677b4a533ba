import Ares.LineageDispatch
import Ares.LineageStoreLog

/-! Apart from the nodes that come in with messages, the store grows by the artifacts the hooks
commit and by the outputs of completed phases. -/
namespace LineageCommits

open InterleavedPrograms LineageNodes PhasePipelines SessionRunner SessionRunnerDiscipline
  LineageStoreLog List

variable {α L : Type} {r : SessionRunner α L InMemoryStore} {lin : LineageState InMemoryStore}
  {ω : MapOrder} {parents : List DAGNode}

def OwnParents (s : InMemoryStore) (n : DAGNode) : Prop :=
  ∀ p ∈ n.parents, ∃ m, s.byHash p = some m ∧ m.sessionID = n.sessionID

instance (s : InMemoryStore) (n : DAGNode) : Decidable (OwnParents s n) :=
  decidable_of_iff (∀ p ∈ n.parents, ∃ m ∈ s.byHash p, m.sessionID = n.sessionID) (by
    simp [OwnParents])

def FromDAG (r : SessionRunner α L InMemoryStore) (sid : String) :
    List Artifact → InMemoryStore → Prop
  | [], _ => True
  | a :: as, store => (∀ m ∈ a.parents, m ∈ lineageDAG r store sid) ∧
      FromDAG r sid as (commitArtifacts r sid [a] store)

instance FromDAG.decidable (r : SessionRunner α L InMemoryStore) (sid : String) :
    (artifacts : List Artifact) → (store : InMemoryStore) →
      Decidable (FromDAG r sid artifacts store)
  | [], _ => .isTrue trivial
  | a :: as, store =>
    have := FromDAG.decidable r sid as (commitArtifacts r sid [a] store)
    inferInstanceAs (Decidable (_ ∧ FromDAG r sid as (commitArtifacts r sid [a] store)))

def HooksFromDAG (r : SessionRunner α L InMemoryStore) (s : RunnerState α L InMemoryStore) :
    Action α L → Prop
  | .enter t p => FromDAG r (s.trackers t).ctx.sessionID (p.enter (s.env r t)).artifacts s.store
  | .onMessage t p msgType sender payload =>
    FromDAG r (s.trackers t).ctx.sessionID
      (p.onMessage msgType sender payload (s.env r t)).artifacts s.store
  | .exit t p => FromDAG r (s.trackers t).ctx.sessionID (p.exit (s.env r t)).artifacts s.store
  | _ => True

instance (r : SessionRunner α L InMemoryStore) (s : RunnerState α L InMemoryStore) :
    (a : Action α L) → Decidable (HooksFromDAG r s a)
  | .enter .. | .onMessage .. | .exit .. => FromDAG.decidable ..
  | .lookup .. | .create .. | .deleteSession .. | .readCurrent .. | .readState .. | .moveTo ..
  | .clearCurrent .. | .setEntered .. | .checkComplete .. | .commit .. | .storeGet ..
  | .storeAppend .. | .fireFailureHook .. => .isTrue trivial

theorem upToError_ok (l : List DAGNode) : lineageDAG.upToError (l.map .ok) = l := by
  induction l with
  | nil => rfl
  | cons n l ih => rw [map_cons, lineageDAG.upToError, ih]

theorem lineageDAG_eq (hl : r.lineage = some lin) (ho : lin.store = InMemoryStore.ops)
    (store : InMemoryStore) (sid : String) : lineageDAG r store sid = store.walk sid := by
  simp only [lineageDAG, hl, ho]
  exact upToError_ok _

theorem ownParents_commit {store : InMemoryStore} (coherent : Coherent store)
    {sha256 : Bytes → NodeRef} {sid phaseID role : String} {payload : Bytes} {signer : Signer}
    {node : DAGNode} (committed : commit sha256 sid phaseID role payload parents signer = .ok node)
    (own : ∀ m ∈ parents, m ∈ store.walk sid) : OwnParents store node := by
  intro p hp
  obtain ⟨m, hm, rfl⟩ := mem_map.mp ((commit_parents sha256 committed).subset hp)
  obtain ⟨stored, session⟩ := coherent.mem_walk.mp (own m hm)
  exact ⟨m, stored, session.trans (commit_sessionID sha256 committed).symm⟩

section

/-! Whether the parents are the session's own depends on `Q`: that the store is coherent
and the hooks keep to `LineageDAG`. That the store only grows does not. -/

variable {Q : Prop} {store : InMemoryStore} (coherent : Q → Coherent store)

include coherent

theorem commitArtifacts_appends (hl : r.lineage = some lin) (ho : lin.store = InMemoryStore.ops)
    {sid : String} {artifacts : List Artifact} (dag : Q → FromDAG r sid artifacts store) :
    InMemoryStore.Appends (fun st n => Q → OwnParents st n) store
      (commitArtifacts r sid artifacts store) := by
  induction artifacts generalizing store with
  | nil => exact .refl
  | cons a as ih =>
    simp only [FromDAG, lineageDAG_eq hl ho] at dag
    simp only [commitArtifacts, hl, ho] at dag ⊢
    cases committed : commit lin.sha256 sid a.phaseID a.role a.payload a.parents lin.signer with
    | error e =>
      simp only [committed] at dag
      exact ih coherent fun q => (dag q).2
    | ok node =>
      simp only [committed] at dag
      have own := fun q => ownParents_commit (coherent q) committed (dag q).1
      exact .head ⟨node, own, rfl⟩ (ih (fun q => (coherent q).append node) fun q => (dag q).2)

end

section

/-! Each node the runner appends is one that `commit` gave, for an artifact or for a
provided key. -/

theorem commitArtifacts_committed (hl : r.lineage = some lin) (ho : lin.store = InMemoryStore.ops)
    (sid : String) (artifacts : List Artifact) (store : InMemoryStore) :
    InMemoryStore.Appends (fun _ n => ∃ a ∈ artifacts,
        commit lin.sha256 sid a.phaseID a.role a.payload a.parents lin.signer = .ok n) store
      (commitArtifacts r sid artifacts store) := by
  induction artifacts generalizing store with
  | nil => exact .refl
  | cons a as ih =>
    have later : ∀ st, InMemoryStore.Appends (fun _ n => ∃ a' ∈ a :: as,
        commit lin.sha256 sid a'.phaseID a'.role a'.payload a'.parents lin.signer = .ok n) st
        (commitArtifacts r sid as st) :=
      fun st => (ih st).mono fun _ n ⟨a', mem, ok⟩ => ⟨a', mem_cons_of_mem _ mem, ok⟩
    simp only [commitArtifacts, hl, ho]
    cases committed : commit lin.sha256 sid a.phaseID a.role a.payload a.parents lin.signer with
    | error e => exact later store
    | ok node => exact .head ⟨node, ⟨a, mem_cons_self, committed⟩, rfl⟩ (later _)

theorem commitOutputs_committed (ho : lin.store = InMemoryStore.ops) (ctx : SessionContext α)
    (phase : String) (parents : List DAGNode) (provs : List (String × ContextKeyType))
    (store : InMemoryStore) :
    InMemoryStore.Appends (fun _ n => ∃ prov ∈ provs, prov.2.noLineage = false ∧ ∃ payload,
        commit lin.sha256 ctx.sessionID phase prov.1 payload parents lin.signer = .ok n) store
      (commitOutputs lin ctx phase parents provs store).2 := by
  induction provs generalizing store with
  | nil => exact .refl
  | cons prov provs ih =>
    have later : ∀ st, InMemoryStore.Appends (fun _ n => ∃ prov' ∈ prov :: provs,
        prov'.2.noLineage = false ∧ ∃ payload,
          commit lin.sha256 ctx.sessionID phase prov'.1 payload parents lin.signer = .ok n) st
        (commitOutputs lin ctx phase parents provs st).2 :=
      fun st => (ih st).mono fun _ n ⟨prov', mem, ok⟩ => ⟨prov', mem_cons_of_mem _ mem, ok⟩
    unfold commitOutputs
    split
    · exact later store
    rename_i lineage
    split
    · split
      · exact .refl
      · next node committed =>
        have first : ∃ prov' ∈ prov :: provs, prov'.2.noLineage = false ∧ ∃ payload,
            commit lin.sha256 ctx.sessionID phase prov'.1 payload parents lin.signer = .ok node :=
          ⟨prov, mem_cons_self, by simpa using lineage, _, committed⟩
        rw [ho]
        split <;> rename_i happ
        · exact .head ⟨node, first, congrArg Prod.snd happ⟩ (later _)
        · exact .head ⟨node, first, congrArg Prod.snd happ⟩ (later _)
        · exact .single ⟨node, first, congrArg Prod.snd happ⟩
    · exact later store

theorem commitOutputs_appends {Q : Prop} {store : InMemoryStore} (coherent : Q → Coherent store)
    (ho : lin.store = InMemoryStore.ops) {ctx : SessionContext α} {phase : String}
    {provs : List (String × ContextKeyType)}
    (own : Q → ∀ m ∈ parents, m ∈ store.walk ctx.sessionID) :
    InMemoryStore.Appends (fun st n => Q → OwnParents st n) store
      (commitOutputs lin ctx phase parents provs store).2 := by
  refine (commitOutputs_committed ho ctx phase parents provs store).strengthen
    (I := fun st => Q → Coherent st ∧ ∀ m ∈ parents, m ∈ st.walk ctx.sessionID) ?_ ?_
    fun q => ⟨coherent q, own q⟩
  · intro st node _ inv q
    obtain ⟨coh, mem⟩ := inv q
    exact ⟨coh.append node, fun m hm => (coh.walk_sublist_append node _).subset (mem m hm)⟩
  · intro st node inv committed q
    obtain ⟨_, -, -, _, ok⟩ := committed
    exact ownParents_commit (inv q).1 ok (inv q).2

end

theorem findPayload_eq (hash : NodeRef) (l : List DAGNode) :
    findPayload hash (l.map .ok) = .ok (l.find? fun n => n.payloadHash = hash) := by
  induction l with
  | nil => rfl
  | cons n l ih =>
    rw [map_cons, findPayload, List.find?_cons]
    by_cases hit : n.payloadHash = hash
    · simp [hit]
    · simp [hit, ih]

theorem resolveParents_mem (ho : lin.store = InMemoryStore.ops) {ctx : SessionContext α}
    {store : InMemoryStore} {reqs : List (String × ContextKeyType)}
    (h : resolveParents lin ctx store reqs = .ok parents) :
    ∀ m ∈ parents, m ∈ store.walk ctx.sessionID := by
  induction reqs generalizing parents with
  | nil =>
    cases h
    simp
  | cons req reqs ih =>
    unfold resolveParents at h
    split at h
    · split at h
      · cases h
      · next found hfound =>
        split at h
        · cases h
        · next rest hrest =>
          cases h
          intro m hm
          rcases mem_append.mp hm with first | later
          · rw [Option.mem_toList] at first
            rw [ho, first] at hfound
            exact mem_of_find?_eq_some (Except.ok.inj ((findPayload_eq _ _).symm.trans hfound))
          · exact ih hrest m later
    · exact ih h

def isStoreAppend : Action α L → Bool
  | .storeAppend _ => true
  | _ => false

theorem sem_appends (hl : r.lineage = some lin) (ho : lin.store = InMemoryStore.ops)
    (a : Action α L) (s : RunnerState α L InMemoryStore) :
    InMemoryStore.Appends
      (fun st n => Coherent s.store ∧ HooksFromDAG r s a ∧ isStoreAppend a = false →
        OwnParents st n) s.store (sem r ω a s).2.store := by
  cases a with
  | lookup | deleteSession | readCurrent | readState | moveTo | clearCurrent | setEntered
  | checkComplete | storeGet | fireFailureHook => exact .refl
  | create sid cohortID =>
    simp only [sem, createSession]
    split
    · exact .refl
    · split <;> exact .refl
  | enter | onMessage | exit => exact commitArtifacts_appends (fun h => h.1) hl ho fun h => h.2.1
  | commit t p =>
    simp only [sem, commitPhaseOutputsIfEnabled, hl]
    split
    · exact .refl
    · next parents resolved =>
      exact commitOutputs_appends (fun h => h.1) ho fun _ => resolveParents_mem ho resolved
  | storeAppend n =>
    simp only [sem, storeAppend, hl, ho]
    refine .single ⟨n, ?_, rfl⟩
    rintro ⟨-, -, inner⟩
    cases inner

theorem final_keeps (hl : r.lineage = some lin) (ho : lin.store = InMemoryStore.ops) {β : Type}
    (p : RunnerProg α L β) (s : RunnerState α L InMemoryStore) :
    InMemoryStore.Keeps s.store (p.final (sem r ω) s).store :=
  Prog.final_invariant (sem r ω) (I := fun s' => InMemoryStore.Keeps s.store s'.store)
    (fun a s' h => h.trans (sem_appends hl ho a s').keeps) p (.refl _)

theorem handleMessage_inner (sid msgType sender : String) (payload : Bytes) :
    (handleMessage r sid msgType sender payload).Always fun a => isStoreAppend a = false := by
  refine handleMessage_always r rfl (fun _ _ _ => rfl) fun t a h => ?_
  cases a with
  | storeAppend => exact h.elim
  | _ => rfl

end LineageCommits
