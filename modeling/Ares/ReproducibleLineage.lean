import Ares.CommittedNodes
import Ares.SessionRootedLineage

/-! The outputs of a phase are committed in the order Go happens to iterate its `Provides`, and the
parents of a later phase are the first nodes of the session's walk with the payloads it requires. -/
namespace ReproducibleLineage

open ByteStrings CommittedNodes InterleavedPrograms OperationRuns LineageNodes PhasePipelines
    SessionRunner
  LineageDispatch LineageStoreLog LineageCommits SessionRootedLineage List Function

def firstWith (s : InMemoryStore) (id : String) (payloadHash : NodeRef) : Option DAGNode :=
  (s.walk id).find? fun n => n.payloadHash = payloadHash

structure Alike (s s' : InMemoryStore) : Prop where
  left : Coherent s
  right : Coherent s'
  byHash : s.byHash = s'.byHash
  first : ∀ id h, firstWith s id h = firstWith s' id h

variable {s s' : InMemoryStore}

theorem Alike.refl (coherent : Coherent s) : Alike s s :=
  ⟨coherent, coherent, rfl, fun _ _ => rfl⟩

theorem Alike.trans {s s' s'' : InMemoryStore} (h : Alike s s') (k : Alike s' s'') : Alike s s'' :=
  ⟨h.left, k.right, h.byHash.trans k.byHash, fun id ref => (h.first id ref).trans (k.first id ref)⟩

theorem Alike.walk_perm (h : Alike s s') (id : String) : (s.walk id).Perm (s'.walk id) := by
  rw [perm_ext_iff_of_nodup (h.left.walk_nodup id) (h.right.walk_nodup id)]
  intro n
  rw [h.left.mem_walk, h.right.mem_walk, h.byHash]

def fresh (s : InMemoryStore) (n : DAGNode) (id : String) (h : NodeRef) : Option DAGNode :=
  if s.byHash n.hash = none ∧ n.sessionID = id ∧ n.payloadHash = h then some n else none

theorem firstWith_append (coherent : Coherent s) (n : DAGNode) (id : String)
    (h : NodeRef) : firstWith (s.append n).2 id h = (firstWith s id h).or (fresh s n id h) := by
  cases found : s.byHash n.hash with
  | some m => simp [InMemoryStore.append, found, fresh]
  | none =>
    by_cases session : n.sessionID = id
    · subst session
      rw [firstWith, coherent.walk_append_own found, List.find?_append, firstWith]
      simp [fresh, found]
    · rw [firstWith, InMemoryStore.walk_append_other coherent.indexed n (Ne.symm session)]
      simp [fresh, session, firstWith]

theorem Alike.append (h : Alike s s') (n : DAGNode) :
    (s.append n).1 = (s'.append n).1 ∧ Alike (s.append n).2 (s'.append n).2 := by
  have same : (s.append n).1 = (s'.append n).1 ∧
      (s.append n).2.byHash = (s'.append n).2.byHash := by
    unfold InMemoryStore.append
    rw [← h.byHash]
    cases s.byHash n.hash with
    | some m => exact ⟨rfl, h.byHash⟩
    | none => exact ⟨rfl, by simp only [h.byHash]⟩
  refine ⟨same.1, h.left.append n, h.right.append n, same.2, ?_⟩
  intro id ref
  rw [firstWith_append h.left, firstWith_append h.right, h.first, fresh, fresh, h.byHash]

theorem Alike.clear (h : Alike s s') (id : String) : Alike (s.clear id) (s'.clear id) := by
  refine ⟨h.left.clear id, h.right.clear id, ?_, ?_⟩
  · ext n
    rw [h.left.byHash_clear, h.right.byHash_clear, h.byHash]
  · intro id' ref
    by_cases same : id' = id
    · subst same
      rw [firstWith, firstWith, walk_clear_own, walk_clear_own]
    · rw [firstWith, firstWith, h.left.walk_clear_other same, h.right.walk_clear_other same]
      exact h.first ..

def Apart (a b : DAGNode) : Prop := a.hash ≠ b.hash ∧ a.payloadHash ≠ b.payloadHash

instance (a b : DAGNode) : Decidable (Apart a b) := inferInstanceAs (Decidable (_ ∧ _))

theorem Apart.symm {a b : DAGNode} (h : Apart a b) : Apart b a := ⟨h.1.symm, h.2.symm⟩

def appendAll (nodes : List DAGNode) (s : InMemoryStore) : InMemoryStore :=
  nodes.foldl (fun s n => (s.append n).2) s

theorem byHash_append_of_ne {n : DAGNode} {h : NodeRef} (ne : h ≠ n.hash) :
    (s.append n).2.byHash h = s.byHash h := by
  unfold InMemoryStore.append
  split
  · rfl
  · exact update_of_ne ne _ _

theorem byHash_append_comm {a b : DAGNode} (ne : a.hash ≠ b.hash) (s : InMemoryStore) :
    ((s.append a).2.append b).2.byHash = ((s.append b).2.append a).2.byHash := by
  funext h
  by_cases own : h = a.hash
  · rw [own, byHash_append_of_ne ne, InMemoryStore.append_byHash, InMemoryStore.append_byHash,
      byHash_append_of_ne ne]
  · rw [byHash_append_of_ne own]
    by_cases other : h = b.hash
    · rw [other, InMemoryStore.append_byHash, InMemoryStore.append_byHash,
        byHash_append_of_ne ne.symm]
    · rw [byHash_append_of_ne other, byHash_append_of_ne other, byHash_append_of_ne own]

theorem append_swap (coherent : Coherent s) {a b : DAGNode}
    (apart : Apart a b) : Alike ((s.append a).2.append b).2 ((s.append b).2.append a).2 := by
  refine ⟨(coherent.append a).append b, (coherent.append b).append a,
    byHash_append_comm apart.1 s, ?_⟩
  intro id h
  rw [firstWith_append (coherent.append a), firstWith_append coherent,
    firstWith_append (coherent.append b), firstWith_append coherent, Option.or_assoc,
    Option.or_assoc]
  simp only [fresh, byHash_append_of_ne apart.1, byHash_append_of_ne apart.1.symm]
  -- At most one of the two has the payload that is looked for.
  by_cases hit : a.payloadHash = h
  · have miss : b.payloadHash ≠ h := fun eq => apart.2 (hit.trans eq.symm)
    simp [miss]
  · simp [hit]

theorem Alike.appendAll (h : Alike s s') (nodes : List DAGNode) :
    Alike (appendAll nodes s) (appendAll nodes s') := by
  induction nodes generalizing s s' with
  | nil => exact h
  | cons n nodes ih => exact ih (h.append n).2

theorem appendAll_perm {nodes nodes' : List DAGNode} (perm : nodes.Perm nodes')
    (apart : nodes.Pairwise Apart) (coherent : Coherent s) :
    Alike (appendAll nodes s) (appendAll nodes' s) := by
  induction perm generalizing s with
  | nil => exact .refl coherent
  | cons n _ ih =>
    rw [pairwise_cons] at apart
    exact ih apart.2 (coherent.append n)
  | swap a b nodes =>
    rw [pairwise_cons] at apart
    exact (append_swap coherent (apart.1 a (by simp))).appendAll nodes
  | trans first _ ih ih' =>
    exact (ih apart coherent).trans (ih' ((first.pairwise_iff Apart.symm).mp apart) coherent)

variable {α L : Type} {lin : LineageState InMemoryStore} {s s' : RunnerState α L InMemoryStore}

section

def parentOf (lin : LineageState InMemoryStore) (ctx : SessionContext α) (s : InMemoryStore)
    (req : String × ContextKeyType) : Option DAGNode :=
  match ctx.values req.1 with
  | some (.bytes payload) => firstWith s ctx.sessionID (hashPayload lin.sha256 payload)
  | _ => none

def outputOf (lin : LineageState InMemoryStore) (ctx : SessionContext α) (phase : String)
    (parents : List DAGNode) (prov : String × ContextKeyType) : Option (Except String DAGNode) :=
  if prov.2.noLineage then none
  else match ctx.values prov.1 with
  | some (.bytes payload) =>
    some (LineageNodes.commit lin.sha256 ctx.sessionID phase prov.1 payload parents lin.signer)
  | _ => none

variable {ctx : SessionContext α} {phase : String} {l : List (Except String DAGNode)}

theorem resolveParents_eq (ho : lin.store = InMemoryStore.ops) (s : InMemoryStore)
    (reqs : List (String × ContextKeyType)) :
    resolveParents lin ctx s reqs = .ok (reqs.filterMap (parentOf lin ctx s)) := by
  induction reqs with
  | nil => rfl
  | cons req reqs ih =>
    obtain ⟨key, kt⟩ := req
    have found : ∀ hash, findPayload hash (lin.store.walkSession ctx.sessionID s) =
        .ok (firstWith s ctx.sessionID hash) := by
      intro hash
      rw [ho]
      exact findPayload_eq _ _
    rw [resolveParents, filterMap_cons, ih]
    rcases value : ctx.values key with _ | (payload | m | a)
    · simp [parentOf, value]
    · simp only [found, parentOf, value]
      cases firstWith s ctx.sessionID (hashPayload lin.sha256 payload) <;> rfl
    · simp [parentOf, value]
    · simp [parentOf, value]

theorem commitOutputs_eq (ho : lin.store = InMemoryStore.ops) {parents : List DAGNode}
    {provs : List (String × ContextKeyType)} {nodes : List DAGNode}
    (signed : provs.filterMap (outputOf lin ctx phase parents) = nodes.map .ok)
    (s : InMemoryStore) :
    commitOutputs lin ctx phase parents provs s = (none, appendAll nodes s) := by
  induction provs generalizing nodes s with
  | nil =>
    rw [filterMap_nil, eq_comm, map_eq_nil_iff] at signed
    rw [signed]
    rfl
  | cons prov provs ih =>
    obtain ⟨key, kt⟩ := prov
    unfold commitOutputs
    rw [filterMap_cons] at signed
    by_cases skip : kt.noLineage
    · simp only [outputOf, skip] at signed ⊢
      exact ih signed s
    · rcases value : ctx.values key with _ | (payload | m | a)
      · simp only [outputOf, skip, value] at signed ⊢
        exact ih signed s
      · simp only [outputOf, skip, value] at signed ⊢
        obtain ⟨node, rest, rfl, committed, signed⟩ := map_eq_cons_iff.mp signed.symm
        rw [← committed, ho]
        dsimp only [InMemoryStore.ops]
        cases stored : s.byHash node.hash with
        | none =>
          have accepted : s.append node = (none, (s.append node).2) := by
            simp [InMemoryStore.append, stored]
          rw [accepted]
          exact ih signed.symm _
        | some n =>
          have refused : s.append node = (some .nodeExists, (s.append node).2) := by
            simp [InMemoryStore.append, stored]
          rw [refused]
          exact ih signed.symm _
      · simp only [outputOf, skip, value] at signed ⊢
        exact ih signed s
      · simp only [outputOf, skip, value] at signed ⊢
        exact ih signed s

section

variable {parents parents' : List DAGNode} (perm : parents.Perm parents')
  (walk : ∀ m ∈ parents, ∀ n ∈ parents, m.hash = n.hash → m = n)

include perm walk

theorem sortParents_congr :
    sortParents (parents.map DAGNode.hash) (parents.map DAGNode.role) =
      sortParents (parents'.map DAGNode.hash) (parents'.map DAGNode.role) := by
  have same : (parents.map fun n => (n.hash, n.role)).mergeSort
        (fun a b => decide (a.1.bytes ≤ b.1.bytes)) =
      (parents'.map fun n => (n.hash, n.role)).mergeSort
        (fun a b => decide (a.1.bytes ≤ b.1.bytes)) := by
    apply List.Perm.eq_of_pairwise _ (pairwise_sortOn _ _) (pairwise_sortOn _ _)
    · exact ((List.mergeSort_perm ..).trans (perm.map _)).trans (List.mergeSort_perm ..).symm
    · intro a b ha hb hab hba
      obtain ⟨m, hm, rfl⟩ := List.mem_map.mp (List.mem_mergeSort.mp ha)
      obtain ⟨n, hn, rfl⟩ := List.mem_map.mp (List.mem_mergeSort.mp hb)
      have hash := Vector.toList_inj.mp (List.le_antisymm hab hba)
      rw [walk m hm n (perm.mem_iff.mpr hn) hash]
  simp only [sortParents, zipRoles_nodes, same]

theorem outputOf_congr : outputOf lin ctx phase parents = outputOf lin ctx phase parents' := by
  funext prov
  simp only [outputOf, LineageNodes.commit, sortParents_congr perm walk]

end

theorem parentOf_congr {s s' : InMemoryStore} (alike : Alike s s') :
    parentOf lin ctx s = parentOf lin ctx s' := by
  funext req
  simp only [parentOf, alike.first]

theorem parentOf_mem {s : InMemoryStore} {req : String × ContextKeyType} {n : DAGNode}
    (found : parentOf lin ctx s req = some n) : n ∈ s.walk ctx.sessionID := by
  unfold parentOf at found
  split at found
  · exact mem_of_find?_eq_some found
  · cases found

theorem parents_determined {s : InMemoryStore} (coherent : Coherent s)
    (reqs : List (String × ContextKeyType)) :
    ∀ m ∈ reqs.filterMap (parentOf lin ctx s), ∀ n ∈ reqs.filterMap (parentOf lin ctx s),
      m.hash = n.hash → m = n := by
  intro m hm n hn same
  obtain ⟨_, _, found⟩ := mem_filterMap.mp hm
  obtain ⟨_, _, found'⟩ := mem_filterMap.mp hn
  have left := (coherent.mem_walk.mp (parentOf_mem found)).1
  have right := (coherent.mem_walk.mp (parentOf_mem found')).1
  rw [same, right] at left
  exact (Option.some.inj left).symm

theorem filterMap_map_ok (nodes : List DAGNode) :
    (nodes.map (Except.ok : DAGNode → Except String DAGNode)).filterMap Except.toOption =
      nodes := by
  rw [filterMap_map]
  exact filterMap_some

theorem map_ok_filterMap (signed : ∀ x ∈ l, x.isOk = true) :
    l = (l.filterMap Except.toOption).map .ok := by
  induction l with
  | nil => rfl
  | cons x l ih =>
    have rest := ih fun y mem => signed y (mem_cons_of_mem _ mem)
    cases x with
    | error e => cases signed _ mem_cons_self
    | ok n =>
      have head : (Except.ok n :: l).filterMap Except.toOption =
          n :: l.filterMap Except.toOption := rfl
      rw [head, map_cons, ← rest]

theorem exists_perm_of_map_ok {nodes : List DAGNode} (perm : l.Perm (nodes.map .ok)) :
    ∃ nodes' : List DAGNode, nodes'.Perm nodes ∧ l = nodes'.map .ok := by
  refine ⟨l.filterMap Except.toOption, ?_, map_ok_filterMap ?_⟩
  · have erased := perm.filterMap Except.toOption
    rwa [filterMap_map_ok] at erased
  · intro x mem
    obtain ⟨n, -, rfl⟩ := mem_map.mp (perm.mem_iff.mp mem)
    rfl

end

section

structure Twins (s s' : RunnerState α L InMemoryStore) : Prop where
  sessions : s.sessions = s'.sessions
  trackers : s.trackers = s'.trackers
  nextRef : s.nextRef = s'.nextRef
  app : s.app = s'.app
  store : Alike s.store s'.store

def Blind {β : Type} (hook : HookEnv α L → β) (e : HookEnv α L) : Prop :=
  ∀ dag, dag.Perm e.dag → hook { e with dag := dag } = hook e

def outputs (lin : LineageState InMemoryStore) (s : RunnerState α L InMemoryStore) (t : Ref)
    (p : Phase α L) : List (Except String DAGNode) :=
  let ctx := (s.trackers t).ctx
  p.provides.entries.filterMap (outputOf lin ctx p.name
    (p.requires.entries.filterMap (parentOf lin ctx s.store)))

def OutputsApart (lin : LineageState InMemoryStore) (s : RunnerState α L InMemoryStore) (t : Ref)
    (p : Phase α L) : Prop :=
  ∃ nodes : List DAGNode, outputs lin s t p = nodes.map .ok ∧ nodes.Pairwise Apart

theorem outputsApart_iff {s : RunnerState α L InMemoryStore}
    {t : Ref} {p : Phase α L} : OutputsApart lin s t p ↔ (∀ x ∈ outputs lin s t p, x.isOk = true) ∧
        ((outputs lin s t p).filterMap Except.toOption).Pairwise Apart := by
  constructor
  · rintro ⟨nodes, signed, apart⟩
    rw [signed, filterMap_map_ok]
    refine ⟨?_, apart⟩
    intro x mem
    obtain ⟨n, -, rfl⟩ := mem_map.mp mem
    rfl
  · rintro ⟨signed, apart⟩
    exact ⟨_, map_ok_filterMap signed, apart⟩

instance (lin : LineageState InMemoryStore) (s : RunnerState α L InMemoryStore) (t : Ref)
    (p : Phase α L) : Decidable (OutputsApart lin s t p) :=
  decidable_of_iff _ outputsApart_iff.symm

def Steady (r : SessionRunner α L InMemoryStore) (s : RunnerState α L InMemoryStore) :
    Action α L → Prop
  | .enter t p => Blind p.enter (s.env r t)
  | .onMessage t p msgType sender payload => Blind (p.onMessage msgType sender payload) (s.env r t)
  | .checkComplete t p => Blind p.checkComplete (s.env r t)
  | .exit t p => Blind p.exit (s.env r t)
  | .commit t p => ∀ lin, r.lineage = some lin → OutputsApart lin s t p
  | _ => True

theorem Twins.updateTracker (twins : Twins s s') (t : Ref)
    (f : SessionTracker α L → SessionTracker α L) :
    Twins (s.updateTracker t f) (s'.updateTracker t f) := by
  refine ⟨twins.sessions, ?_, twins.nextRef, twins.app, twins.store⟩
  simp only [RunnerState.updateTracker, twins.trackers]

theorem createSession_twins (twins : Twins s s')
    (r : SessionRunner α L InMemoryStore) (sid cohortID : String) :
    (createSession r sid cohortID s).1 = (createSession r sid cohortID s').1 ∧
      Twins (createSession r sid cohortID s).2 (createSession r sid cohortID s').2 := by
  unfold createSession
  rw [← twins.sessions]
  cases s.sessions sid with
  | some t => exact ⟨rfl, twins⟩
  | none =>
    cases r.byEntryState r.initialState with
    | none => exact ⟨rfl, twins⟩
    | some first =>
      rw [← twins.nextRef]
      exact ⟨rfl, rfl, by rw [twins.trackers], rfl, twins.app, twins.store⟩

variable {r : SessionRunner α L InMemoryStore} (hl : r.lineage = some lin)
  (ho : lin.store = InMemoryStore.ops)

include hl ho

theorem blind_twins {β : Type} {hook : HookEnv α L → β}
    (twins : Twins s s') (t : Ref) (blind : Blind hook (s.env r t)) :
    hook (s'.env r t) = hook (s.env r t) := by
  have perm : (lineageDAG r s'.store (s'.trackers t).ctx.sessionID).Perm (s.env r t).dag := by
    rw [RunnerState.env, lineageDAG_eq hl ho, lineageDAG_eq hl ho, ← twins.trackers]
    exact (twins.store.walk_perm _).symm
  rw [← blind _ perm, RunnerState.env, RunnerState.env, twins.trackers, twins.app]

theorem commitArtifacts_alike {s s' : InMemoryStore} (alike : Alike s s') (sid : String)
    (artifacts : List Artifact) :
    Alike (commitArtifacts r sid artifacts s) (commitArtifacts r sid artifacts s') := by
  induction artifacts generalizing s s' with
  | nil => exact alike
  | cons a as ih =>
    simp only [commitArtifacts, hl, ho]
    split
    · exact ih alike
    · exact ih (alike.append _).2

section

variable {s s' : RunnerState α L InMemoryStore} (twins : Twins s s') (t : Ref)

include twins t

theorem applyHook_twins {hook : HookEnv α L → HookOut α L} (blind : Blind hook (s.env r t)) :
    (applyHook r t hook s).1 = (applyHook r t hook s').1 ∧
      Twins (applyHook r t hook s).2 (applyHook r t hook s').2 := by
  have same := blind_twins hl ho twins t blind
  simp only [applyHook, same]
  refine ⟨trivial, twins.sessions, ?_, twins.nextRef, rfl, ?_⟩
  · simp only [RunnerState.updateTracker, twins.trackers]
  · rw [← twins.trackers]
    exact commitArtifacts_alike hl ho twins.store _ _

theorem commit_any_order (p : Phase α L) {nodes : List DAGNode}
    (signed : outputs lin s t p = nodes.map .ok) (ω : MapOrder) :
    ∃ nodes' : List DAGNode, nodes'.Perm nodes ∧
      commitPhaseOutputsIfEnabled r ω p t s' = (none, { s' with
        store := appendAll nodes' s'.store
        iterations := s'.iterations + 2 }) := by
  have ctx : (s'.trackers t).ctx = (s.trackers t).ctx := by rw [twins.trackers]
  have parents : ((ω.order s'.iterations p.requires.entries).filterMap
      (parentOf lin (s'.trackers t).ctx s'.store)).Perm
        (p.requires.entries.filterMap (parentOf lin (s.trackers t).ctx s.store)) := by
    rw [ctx, ← parentOf_congr twins.store]
    exact (ω.perm _ _).filterMap _
  have outs : ((ω.order (s'.iterations + 1) p.provides.entries).filterMap
      (outputOf lin (s'.trackers t).ctx p.name ((ω.order s'.iterations
        p.requires.entries).filterMap (parentOf lin (s'.trackers t).ctx s'.store)))).Perm
      (nodes.map .ok) := by
    rw [← signed, outputs, outputOf_congr parents (parents_determined twins.store.right _), ctx]
    exact (ω.perm _ _).filterMap _
  obtain ⟨nodes', perm, eq⟩ := exists_perm_of_map_ok outs
  refine ⟨nodes', perm, ?_⟩
  simp only [commitPhaseOutputsIfEnabled, hl, resolveParents_eq ho, commitOutputs_eq ho eq]

theorem commit_twins (p : Phase α L) (apart : OutputsApart lin s t p) (ω ω' : MapOrder) :
    (commitPhaseOutputsIfEnabled r ω p t s).1 = (commitPhaseOutputsIfEnabled r ω' p t s').1 ∧
      Twins (commitPhaseOutputsIfEnabled r ω p t s).2
        (commitPhaseOutputsIfEnabled r ω' p t s').2 := by
  obtain ⟨nodes, signed, apart⟩ := apart
  have own : Twins s s := ⟨rfl, rfl, rfl, rfl, .refl twins.store.left⟩
  obtain ⟨left, perm, eq⟩ := commit_any_order hl ho own t p signed ω
  obtain ⟨right, perm', eq'⟩ := commit_any_order hl ho twins t p signed ω'
  rw [eq, eq']
  refine ⟨rfl, twins.sessions, twins.trackers, twins.nextRef, twins.app, ?_⟩
  have swapped := appendAll_perm (perm.trans perm'.symm) ((perm.pairwise_iff Apart.symm).mpr apart)
      twins.store.left
  exact swapped.trans (twins.store.appendAll right)

end

theorem sem_twins (ω ω' : MapOrder) (a : Action α L) (s s' : RunnerState α L InMemoryStore)
    (twins : Twins s s') (steady : Steady r s a) :
    (sem r ω a s).1 = (sem r ω' a s').1 ∧ Twins (sem r ω a s).2 (sem r ω' a s').2 := by
  cases a with
  | enter t p => exact applyHook_twins hl ho twins t steady
  | onMessage t p msgType sender payload => exact applyHook_twins hl ho twins t steady
  | exit t p => exact applyHook_twins hl ho twins t steady
  | checkComplete t p => exact ⟨(blind_twins hl ho twins t steady).symm, twins⟩
  | commit t p => exact commit_twins hl ho twins t p (steady lin hl) ω ω'
  | storeGet h =>
    refine ⟨?_, twins⟩
    simp only [sem, storeGet, hl, ho, InMemoryStore.ops, InMemoryStore.get, twins.store.byHash]
  | storeAppend n =>
    have appended := twins.store.append n
    simp only [sem, storeAppend, hl, ho]
    exact ⟨appended.1, twins.sessions, twins.trackers, twins.nextRef, twins.app, appended.2⟩
  | lookup sid => exact ⟨congrFun twins.sessions sid, twins⟩
  | create sid cohortID => exact createSession_twins twins r sid cohortID
  | deleteSession sid =>
    refine ⟨rfl, ?_, twins.trackers, twins.nextRef, twins.app, twins.store⟩
    simp only [sem, twins.sessions]
  | readCurrent t => exact ⟨congrArg (fun trackers => (trackers t).current) twins.trackers, twins⟩
  | readState t => exact ⟨congrArg (fun trackers => (trackers t).state) twins.trackers, twins⟩
  | moveTo t state p =>
    have next := twins.updateTracker t fun tr =>
      { tr with state := state, current := some p, entered := false }
    exact ⟨rfl, next⟩
  | clearCurrent t =>
    have next := twins.updateTracker t fun tr => { tr with state := stateNone, current := none }
    exact ⟨rfl, next⟩
  | setEntered t =>
    have next := twins.updateTracker t fun tr => { tr with entered := true }
    exact ⟨rfl, next⟩
  | fireFailureHook ev => exact ⟨rfl, twins⟩

end

section

def added (sid : String) (pre post : InMemoryStore) : List DAGNode :=
  (post.walk sid).filter fun n => (pre.byHash n.hash).isNone

variable (r : SessionRunner α L InMemoryStore) (ω : MapOrder)

def committedBy (d : Event (RunnerState α L InMemoryStore) (Action α L) Action.Res) :
    List DAGNode :=
  match d.act with
  | .commit t p => added (d.pre.trackers t).ctx.sessionID d.pre.store
      (commitPhaseOutputsIfEnabled r ω p t d.pre).2.store
  | _ => []

def autoCommits : RunnerState α L InMemoryStore → List Move → List DAGNode
  | _, [] => []
  | s, m :: moves =>
    ((m.prog r).events (sem r ω) s).flatMap (committedBy r ω) ++
      autoCommits (m.next r ω s) moves

def autoCommitted (s : RunnerState α L InMemoryStore) (moves : List Move) :
    Set (String × String × NodeRef × List NodeRef) :=
  {x | ∃ n ∈ autoCommits r ω s moves, x = (n.phaseID, n.role, n.hash, n.parents)}

def MoveSteady (s : RunnerState α L InMemoryStore) (m : Move) : Prop :=
  ∀ d ∈ (m.prog r).events (sem r ω) s, Steady r d.pre d.act

variable {r} {ω} {ω' : MapOrder} (hl : r.lineage = some lin) (ho : lin.store = InMemoryStore.ops)

include hl ho

theorem mem_committedBy {d d' : Event (RunnerState α L InMemoryStore) (Action α L) Action.Res}
    (act : d.act = d'.act) (steady : Steady r d.pre d.act) (twins : Twins d.pre d'.pre)
    {n : DAGNode} : n ∈ committedBy r ω d ↔ n ∈ committedBy r ω' d' := by
  unfold committedBy
  rw [← act]
  cases performed : d.act with
  | commit t p =>
    rw [performed] at steady
    have posts := (commit_twins hl ho twins t p (steady lin hl) ω ω').2
    rw [twins.trackers]
    simp only [added, mem_filter, (posts.store.walk_perm _).mem_iff, twins.store.byHash]
  | _ => rfl

theorem mem_commits {l l' : List (Event (RunnerState α L InMemoryStore) (Action α L) Action.Res)}
    (events : List.Forall₂ (fun d d' => d.act = d'.act ∧ Steady r d.pre d.act ∧
      Twins d.pre d'.pre) l l') (n : DAGNode) :
    n ∈ l.flatMap (committedBy r ω) ↔ n ∈ l'.flatMap (committedBy r ω') := by
  induction events with
  | nil => rfl
  | cons pair _ ih =>
    rw [flatMap_cons, flatMap_cons, mem_append, mem_append, ih,
      mem_committedBy hl ho pair.1 pair.2.1 pair.2.2]

theorem move_twins (twins : Twins s s') (m : Move)
    (steady : MoveSteady r ω s m) : Twins (m.next r ω s) (m.next r ω' s') ∧
      ∀ n, n ∈ ((m.prog r).events (sem r ω) s).flatMap (committedBy r ω) ↔
        n ∈ ((m.prog r).events (sem r ω') s').flatMap (committedBy r ω') := by
  obtain ⟨final, events⟩ := Prog.simulation (sem r ω) (sem_twins hl ho ω ω') (m.prog r) twins
    steady
  constructor
  · cases m with
    | clear sid =>
      exact ⟨twins.sessions, twins.trackers, twins.nextRef, twins.app, twins.store.clear sid⟩
    | begin | message | lineage | advanceTo | ended => exact final
  · exact mem_commits hl ho events

theorem mem_autoCommits (twins : Twins s s')
    {moves : List Move} (steady : AllSteps (Move.next r ω) (MoveSteady r ω) s moves)
    (n : DAGNode) : n ∈ autoCommits r ω s moves ↔ n ∈ autoCommits r ω' s' moves := by
  induction moves generalizing s s' with
  | nil => rfl
  | cons m moves ih =>
    obtain ⟨next, same⟩ := move_twins hl ho twins m steady.1
    rw [autoCommits, autoCommits, mem_append, mem_append, same, ih next steady.2]

end

/-- A run whose phases commit outputs apart from each other, with hooks that do not look at the
order of `LineageDAG`, commits the same nodes whatever the orders of its maps. -/
theorem auto_commits_reproducible {α L : Type} {sha256 : Bytes → NodeRef}
    {phases : List (Phase α L)} {o : ComposeOptions InMemoryStore}
    {r : SessionRunner α L InMemoryStore} (hr : composeWith sha256 phases o = .ok r)
    (ho : o.store = InMemoryStore.ops) (ω ω' : MapOrder) {store : InMemoryStore}
    (coherent : Coherent store) (app : L) (moves : List Move)
    (steady : AllSteps (Move.next r ω) (MoveSteady r ω) (.fresh store app) moves) :
    autoCommitted r ω (.fresh store app) moves = autoCommitted r ω' (.fresh store app) moves := by
  obtain ⟨-, -, signer, -, hl⟩ := composeWith_pipeline hr
  have twins : Twins (.fresh store app : RunnerState α L InMemoryStore) (.fresh store app) :=
    ⟨rfl, rfl, rfl, rfl, .refl coherent⟩
  ext x
  exact exists_congr fun n => and_congr_left' (mem_autoCommits hl ho twins steady n)

def backwards : MapOrder := ⟨fun _ l => l.reverse, fun _ l => l.reverse_perm⟩

def bytesKey : ContextKeyType := ⟨"[]byte", true, .empty, false⟩

def splitPhase (copy : Bytes → Bytes) : Phase Unit Unit :=
  { quorumPhase "split" "splitting" "joining" "share" "shares" 1 with
    provides := ⟨[("left", bytesKey), ("right", bytesKey)], by decide⟩
    onMessage := fun _ _ payload e =>
      { e.unchanged with
        values := update (update e.ctx.values "left" (some (.bytes payload)))
          "right" (some (.bytes (copy payload))) }
    checkComplete := fun _ => true }

def joinPhase : Phase Unit Unit :=
  { quorumPhase "join" "joining" stateNone "done" "dones" 1 with
    requires := ⟨[("left", bytesKey)], by decide⟩
    provides := ⟨[("sum", bytesKey)], by decide⟩
    onMessage := fun _ _ payload e =>
      { e.unchanged with values := update e.ctx.values "sum" (some (.bytes payload)) }
    checkComplete := fun _ => true }

def splitRunner (copy : Bytes → Bytes) : SessionRunner Unit Unit InMemoryStore :=
  (composeWith foldHash [splitPhase copy, joinPhase] gateOptions).toOption.get rfl

def splitMoves : List Move :=
  [.begin "a" "", .message "a" ⟨"share", "alice", [42]⟩, .message "a" ⟨"done", "alice", [7]⟩]

theorem splitRunner_composed (copy : Bytes → Bytes) :
    composeWith foldHash [splitPhase copy, joinPhase] gateOptions = .ok (splitRunner copy) := rfl

theorem auto_commits_reproducible_split :
    AllSteps (Move.next (splitRunner (1 :: ·)) .listed) (MoveSteady (splitRunner (1 :: ·)) .listed)
        (.fresh .empty ()) (splitMoves.take 2) ∧
      (autoCommits (splitRunner (1 :: ·)) .listed (.fresh .empty ()) (splitMoves.take 2)).map
        DAGNode.role = ["left", "right"] ∧
      autoCommitted (splitRunner (1 :: ·)) .listed (.fresh .empty ()) (splitMoves.take 2) =
        autoCommitted (splitRunner (1 :: ·)) backwards (.fresh .empty ()) (splitMoves.take 2) := by
  have steady : AllSteps (Move.next (splitRunner (1 :: ·)) .listed)
      (MoveSteady (splitRunner (1 :: ·)) .listed) (.fresh .empty ()) (splitMoves.take 2) := by
    refine ⟨?_, ?_, trivial⟩
    · refine forall_mem_cons.mpr ⟨trivial, ?_⟩
      refine forall_mem_cons.mpr ⟨fun _ _ => rfl, ?_⟩
      exact forall_mem_cons.mpr ⟨trivial, forall_mem_nil _⟩
    · refine forall_mem_cons.mpr ⟨trivial, ?_⟩
      refine forall_mem_cons.mpr ⟨trivial, ?_⟩
      refine forall_mem_cons.mpr ⟨fun _ _ => rfl, ?_⟩
      refine forall_mem_cons.mpr ⟨fun _ _ => rfl, ?_⟩
      refine forall_mem_cons.mpr ⟨trivial, ?_⟩
      refine forall_mem_cons.mpr ⟨fun _ _ => rfl, ?_⟩
      refine Prog.forall_events_of_answer none (by decide +kernel) ?_ ?_
      · rintro lin ⟨⟩
        decide +kernel
      refine forall_mem_cons.mpr ⟨trivial, ?_⟩
      refine forall_mem_cons.mpr ⟨fun _ _ => rfl, ?_⟩
      exact forall_mem_cons.mpr ⟨trivial, forall_mem_nil _⟩
  refine ⟨steady, by decide +kernel, ?_⟩
  exact auto_commits_reproducible (splitRunner_composed _) rfl .listed backwards coherent_empty ()
    (splitMoves.take 2) steady

/-- Two keys with one payload: which of the two nodes the next phase gets as its parent is the one
that happened to be committed first. No hook of the pipeline looks at the lineage. -/
theorem equal_outputs_disagree :
    composeWith foldHash [splitPhase id, joinPhase] gateOptions = .ok (splitRunner id) ∧
      (∀ p ∈ [splitPhase id, joinPhase], ∀ e msgType sender payload, Blind p.enter e ∧
        Blind (p.onMessage msgType sender payload) e ∧ Blind p.checkComplete e ∧
          Blind p.exit e) ∧ autoCommitted (splitRunner id) .listed (.fresh .empty ()) splitMoves ≠
        autoCommitted (splitRunner id) backwards (.fresh .empty ()) splitMoves := by
  refine ⟨rfl, ?_, ?_⟩
  · intro p mem e msgType sender payload
    simp only [mem_cons, not_mem_nil, or_false] at mem
    rcases mem with rfl | rfl
    · exact ⟨fun _ _ => rfl, fun _ _ => rfl, fun _ _ => rfl, fun _ _ => rfl⟩
    · exact ⟨fun _ _ => rfl, fun _ _ => rfl, fun _ _ => rfl, fun _ _ => rfl⟩
  · intro same
    have left : ∃ n ∈ autoCommits (splitRunner id) .listed (.fresh .empty ()) splitMoves,
        n.role = "sum" ∧ ∃ m ∈ autoCommits (splitRunner id) .listed (.fresh .empty ()) splitMoves,
          m.role = "left" ∧ n.parents = [m.hash] := by
      decide +kernel
    have right : ∀ n ∈ autoCommits (splitRunner id) backwards (.fresh .empty ()) splitMoves,
        n.role = "sum" → ∀ m ∈ autoCommits (splitRunner id) .listed (.fresh .empty ()) splitMoves,
          m.role = "left" → n.parents ≠ [m.hash] := by
      decide +kernel
    obtain ⟨n, committed, sum, m, parent, isLeft, child⟩ := left
    have here : (n.phaseID, n.role, n.hash, n.parents) ∈
        autoCommitted (splitRunner id) .listed (.fresh .empty ()) splitMoves :=
      ⟨n, committed, rfl⟩
    rw [same] at here
    obtain ⟨n', committed', eq⟩ := here
    simp only [Prod.mk.injEq] at eq
    exact right n' committed' (eq.2.1 ▸ sum) m parent isLeft (eq.2.2.2 ▸ child)

end ReproducibleLineage
