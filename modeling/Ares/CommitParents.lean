import Ares.RecordedRuns
import Ares.ReproducibleLineage

/-! When a phase is left, its outputs are committed over the nodes of the keys it requires. -/
namespace CommitParents

open InterleavedPrograms OperationRuns LineageNodes PhasePipelines SessionRunner LineageStoreLog
  LineageCommits SessionRootedLineage RecordedRuns CommittedNodes ReproducibleLineage List

variable {α L : Type}

section

def inputOf (ctx : SessionContext α) (req : String × ContextKeyType) : Option (String × Bytes) :=
  match ctx.values req.1 with
  | some (.bytes payload) => some (req.1, payload)
  | _ => none

def inputs (ctx : SessionContext α) (p : Phase α L) : List (String × Bytes) :=
  p.requires.entries.filterMap (inputOf ctx)

def Labelled (provider : String → Option String) (key : String) (n : DAGNode) : Prop :=
  n.role = key ∧ provider key = some n.phaseID

instance (provider : String → Option String) (key : String) (n : DAGNode) :
    Decidable (Labelled provider key n) := inferInstanceAs (Decidable (_ ∧ _))

variable (sha256 : Bytes → NodeRef) (provider : String → Option String)

def requiredNodes (walk : List DAGNode) (keys : List String) : List DAGNode :=
  walk.filter fun n => ∃ key ∈ keys, Labelled provider key n

def AllCommitted (walk : List DAGNode) (ins : List (String × Bytes)) : Prop :=
  ∀ x ∈ ins, ∃ n ∈ walk, Labelled provider x.1 n ∧ n.payloadHash = hashPayload sha256 x.2

def FirstAndOnly (walk : List DAGNode) (x : String × Bytes) : Prop :=
  ∃ before n after, walk = before ++ n :: after ∧ Labelled provider x.1 n ∧
    n.payloadHash = hashPayload sha256 x.2 ∧
    (∀ m ∈ before, m.payloadHash ≠ hashPayload sha256 x.2) ∧
    ∀ m ∈ before ++ after, ¬ Labelled provider x.1 m

/-- The bytes of each required key have such a node, and the other required keys have none. -/
structure Unmistakable (walk : List DAGNode) (keys : List String) (ins : List (String × Bytes)) :
    Prop where
  inputs : ∀ x ∈ ins, FirstAndOnly sha256 provider walk x
  others : ∀ key ∈ keys, key ∉ ins.map Prod.fst → ∀ n ∈ walk, ¬ Labelled provider key n

def found (walk : List DAGNode) (x : String × Bytes) : Option DAGNode :=
  walk.find? fun n => n.payloadHash = hashPayload sha256 x.2

instance (walk : List DAGNode) (ins : List (String × Bytes)) :
    Decidable (AllCommitted sha256 provider walk ins) :=
  inferInstanceAs (Decidable (∀ x ∈ ins, ∃ n ∈ walk, Labelled provider x.1 n ∧
    n.payloadHash = hashPayload sha256 x.2))

variable {sha256 provider} {walk : List DAGNode} {keys : List String} {ins : List (String × Bytes)}
  {n : DAGNode}

theorem found_mem {x : String × Bytes} (h : found sha256 walk x = some n) :
    n ∈ walk ∧ n.payloadHash = hashPayload sha256 x.2 := by
  have payload := List.find?_some h
  exact ⟨mem_of_find?_eq_some h, by simpa using payload⟩

theorem firstAndOnly_iff (nodup : walk.Nodup) (x : String × Bytes) :
    FirstAndOnly sha256 provider walk x ↔ ∃ n, found sha256 walk x = some n ∧
      Labelled provider x.1 n ∧ ∀ m ∈ walk, Labelled provider x.1 m → m = n := by
  constructor
  · rintro ⟨before, n, after, rfl, labelled, payload, first, only⟩
    refine ⟨n, ?_, labelled, fun m mem other => ?_⟩
    · rw [found, List.find?_eq_some_iff_append]
      exact ⟨by simpa using payload, before, after, rfl, fun m mem => by simpa using first m mem⟩
    · by_contra ne
      refine only m ?_ other
      simpa [ne] using mem
  · rintro ⟨n, taken, labelled, only⟩
    obtain ⟨payload, before, after, split, first⟩ := List.find?_eq_some_iff_append.mp taken
    refine ⟨before, n, after, split, labelled, of_decide_eq_true payload,
      (by simpa using first), fun m mem other => ?_⟩
    rw [split, nodup_middle, nodup_cons] at nodup
    have listed : m ∈ walk := by
      rw [split]
      rcases mem_append.mp mem with mem | mem
      · exact mem_append_left _ mem
      · exact mem_append_right _ (mem_cons_of_mem _ mem)
    rw [only m listed other] at mem
    exact nodup.1 mem

theorem mem_requiredNodes : n ∈ requiredNodes provider walk keys ↔
    n ∈ walk ∧ ∃ key ∈ keys, Labelled provider key n := by
  rw [requiredNodes, mem_filter, decide_eq_true_eq]

theorem found_unique (nodup : (ins.filterMap (found sha256 walk)).Nodup) {x y : String × Bytes}
    (hx : x ∈ ins) (hy : y ∈ ins) (taken : found sha256 walk x = some n)
    (taken' : found sha256 walk y = some n) : x = y := by
  by_contra ne
  have apart := pairwise_filterMap.mp nodup
  have symm : Std.Symm fun a a' => ∀ b, found sha256 walk a = some b → ∀ b',
      found sha256 walk a' = some b' → b ≠ b' :=
    ⟨fun _ _ h b hb b' hb' => (h b' hb' b hb).symm⟩
  exact apart.forall hx hy ne n taken n taken' rfl

theorem exists_found (committed : AllCommitted sha256 provider walk ins) {x : String × Bytes}
    (hx : x ∈ ins) : ∃ n, found sha256 walk x = some n := by
  obtain ⟨n, mem, -, payload⟩ := committed x hx
  have some : (found sha256 walk x).isSome := List.find?_isSome.mpr ⟨n, mem, by simpa using payload⟩
  exact Option.isSome_iff_exists.mp some

section

variable (distinct : (ins.map Prod.fst).Nodup) (required : ∀ x ∈ ins, x.1 ∈ keys)
  (committed : AllCommitted sha256 provider walk ins)

include distinct required committed

theorem roles_perm (length : (requiredNodes provider walk keys).length = ins.length) :
    (ins.map Prod.fst).Perm ((requiredNodes provider walk keys).map DAGNode.role) := by
  have subset : ins.map Prod.fst ⊆ (requiredNodes provider walk keys).map DAGNode.role := by
    intro key mem
    obtain ⟨x, hx, rfl⟩ := mem_map.mp mem
    obtain ⟨n, mem, labelled, -⟩ := committed x hx
    have listed := mem_requiredNodes.mpr ⟨mem, x.1, required x hx, labelled⟩
    exact mem_map.mpr ⟨n, listed, labelled.1⟩
  exact (subperm_of_subset distinct subset).perm_of_length_le (by simp [length])

theorem found_perm_iff (nodup : walk.Nodup) :
    (ins.filterMap (found sha256 walk)).Perm (requiredNodes provider walk keys) ↔
      Unmistakable sha256 provider walk keys ins := by
  have once : (requiredNodes provider walk keys).Nodup := nodup.filter _
  constructor
  · intro perm
    have length : (requiredNodes provider walk keys).length = ins.length := by
      rw [← perm.length_eq, filterMap_length_eq_length]
      exact fun y hy => Option.isSome_iff_exists.mpr (exists_found committed hy)
    have roles := roles_perm distinct required committed length
    have role_unique := inj_on_of_nodup_map (roles.nodup_iff.mp distinct)
    refine ⟨fun x hx => ?_, fun key mem other n listed labelled => ?_⟩
    · obtain ⟨n, taken⟩ := exists_found committed hx
      have listed := perm.mem_iff.mp (mem_filterMap.mpr ⟨x, hx, taken⟩)
      -- The node is that of some input `y`, so `y` has the same payload and is given it too.
      obtain ⟨y, hy, role⟩ := mem_map.mp (roles.mem_iff.mpr (mem_map_of_mem listed))
      obtain ⟨n', mem', labelled, payload⟩ := committed y hy
      have listed' := mem_requiredNodes.mpr ⟨mem', y.1, required y hy, labelled⟩
      obtain rfl : n = n' := role_unique listed listed' (role.symm.trans labelled.1.symm)
      have taken' : found sha256 walk y = some n := by
        rw [← taken, found, found, ← payload, (found_mem taken).2]
      obtain rfl := found_unique (perm.nodup_iff.mpr once) hx hy taken taken'
      refine (firstAndOnly_iff nodup x).mpr ⟨n, taken, labelled, fun m mem other => ?_⟩
      have listed'' := mem_requiredNodes.mpr ⟨mem, x.1, required x hx, other⟩
      exact role_unique listed'' listed (other.1.trans labelled.1.symm)
    · have listed' := mem_requiredNodes.mpr ⟨listed, key, mem, labelled⟩
      exact other (labelled.1 ▸ roles.mem_iff.mpr (mem_map_of_mem listed'))
  · intro unmistakable
    have each := fun x hx => (firstAndOnly_iff nodup x).mp (unmistakable.inputs x hx)
    refine (perm_ext_iff_of_nodup ?_ once).mpr fun n => ?_
    · refine pairwise_filterMap.mpr ((pairwise_map.mp distinct).imp_of_mem ?_)
      rintro x y hx hy ne n taken m taken' rfl
      obtain ⟨n', first, labelled, -⟩ := each x hx
      obtain ⟨m', first', labelled', -⟩ := each y hy
      cases taken.symm.trans first
      cases taken'.symm.trans first'
      exact ne (labelled.1.symm.trans labelled'.1)
    · rw [mem_filterMap, mem_requiredNodes]
      constructor
      · rintro ⟨x, hx, taken⟩
        obtain ⟨n', first, labelled, -⟩ := each x hx
        cases taken.symm.trans first
        exact ⟨(found_mem taken).1, x.1, required x hx, labelled⟩
      · rintro ⟨mem, key, hkey, labelled⟩
        by_cases input : key ∈ ins.map Prod.fst
        · obtain ⟨x, hx, rfl⟩ := mem_map.mp input
          obtain ⟨n', first, -, only⟩ := each x hx
          rw [only n mem labelled]
          exact ⟨x, hx, first⟩
        · exact absurd labelled (unmistakable.others key hkey input n mem)

end

end

section

variable {r : SessionRunner α L InMemoryStore} {lin : LineageState InMemoryStore} {ω : MapOrder}
  {ctx : SessionContext α}

theorem inputOf_fst {req : String × ContextKeyType} {x : String × Bytes}
    (h : inputOf ctx req = some x) : x.1 = req.1 := by
  unfold inputOf at h
  split at h
  · cases h
    rfl
  · cases h

theorem inputs_nodup (ctx : SessionContext α) (p : Phase α L) :
    ((inputs ctx p).map Prod.fst).Nodup := by
  have keys := pairwise_map.mp p.requires.keys_nodup
  refine pairwise_map.mpr (pairwise_filterMap.mpr (keys.imp ?_))
  intro req req' ne x hx y hy
  rw [inputOf_fst hx, inputOf_fst hy]
  exact ne

theorem inputs_required {p : Phase α L} {x : String × Bytes}
    (hx : x ∈ inputs ctx p) : x.1 ∈ p.requires.entries.map Prod.fst := by
  obtain ⟨req, mem, given⟩ := mem_filterMap.mp hx
  rw [inputOf_fst given]
  exact mem_map_of_mem mem

theorem parents_eq (ctx : SessionContext α) (p : Phase α L) (s : InMemoryStore) :
    p.requires.entries.filterMap (parentOf lin ctx s) =
      (inputs ctx p).filterMap (found lin.sha256 (s.walk ctx.sessionID)) := by
  rw [inputs, filterMap_filterMap]
  refine filterMap_congr fun req _ => ?_
  rcases value : ctx.values req.1 with _ | (payload | m | a) <;>
    simp [parentOf, inputOf, value, found, firstWith]

theorem appended_of_added {P : InMemoryStore → DAGNode → Prop} {s s' : InMemoryStore}
    (coherent : Coherent s') (appends : InMemoryStore.Appends P s s') {sid : String} {n : DAGNode}
    (mem : n ∈ added sid s s') : ∃ st, P st n := by
  obtain ⟨listed, fresh⟩ := mem_filter.mp mem
  have stored := (coherent.mem_walk.mp listed).1
  have origin : ∀ h m, s'.byHash h = some m → s.byHash h = some m ∨ ∃ st, P st m := by
    refine appends.invariant (I := fun st => ∀ h m, st.byHash h = some m →
      s.byHash h = some m ∨ ∃ st, P st m) (fun st m hm before h n stored => ?_)
      (fun _ _ stored => .inl stored)
    cases known : st.byHash m.hash with
    | some _ =>
      simp only [InMemoryStore.append, known] at stored
      exact before h n stored
    | none =>
      rcases (byHash_append known h n).mp stored with old | ⟨rfl, -⟩
      · exact before h n old
      · exact .inr ⟨st, hm⟩
  rcases origin _ n stored with old | new
  · rw [old] at fresh
    cases fresh
  · exact new

theorem committed_parents (hl : r.lineage = some lin) (ho : lin.store = InMemoryStore.ops)
    {s : RunnerState α L InMemoryStore} (coherent : Coherent s.store) {t : Ref} {p : Phase α L}
    {n : DAGNode} (mem : n ∈ added (s.trackers t).ctx.sessionID s.store
      (sem r ω (.commit t p) s).2.store) :
    n.parents.Perm (((inputs (s.trackers t).ctx p).filterMap (found lin.sha256
      (s.store.walk (s.trackers t).ctx.sessionID))).map DAGNode.hash) := by
  have resolved : resolveParents lin (s.trackers t).ctx s.store
      (ω.order s.iterations p.requires.entries) = .ok ((ω.order s.iterations
        p.requires.entries).filterMap (parentOf lin (s.trackers t).ctx s.store)) :=
    resolveParents_eq ho s.store _
  simp only [sem, commitPhaseOutputsIfEnabled, hl, resolved] at mem
  have appends := commitOutputs_committed ho (s.trackers t).ctx p.name
    ((ω.order s.iterations p.requires.entries).filterMap
      (parentOf lin (s.trackers t).ctx s.store))
    (ω.order (s.iterations + 1) p.provides.entries) s.store
  have coherent' := appends.invariant (fun _ m _ c => c.append m) coherent
  obtain ⟨_, _, _, _, _, ok⟩ := appended_of_added coherent' appends mem
  refine (commit_parents _ ok).trans (Perm.map _ ?_)
  rw [← parents_eq]
  exact (ω.perm _ _).filterMap _

end

section

abbrev Providers := Ref → String → Option String

def noteProviders (h : Providers) : StoreEvent α L → Providers
  | ⟨_, .create _ _, .ok (t, _)⟩ => Function.update h t fun _ => none
  | ⟨_, .commit t p, none⟩ => Function.update h t fun key =>
      if key ∈ p.provides.entries.map Prod.fst then some p.name else h t key
  | _ => h

def providerRecorder : Recorder α L Providers where
  start _ _ := none
  note _ := noteProviders
  clear _ h := h

/-- Over every run of calls, at every commit of a phase whose inputs were committed by the phases
that provided them: the parents of what it commits are the nodes of the required keys, each once,
exactly if these cannot be mistaken. -/
theorem commit_parents_iff {sha256 : Bytes → NodeRef} {phases : List (Phase α L)}
    {o : ComposeOptions InMemoryStore} {r : SessionRunner α L InMemoryStore}
    (hr : composeWith sha256 phases o = .ok r) (ho : o.store = InMemoryStore.ops) (ω : MapOrder)
    (app : L) (moves : List Move) (m : Move) :
    ∀ d ∈ recordedEvents r ω providerRecorder m (afterMoves r ω providerRecorder app moves),
      ∀ t p, d.act = .commit t p →
      let ctx := (d.pre.1.trackers t).ctx
      let walk := d.pre.1.store.walk ctx.sessionID
      let keys := p.requires.entries.map Prod.fst
      AllCommitted sha256 (d.pre.2 t) walk (inputs ctx p) →
      ∀ n ∈ added ctx.sessionID d.pre.1.store (sem r ω (.commit t p) d.pre.1).2.store,
        (n.parents.Perm ((requiredNodes (d.pre.2 t) walk keys).map DAGNode.hash) ↔
          Unmistakable sha256 (d.pre.2 t) walk keys (inputs ctx p)) := by
  obtain ⟨-, pipe, signer, -, hl⟩ := composeWith_pipeline hr
  intro d mem t p act ctx walk keys committed n new
  have coherent := (recorded_invariant pipe
      (fun c a x _ h => (sem_appends hl ho a x.1).invariant (fun _ m _ c => c.append m) h)
      (fun sid x h => h.clear sid) coherent_empty moves m d mem).2
  have parents := committed_parents hl ho coherent new
  rw [← found_perm_iff (inputs_nodup ctx p) (fun x => inputs_required) committed
    (coherent.walk_nodup _)]
  have stored : ∀ l : List DAGNode, (∀ n ∈ l, n ∈ walk) →
      (l.map DAGNode.hash).filterMap d.pre.1.store.byHash = l := by
    intro l listed
    rw [filterMap_map]
    refine (filterMap_congr fun n hn => ?_).trans filterMap_some
    exact (coherent.mem_walk.mp (listed n hn)).1
  constructor
  · intro perm
    have same := (parents.symm.trans perm).filterMap d.pre.1.store.byHash
    rw [stored, stored] at same
    · exact same
    · exact fun n hn => (mem_requiredNodes.mp hn).1
    · intro n hn
      obtain ⟨x, -, taken⟩ := mem_filterMap.mp hn
      exact (found_mem taken).1
  · exact fun perm => parents.trans (perm.map _)

end

section

open LineageDispatch

def bytesRunner : SessionRunner Unit Unit InMemoryStore :=
  (composeWith headHash [splitPhase (1 :: ·), joinPhase] gateOptions).toOption.get rfl

theorem bytesRunner_composed :
    composeWith headHash [splitPhase (1 :: ·), joinPhase] gateOptions = .ok bytesRunner := rfl

def bytesNode (phase role : String) (payload : Bytes) : DAGNode :=
  (commit headHash "a" phase role payload [] toySigner).toOption.get rfl

def joining (check : Recorded Unit Unit Providers → Ref → Phase Unit Unit → Bool)
    (moves : List Move) : Bool :=
  (recordedEvents bytesRunner .listed providerRecorder (.message "a" ⟨"done", "alice", [7]⟩)
    (afterMoves bytesRunner .listed providerRecorder () moves)).any fun d =>
      match d.act with
      | .commit t p => check d.pre t p
      | _ => false

theorem exists_joining {check : Recorded Unit Unit Providers → Ref → Phase Unit Unit → Bool}
    {moves : List Move} (h : joining check moves = true) :
    ∃ d ∈ recordedEvents bytesRunner .listed providerRecorder (.message "a" ⟨"done", "alice", [7]⟩)
        (afterMoves bytesRunner .listed providerRecorder () moves),
      ∃ t p, d.act = .commit t p ∧ check d.pre t p = true := by
  obtain ⟨⟨x, a, e⟩, mem, passes⟩ := any_eq_true.mp h
  cases a with
  | commit t p => exact ⟨_, mem, t, p, rfl, passes⟩
  | _ => cases passes

theorem commit_parents_iff_left :
    ∃ d ∈ recordedEvents bytesRunner .listed providerRecorder (.message "a" ⟨"done", "alice", [7]⟩)
        (afterMoves bytesRunner .listed providerRecorder ()
          [.begin "a" "", .message "a" ⟨"share", "alice", [42]⟩]), ∃ t p, d.act = .commit t p ∧
        let ctx := (d.pre.1.trackers t).ctx
        ∃ n ∈ added ctx.sessionID d.pre.1.store
            (sem bytesRunner .listed (.commit t p) d.pre.1).2.store,
          n.parents.Perm ((requiredNodes (d.pre.2 t) (d.pre.1.store.walk ctx.sessionID)
            (p.requires.entries.map Prod.fst)).map DAGNode.hash) := by
  have joins : joining (fun x t p =>
      let ctx := (x.1.trackers t).ctx
      let walk := x.1.store.walk ctx.sessionID
      decide (AllCommitted headHash (x.2 t) walk (inputs ctx p) ∧
        walk = [bytesNode "split" "left" [42], bytesNode "split" "right" [1, 42]] ∧
        x.2 t "left" = some "split" ∧ inputs ctx p = [("left", [42])] ∧
        p.requires.entries.map Prod.fst = ["left"] ∧
        added ctx.sessionID x.1.store (sem bytesRunner .listed (.commit t p) x.1).2.store ≠ []))
      [.begin "a" "", .message "a" ⟨"share", "alice", [42]⟩] = true := by
    decide +kernel
  obtain ⟨d, mem, t, p, act, checked⟩ := exists_joining joins
  obtain ⟨committed, walk, provider, ins, keys, new⟩ := of_decide_eq_true checked
  obtain ⟨n, hn⟩ := exists_mem_of_ne_nil _ new
  have iffs := commit_parents_iff bytesRunner_composed rfl .listed ()
    [.begin "a" "", .message "a" ⟨"share", "alice", [42]⟩] (.message "a" ⟨"done", "alice", [7]⟩)
  refine ⟨d, mem, t, p, act, n, hn, (iffs d mem t p act committed n hn).mpr ?_⟩
  rw [walk, ins, keys]
  constructor
  · intro x hx
    rw [mem_singleton.mp hx]
    refine ⟨[], _, [_], rfl, ⟨rfl, provider⟩, rfl, nofun, fun m mem labelled => ?_⟩
    rw [mem_singleton.mp mem] at labelled
    exact absurd labelled.1 (by decide +kernel)
  · exact fun key mem other => absurd mem other

/-- The message that `split` keeps under `left` came with a node. It is that node the output of
`join` has as its parent, not the one `left` was committed under. -/
theorem message_node_parent :
    composeWith headHash [splitPhase (1 :: ·), joinPhase] gateOptions = .ok bytesRunner ∧
    let share := bytesNode "split" "share" [42]
    let moves : List Move := [.begin "a" "", .lineage ⟨⟨"share", "alice", [42]⟩, "a", some share⟩]
    ∃ d ∈ recordedEvents bytesRunner .listed providerRecorder (.message "a" ⟨"done", "alice", [7]⟩)
        (afterMoves bytesRunner .listed providerRecorder () moves),
      ∃ t p, d.act = .commit t p ∧
        let ctx := (d.pre.1.trackers t).ctx
        let walk := d.pre.1.store.walk ctx.sessionID
        AllCommitted headHash (d.pre.2 t) walk (inputs ctx p) ∧
        requiredNodes (d.pre.2 t) walk (p.requires.entries.map Prod.fst) =
          [bytesNode "split" "left" [42]] ∧
        (added ctx.sessionID d.pre.1.store (sem bytesRunner .listed (.commit t p)
          d.pre.1).2.store).map
          DAGNode.parents = [[share.hash]] ∧ share.hash ≠ (bytesNode "split" "left" [42]).hash := by
  refine ⟨rfl, ?_⟩
  intro share moves
  have joins : joining (fun x t p =>
      let ctx := (x.1.trackers t).ctx
      let walk := x.1.store.walk ctx.sessionID
      decide (AllCommitted headHash (x.2 t) walk (inputs ctx p) ∧
        requiredNodes (x.2 t) walk (p.requires.entries.map Prod.fst) =
          [bytesNode "split" "left" [42]] ∧
        (added ctx.sessionID x.1.store (sem bytesRunner .listed (.commit t p) x.1).2.store).map
          DAGNode.parents = [[share.hash]])) moves = true := by
    decide +kernel
  obtain ⟨d, mem, t, p, act, checked⟩ := exists_joining joins
  obtain ⟨committed, required, parents⟩ := of_decide_eq_true checked
  exact ⟨d, mem, t, p, act, committed, required, parents, by decide +kernel⟩

end

end CommitParents
