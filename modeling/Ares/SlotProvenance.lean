import Ares.CommittedNodes
import Ares.RecordedRuns
import Ares.SlotLists

/-! `PhaseGVerify` assembles the list from a bucket that keeps the last payload of each sender, and
names as its parents all nodes of the session with the role of a submission. -/
namespace SlotProvenance

open InterleavedPrograms OperationRuns LineageNodes PhasePipelines SessionRunner LineageStoreLog
  LineageCommits SessionRootedLineage RecordedRuns SubmissionPhases OutsiderMessages SlotLists
  CommittedNodes List Function

structure Submission where
  sender : String
  payload : Bytes
  carrier : Option DAGNode

def latestOf : List Submission → List Submission
  | [] => []
  | x :: l => if x.sender ∈ l.map Submission.sender then latestOf l else x :: latestOf l

def entryOf (x : Submission) : String × Bytes := (x.sender, x.payload)

def refOf (x : Submission) : Option NodeRef := x.carrier.map DAGNode.hash

theorem latestOf_snoc (l : List Submission) (x : Submission) :
    latestOf (l ++ [x]) = (latestOf l).filter (fun y => y.sender ≠ x.sender) ++ [x] := by
  induction l with
  | nil => simp [latestOf]
  | cons y l ih =>
    rw [cons_append, latestOf, latestOf, ih]
    by_cases again : y.sender ∈ l.map Submission.sender
    · rw [if_pos (by rw [map_append]; exact mem_append_left _ again), if_pos again]
    · by_cases same : y.sender = x.sender
      · rw [if_pos (by simp [same]), if_neg again, filter_cons_of_neg (by simp [same])]
      · rw [if_neg (by simpa [same] using again), if_neg again,
          filter_cons_of_pos (by simp [same]), cons_append]

theorem latestOf_insert {b : StringMap Bytes} {l : List Submission}
    (same : b.entries = (latestOf l).map entryOf) (x : Submission) :
    (bucketInsert b x.sender x.payload).entries = (latestOf (l ++ [x])).map entryOf := by
  have kept : b.entries.filter (fun e => e.1 ≠ x.sender) =
      ((latestOf l).filter fun y => y.sender ≠ x.sender).map entryOf := by
    rw [same, filter_map]
    rfl
  rw [latestOf_snoc, map_append, ← kept]
  rfl

structure SlotRecord where
  taken : Ref → List Submission
  held : List DAGNode

section

variable {α L : Type}

def verifyName : String := "anon-g-verify"

def noteSlots (c : Option DAGNode) (h : SlotRecord) : StoreEvent α L → SlotRecord
  | ⟨_, .create _ _, .ok (t, _)⟩ => { h with taken := update h.taken t [] }
  | ⟨_, .onMessage t p _ sender payload, _⟩ =>
    if p.name = verifyName then
      { h with taken := update h.taken t (h.taken t ++ [⟨sender, payload, c⟩]) }
    else h
  | ⟨s, .storeAppend n, _⟩ =>
    if s.store.byHash n.hash = none then { h with held := h.held ++ [n] } else h
  | _ => h

def slotRecorder : Recorder α L SlotRecord where
  start := ⟨fun _ => [], []⟩
  note := noteSlots
  clear sid h := { h with held := h.held.filter fun n => n.sessionID ≠ sid }

end

section

open Anon

variable {F H : Type}

structure Untouched (e : Env F H) (out : HookResult F H) : Prop where
  bucket : out.values bucketSlots = e.ctx.values bucketSlots
  roles : ∀ a ∈ out.artifacts, a.role ≠ roleSlotSubmission

structure LeavesSlots (q : Phase (Entry F H) (List (Violation F))) : Prop where
  enter : ∀ e, Untouched e (q.enter e)
  onMessage : ∀ msgType sender payload e, Untouched e (q.onMessage msgType sender payload e)
  exit : ∀ e, Untouched e (q.exit e)
  outputs : ∀ kt, (roleSlotSubmission, kt) ∈ q.provides.entries → kt.noLineage = true

/-- The phase of that name is `PhaseGVerify`, and the others have nothing to do with slots. -/
structure SlotPipeline (phases : List (Phase (Entry F H) (List (Violation F))))
    (exitState : SessionState) (codec : SlotCodec) (commit : Artifact → Option AppErr)
    (order : EntryOrder) : Prop where
  verify : ∀ q ∈ phases, q.name = verifyName → q = phaseGVerify exitState codec commit order
  others : ∀ q ∈ phases, q.name ≠ verifyName → LeavesSlots q

theorem untouched_unchanged (e : Env F H) : Untouched e e.unchanged := ⟨rfl, nofun⟩

theorem untouched_exitGVerify (codec : SlotCodec) (commit : Artifact → Option AppErr)
    (order : EntryOrder) (e : Env F H) :
    Untouched e (exitGVerify codec commit order e).hookOut := by
  have other : bucketSlots ≠ ctxAssembledSlotList := by decide
  rw [exitGVerify_eq]
  cases assembleSlots codec.decode
      (order.order (accumulatedMessages e.ctx.values bucketSlots).entries) with
  | error err => exact ⟨rfl, nofun⟩
  | ok slots =>
    constructor
    · simp only [ExitOut.hookOut, update_of_ne other]
    · intro a mem
      rw [mem_singleton.mp mem]
      show ctxAssembledSlotList ≠ roleSlotSubmission
      decide

variable {phases : List (Phase (Entry F H) (List (Violation F)))} {exitState : SessionState}
  {codec : SlotCodec} {commit : Artifact → Option AppErr} {order : EntryOrder}
  (pipeline : SlotPipeline phases exitState codec commit order)
  {q : Phase (Entry F H) (List (Violation F))} (member : q ∈ phases)

include pipeline member

theorem SlotPipeline.enter (e : Env F H) : Untouched e (q.enter e) := by
  by_cases name : q.name = verifyName
  · rw [pipeline.verify q member name]
    exact untouched_unchanged e
  · exact (pipeline.others q member name).enter e

theorem SlotPipeline.exit (e : Env F H) : Untouched e (q.exit e) := by
  by_cases name : q.name = verifyName
  · rw [pipeline.verify q member name]
    exact untouched_exitGVerify ..
  · exact (pipeline.others q member name).exit e

theorem SlotPipeline.outputs {prov : String × ContextKeyType} (mem : prov ∈ q.provides.entries)
    (lineage : prov.2.noLineage = false) : prov.1 ≠ roleSlotSubmission := by
  by_cases name : q.name = verifyName
  · rw [pipeline.verify q member name] at mem
    rw [mem_singleton.mp mem]
    decide
  · obtain ⟨key, kt⟩ := prov
    rintro rfl
    rw [(pipeline.others q member name).outputs kt mem] at lineage
    cases lineage

end

section

open Anon

variable {F H : Type} {r : SessionRunner (Entry F H) (List (Violation F)) InMemoryStore}
  {lin : LineageState InMemoryStore} {ω : MapOrder}

structure Traced (x : Recorded (Entry F H) (List (Violation F)) SlotRecord) : Prop where
  coherent : Coherent x.1.store
  bucket : ∀ t, (accumulatedMessages (x.1.trackers t).ctx.values bucketSlots).entries =
    (latestOf (x.2.taken t)).map entryOf
  held : ∀ n, n.role = roleSlotSubmission → (x.1.store.byHash n.hash = some n ↔ n ∈ x.2.held)

theorem byHash_append_other {s : InMemoryStore} {m n : DAGNode} (other : n ≠ m) :
    (s.append m).2.byHash n.hash = some n ↔ s.byHash n.hash = some n := by
  cases found : s.byHash m.hash with
  | some _ => simp only [InMemoryStore.append, found]
  | none =>
    rw [byHash_append found]
    exact or_iff_left fun h => other h.1

theorem byHash_appends {s s' : InMemoryStore}
    (appends : InMemoryStore.Appends (fun _ m => m.role ≠ roleSlotSubmission) s s') (n : DAGNode)
    (role : n.role = roleSlotSubmission) : s'.byHash n.hash = some n ↔ s.byHash n.hash = some n :=
  appends.invariant (I := fun st => st.byHash n.hash = some n ↔ s.byHash n.hash = some n)
    (fun _ _ other same => (byHash_append_other fun he => other (he ▸ role)).trans same) Iff.rfl

variable {x : Recorded (Entry F H) (List (Violation F)) SlotRecord}

theorem Traced.keep (traced : Traced x)
    {s' : RunnerState (Entry F H) (List (Violation F)) InMemoryStore}
    (buckets : ∀ t, (s'.trackers t).ctx.values bucketSlots =
      (x.1.trackers t).ctx.values bucketSlots)
    (appends : InMemoryStore.Appends (fun _ m => m.role ≠ roleSlotSubmission) x.1.store s'.store) :
    Traced (s', x.2) := by
  refine ⟨appends.invariant (fun _ m _ c => c.append m) traced.coherent, fun t => ?_,
    fun n role => (byHash_appends appends n role).trans (traced.held n role)⟩
  rw [accumulatedMessages, tryBlobs, buckets]
  exact traced.bucket t

theorem values_applyHook (t t' : Ref) (hook : Env F H → HookResult F H)
    (s : RunnerState (Entry F H) (List (Violation F)) InMemoryStore) :
    ((applyHook r t hook s).2.trackers t').ctx.values =
      if t' = t then (hook (s.env r t)).values else (s.trackers t').ctx.values := by
  simp only [applyHook, updateTracker_apply]
  split_ifs <;> rfl

section

variable (hl : r.lineage = some lin) (ho : lin.store = InMemoryStore.ops)

include hl ho

variable {hook : Env F H → HookResult F H}

theorem appends_applyHook (t : Ref) (s : RunnerState (Entry F H) (List (Violation F)) InMemoryStore)
    (roles : ∀ a ∈ (hook (s.env r t)).artifacts, a.role ≠ roleSlotSubmission) :
    InMemoryStore.Appends (fun _ m => m.role ≠ roleSlotSubmission) s.store
      (applyHook r t hook s).2.store := by
  refine (commitArtifacts_committed hl ho _ _ _).mono ?_
  rintro - n ⟨a, mem, ok⟩
  rw [(commit_committed ok).role]
  exact roles a mem

theorem traced_hook (traced : Traced x) (t : Ref)
    (untouched : ∀ e, Untouched e (hook e)) : Traced ((applyHook r t hook x.1).2, x.2) := by
  refine traced.keep (fun t' => ?_) (appends_applyHook hl ho t x.1 (untouched _).roles)
  rw [values_applyHook]
  split_ifs with same
  · subst same
    exact (untouched _).bucket
  · rfl

variable {phases : List (Phase (Entry F H) (List (Violation F)))} {exitState : SessionState}
  {codec : SlotCodec} {commit : Artifact → Option AppErr} {order : EntryOrder}
  (pipeline : SlotPipeline phases exitState codec commit order)
  {q : Phase (Entry F H) (List (Violation F))} (member : q ∈ phases)

include pipeline member

theorem traced_onMessage (traced : Traced x) (c : Option DAGNode) (t : Ref)
    (msgType sender : String) (payload : Bytes) :
    Traced (Prog.recorded (sem r ω) (noteSlots c) (.onMessage t q msgType sender payload) x).2 := by
  by_cases name : q.name = verifyName
  · have hq := pipeline.verify q member name
    subst hq
    simp only [Prog.recorded, sem, noteSlots, name, if_true]
    refine ⟨traced.coherent, fun t' => ?_, traced.held⟩
    rw [values_applyHook]
    dsimp only
    split_ifs with same
    · subst same
      rw [update_self]
      have taken := accumulated_accumulate (x.1.trackers t').ctx.values bucketSlots sender payload
      exact (congrArg StringMap.entries taken).trans
        (latestOf_insert (traced.bucket t') ⟨sender, payload, c⟩)
    · rw [update_of_ne same]
      exact traced.bucket t'
  · simp only [Prog.recorded, noteSlots, name]
    exact traced_hook hl ho traced t ((pipeline.others q member name).onMessage _ _ _)

theorem traced_commit (traced : Traced x) (t : Ref) :
    Traced ((sem r ω (.commit t q) x.1).2, x.2) := by
  refine traced.keep (fun t' => ?_) ?_
  · simp only [sem, commit_trackers]
  · simp only [sem, commitPhaseOutputsIfEnabled, hl]
    split
    · exact .refl
    · refine (commitOutputs_committed ho _ _ _ _ _).mono ?_
      rintro - n ⟨prov, mem, lineage, payload, ok⟩
      rw [(commit_committed ok).role]
      exact pipeline.outputs member ((ω.perm _ _).mem_iff.mp mem) lineage

end

theorem traced_create (traced : Traced x) (c : Option DAGNode) (sid cohortID : String) :
    Traced (Prog.recorded (sem r ω) (noteSlots c) (.create sid cohortID) x).2 := by
  simp only [Prog.recorded, sem, createSession]
  split
  · exact traced
  · split
    · exact traced
    · refine ⟨traced.coherent, fun t => ?_, traced.held⟩
      by_cases new : t = x.1.nextRef
      · subst new
        simp only [noteSlots, update_self]
        rfl
      · simp only [noteSlots, update_of_ne new]
        exact traced.bucket t

theorem traced_storeAppend (hl : r.lineage = some lin) (ho : lin.store = InMemoryStore.ops)
    (traced : Traced x) (c : Option DAGNode) (n : DAGNode) :
    Traced (Prog.recorded (sem r ω) (noteSlots c) (.storeAppend n) x).2 := by
  simp only [Prog.recorded, sem, storeAppend, hl, ho, InMemoryStore.ops, noteSlots]
  cases found : x.1.store.byHash n.hash with
  | some m =>
    simp only [InMemoryStore.append, found]
    exact traced
  | none =>
    refine ⟨traced.coherent.append n, traced.bucket, fun m role => ?_⟩
    rw [byHash_append found, traced.held m role]
    simp only [if_true, mem_append, mem_singleton]
    refine or_congr_right ⟨fun h => h.1, fun h => ⟨h, congrArg DAGNode.hash h⟩⟩

theorem traced_clear (traced : Traced x) (sid : String) :
    Traced (recordedNext r ω slotRecorder (.clear sid) x) := by
  refine ⟨traced.coherent.clear sid, traced.bucket, fun n role => ?_⟩
  simp [recordedNext, slotRecorder, traced.coherent.byHash_clear, traced.held n role]

theorem traced_step (hl : r.lineage = some lin) (ho : lin.store = InMemoryStore.ops)
    {exitState : SessionState} {codec : SlotCodec} {commit : Artifact → Option AppErr}
    {order : EntryOrder} (pipeline : SlotPipeline r.phases exitState codec commit order)
    (c : Option DAGNode) (a : Action (Entry F H) (List (Violation F)))
    (x : Recorded (Entry F H) (List (Violation F)) SlotRecord)
    (members : ∀ p ∈ actor a, p ∈ inlinePhases r.phases) (traced : Traced x) :
    Traced (Prog.recorded (sem r ω) (slotRecorder.note c) a x).2 := by
  have member : ∀ p ∈ actor a, p ∈ r.phases := fun p acts => mem_of_mem_filter (members p acts)
  cases a with
  | enter t p => exact traced_hook hl ho traced t (pipeline.enter (member p rfl))
  | exit t p => exact traced_hook hl ho traced t (pipeline.exit (member p rfl))
  | onMessage t p msgType sender payload =>
    exact traced_onMessage hl ho pipeline (member p rfl) traced c t msgType sender payload
  | commit t p => exact traced_commit hl ho pipeline (member p rfl) traced t
  | create sid cohortID => exact traced_create traced c sid cohortID
  | storeAppend n => exact traced_storeAppend hl ho traced c n
  | moveTo t state p | clearCurrent t | setEntered t =>
    refine traced.keep (fun t' => ?_) .refl
    simp only [sem, updateTracker_apply]
    split_ifs <;> rfl
  | lookup | deleteSession | readCurrent | readState | checkComplete | storeGet
  | fireFailureHook => exact traced.keep (fun _ => rfl) .refl

theorem traced_start (app : List (Violation F)) :
    Traced (F := F) (H := H) (.fresh .empty app, ⟨fun _ => [], []⟩) := by
  refine ⟨coherent_empty, fun t => rfl, fun n _ => ?_⟩
  simp [RunnerState.fresh, InMemoryStore.empty]

end

section

open Anon

def Exact (node : DAGNode) (used : List Submission) : Prop :=
  (node.parents.map some).Perm (used.map refOf)

structure CarriedApart (sid : String) (held : List DAGNode) (used : List Submission) : Prop where
  carried : ∀ x ∈ used, ∃ n ∈ held, n.sessionID = sid ∧ n.role = roleSlotSubmission ∧
    refOf x = some n.hash
  apart : used.Pairwise fun x y => refOf x ≠ refOf y
  others : ∀ n ∈ held, n.sessionID = sid → n.role = roleSlotSubmission →
    ∃ x ∈ used, refOf x = some n.hash

instance (node : DAGNode) (used : List Submission) : Decidable (Exact node used) :=
  inferInstanceAs (Decidable (List.Perm _ _))

instance (sid : String) (held : List DAGNode) (used : List Submission) :
    Decidable (CarriedApart sid held used) :=
  decidable_of_iff ((∀ x ∈ used, ∃ n ∈ held, n.sessionID = sid ∧ n.role = roleSlotSubmission ∧
      refOf x = some n.hash) ∧ (used.Pairwise fun x y => refOf x ≠ refOf y) ∧
    ∀ n ∈ held, n.sessionID = sid → n.role = roleSlotSubmission →
      ∃ x ∈ used, refOf x = some n.hash)
    ⟨fun h => ⟨h.1, h.2.1, h.2.2⟩, fun h => ⟨h.carried, h.apart, h.others⟩⟩

theorem perm_refs_iff {refs : List NodeRef} (nodup : refs.Nodup) (used : List Submission) :
    (refs.map some).Perm (used.map refOf) ↔ (∀ x ∈ used, ∃ ref ∈ refs, refOf x = some ref) ∧
      (used.Pairwise fun x y => refOf x ≠ refOf y) ∧
      ∀ ref ∈ refs, ∃ x ∈ used, refOf x = some ref := by
  have distinct := nodup.map (Option.some_injective _)
  constructor
  · intro perm
    refine ⟨fun x mem => ?_, pairwise_map.mp (perm.nodup_iff.mp distinct), fun ref mem => ?_⟩
    · obtain ⟨ref, listed, eq⟩ := mem_map.mp (perm.mem_iff.mpr (mem_map_of_mem mem))
      exact ⟨ref, listed, eq.symm⟩
    · exact mem_map.mp (perm.mem_iff.mp (mem_map_of_mem mem))
  · rintro ⟨carried, apart, others⟩
    refine (perm_ext_iff_of_nodup distinct (pairwise_map.mpr apart)).mpr fun o => ?_
    rw [mem_map, mem_map]
    constructor
    · rintro ⟨ref, mem, rfl⟩
      exact others ref mem
    · rintro ⟨x, mem, rfl⟩
      obtain ⟨ref, listed, eq⟩ := carried x mem
      exact ⟨ref, listed, eq.symm⟩

theorem exact_iff {sid : String} {s : InMemoryStore} {held : List DAGNode} (coherent : Coherent s)
    (stored : ∀ n, n.role = roleSlotSubmission → (s.byHash n.hash = some n ↔ n ∈ held))
    {node : DAGNode} (parents : node.parents.Perm
      (((s.walk sid).filter fun n => n.role = roleSlotSubmission).map DAGNode.hash))
    (used : List Submission) : Exact node used ↔ CarriedApart sid held used := by
  have listed : ∀ n, n ∈ (s.walk sid).filter (fun n => n.role = roleSlotSubmission) ↔
      n ∈ held ∧ n.sessionID = sid ∧ n.role = roleSlotSubmission := by
    intro n
    rw [mem_filter, coherent.mem_walk, decide_eq_true_eq]
    constructor
    · rintro ⟨⟨found, session⟩, role⟩
      exact ⟨(stored n role).mp found, session, role⟩
    · rintro ⟨mem, session, role⟩
      exact ⟨⟨(stored n role).mpr mem, session⟩, role⟩
  have nodup : (((s.walk sid).filter fun n => n.role = roleSlotSubmission).map
      DAGNode.hash).Nodup := by
    refine (filter_sublist.map _).nodup ?_
    rw [coherent.walk_hashes]
    exact coherent.nodup sid
  rw [Exact, perm_refs_iff (parents.nodup_iff.mpr nodup)]
  simp only [parents.mem_iff, mem_map, listed]
  constructor
  · rintro ⟨carried, apart, others⟩
    refine ⟨fun x mem => ?_, apart, fun n mem session role => ?_⟩
    · obtain ⟨_, ⟨n, ⟨mem, session, role⟩, rfl⟩, eq⟩ := carried x mem
      exact ⟨n, mem, session, role, eq⟩
    · exact others n.hash ⟨n, ⟨mem, session, role⟩, rfl⟩
  · rintro ⟨carried, apart, others⟩
    refine ⟨fun x mem => ?_, apart, ?_⟩
    · obtain ⟨n, mem, session, role, eq⟩ := carried x mem
      exact ⟨_, ⟨n, ⟨mem, session, role⟩, rfl⟩, eq⟩
    · rintro _ ⟨n, ⟨mem, session, role⟩, rfl⟩
      exact others n mem session role

/-- Over every run of calls, at every exit of `PhaseGVerify`: what it assembles is the latest
submission of each sender, and the parents of the node it commits are the nodes that carried these,
one for each, exactly if each came with a node of its own and the lineage has no others of that
role. -/
theorem slot_provenance_iff {F H : Type} {sha256 : Bytes → NodeRef}
    {phases : List (Phase (Entry F H) (List (Violation F)))} {o : ComposeOptions InMemoryStore}
    {r : SessionRunner (Entry F H) (List (Violation F)) InMemoryStore}
    (hr : composeWith sha256 phases o = .ok r) (ho : o.store = InMemoryStore.ops)
    {exitState : SessionState} {codec : SlotCodec} {answer : Artifact → Option AppErr}
    {order : EntryOrder} (pipeline : SlotPipeline phases exitState codec answer order)
    (ω : MapOrder) (app : List (Violation F)) (moves : List Move) (m : Move) :
    ∃ signer, o.signer = some signer ∧
      ∀ d ∈ recordedEvents r ω slotRecorder m (afterMoves r ω slotRecorder app moves),
        ∀ t p, d.act = .exit t p → p.name = verifyName →
        let used := latestOf (d.pre.2.taken t)
        let sid := (d.pre.1.trackers t).ctx.sessionID
        ∀ a ∈ (p.exit (d.pre.1.env r t)).artifacts,
          a.role = ctxAssembledSlotList ∧
          (∃ slots, assembleSlots codec.decode (order.order (used.map entryOf)) = .ok slots ∧
            a.payload = codec.encode slots) ∧
          ∀ node, commit sha256 sid a.phaseID a.role a.payload a.parents signer = .ok node →
            (Exact node used ↔ CarriedApart sid d.pre.2.held used) := by
  obtain ⟨hp, pipe, signer, signs, hl⟩ := composeWith_pipeline hr
  refine ⟨signer, signs, fun d mem t p act name => ?_⟩
  subst hp
  obtain ⟨members, traced⟩ := recorded_invariant pipe (traced_step hl ho pipeline)
    (fun sid x h => traced_clear h sid) (traced_start app) moves m d mem
  rw [act] at members
  obtain rfl := pipeline.verify p (mem_of_mem_filter (members p rfl)) name
  intro used sid a ha
  have bucket : (accumulatedMessages (d.pre.1.env r t).ctx.values bucketSlots).entries =
      used.map entryOf := traced.bucket t
  have dag : (d.pre.1.env r t).dag = d.pre.1.store.walk sid := lineageDAG_eq hl ho _ _
  have exits : (phaseGVerify exitState codec answer order).exit (d.pre.1.env r t) =
      (exitGVerify codec answer order (d.pre.1.env r t)).hookOut := rfl
  rw [exits, exitGVerify_eq, bucket, dag] at ha
  cases assembled : assembleSlots codec.decode (order.order (used.map entryOf)) with
  | error err =>
    rw [assembled] at ha
    cases ha
  | ok slots =>
    rw [assembled] at ha
    obtain rfl := mem_singleton.mp ha
    refine ⟨rfl, ⟨slots, rfl, rfl⟩, fun node committed => ?_⟩
    exact exact_iff traced.coherent traced.held (commit_parents sha256 committed) used

end

section

open Anon LineageDispatch

theorem cohort_keys :
    ([(ctxParticipants, keyType "[]string" true false)].map Prod.fst).Nodup := by decide

def cohortPhase : Phase (Entry ℤ Unit) (List (Violation ℤ)) :=
  { quorumPhase "cohort" "JOINING" stateVerifying "join" "joins" 1 with
    provides := ⟨[(ctxParticipants, keyType "[]string" true false)], cohort_keys⟩
    enter := fun e =>
      { e.unchanged with
        values := update e.ctx.values ctxParticipants
          (some (.other (.names ["a", "b"]))) } }

def slotPhases : List (Phase (Entry ℤ Unit) (List (Violation ℤ))) :=
  [cohortPhase, phaseGVerify stateNone indexCodec (fun _ => none) .listed]

def slotRunner : SessionRunner (Entry ℤ Unit) (List (Violation ℤ)) InMemoryStore :=
  (composeWith headHash slotPhases gateOptions).toOption.get rfl

theorem slotRunner_composed : composeWith headHash slotPhases gateOptions = .ok slotRunner := rfl

theorem slotPipeline : SlotPipeline slotPhases stateNone indexCodec (fun _ => none) .listed := by
  constructor
  · intro q mem name
    rcases mem_cons.mp mem with rfl | mem
    · exact absurd name (by decide)
    · exact mem_singleton.mp mem
  · intro q mem name
    rcases mem_cons.mp mem with rfl | mem
    · have other : bucketSlots ≠ ctxParticipants := by decide
      have bucket : bucketSlots ≠ "joins" := by decide
      refine ⟨fun e => ⟨?_, nofun⟩, fun _ _ _ e => ⟨?_, nofun⟩, untouched_unchanged, ?_⟩
      · simp only [cohortPhase, update_of_ne other]
      · simp only [cohortPhase, quorumPhase, accumulateMessage, update_of_ne bucket]
      · intro kt mem
        have key : roleSlotSubmission = ctxParticipants := congrArg Prod.fst (mem_singleton.mp mem)
        exact absurd key (by decide)
    · rw [mem_singleton.mp mem] at name
      exact absurd rfl name

def slotNode (payload : Bytes) : DAGNode :=
  (commit headHash "s" verifyName roleSlotSubmission payload [] toySigner).toOption.get rfl

def sendSlot (sender : String) (payload : Bytes) : Move :=
  .lineage ⟨⟨msgSlotSubmit, sender, payload⟩, "s", some (slotNode payload)⟩

def toVerify (moves : List Move) : List Move :=
  .begin "s" "" :: .message "s" ⟨"join", "a", []⟩ :: moves

def atExit (check : Recorded (Entry ℤ Unit) (List (Violation ℤ)) SlotRecord → Ref →
      Phase (Entry ℤ Unit) (List (Violation ℤ)) → Bool) :
    Event (Recorded (Entry ℤ Unit) (List (Violation ℤ)) SlotRecord)
      (Action (Entry ℤ Unit) (List (Violation ℤ))) Action.Res → Bool
  | ⟨x, .exit t p, _⟩ => decide (p.name = verifyName) && check x t p
  | _ => false

theorem exists_exit {check : Recorded (Entry ℤ Unit) (List (Violation ℤ)) SlotRecord → Ref →
      Phase (Entry ℤ Unit) (List (Violation ℤ)) → Bool}
    {es : List (Event (Recorded (Entry ℤ Unit) (List (Violation ℤ)) SlotRecord)
      (Action (Entry ℤ Unit) (List (Violation ℤ))) Action.Res)} (h : es.any (atExit check) = true) :
    ∃ d ∈ es, ∃ t p, d.act = .exit t p ∧ p.name = verifyName ∧ check d.pre t p = true := by
  obtain ⟨⟨x, a, e⟩, mem, passes⟩ := any_eq_true.mp h
  cases a with
  | exit t p =>
    obtain ⟨name, checked⟩ := (Bool.and_eq_true _ _).mp passes
    exact ⟨_, mem, t, p, rfl, of_decide_eq_true name, checked⟩
  | _ => cases passes

/-- Participant `a` submits a second time before `b` completes the phase. The slot list has the
second submission, and the node of the first one among its parents. -/
theorem superseded_parent :
    composeWith headHash slotPhases gateOptions = .ok slotRunner ∧
    ∃ d ∈ recordedEvents slotRunner .listed slotRecorder (sendSlot "b" [1])
        (afterMoves slotRunner .listed slotRecorder []
          (toVerify [sendSlot "a" [1, 1], sendSlot "a" []])),
      ∃ t p, d.act = .exit t p ∧ p.name = verifyName ∧
        (latestOf (d.pre.2.taken t)).map entryOf = [("a", []), ("b", [1])] ∧
        ∃ a ∈ (p.exit (d.pre.1.env slotRunner t)).artifacts, ∃ node,
          commit headHash "s" a.phaseID a.role a.payload a.parents toySigner = .ok node ∧
          (slotNode [1, 1]).hash ∈ node.parents ∧ ¬ Exact node (latestOf (d.pre.2.taken t)) := by
  have exits : (recordedEvents slotRunner .listed slotRecorder (sendSlot "b" [1])
      (afterMoves slotRunner .listed slotRecorder []
        (toVerify [sendSlot "a" [1, 1], sendSlot "a" []]))).any
      (atExit fun x t p => decide ((latestOf (x.2.taken t)).map entryOf = [("a", []), ("b", [1])] ∧
        (p.exit (x.1.env slotRunner t)).artifacts.map Artifact.parents =
          [[slotNode [1, 1], slotNode [], slotNode [1]]])) = true := by
    decide +kernel
  obtain ⟨d, mem, t, p, act, name, checked⟩ := exists_exit exits
  obtain ⟨used, parents⟩ := of_decide_eq_true checked
  obtain ⟨a, rest, listed, parents, -⟩ := map_eq_cons_iff.mp parents
  obtain ⟨node, committed⟩ : ∃ node,
      commit headHash "s" a.phaseID a.role a.payload a.parents toySigner = .ok node := ⟨_, rfl⟩
  have refs := commit_parents headHash committed
  rw [parents] at refs
  refine ⟨rfl, d, mem, t, p, act, name, used, a, listed ▸ mem_cons_self, node, committed,
    refs.mem_iff.mpr mem_cons_self, fun exact => ?_⟩
  have three := refs.length_eq
  have two := congrArg List.length used
  have same := Perm.length_eq exact
  simp only [length_map] at two same
  rw [three, two] at same
  cases same

theorem slot_provenance_iff_once :
    ∃ d ∈ recordedEvents slotRunner .listed slotRecorder (sendSlot "b" [1])
        (afterMoves slotRunner .listed slotRecorder [] (toVerify [sendSlot "a" []])),
      ∃ t p, d.act = .exit t p ∧ p.name = verifyName ∧
        ∃ a ∈ (p.exit (d.pre.1.env slotRunner t)).artifacts, ∃ node,
          commit headHash "s" a.phaseID a.role a.payload a.parents toySigner = .ok node ∧
          Exact node (latestOf (d.pre.2.taken t)) := by
  have exits : (recordedEvents slotRunner .listed slotRecorder (sendSlot "b" [1])
      (afterMoves slotRunner .listed slotRecorder [] (toVerify [sendSlot "a" []]))).any
      (atExit fun x t p => decide ((x.1.trackers t).ctx.sessionID = "s" ∧
        (p.exit (x.1.env slotRunner t)).artifacts.length = 1 ∧
        CarriedApart "s" x.2.held (latestOf (x.2.taken t)))) = true := by
    decide +kernel
  obtain ⟨d, mem, t, p, act, name, checked⟩ := exists_exit exits
  obtain ⟨session, one, apart⟩ := of_decide_eq_true checked
  obtain ⟨a, listed⟩ := length_eq_one_iff.mp one
  have ha := listed ▸ mem_cons_self
  obtain ⟨node, committed⟩ : ∃ node,
      commit headHash "s" a.phaseID a.role a.payload a.parents toySigner = .ok node := ⟨_, rfl⟩
  obtain ⟨signer, signs, iffs⟩ :=
    slot_provenance_iff slotRunner_composed rfl slotPipeline .listed []
    (toVerify [sendSlot "a" []]) (sendSlot "b" [1])
  cases signs
  have here := (iffs d mem t p act name a ha).2.2
  rw [session] at here
  exact ⟨d, mem, t, p, act, name, a, ha, node, committed, (here node committed).mpr apart⟩

end

end SlotProvenance
