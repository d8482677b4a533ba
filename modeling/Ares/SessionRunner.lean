import Ares.InterleavedPrograms
import Ares.PhasePipelines

/-! Each runner method is a program over the atomic steps the source takes: one locked section, one
hook call, one unlocked read of the tracker. -/
namespace SessionRunner

open InterleavedPrograms LineageNodes PhasePipelines Function

abbrev Ref := ℕ

structure SessionTracker (α L : Type) where
  ctx : SessionContext α
  state : SessionState
  current : Option (Phase α L)
  entered : Bool

/-- The runner's mutable state. Trackers are reached by pointer: a call that has looked one up keeps
using it after the session is deleted. -/
structure RunnerState (α L S : Type) where
  sessions : String → Option Ref
  trackers : Ref → SessionTracker α L
  nextRef : Ref
  store : S
  app : L
  iterations : ℕ

def RunnerState.fresh {α L S : Type} (store : S) (app : L) : RunnerState α L S :=
  ⟨fun _ => none, fun _ => ⟨newSessionContext "", stateNone, none, false⟩, 0, store, app, 0⟩

/-- Go leaves the iteration order of a map open: the order of the `n`-th iteration. -/
structure MapOrder where
  order : ℕ → List (String × ContextKeyType) → List (String × ContextKeyType)
  perm : ∀ n l, (order n l).Perm l

def MapOrder.listed : MapOrder := ⟨fun _ l => l, fun _ _ => .refl _⟩

inductive CommitErr where
  | walk (e : StoreErr)
  | sign (phase output text : String)
  | append (phase output : String) (e : StoreErr)
  deriving DecidableEq

def CommitErr.classes : CommitErr → List Sentinel
  | .walk _ => []
  | .sign .. | .append .. => [.frameworkBug]

def CommitErr.text : CommitErr → String
  | .walk e => e.text
  | .sign p o t => Sentinel.frameworkBug.text ++ ": lineage.Commit for phase " ++ goQuote p ++
      " output " ++ goQuote o ++ ": " ++ t
  | .append p o e => Sentinel.frameworkBug.text ++ ": lineage.Store.Append for phase " ++
      goQuote p ++ " output " ++ goQuote o ++ ": " ++ e.text

/-- The loop an exit or enter failure was met in; it only shows in the text. -/
inductive Walk where
  | advance | advanceToState
  deriving DecidableEq

def Walk.suffix : Walk → String
  | .advance => ""
  | .advanceToState => " during AdvanceToState"

inductive RunErr where
  | emptySessionID
  | alreadyActive (sid : String)
  | noInitialPhase (state : SessionState)
  | notActive (call sid : String)
  | doesNotConsume (phase msgType : String) (state : SessionState)
  | enter (phase : String) (w : Walk) (e : AppErr)
  | onMessage (phase : String) (e : AppErr)
  | exit (phase : String) (w : Walk) (e : AppErr)
  | commit (phase : String) (w : Walk) (e : CommitErr)
  | noPhaseClaims (state : SessionState) (phase : String) (w : Walk)
  | cascadeHopLimit (hopCap : ℕ)
  | noCurrentPhase (sid : String) (target : SessionState)
  | terminalReached (sid phase : String) (target : SessionState)
  | walkHopLimit (sid : String) (target : SessionState)
  | nilLineage
  | mismatch (sid phase role : String) (e : MismatchError)
  | storeAppend (phase role : String) (e : StoreErr)
  deriving DecidableEq

def RunErr.classes : RunErr → List Sentinel
  | .emptySessionID | .alreadyActive _ | .notActive .. | .doesNotConsume ..
  | .terminalReached .. | .nilLineage => [.permanent]
  | .noInitialPhase _ | .noPhaseClaims .. | .cascadeHopLimit _ | .noCurrentPhase ..
  | .walkHopLimit .. | .storeAppend .. => [.frameworkBug]
  | .mismatch .. => [.appAttributable]
  | .enter _ _ e | .onMessage _ e | .exit _ _ e => e.classes
  | .commit _ _ e => e.classes

def hex (b : Bytes) : String := String.ofList (ByteStrings.hexDigits b)

def fieldName : MismatchField → String
  | .algorithm => "Algorithm"
  | .payloadHash => "PayloadHash"
  | .signature => "Signature"
  | .parentRef => "ParentRef"

def mismatchText (e : MismatchError) : String :=
  "lineage: mismatch on field " ++ goQuote (fieldName e.field) ++ ": expected=" ++
    hex e.expected ++ " got=" ++ hex e.got ++ " node=" ++ hex e.nodeHash.bytes

def RunErr.text : RunErr → String
  | .emptySessionID => Sentinel.permanent.text ++ ": BeginSession requires non-empty sessionID"
  | .alreadyActive sid =>
    Sentinel.permanent.text ++ ": BeginSession: session " ++ goQuote sid ++ " is already active"
  | .noInitialPhase s =>
    Sentinel.frameworkBug.text ++ ": BeginSession: no phase claims initial state " ++ goQuote s
  | .notActive call sid =>
    Sentinel.permanent.text ++ ": " ++ call ++ ": session " ++ goQuote sid ++ " is not active"
  | .doesNotConsume p m s => Sentinel.permanent.text ++ ": phase " ++ goQuote p ++
      ": does not consume message type " ++ goQuote m ++ " in state " ++ goQuote s
  | .enter p w e => "phase " ++ goQuote p ++ ": Enter" ++ w.suffix ++ ": " ++ e.text
  | .onMessage p e => "phase " ++ goQuote p ++ ": OnMessage: " ++ e.text
  | .exit p w e => "phase " ++ goQuote p ++ ": Exit" ++ w.suffix ++ ": " ++ e.text
  | .commit p w e => "phase " ++ goQuote p ++ ": lineage commit" ++ w.suffix ++ ": " ++ e.text
  | .noPhaseClaims s p .advance => Sentinel.frameworkBug.text ++ ": no phase claims state " ++
      goQuote s ++ " (ExitState of " ++ goQuote p ++ ")"
  | .noPhaseClaims s _ .advanceToState =>
    Sentinel.frameworkBug.text ++ ": AdvanceToState: no phase claims state " ++ goQuote s
  | .cascadeHopLimit n => Sentinel.frameworkBug.text ++ ": cascade hop limit exceeded (>" ++
      toString n ++ " hops); pipeline likely has a cycle"
  | .noCurrentPhase sid t => Sentinel.frameworkBug.text ++ ": AdvanceToState: session " ++
      goQuote sid ++ " has no current phase but target " ++ goQuote t ++ " not reached"
  | .terminalReached sid p t => Sentinel.permanent.text ++ ": AdvanceToState: session " ++
      goQuote sid ++ " reached terminal phase " ++ goQuote p ++ " without entering target " ++
      goQuote t
  | .walkHopLimit sid t => Sentinel.frameworkBug.text ++
      ": AdvanceToState: hop limit exceeded for session " ++ goQuote sid ++ " (target " ++
      goQuote t ++ "); pipeline likely has a cycle"
  | .nilLineage => Sentinel.permanent.text ++
      ": HandleLineageMessage requires non-nil lineage node (v2 frame)"
  | .mismatch sid p r e => Sentinel.appAttributable.text ++ ": HandleLineageMessage: session " ++
      goQuote sid ++ " phase " ++ goQuote p ++ " role " ++ goQuote r ++ ": " ++ mismatchText e
  | .storeAppend p r e => Sentinel.frameworkBug.text ++
      ": HandleLineageMessage: store.Append for phase " ++ goQuote p ++ " role " ++ goQuote r ++
      ": " ++ e.text

structure LineageFailureEvent where
  kind : String
  sessionID : String
  phaseID : String
  role : String
  attributee : Bytes
  dagNodes : List DAGNode
  deriving DecidableEq

inductive Action (α L : Type) where
  | lookup (sid : String)
  | create (sid cohortID : String)
  | deleteSession (sid : String)
  | readCurrent (t : Ref)
  | readState (t : Ref)
  | moveTo (t : Ref) (state : SessionState) (p : Phase α L)
  | clearCurrent (t : Ref)
  | setEntered (t : Ref)
  | enter (t : Ref) (p : Phase α L)
  | onMessage (t : Ref) (p : Phase α L) (msgType sender : String) (payload : Bytes)
  | checkComplete (t : Ref) (p : Phase α L)
  | exit (t : Ref) (p : Phase α L)
  | commit (t : Ref) (p : Phase α L)
  | storeGet (h : NodeRef)
  | storeAppend (n : DAGNode)
  | fireFailureHook (ev : LineageFailureEvent)

abbrev Action.Res {α L : Type} : Action α L → Type
  | .lookup _ => Option Ref
  | .create .. => Except RunErr (Ref × Phase α L)
  | .readCurrent _ => Option (Phase α L)
  | .readState _ => SessionState
  | .enter .. | .onMessage .. | .exit .. => Option AppErr
  | .checkComplete .. => Bool
  | .commit .. => Option CommitErr
  | .storeGet _ => Except StoreErr DAGNode
  | .storeAppend _ => Option StoreErr
  | .deleteSession _ | .moveTo .. | .clearCurrent _ | .setEntered _ | .fireFailureHook _ => Unit

section

variable {α L S : Type}

def RunnerState.updateTracker (s : RunnerState α L S) (t : Ref)
    (f : SessionTracker α L → SessionTracker α L) : RunnerState α L S :=
  { s with trackers := update s.trackers t (f (s.trackers t)) }

def lineageDAG (r : SessionRunner α L S) (store : S) (sid : String) : List DAGNode :=
  match r.lineage with
  | none => []
  | some lin => upToError (lin.store.walkSession sid store)
where
  upToError : List (Except StoreErr DAGNode) → List DAGNode
    | .ok n :: ns => n :: upToError ns
    | _ => []

def commitArtifacts (r : SessionRunner α L S) (sid : String) : List Artifact → S → S
  | [], store => store
  | a :: as, store =>
    match r.lineage with
    | none => store
    | some lin =>
      match LineageNodes.commit lin.sha256 sid a.phaseID a.role a.payload a.parents lin.signer with
      | .error _ => commitArtifacts r sid as store
      | .ok node => commitArtifacts r sid as (lin.store.append node store).2

def RunnerState.env (r : SessionRunner α L S) (s : RunnerState α L S) (t : Ref) : HookEnv α L :=
  ⟨(s.trackers t).ctx, s.app, lineageDAG r s.store (s.trackers t).ctx.sessionID⟩

def applyHook (r : SessionRunner α L S) (t : Ref) (hook : HookEnv α L → HookOut α L)
    (s : RunnerState α L S) : Option AppErr × RunnerState α L S :=
  let out := hook (s.env r t)
  (out.err,
    { s.updateTracker t fun tr => { tr with ctx := { tr.ctx with values := out.values } } with
      app := out.app
      store := commitArtifacts r (s.trackers t).ctx.sessionID out.artifacts s.store })

def findPayload (hash : NodeRef) : List (Except StoreErr DAGNode) → Except StoreErr (Option DAGNode)
  | [] => .ok none
  | .error e :: _ => .error e
  | .ok n :: ns => if n.payloadHash = hash then .ok (some n) else findPayload hash ns

def resolveParents (lin : LineageState S) (ctx : SessionContext α) (store : S) :
    List (String × ContextKeyType) → Except StoreErr (List DAGNode)
  | [] => .ok []
  | (key, _) :: reqs =>
    match ctx.values key with
    | some (.bytes payload) =>
      match findPayload (hashPayload lin.sha256 payload)
          (lin.store.walkSession ctx.sessionID store) with
      | .error e => .error e
      | .ok found =>
        match resolveParents lin ctx store reqs with
        | .error e => .error e
        | .ok parents => .ok (found.toList ++ parents)
    | _ => resolveParents lin ctx store reqs

def commitOutputs (lin : LineageState S) (ctx : SessionContext α) (phase : String)
    (parents : List DAGNode) :
    List (String × ContextKeyType) → S → Option CommitErr × S
  | [], store => (none, store)
  | (key, kt) :: provs, store =>
    if kt.noLineage then commitOutputs lin ctx phase parents provs store
    else match ctx.values key with
    | some (.bytes payload) =>
      match LineageNodes.commit lin.sha256 ctx.sessionID phase key payload parents lin.signer with
      | .error e => (some (.sign phase key e), store)
      | .ok node =>
        match lin.store.append node store with
        | (none, store') | (some .nodeExists, store') =>
          commitOutputs lin ctx phase parents provs store'
        | (some e, store') => (some (.append phase key e), store')
    | _ => commitOutputs lin ctx phase parents provs store

def commitPhaseOutputsIfEnabled (r : SessionRunner α L S) (ω : MapOrder) (p : Phase α L)
    (t : Ref) (s : RunnerState α L S) : Option CommitErr × RunnerState α L S :=
  match r.lineage with
  | none => (none, s)
  | some lin =>
    let ctx := (s.trackers t).ctx
    match resolveParents lin ctx s.store (ω.order s.iterations p.requires.entries) with
    | .error e => (some (.walk e), { s with iterations := s.iterations + 1 })
    | .ok parents =>
      let provs := ω.order (s.iterations + 1) p.provides.entries
      let (err, store) := commitOutputs lin ctx p.name parents provs s.store
      (err, { s with store := store, iterations := s.iterations + 2 })

def createSession (r : SessionRunner α L S) (sid cohortID : String) (s : RunnerState α L S) :
    Except RunErr (Ref × Phase α L) × RunnerState α L S :=
  match s.sessions sid with
  | some _ => (.error (.alreadyActive sid), s)
  | none =>
    match r.byEntryState r.initialState with
    | none => (.error (.noInitialPhase r.initialState), s)
    | some first =>
      let ctx : SessionContext α := { newSessionContext sid with cohortID := cohortID }
      (.ok (s.nextRef, first),
        { s with
          sessions := update s.sessions sid (some s.nextRef)
          trackers := update s.trackers s.nextRef ⟨ctx, r.initialState, some first, false⟩
          nextRef := s.nextRef + 1 })

def storeGet (r : SessionRunner α L S) (h : NodeRef) (s : S) : Except StoreErr DAGNode :=
  match r.lineage with
  | none => .error .nodeNotFound
  | some lin => lin.store.get h s

def storeAppend (r : SessionRunner α L S) (n : DAGNode) (s : S) : Option StoreErr × S :=
  match r.lineage with
  | none => (none, s)
  | some lin => lin.store.append n s

def sem (r : SessionRunner α L S) (ω : MapOrder) :
    (a : Action α L) → RunnerState α L S → a.Res × RunnerState α L S
  | .lookup sid, s => (s.sessions sid, s)
  | .create sid cohortID, s => createSession r sid cohortID s
  | .deleteSession sid, s => ((), { s with sessions := update s.sessions sid none })
  | .readCurrent t, s => ((s.trackers t).current, s)
  | .readState t, s => ((s.trackers t).state, s)
  | .moveTo t state p, s =>
    ((), s.updateTracker t fun tr =>
      { tr with state := state, current := some p, entered := false })
  | .clearCurrent t, s =>
    ((), s.updateTracker t fun tr => { tr with state := stateNone, current := none })
  | .setEntered t, s => ((), s.updateTracker t fun tr => { tr with entered := true })
  | .enter t p, s => applyHook r t p.enter s
  | .onMessage t p msgType sender payload, s => applyHook r t (p.onMessage msgType sender payload) s
  | .checkComplete t p, s => (p.checkComplete (s.env r t), s)
  | .exit t p, s => applyHook r t p.exit s
  | .commit t p, s => commitPhaseOutputsIfEnabled r ω p t s
  | .storeGet h, s => (storeGet r h s.store, s)
  | .storeAppend n, s =>
    let (e, store) := storeAppend r n s.store
    (e, { s with store := store })
  | .fireFailureHook _, s => ((), s)

def Moves (s : RunnerState α L S) (t : Ref) : Action α L → Prop
  | .moveTo t' _ _ | .clearCurrent t' => t' = t
  | .create _ _ => t = s.nextRef
  | _ => False

variable (r : SessionRunner α L S) (ω : MapOrder)

@[simp] theorem updateTracker_apply (s : RunnerState α L S) (t t' : Ref)
    (f : SessionTracker α L → SessionTracker α L) :
    (s.updateTracker t f).trackers t' = if t' = t then f (s.trackers t') else s.trackers t' := by
  unfold RunnerState.updateTracker
  by_cases h : t' = t
  · subst h
    simp
  · simp [h]

theorem applyHook_position (t t' : Ref) (hook : HookEnv α L → HookOut α L) (s : RunnerState α L S) :
    ((applyHook r t hook s).2.trackers t').state = (s.trackers t').state ∧
    ((applyHook r t hook s).2.trackers t').current = (s.trackers t').current := by
  simp only [applyHook, updateTracker_apply]
  split_ifs <;> exact ⟨rfl, rfl⟩

theorem commit_trackers (p : Phase α L) (t : Ref) (s : RunnerState α L S) :
    (commitPhaseOutputsIfEnabled r ω p t s).2.trackers = s.trackers := by
  unfold commitPhaseOutputsIfEnabled
  split
  · rfl
  · simp only
    split <;> rfl

theorem sem_position {a : Action α L} {s : RunnerState α L S} {t : Ref} (h : ¬ Moves s t a) :
    ((sem r ω a s).2.trackers t).state = (s.trackers t).state ∧
    ((sem r ω a s).2.trackers t).current = (s.trackers t).current := by
  cases a with
  | create sid cohortID =>
    simp only [sem, createSession]
    split
    · exact ⟨rfl, rfl⟩
    · split
      · exact ⟨rfl, rfl⟩
      · have hne : t ≠ s.nextRef := h
        simp [hne]
  | moveTo t' state p | clearCurrent t' =>
    have hne : t ≠ t' := fun he => h he.symm
    simp [sem, hne]
  | setEntered t' =>
    simp only [sem, updateTracker_apply]
    split_ifs <;> exact ⟨rfl, rfl⟩
  | enter t' p | onMessage t' p m x b | exit t' p => exact applyHook_position ..
  | commit t' p =>
    simp only [sem, commit_trackers]
    exact ⟨trivial, trivial⟩
  | lookup | deleteSession | readCurrent | readState | checkComplete | storeGet | storeAppend
  | fireFailureHook => exact ⟨rfl, rfl⟩

def OnPipeline (r : SessionRunner α L S) (s : RunnerState α L S) : Prop :=
  ∀ t p, (s.trackers t).current = some p → p ∈ inlinePhases r.phases

def StaysOn (r : SessionRunner α L S) (a : Action α L) : Prop :=
  ∀ t state p, a = .moveTo t state p → p ∈ inlinePhases r.phases

theorem onPipeline_fresh (store : S) (app : L) : OnPipeline r (RunnerState.fresh store app) :=
  nofun

variable {r} in
theorem onPipeline_sem (hr : Pipeline r) (a : Action α L) (s : RunnerState α L S)
    (ha : StaysOn r a) (hs : OnPipeline r s) : OnPipeline r (sem r ω a s).2 := by
  intro t p hp
  by_cases hm : Moves s t a
  · cases a with
    | moveTo t' state q =>
      obtain rfl : t' = t := hm
      simp only [sem, updateTracker_apply, if_true, Option.some.injEq] at hp
      exact hp ▸ ha t' state q rfl
    | clearCurrent t' =>
      obtain rfl : t' = t := hm
      simp [sem] at hp
    | create sid cohortID =>
      simp only [sem, createSession] at hp
      split at hp
      · exact hs t p hp
      · split at hp
        · exact hs t p hp
        · rename_i first hfirst
          obtain rfl : t = s.nextRef := hm
          simp only [update_self, Option.some.injEq] at hp
          exact hp ▸ ((hr.byEntry _ _).mp hfirst).1
    | _ => exact hm.elim
  · exact hs t p ((sem_position r ω hm).2 ▸ hp)

end

abbrev RunnerProg (α L : Type) (β : Type) := Prog (Action α L) Action.Res β

abbrev RunnerEvent (α L S : Type) := Event (RunnerState α L S) (Action α L) Action.Res

inductive Outcome (β : Type) where
  | returned (b : β)
  | panicked
  deriving DecidableEq

structure Message where
  msgType : String
  sender : String
  payload : Bytes

section

variable {α L S : Type}

def call (a : Action α L) : RunnerProg α L a.Res := Prog.call a

variable (r : SessionRunner α L S)

def beginSession (sid cohortID : String) : RunnerProg α L (Outcome (Except RunErr Ref)) := do
  if sid = "" then
    return .returned (.error .emptySessionID)
  match ← call (.create sid cohortID) with
  | .error e => return .returned (.error e)
  | .ok (t, first) =>
    match ← call (.enter t first) with
    | some e =>
      call (.deleteSession sid)
      return .returned (.error (.enter first.name .advance e))
    | none =>
      call (.setEntered t)
      return .returned (.ok t)

/-- `advance` with the given number of hops left. -/
def advance (t : Ref) : ℕ → RunnerProg α L (Outcome (Except RunErr Bool))
  | 0 => return .returned (.error (.cascadeHopLimit (r.phases.length + 1)))
  | hops + 1 => do
    match ← call (.readCurrent t) with
    | none => return .panicked
    | some current =>
      match ← call (.exit t current) with
      | some e => return .returned (.error (.exit current.name .advance e))
      | none =>
        match ← call (.commit t current) with
        | some e => return .returned (.error (.commit current.name .advance e))
        | none =>
          if current.exitState = stateNone then
            call (.clearCurrent t)
            return .returned (.ok true)
          else match r.byEntryState current.exitState with
          | none =>
            return .returned (.error (.noPhaseClaims current.exitState current.name .advance))
          | some next =>
            call (.moveTo t current.exitState next)
            match ← call (.enter t next) with
            | some e => return .returned (.error (.enter next.name .advance e))
            | none =>
              call (.setEntered t)
              if 0 < next.consumedMessageTypes.length then
                return .returned (.ok true)
              else if ← call (.checkComplete t next) then
                advance t hops
              else
                return .returned (.ok true)

/-- A nil current phase makes `phaseConsumes` dereference a nil interface. -/
def handleMessage (sid msgType sender : String) (payload : Bytes) :
    RunnerProg α L (Outcome (Except RunErr Bool)) := do
  match ← call (.lookup sid) with
  | none => return .returned (.error (.notActive "HandleMessage" sid))
  | some t =>
    match ← call (.readCurrent t) with
    | none => return .panicked
    | some current =>
      if phaseConsumes current msgType then
        match ← call (.onMessage t current msgType sender payload) with
        | some e => return .returned (.error (.onMessage current.name e))
        | none =>
          if ← call (.checkComplete t current) then
            advance r t (r.phases.length + 1)
          else
            return .returned (.ok false)
      else
        let state ← call (.readState t)
        return .returned (.error (.doesNotConsume current.name msgType state))

/-- The walk of `AdvanceToState` with the given number of hops left. -/
def advanceWalk (sid : String) (target : SessionState) (t : Ref) :
    ℕ → RunnerProg α L (Outcome (Except RunErr Unit))
  | 0 => return .returned (.error (.walkHopLimit sid target))
  | hops + 1 => do
    let state : SessionState ← call (.readState t)
    if state = target then
      return .returned (.ok ())
    else match ← call (.readCurrent t) with
    | none => return .returned (.error (.noCurrentPhase sid target))
    | some current =>
      match ← call (.exit t current) with
      | some e => return .returned (.error (.exit current.name .advanceToState e))
      | none =>
        match ← call (.commit t current) with
        | some e => return .returned (.error (.commit current.name .advanceToState e))
        | none =>
          if current.exitState = stateNone then
            return .returned (.error (.terminalReached sid current.name target))
          else match r.byEntryState current.exitState with
          | none =>
            return .returned
              (.error (.noPhaseClaims current.exitState current.name .advanceToState))
          | some next =>
            call (.moveTo t current.exitState next)
            match ← call (.enter t next) with
            | some e => return .returned (.error (.enter next.name .advanceToState e))
            | none =>
              call (.setEntered t)
              advanceWalk sid target t hops

def advanceToState (sid : String) (target : SessionState) :
    RunnerProg α L (Outcome (Except RunErr Unit)) := do
  match ← call (.lookup sid) with
  | none => return .returned (.error (.notActive "AdvanceToState" sid))
  | some t =>
    let state : SessionState ← call (.readState t)
    if state = target then
      return .returned (.ok ())
    else
      let current ← call (.readCurrent t)
      if current.any fun p => target ∈ p.internalStates then
        return .returned (.ok ())
      else
        advanceWalk r sid target t (r.phases.length + 1)

def endSession (sid : String) : RunnerProg α L (Outcome Unit) := do
  call (.deleteSession sid)
  return .returned ()

def checkParents (hash : NodeRef) : ℕ → List NodeRef → RunnerProg α L (Option MismatchError)
  | _, [] => return none
  | i, parent :: parents => do
    match ← call (.storeGet parent) with
    | .ok _ => checkParents hash (i + 1) parents
    | .error e =>
      return some ⟨.parentRef, parent.bytes,
        utf8 ("parent[" ++ toString i ++ "] not in store: " ++ e.text), hash⟩

def lineageMismatch (lin : LineageState S) (payload : Bytes) (node : DAGNode) :
    RunnerProg α L (Option MismatchError) :=
  match verify lin.sha256 node payload lin.verifiers with
  | .error e => return some e
  | .ok () => checkParents node.hash 0 node.parents

def handleLineageMessage (sid msgType sender : String) (payload : Bytes)
    (lineageNode : Option DAGNode) : RunnerProg α L (Outcome (Except RunErr Bool)) := do
  match r.lineage, lineageNode with
  | none, _ => handleMessage r sid msgType sender payload
  | some _, none => return .returned (.error .nilLineage)
  | some lin, some node =>
    match ← lineageMismatch lin payload node with
    | some e =>
      if lin.failureHook then
        call (.fireFailureHook
          ⟨"mismatch-confirmed", sid, node.phaseID, node.role, node.producer, [node]⟩)
      return .returned (.error (.mismatch sid node.phaseID node.role e))
    | none =>
      match ← call (.storeAppend node) with
      | none | some .nodeExists => handleMessage r sid msgType sender payload
      | some e => return .returned (.error (.storeAppend node.phaseID node.role e))

def BeginStep : Action α L → Prop
  | .create .. | .enter .. | .setEntered _ | .deleteSession _ => True
  | _ => False

theorem beginSession_steps (sid cohortID : String) :
    (beginSession sid cohortID : RunnerProg α L _).Always BeginStep := by
  simp only [beginSession]
  split_ifs
  · trivial
  refine ⟨trivial, fun created => ?_⟩
  cases created with
  | error e => trivial
  | ok first =>
    refine ⟨trivial, fun e => ?_⟩
    cases e with
    | some e | none => exact ⟨trivial, fun _ => trivial⟩

theorem BeginStep.staysOn {a : Action α L} (h : BeginStep a) : StaysOn r a := by
  rintro _ _ _ rfl
  exact h.elim

def begun (r : SessionRunner α L S) (ω : MapOrder) (store : S) (app : L)
    (sid cohortID : String) : RunnerState α L S :=
  (beginSession sid cohortID).final (sem r ω) (RunnerState.fresh store app)

variable {r} in
theorem onPipeline_begun (hr : Pipeline r) (ω : MapOrder) (store : S) (app : L)
    (sid cohortID : String) : OnPipeline r (begun r ω store app sid cohortID) :=
  ((beginSession_steps sid cohortID).mono fun _ => BeginStep.staysOn r).final _
    (onPipeline_sem ω hr) (onPipeline_fresh r store app)

end

end SessionRunner
