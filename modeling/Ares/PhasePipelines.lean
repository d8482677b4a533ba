import Ares.ConstraintValues
import Ares.LineageNodes

/-! A phase is the record of its declarations together with its hooks: arbitrary functions of the
session context, the application state outside it and the lineage nodes of its session. -/
namespace PhasePipelines

open ConstraintValues LineageNodes List Function

/-- A Go map with string keys, as the list of its entries in some order. -/
structure StringMap (ν : Type) where
  entries : List (String × ν)
  keys_nodup : (entries.map Prod.fst).Nodup

def StringMap.empty {ν : Type} : StringMap ν := ⟨[], by simp⟩

def StringMap.get {ν : Type} (m : StringMap ν) (k : String) : Option ν := m.entries.lookup k

inductive Sentinel where
  | transient | permanent | appAttributable | frameworkBug
  deriving DecidableEq

def Sentinel.text : Sentinel → String
  | .transient => "phase: transient failure (retryable)"
  | .permanent => "phase: permanent failure (config or invariant)"
  | .appAttributable => "phase: app-attributable failure"
  | .frameworkBug => "phase: framework bug"

/-- An error of application code: its text and the sentinels `errors.Is` finds in it. -/
structure AppErr where
  text : String
  classes : List Sentinel
  deriving DecidableEq

structure ContextKeyType where
  typeName : String
  required : Bool
  constraints : StringMap ConstraintValue
  noLineage : Bool

abbrev ContextSchema := StringMap ContextKeyType

inductive RunsAt where
  | registration | sessionStart | inline
  deriving DecidableEq

abbrev SessionState := String

def stateNone : SessionState := ""

/-- A context entry: byte slices, per-sender submission buckets, anything else. -/
inductive Value (α : Type) where
  | bytes (b : Bytes)
  | bucket (m : StringMap Bytes)
  | other (a : α)

structure SessionContext (α : Type) where
  sessionID : String
  cohortID : String
  values : String → Option (Value α)

def newSessionContext {α : Type} (sessionID : String) : SessionContext α :=
  ⟨sessionID, "", fun _ => none⟩

/-- What a hook can read. -/
structure HookEnv (α L : Type) where
  ctx : SessionContext α
  app : L
  dag : List DAGNode

/-- A `CommitArtifact` call made by a hook. -/
structure Artifact where
  phaseID : String
  role : String
  payload : Bytes
  parents : List DAGNode

/-- What a hook leaves behind: context entries, application state, the artifacts it
committed, in order, and its error. -/
structure HookOut (α L : Type) where
  values : String → Option (Value α)
  app : L
  artifacts : List Artifact
  err : Option AppErr

structure Phase (α L : Type) where
  name : String
  runsAt : RunsAt
  entryState : SessionState
  exitState : SessionState
  internalStates : List SessionState
  consumedMessageTypes : List String
  requires : ContextSchema
  provides : ContextSchema
  enter : HookEnv α L → HookOut α L
  onMessage : String → String → Bytes → HookEnv α L → HookOut α L
  checkComplete : HookEnv α L → Bool
  exit : HookEnv α L → HookOut α L

def HookEnv.unchanged {α L : Type} (e : HookEnv α L) : HookOut α L :=
  ⟨e.ctx.values, e.app, [], none⟩

section

variable {α L : Type}

def bucketInsert (m : StringMap Bytes) (sender : String) (payload : Bytes) : StringMap Bytes where
  entries := m.entries.filter (fun e => e.1 ≠ sender) ++ [(sender, payload)]
  keys_nodup := by
    rw [map_append, nodup_append]
    refine ⟨(filter_sublist.map _).nodup m.keys_nodup, by simp, ?_⟩
    intro a ha b hb
    obtain ⟨e, he, rfl⟩ := mem_map.mp ha
    have hne := (mem_filter.mp he).2
    simp only [map_cons, map_nil, mem_singleton] at hb
    subst hb
    simpa using hne

def accumulateMessage (values : String → Option (Value α)) (bucketKey sender : String)
    (payload : Bytes) : String → Option (Value α) :=
  let bucket := match values bucketKey with
    | some (.bucket m) => m
    | _ => .empty
  update values bucketKey (some (.bucket (bucketInsert bucket sender payload)))

def messageCount (values : String → Option (Value α)) (bucketKey : String) : ℕ :=
  match values bucketKey with
  | some (.bucket m) => m.entries.length
  | _ => 0

def quorumReached (values : String → Option (Value α)) (bucketKey : String) (n : ℕ) : Bool :=
  n ≤ messageCount values bucketKey

def quorumPhase (name : String) (entryState exitState : SessionState) (msgType bucketKey : String)
    (n : ℕ) : Phase α L where
  name := name
  runsAt := .inline
  entryState := entryState
  exitState := exitState
  internalStates := []
  consumedMessageTypes := [msgType]
  requires := .empty
  provides := .empty
  enter := HookEnv.unchanged
  onMessage _ sender payload e :=
    { e.unchanged with values := accumulateMessage e.ctx.values bucketKey sender payload }
  checkComplete e := quorumReached e.ctx.values bucketKey n
  exit := HookEnv.unchanged

end

inductive RequireErr where
  | notProvided (phase key : String)
  | typeMismatch (phase key got want : String)
  | minimumOmitted (phase key cname producerKey : String)
  | nonNumeric (phase key cname got gotType want wantType : String)
  | belowMinimum (phase key cname want producerKey got : String)
  | constraintOmitted (phase key cname : String)
  | constraintDiffers (phase key cname got want : String)
  deriving DecidableEq

def RequireErr.text : RequireErr → String
  | .notProvided p k => "phase " ++ goQuote p ++ ": requires context key " ++ goQuote k ++
      " but no preceding phase provides it"
  | .typeMismatch p k got want => "phase " ++ goQuote p ++ ": context key " ++ goQuote k ++
      " has provided type " ++ goQuote got ++ ", required type " ++ goQuote want
  | .minimumOmitted p k c pk => "phase " ++ goQuote p ++ ": context key " ++ goQuote k ++
      " requires minimum " ++ c ++ " but producer omits " ++ pk
  | .nonNumeric p k c got gotType want wantType => "phase " ++ goQuote p ++ ": context key " ++
      goQuote k ++ " constraint " ++ c ++ ": non-numeric values " ++ got ++ " (" ++ gotType ++
      ") vs " ++ want ++ " (" ++ wantType ++ ")"
  | .belowMinimum p k c want pk got => "phase " ++ goQuote p ++ ": context key " ++ goQuote k ++
      " requires " ++ c ++ "=" ++ want ++ " but producer provides " ++ pk ++ "=" ++ got
  | .constraintOmitted p k c => "phase " ++ goQuote p ++ ": context key " ++ goQuote k ++
      " requires constraint " ++ c ++ " but producer omits it"
  | .constraintDiffers p k c got want => "phase " ++ goQuote p ++ ": context key " ++ goQuote k ++
      " constraint " ++ c ++ ": producer=" ++ got ++ ", required=" ++ want

def minKey (cname : String) : Option String :=
  let cs := cname.toList
  if 4 < cs.length ∧ cs.drop (cs.length - 4) = ['_', 'm', 'i', 'n'] then
    some (String.ofList (cs.take (cs.length - 4)))
  else none

def checkConstraint (phaseName key : String) (got : StringMap ConstraintValue)
    (c : String × ConstraintValue) : Except RequireErr Unit :=
  if c.1 = "" then .ok ()
  else match minKey c.1 with
  | some producerKey =>
    match got.get producerKey with
    | none => .error (.minimumOmitted phaseName key c.1 producerKey)
    | some gv =>
      match atLeast gv c.2 with
      | some true => .ok ()
      | some false => .error (.belowMinimum phaseName key c.1 c.2.shown producerKey gv.shown)
      | none => .error (.nonNumeric phaseName key c.1 gv.shown gv.typeName c.2.shown c.2.typeName)
  | none =>
    match got.get c.1 with
    | none => .error (.constraintOmitted phaseName key c.1)
    | some gv =>
      if equalConstraint gv c.2 then .ok ()
      else .error (.constraintDiffers phaseName key c.1 gv.shown c.2.shown)

def checkConstraints (phaseName key : String) (want got : StringMap ConstraintValue) :
    Except RequireErr Unit :=
  want.entries.forM (checkConstraint phaseName key got)

def validateRequire (phaseName : String) (provided : String → Option ContextKeyType)
    (req : String × ContextKeyType) : Except RequireErr Unit :=
  match provided req.1 with
  | none => if req.2.required then .error (.notProvided phaseName req.1) else .ok ()
  | some got =>
    if req.2.typeName ≠ "" ∧ got.typeName ≠ "" ∧ req.2.typeName ≠ got.typeName then
      .error (.typeMismatch phaseName req.1 got.typeName req.2.typeName)
    else checkConstraints phaseName req.1 req.2.constraints got.constraints

/-- Map iteration has no fixed order in the source: acceptance does not depend on it,
and the error is that of the first failing entry in the order listed. -/
def validateRequires (phaseName : String) (reqs : ContextSchema)
    (provided : String → Option ContextKeyType) : Except RequireErr Unit :=
  reqs.entries.forM (validateRequire phaseName provided)

section

variable {α L : Type}

inductive ComposeErr where
  | noPhases
  | emptyName (index : ℕ)
  | duplicateName (name : String)
  | requires (e : RequireErr)
  | noEntryState (name : String)
  | entryClaimedTwice (entry existing name : String)
  | internalNone (name : String)
  | internalIsEntry (name sub : String)
  | internalIsEntryOf (name sub existing : String)
  | internalClaimedTwice (name sub existing : String)
  | notConnected (prev prevExit name entry : String)
  | nonInlineState (name : String)
  deriving DecidableEq

def ComposeErr.detail : ComposeErr → String
  | .noPhases => "Compose needs at least one phase"
  | .emptyName i => "Compose: phase has empty Name() (index " ++ toString i ++ " in pipeline)"
  | .duplicateName n => "Compose: duplicate phase name " ++ goQuote n
  | .requires e => e.text
  | .noEntryState n => "phase " ++ goQuote n ++ ": inline phase needs an EntryState"
  | .entryClaimedTwice s p q => "phase: entry state " ++ goQuote s ++ " claimed by both " ++
      goQuote p ++ " and " ++ goQuote q
  | .internalNone n => "phase " ++ goQuote n ++ ": InternalStates contains StateNone"
  | .internalIsEntry n s =>
    "phase " ++ goQuote n ++ ": InternalStates duplicates EntryState " ++ goQuote s
  | .internalIsEntryOf n s p => "phase " ++ goQuote n ++ ": internal state " ++ goQuote s ++
      " is also EntryState of " ++ goQuote p
  | .internalClaimedTwice n s p => "phase " ++ goQuote n ++ ": internal state " ++ goQuote s ++
      " is also an internal state of " ++ goQuote p
  | .notConnected p s q t => "phase: " ++ goQuote p ++ ".ExitState=" ++ goQuote s ++ " but " ++
      goQuote q ++ ".EntryState=" ++ goQuote t ++ " — pipeline is not connected"
  | .nonInlineState n => "phase " ++ goQuote n ++
      ": non-inline phases must have StateNone for entry and exit"

def ComposeErr.text (e : ComposeErr) : String := Sentinel.permanent.text ++ ": " ++ e.detail

structure ComposeState (α L : Type) where
  byName : String → Option (Phase α L)
  nameCount : ℕ
  byEntryState : SessionState → Option (Phase α L)
  byInternalState : SessionState → Option (Phase α L)
  initialState : SessionState
  provided : String → Option ContextKeyType
  prevInline : Option (Phase α L)

def ComposeState.empty : ComposeState α L :=
  ⟨fun _ => none, 0, fun _ => none, fun _ => none, stateNone, fun _ => none, none⟩

def addInternalStates (p : Phase α L) (byEntryState : SessionState → Option (Phase α L)) :
    List SessionState → (SessionState → Option (Phase α L)) →
      Except ComposeErr (SessionState → Option (Phase α L))
  | [], byInternalState => .ok byInternalState
  | sub :: subs, byInternalState =>
    if sub = stateNone then .error (.internalNone p.name)
    else if sub = p.entryState then .error (.internalIsEntry p.name sub)
    else match byEntryState sub with
    | some existing => .error (.internalIsEntryOf p.name sub existing.name)
    | none =>
      match byInternalState sub with
      | some existing => .error (.internalClaimedTwice p.name sub existing.name)
      | none => addInternalStates p byEntryState subs (update byInternalState sub (some p))

def addInline (st : ComposeState α L) (p : Phase α L) : Except ComposeErr (ComposeState α L) :=
  if p.entryState = stateNone then .error (.noEntryState p.name)
  else match st.byEntryState p.entryState with
  | some existing => .error (.entryClaimedTwice p.entryState existing.name p.name)
  | none =>
    let byEntryState := update st.byEntryState p.entryState (some p)
    match addInternalStates p byEntryState p.internalStates st.byInternalState with
    | .error e => .error e
    | .ok byInternalState =>
      match st.prevInline with
      | none =>
        .ok { st with byEntryState, byInternalState, initialState := p.entryState
                      prevInline := some p }
      | some prev =>
        if prev.exitState ≠ p.entryState then
          .error (.notConnected prev.name prev.exitState p.name p.entryState)
        else .ok { st with byEntryState, byInternalState, prevInline := some p }

def composeStep (st : ComposeState α L) (p : Phase α L) : Except ComposeErr (ComposeState α L) :=
  if p.name = "" then .error (.emptyName st.nameCount)
  else match st.byName p.name with
  | some _ => .error (.duplicateName p.name)
  | none =>
    match validateRequires p.name p.requires st.provided with
    | .error e => .error (.requires e)
    | .ok () =>
      let st := { st with
        byName := update st.byName p.name (some p)
        nameCount := st.nameCount + 1
        provided := p.provides.entries.foldl (fun m e => update m e.1 (some e.2))
          st.provided }
      if p.runsAt = .inline then addInline st p
      else if p.entryState ≠ stateNone ∨ p.exitState ≠ stateNone then
        .error (.nonInlineState p.name)
      else .ok st

def composeLoop : List (Phase α L) → ComposeState α L → Except ComposeErr (ComposeState α L)
  | [], st => .ok st
  | p :: ps, st =>
    match composeStep st p with
    | .error e => .error e
    | .ok st' => composeLoop ps st'

def inlinePhases (phases : List (Phase α L)) : List (Phase α L) :=
  phases.filter fun p => p.runsAt = .inline

structure LineageState (S : Type) where
  sha256 : Bytes → NodeRef
  store : Store S
  signer : Signer
  verifiers : String → Option Signer
  failureHook : Bool

structure SessionRunner (α L S : Type) where
  phases : List (Phase α L)
  byName : String → Option (Phase α L)
  byEntryState : SessionState → Option (Phase α L)
  byInternalState : SessionState → Option (Phase α L)
  initialState : SessionState
  lineage : Option (LineageState S)

variable {S : Type}

def compose (phases : List (Phase α L)) : Except ComposeErr (SessionRunner α L S) :=
  if phases = [] then .error .noPhases
  else match composeLoop phases .empty with
  | .error e => .error e
  | .ok st => .ok ⟨phases, st.byName, st.byEntryState, st.byInternalState, st.initialState, none⟩

structure ComposeOptions (S : Type) where
  store : Store S
  signer : Option Signer
  peerVerifiers : StringMap Signer
  failureHook : Bool

inductive ComposeWithErr where
  | noSigner
  | noPeerVerifiers
  | compose (e : ComposeErr)
  deriving DecidableEq

def needsPeers (phases : List (Phase α L)) : Bool :=
  phases.any fun p => 0 < p.consumedMessageTypes.length

def allVerifiers (o : ComposeOptions S) (signer : Signer) : String → Option Signer := fun alg =>
  match o.peerVerifiers.get alg with
  | some v => some v
  | none => if alg = signer.algorithm then some signer else none

def composeWith (sha256 : Bytes → NodeRef) (phases : List (Phase α L)) (o : ComposeOptions S) :
    Except ComposeWithErr (SessionRunner α L S) :=
  match o.signer with
  | none => .error .noSigner
  | some signer =>
    if needsPeers phases ∧ o.peerVerifiers.entries.length = 0 then .error .noPeerVerifiers
    else match (compose phases : Except ComposeErr (SessionRunner α L S)) with
    | .error e => .error (.compose e)
    | .ok r =>
      let lineage := some ⟨sha256, o.store, signer, allVerifiers o signer, o.failureHook⟩
      .ok { r with lineage := lineage }

def phaseForState (r : SessionRunner α L S) (s : SessionState) : Option (Phase α L) :=
  match r.byEntryState s with
  | some p => some p
  | none => r.byInternalState s

def phaseConsumes (p : Phase α L) (msgType : String) : Bool :=
  p.consumedMessageTypes.any (· = msgType)

variable {p : Phase α L}

@[simp] theorem phaseConsumes_iff {msgType : String} :
    phaseConsumes p msgType = true ↔ msgType ∈ p.consumedMessageTypes := by
  simp [phaseConsumes]

/-- The inline phases of an accepted pipeline: named apart, entered by distinct states, each leading
to the next. -/
structure Chained (ps : List (Phase α L)) : Prop where
  names : (ps.map Phase.name).Nodup
  entries : (ps.map Phase.entryState).Nodup
  entered : ∀ p ∈ ps, p.entryState ≠ stateNone
  linked : ps.IsChain fun p q => p.exitState = q.entryState

/-- The loop invariant of `Compose` over the phases already walked over. -/
structure Built (done : List (Phase α L)) (st : ComposeState α L) : Prop where
  names : (done.map Phase.name).Nodup
  byName : ∀ n, st.byName n = none ↔ n ∉ done.map Phase.name
  entries : ((inlinePhases done).map Phase.entryState).Nodup
  entered : ∀ p ∈ inlinePhases done, p.entryState ≠ stateNone
  linked : (inlinePhases done).IsChain fun p q => p.exitState = q.entryState
  byEntry : ∀ s p, st.byEntryState s = some p ↔ p ∈ inlinePhases done ∧ p.entryState = s
  last : st.prevInline = (inlinePhases done).getLast?
  initial : st.initialState = ((inlinePhases done).head?.map Phase.entryState).getD stateNone

theorem built_empty : Built [] (ComposeState.empty : ComposeState α L) := by
  constructor <;> simp [ComposeState.empty, inlinePhases]

variable {done : List (Phase α L)} {st : ComposeState α L}

theorem Built.name_step (h : Built done st) (hp : st.byName p.name = none) :
    ((done ++ [p]).map Phase.name).Nodup ∧ ∀ n, update st.byName p.name (some p) n = none ↔
        n ∉ (done ++ [p]).map Phase.name := by
  have hnew := (h.byName _).mp hp
  constructor
  · rw [map_append, nodup_append]
    refine ⟨h.names, by simp, ?_⟩
    intro a ha b hb
    simp only [map_cons, map_nil, mem_singleton] at hb
    subst hb
    exact fun he => hnew (he ▸ ha)
  · intro n
    by_cases hn : n = p.name
    · simp [hn]
    · rw [update_of_ne hn, h.byName, map_append, mem_append]
      simp [hn]

variable {st' : ComposeState α L}

theorem addInline_ok (h : addInline st p = .ok st') :
    p.entryState ≠ stateNone ∧ st.byEntryState p.entryState = none ∧
    (∀ q, st.prevInline = some q → q.exitState = p.entryState) ∧ st'.byName = st.byName ∧
    st'.byEntryState = update st.byEntryState p.entryState (some p) ∧ st'.prevInline = some p ∧
    st'.initialState = (if st.prevInline = none then p.entryState else st.initialState) := by
  unfold addInline at h
  split_ifs at h with he
  split at h
  · cases h
  rename_i hnone
  simp only at h
  split at h
  · cases h
  split at h
  · rename_i hprev
    cases h
    exact ⟨he, hnone, by simp [hprev], rfl, rfl, rfl, by simp [hprev]⟩
  · rename_i prev hprev
    split_ifs at h with hc
    cases h
    refine ⟨he, hnone, ?_, rfl, rfl, rfl, by simp [hprev]⟩
    intro q hq
    rw [hprev] at hq
    cases hq
    exact not_not.mp hc

theorem built_step (h : Built done st) (hs : composeStep st p = .ok st') :
    Built (done ++ [p]) st' := by
  by_cases he : p.name = ""
  · simp [composeStep, he] at hs
  simp only [composeStep, if_neg he] at hs
  split at hs
  · cases hs
  rename_i hname
  split at hs
  · cases hs
  obtain ⟨hnd, hby⟩ := h.name_step hname
  split_ifs at hs with hin hst
  · obtain ⟨hentry, hfree, hprev, hbn, hbe, hlast, hinit⟩ := addInline_ok hs
    have hdone : inlinePhases (done ++ [p]) = inlinePhases done ++ [p] := by
      simp [inlinePhases, hin]
    have hnew : ∀ q ∈ inlinePhases done, q.entryState ≠ p.entryState := by
      intro q hq heq
      have hsome := (h.byEntry p.entryState q).mpr ⟨hq, heq⟩
      rw [hfree] at hsome
      cases hsome
    refine ⟨hnd, by rw [hbn]; exact hby, ?_, ?_, ?_, ?_, ?_, ?_⟩
    · rw [hdone, map_append, nodup_append]
      refine ⟨h.entries, by simp, ?_⟩
      intro a ha b hb
      obtain ⟨q, hq, rfl⟩ := mem_map.mp ha
      simp only [map_cons, map_nil, mem_singleton] at hb
      exact hb ▸ hnew q hq
    · intro q hq
      rw [hdone, mem_append, mem_singleton] at hq
      rcases hq with hq | rfl
      · exact h.entered q hq
      · exact hentry
    · rw [hdone, isChain_append]
      refine ⟨h.linked, by simp, ?_⟩
      intro q hq r hr
      simp only [List.head?_cons, Option.mem_def, Option.some.injEq] at hr
      subst hr
      refine hprev q ?_
      rw [h.last]
      exact hq
    · intro s q
      rw [hbe, hdone]
      by_cases hsp : s = p.entryState
      · subst s
        simp only [update_self, Option.some.injEq, mem_append,
          mem_singleton]
        constructor
        · rintro rfl
          exact ⟨Or.inr rfl, rfl⟩
        · rintro ⟨hq | rfl, hqs⟩
          · exact absurd hqs (hnew q hq)
          · rfl
      · simp only [update_of_ne hsp, h.byEntry, mem_append,
          mem_singleton]
        constructor
        · rintro ⟨hq, hqs⟩
          exact ⟨Or.inl hq, hqs⟩
        · rintro ⟨hq | rfl, hqs⟩
          · exact ⟨hq, hqs⟩
          · exact absurd hqs.symm hsp
    · rw [hlast, hdone]
      simp
    · rw [hinit, hdone]
      simp only [h.last, h.initial]
      cases inlinePhases done with
      | nil | cons q qs => simp
  · cases hs
    have hdone : inlinePhases (done ++ [p]) = inlinePhases done := by
      simp [inlinePhases, hin]
    exact ⟨hnd, hby, by rw [hdone]; exact h.entries, by rw [hdone]; exact h.entered,
      by rw [hdone]; exact h.linked, by rw [hdone]; exact h.byEntry,
      by rw [hdone]; exact h.last, by rw [hdone]; exact h.initial⟩

theorem built_loop {ps : List (Phase α L)} (h : Built done st) (hl : composeLoop ps st = .ok st') :
    Built (done ++ ps) st' := by
  induction ps generalizing done st with
  | nil =>
    cases hl
    simpa using h
  | cons p ps ih =>
    unfold composeLoop at hl
    split at hl
    · cases hl
    · rename_i st₁ hs
      simpa using ih (built_step h hs) hl

/-- The state machine a runner drives: its inline phases, where sessions start and which phase a
state leads to. Both constructors build runners of this shape. -/
structure Pipeline (r : SessionRunner α L S) : Prop where
  chained : Chained (inlinePhases r.phases)
  byEntry : ∀ s p, r.byEntryState s = some p ↔
    p ∈ inlinePhases r.phases ∧ p.entryState = s
  initial : r.initialState =
    ((inlinePhases r.phases).head?.map Phase.entryState).getD stateNone

variable {r : SessionRunner α L S} {phases : List (Phase α L)}

theorem compose_pipeline (h : compose phases = .ok r) :
    r.phases = phases ∧ r.lineage = none ∧ Pipeline r := by
  unfold compose at h
  split_ifs at h with hne
  split at h
  · cases h
  rename_i st hst
  cases h
  have hb : Built phases st := by simpa using built_loop built_empty hst
  refine ⟨rfl, rfl, ⟨?_, ?_, ?_, ?_⟩, hb.byEntry, hb.initial⟩
  · exact (filter_sublist.map _).nodup hb.names
  · exact hb.entries
  · exact hb.entered
  · exact hb.linked

theorem composeWith_pipeline {sha256 : Bytes → NodeRef}
    {o : ComposeOptions S} (h : composeWith sha256 phases o = .ok r) :
    r.phases = phases ∧ Pipeline r ∧ ∃ signer, o.signer = some signer ∧
      r.lineage = some ⟨sha256, o.store, signer, allVerifiers o signer, o.failureHook⟩ := by
  unfold composeWith at h
  split at h
  · cases h
  rename_i signer hsig
  split_ifs at h with hp
  split at h
  · cases h
  rename_i r' hr
  cases h
  obtain ⟨hph, -, hpl⟩ := compose_pipeline hr
  exact ⟨hph, ⟨hpl.chained, hpl.byEntry, hpl.initial⟩, signer, hsig, rfl⟩

def Accepted (r : SessionRunner α L S) : Prop :=
  (∃ phases, compose phases = .ok r) ∨
    ∃ sha256 phases, ∃ o : ComposeOptions S, composeWith sha256 phases o = .ok r

theorem Accepted.pipeline (h : Accepted r) : Pipeline r := by
  rcases h with ⟨phases, h⟩ | ⟨sha256, phases, o, h⟩
  · exact (compose_pipeline h).2.2
  · exact (composeWith_pipeline h).2.1

theorem Pipeline.next (h : Pipeline r) {k : ℕ} {q : Phase α L}
    (hp : (inlinePhases r.phases)[k]? = some p) (hq : (inlinePhases r.phases)[k + 1]? = some q) :
    r.byEntryState p.exitState = some q := by
  obtain ⟨hk, rfl⟩ := List.getElem?_eq_some_iff.mp hq
  obtain ⟨hk', rfl⟩ := List.getElem?_eq_some_iff.mp hp
  have hlink := isChain_iff_getElem.mp h.chained.linked k hk
  exact (h.byEntry _ _).mpr ⟨getElem_mem hk, hlink.symm⟩

end

end PhasePipelines
