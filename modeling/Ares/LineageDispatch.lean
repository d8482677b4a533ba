import Ares.SessionRunnerDiscipline

/-! The transport service hands each frame to the runner: with a lineage node through
`HandleLineageMessage`, without one through `HandleMessage`. -/
namespace LineageDispatch

open InterleavedPrograms LineageNodes PhasePipelines SessionRunner SessionRunnerDiscipline List

variable {α L S : Type} {r : SessionRunner α L S}

structure WSMessage where
  version : String
  type : String
  sessionID : String
  payload : Bytes
  lineage : Option DAGNode

def wireProtocolVersion : String := "1"

def wireProtocolVersionLineage : String := "2"

inductive ValidateErr where
  | missingLineage (version : String)
  | unknownVersion (version : String)
  deriving DecidableEq

def ValidateErr.text : ValidateErr → String
  | .missingLineage v => "transport: v" ++ v ++ " frame requires non-nil Lineage field"
  | .unknownVersion v => "transport: unknown protocol version " ++ goQuote v ++ " (supported: " ++
      goQuote wireProtocolVersion ++ ", " ++ goQuote wireProtocolVersionLineage ++ ")"

def validateInboundMessage (msg : WSMessage) : Except ValidateErr Unit :=
  let v := if msg.version = "" then wireProtocolVersion else msg.version
  if v = wireProtocolVersion then .ok ()
  else if v = wireProtocolVersionLineage then
    if msg.lineage = none then .error (.missingLineage v) else .ok ()
  else .error (.unknownVersion v)

theorem validate_no_lineage {msg : WSMessage} (h : validateInboundMessage msg = .ok ())
    (hl : msg.lineage = none) : msg.version = "" ∨ msg.version = wireProtocolVersion := by
  unfold validateInboundMessage at h
  by_cases hv : msg.version = ""
  · exact Or.inl hv
  · simp only [if_neg hv] at h
    split_ifs at h with h1
    exact Or.inr h1

/-- What the dispatcher records of a frame: the event-ring entry, and whether the error is
logged. -/
structure DispatchRecord where
  sessionID : String
  type : String
  pseudonym : String
  errStr : String
  logged : Bool
  deriving DecidableEq

def isPhaseDoesNotConsume (e : RunErr) : Bool :=
  decide ("does not consume message type".toList <:+: e.text.toList)

def dispatchRecord (pseudonym : String) (msg : WSMessage) :
    Outcome (Except RunErr Bool) → Outcome (Option DispatchRecord)
  | .panicked => .panicked
  | .returned (.ok _) => .returned (some ⟨msg.sessionID, msg.type, pseudonym, "", false⟩)
  | .returned (.error e) =>
    .returned (some ⟨msg.sessionID, msg.type, pseudonym, e.text, !isPhaseDoesNotConsume e⟩)

/-- The message handler `NewService` installs. Frames without a session are ignored. -/
def dispatch (r : SessionRunner α L S) (pseudonym : String) (msg : WSMessage) :
    RunnerProg α L (Outcome (Option DispatchRecord)) := do
  if msg.sessionID = "" then
    return .returned none
  else match msg.lineage with
  | some node =>
    return dispatchRecord pseudonym msg
      (← handleLineageMessage r msg.sessionID msg.type pseudonym msg.payload (some node))
  | none =>
    return dispatchRecord pseudonym msg
      (← handleMessage r msg.sessionID msg.type pseudonym msg.payload)

inductive Request where
  | frame (pseudonym : String) (msg : WSMessage)
  | begin (sid cohortID : String)
  | advanceTo (sid : String) (target : SessionState)
  | ended (sid : String)

def Request.prog (r : SessionRunner α L S) : Request → RunnerProg α L Unit
  | .frame pseudonym msg => do
    let _ ← dispatch r pseudonym msg
  | .begin sid cohortID => do
    let _ ← beginSession sid cohortID
  | .advanceTo sid target => do
    let _ ← advanceToState r sid target
  | .ended sid => do
    let _ ← endSession sid

def serve (r : SessionRunner α L S) : List Request → RunnerProg α L Unit
  | [] => return ()
  | req :: reqs => do
    req.prog r
    serve r reqs

def service {ι : Type} (r : SessionRunner α L S) (store : S) (app : L)
    (work : ι → List Request) : Pool ι (RunnerState α L S) (Action α L) Action.Res Unit :=
  Pool.start (RunnerState.fresh store app) fun i => serve r (work i)

section

variable {ℓ : Type} {after : ℓ → (a : Action α L) → a.Res → ℓ} {ok : ℓ → Action α L → Prop}

def LineageStep : Action α L → Prop
  | .storeGet _ | .storeAppend _ | .fireFailureHook _ => True
  | _ => False

theorem checkParents_steps (hash : NodeRef) (i : ℕ) (parents : List NodeRef) :
    (checkParents hash i parents : RunnerProg α L _).Always LineageStep := by
  induction parents generalizing i with
  | nil => trivial
  | cons parent parents ih =>
    refine ⟨trivial, fun res => ?_⟩
    cases res with
    | error e => trivial
    | ok n => exact ih (i + 1)

theorem lineageMismatch_steps (lin : LineageState S) (payload : Bytes) (node : DAGNode) :
    (lineageMismatch lin payload node : RunnerProg α L _).Always LineageStep := by
  unfold lineageMismatch
  cases verify lin.sha256 node payload lin.verifiers with
  | error e => trivial
  | ok _ => exact checkParents_steps ..

theorem handleLineageMessage_obeys (lineage : ∀ x a, LineageStep a → ok x a)
    {sid msgType sender : String} {payload : Bytes}
    (plain : (handleMessage r sid msgType sender payload).Obeys after ok)
    (lineageNode : Option DAGNode) :
    (handleLineageMessage r sid msgType sender payload lineageNode).Obeys after ok := by
  unfold handleLineageMessage
  cases r.lineage with
  | none => exact plain
  | some lin =>
    cases lineageNode with
    | none => exact fun _ => trivial
    | some node =>
      refine ((lineageMismatch_steps lin payload node).obeys lineage).bind fun mismatch => ?_
      cases mismatch with
      | some e =>
        intro x
        split_ifs
        · exact ⟨lineage _ _ trivial, fun _ => trivial⟩
        · trivial
      | none =>
        refine fun x => ⟨lineage _ _ trivial, fun res => ?_⟩
        cases res with
        | none => exact plain _
        | some e =>
          cases e with
          | nodeExists => exact plain _
          | _ => trivial

theorem serve_obeys (lineage : ∀ x a, LineageStep a → ok x a)
    (calls : ∀ c : Call, (c.prog r).Obeys after ok) (reqs : List Request) :
    (serve r reqs).Obeys after ok := by
  induction reqs with
  | nil => exact fun _ => trivial
  | cons req reqs ih =>
    refine Prog.Obeys.bind ?_ fun _ => ih
    cases req with
    | frame pseudonym msg =>
      have plain := calls (.message msg.sessionID ⟨msg.type, pseudonym, msg.payload⟩)
      refine Prog.Obeys.bind ?_ fun _ _ => trivial
      unfold dispatch
      split_ifs
      · exact fun _ => trivial
      cases msg.lineage with
      | some node => exact (handleLineageMessage_obeys lineage plain _).bind fun _ _ => trivial
      | none => exact plain.bind fun _ _ => trivial
    | begin sid cohortID => exact (calls (.begin sid cohortID)).bind fun _ _ => trivial
    | advanceTo sid target => exact (calls (.advanceTo sid target)).bind fun _ _ => trivial
    | ended sid => exact (calls (.ended sid)).bind fun _ _ => trivial

end

def Delivers (ok : String → String → Bytes → Prop) (a : Action α L) : Prop :=
  ∀ t p msgType sender payload, a = .onMessage t p msgType sender payload →
    ok msgType sender payload

section

variable {ok : String → String → Bytes → Prop}

theorem Delivers.quiet {a : Action α L} (h : isOnMessage a = false) : Delivers ok a := by
  rintro _ _ _ _ _ rfl
  cases h

theorem handleMessage_delivers (r : SessionRunner α L S) (sid : String)
    {msgType sender : String} {payload : Bytes} (hok : ok msgType sender payload) :
    (handleMessage r sid msgType sender payload).Always (Delivers ok) := by
  refine handleMessage_always r (.quiet rfl) ?_ fun _ _ h => .quiet h.quiet
  rintro _ _ - _ _ _ _ _ ⟨⟩
  exact hok

theorem handleLineageMessage_delivers {lin : LineageState S}
    (hl : r.lineage = some lin) {sid msgType sender : String} {payload : Bytes} {node : DAGNode}
    (hok : verify lin.sha256 node payload lin.verifiers = .ok () → ok msgType sender payload) :
    (handleLineageMessage r sid msgType sender payload (some node)).Always (Delivers ok) := by
  simp only [handleLineageMessage, hl, lineageMismatch]
  cases hv : verify lin.sha256 node payload lin.verifiers with
  | error e =>
    split_ifs
    · exact ⟨.quiet rfl, fun _ => trivial⟩
    · trivial
  | ok u =>
    refine ((checkParents_steps node.hash 0 node.parents).mono ?_).bind fun mismatch => ?_
    · exact fun a step => .quiet (by cases a <;> first | rfl | exact step.elim)
    cases mismatch with
    | some e =>
      split_ifs
      · exact ⟨.quiet rfl, fun _ => trivial⟩
      · trivial
    | none =>
      refine ⟨.quiet rfl, fun res => ?_⟩
      have hmsg := handleMessage_delivers r sid (hok hv)
      cases res with
      | none => exact hmsg
      | some e =>
        cases e with
        | nodeExists => exact hmsg
        | _ => trivial

theorem BeginStep.delivers {a : Action α L} (h : BeginStep a) : Delivers ok a := by
  rintro _ _ _ _ _ rfl
  exact h.elim

end

def CarriedBy (lin : LineageState S) (work : List Request) (msgType sender : String)
    (payload : Bytes) : Prop :=
  ∃ msg, .frame sender msg ∈ work ∧ msg.type = msgType ∧ msg.payload = payload ∧
    ((msg.lineage = none ∧ (msg.version = "" ∨ msg.version = wireProtocolVersion)) ∨
      ∃ node, msg.lineage = some node ∧ verify lin.sha256 node payload lin.verifiers = .ok ())

section

variable {lin : LineageState S}

theorem dispatch_delivers (hl : r.lineage = some lin) {pseudonym : String} {msg : WSMessage}
    (hv : validateInboundMessage msg = .ok ()) {work : List Request}
    (hm : .frame pseudonym msg ∈ work) :
    (dispatch r pseudonym msg).Always (Delivers (CarriedBy lin work)) := by
  unfold dispatch
  split_ifs
  · trivial
  cases hn : msg.lineage with
  | some node =>
    refine (handleLineageMessage_delivers hl fun hok => ?_).bind fun _ => trivial
    exact ⟨msg, hm, rfl, rfl, Or.inr ⟨node, hn, hok⟩⟩
  | none =>
    refine (handleMessage_delivers r _ ?_).bind fun _ => trivial
    exact ⟨msg, hm, rfl, rfl, Or.inl ⟨hn, validate_no_lineage hv hn⟩⟩

theorem serve_delivers (hl : r.lineage = some lin) {work reqs : List Request}
    (hsub : reqs ⊆ work) (hv : ∀ pseudonym msg, .frame pseudonym msg ∈ work →
      validateInboundMessage msg = .ok ()) :
    (serve r reqs).Always (Delivers (CarriedBy lin work)) := by
  induction reqs with
  | nil => trivial
  | cons req reqs ih =>
    obtain ⟨hreq, hrest⟩ := cons_subset.mp hsub
    refine Prog.Always.bind ?_ fun _ => ih hrest
    cases req with
    | frame pseudonym msg =>
      exact (dispatch_delivers hl (hv pseudonym msg hreq) hreq).bind fun _ => trivial
    | begin sid cohortID =>
      exact ((beginSession_steps sid cohortID).mono fun _ => BeginStep.delivers).bind
        fun _ => trivial
    | advanceTo sid target =>
      exact (advanceToState_always r target (.quiet rfl) fun _ _ h => .quiet h.quiet).bind
        fun _ => trivial
    | ended sid => exact ⟨.quiet rfl, fun _ => trivial⟩

/-- In every interleaving, what a phase receives came in an accepted frame, unverified only if that
frame is of the first version and carries no node. -/
theorem lineage_gate {ι : Type} [DecidableEq ι] {sha256 : Bytes → NodeRef}
    {phases : List (Phase α L)} {o : ComposeOptions S} (hr : composeWith sha256 phases o = .ok r)
    (ω : MapOrder) (store : S) (app : L) {work : ι → List Request}
    (hv : ∀ i pseudonym msg, .frame pseudonym msg ∈ work i →
      validateInboundMessage msg = .ok ())
    {Q : Pool ι (RunnerState α L S) (Action α L) Action.Res Unit}
    (h : Pool.Run (sem r ω) (fun _ _ => True) (service r store app work) Q) :
    ∃ lin, r.lineage = some lin ∧ lin.sha256 = sha256 ∧
      ∀ x ∈ Q.history, Delivers (CarriedBy lin (work x.1)) x.2.act := by
  obtain ⟨-, -, signer, -, hl⟩ := composeWith_pipeline hr
  refine ⟨_, hl, rfl, ?_⟩
  exact Pool.always_history (sem r ω)
    (fun i => serve_delivers hl (List.Subset.refl _) (hv i)) h

end

/-- What `HandleLineageMessage` asks of a node: that it verifies for the payload, and that its
parents are stored. -/
structure Acceptable (lin : LineageState S) (store : S) (payload : Bytes) (node : DAGNode) :
    Prop where
  verified : Verified lin.sha256 node payload lin.verifiers
  parents : ∀ parent ∈ node.parents, ∃ n, lin.store.get parent store = .ok n

def mismatchEvent (sid : String) (node : DAGNode) : LineageFailureEvent :=
  ⟨"mismatch-confirmed", sid, node.phaseID, node.role, node.producer, [node]⟩

def isStoreGet : Action α L → Bool
  | .storeGet _ => true
  | _ => false

section

variable (r : SessionRunner α L S) (ω : MapOrder) (lin : LineageState S) (sid : String)
  (m : Message) (node : DAGNode) (s : RunnerState α L S)

def afterAppend : RunnerState α L S := { s with store := (lin.store.append node s.store).2 }

def reported : List (RunnerEvent α L S) :=
  if lin.failureHook then [⟨s, .fireFailureHook (mismatchEvent sid node), ()⟩] else []

/-- Everything a `HandleLineageMessage` call with a node can do: look up parents, and then
report the node, fail to store it, or store it and handle the message. -/
inductive LineageRun : List (RunnerEvent α L S) → Outcome (Except RunErr Bool) →
    RunnerState α L S → Prop where
  | rejected {reads e} : ¬ Acceptable lin s.store m.payload node →
    (∀ d ∈ reads, isStoreGet d.act = true) →
    LineageRun (reads ++ reported lin sid node s)
      (.returned (.error (.mismatch sid node.phaseID node.role e))) s
  | unstored {reads e} : Acceptable lin s.store m.payload node →
    (∀ d ∈ reads, isStoreGet d.act = true) →
    (lin.store.append node s.store).1 = some e → e ≠ .nodeExists →
    LineageRun (reads ++ [⟨s, .storeAppend node, some e⟩])
      (.returned (.error (.storeAppend node.phaseID node.role e))) (afterAppend lin node s)
  | passed {reads e} : Acceptable lin s.store m.payload node →
    (∀ d ∈ reads, isStoreGet d.act = true) →
    (lin.store.append node s.store).1 = e → (e = none ∨ e = some .nodeExists) →
    LineageRun (reads ++ ⟨s, .storeAppend node, e⟩ ::
        (handleMessage r sid m.msgType m.sender m.payload).events (sem r ω)
          (afterAppend lin node s))
      ((handleMessage r sid m.msgType m.sender m.payload).result (sem r ω)
        (afterAppend lin node s))
      ((handleMessage r sid m.msgType m.sender m.payload).final (sem r ω)
        (afterAppend lin node s))

variable {r lin}

theorem checkParents_spec (hl : r.lineage = some lin) (hash : NodeRef) (i : ℕ)
    (parents : List NodeRef) :
    (checkParents hash i parents).final (sem r ω) s = s ∧
    ((checkParents hash i parents).result (sem r ω) s = none ↔
      ∀ parent ∈ parents, ∃ n, lin.store.get parent s.store = .ok n) ∧
    ∀ d ∈ (checkParents hash i parents).events (sem r ω) s, isStoreGet d.act = true := by
  induction parents generalizing i with
  | nil => simp [checkParents]
  | cons parent parents ih =>
    simp only [checkParents, call, Prog.call_bind, Prog.final_act,
      Prog.result_act, Prog.events_act, sem, storeGet, hl]
    cases hget : lin.store.get parent s.store with
    | error e => simp [hget, isStoreGet]
    | ok n =>
      obtain ⟨hfin, hres, hevs⟩ := ih (i + 1)
      refine ⟨hfin, by simpa [hget] using hres, ?_⟩
      intro d hd
      rcases mem_cons.mp hd with rfl | hd
      · rfl
      · exact hevs d hd

theorem lineageMismatch_spec (hl : r.lineage = some lin) (payload : Bytes) :
    (lineageMismatch lin payload node).final (sem r ω) s = s ∧
    ((lineageMismatch lin payload node).result (sem r ω) s = none ↔
      Acceptable lin s.store payload node) ∧
    ∀ d ∈ (lineageMismatch lin payload node).events (sem r ω) s, isStoreGet d.act = true := by
  unfold lineageMismatch
  cases hv : verify lin.sha256 node payload lin.verifiers with
  | error e =>
    refine ⟨rfl, iff_of_false (by simp) fun h => ?_, by simp⟩
    cases hv.symm.trans ((verify_ok_iff _).mpr h.verified)
  | ok u =>
    obtain ⟨hfin, hres, hevs⟩ := checkParents_spec ω s hl node.hash 0 node.parents
    refine ⟨hfin, hres.trans ⟨fun h => ⟨(verify_ok_iff _).mp hv, h⟩, fun h => h.parents⟩, hevs⟩

theorem handleLineageMessage_run (hl : r.lineage = some lin) :
    LineageRun r ω lin sid m node s
      ((handleLineageMessage r sid m.msgType m.sender m.payload (some node)).events (sem r ω) s)
      ((handleLineageMessage r sid m.msgType m.sender m.payload (some node)).result (sem r ω) s)
      ((handleLineageMessage r sid m.msgType m.sender m.payload (some node)).final
        (sem r ω) s) := by
  obtain ⟨hfin, hres, hreads⟩ := lineageMismatch_spec ω node s hl m.payload
  simp only [handleLineageMessage, hl, Prog.events_bind, Prog.result_bind, Prog.final_bind, hfin]
  cases hmis : (lineageMismatch lin m.payload node).result (sem r ω) s with
  | some e =>
    have hnot : ¬ Acceptable lin s.store m.payload node := by
      intro h
      cases hmis.symm.trans (hres.mpr h)
    have hrun : LineageRun r ω lin sid m node s (_ ++ reported lin sid node s)
        (.returned (.error (.mismatch sid node.phaseID node.role e))) s :=
      .rejected hnot hreads
    unfold reported mismatchEvent at hrun
    cases hh : lin.failureHook with
    | true => simpa [hh, call, sem] using hrun
    | false => simpa [hh] using hrun
  | none =>
    have hacc := hres.mp hmis
    have hsem : sem r ω (.storeAppend node) s =
        ((lin.store.append node s.store).1, afterAppend lin node s) := by
      simp [sem, storeAppend, hl, afterAppend]
    simp only [call, Prog.call_bind, Prog.events_act, Prog.result_act, Prog.final_act, hsem]
    cases happ : (lin.store.append node s.store).1 with
    | none => exact .passed hacc hreads happ (Or.inl rfl)
    | some e =>
      cases e with
      | nodeExists => exact .passed hacc hreads happ (Or.inr rfl)
      | nodeNotFound | backend text => exact .unstored hacc hreads happ (by rintro ⟨⟩)

end

section

variable {r : SessionRunner α L InMemoryStore} {lin : LineageState InMemoryStore} {ω : MapOrder}
  {s : RunnerState α L InMemoryStore}

theorem commitArtifacts_walks (hl : r.lineage = some lin) (ho : lin.store = InMemoryStore.ops)
    (sid : String) (as : List Artifact) (store : InMemoryStore) :
    InMemoryStore.OnlyWalks (· = sid) store (commitArtifacts r sid as store) := by
  induction as generalizing store with
  | nil => exact .refl _ store
  | cons a as ih =>
    simp only [commitArtifacts, hl]
    split
    · exact ih store
    · rename_i node hn
      have happ : InMemoryStore.OnlyWalks (· = sid) store (InMemoryStore.append node store).2 :=
        InMemoryStore.onlyWalks_append store (commit_sessionID _ hn)
      rw [ho]
      exact happ.trans (ih _)

theorem commitOutputs_walks (ho : lin.store = InMemoryStore.ops) (ctx : SessionContext α)
    (phase : String) (parents : List DAGNode) (provs : List (String × ContextKeyType))
    (store : InMemoryStore) : InMemoryStore.OnlyWalks (· = ctx.sessionID) store
      (commitOutputs lin ctx phase parents provs store).2 := by
  induction provs generalizing store with
  | nil => exact .refl _ store
  | cons prov provs ih =>
    unfold commitOutputs
    split_ifs
    · exact ih store
    split
    · split
      · exact .refl _ store
      · rename_i node hn
        have happ : InMemoryStore.OnlyWalks (· = ctx.sessionID) store
            (lin.store.append node store).2 := by
          rw [ho]
          exact InMemoryStore.onlyWalks_append store (commit_sessionID _ hn)
        split <;> rename_i hres <;> rw [hres] at happ
        · exact happ.trans (ih _)
        · exact happ.trans (ih _)
        · exact happ
    · exact ih store

theorem local_walks_step (hl : r.lineage = some lin) (ho : lin.store = InMemoryStore.ops)
    {t : Ref} {a : Action α L} (h : Local t a) (s : RunnerState α L InMemoryStore) :
    ((sem r ω a s).2.trackers t).ctx.sessionID = (s.trackers t).ctx.sessionID ∧
    InMemoryStore.OnlyWalks (· = (s.trackers t).ctx.sessionID) s.store (sem r ω a s).2.store := by
  cases a with
  | readCurrent | readState | checkComplete => exact ⟨rfl, .refl _ _⟩
  | moveTo | clearCurrent | setEntered =>
    obtain rfl : _ = t := h
    simp only [sem, updateTracker_apply, if_true]
    exact ⟨trivial, .refl _ _⟩
  | enter | onMessage | exit =>
    obtain rfl : _ = t := h
    simp only [sem, applyHook, updateTracker_apply, if_true]
    exact ⟨trivial, commitArtifacts_walks hl ho _ _ _⟩
  | commit t' p =>
    obtain rfl : t' = t := h
    simp only [sem, commitPhaseOutputsIfEnabled, hl]
    split
    · exact ⟨rfl, .refl _ _⟩
    · exact ⟨rfl, commitOutputs_walks ho _ _ _ _ _⟩
  | _ => exact h.elim

theorem local_walks (hl : r.lineage = some lin) (ho : lin.store = InMemoryStore.ops) {t : Ref}
    {β : Type} {prog : RunnerProg α L β} (h : prog.Always (Local t))
    (s : RunnerState α L InMemoryStore) :
    InMemoryStore.OnlyWalks (· = (s.trackers t).ctx.sessionID) s.store
      (prog.final (sem r ω) s).store := by
  refine (h.final _ (I := fun s' : RunnerState α L InMemoryStore =>
    (s'.trackers t).ctx.sessionID = (s.trackers t).ctx.sessionID ∧
    InMemoryStore.OnlyWalks (· = (s.trackers t).ctx.sessionID) s.store s'.store) ?_
    ⟨rfl, .refl _ _⟩).2
  rintro a s' ha ⟨hid, hw⟩
  obtain ⟨hid', hw'⟩ := local_walks_step hl ho ha s'
  rw [hid] at hw'
  exact ⟨hid'.trans hid, hw.trans hw'⟩

/-- What every reachable state satisfies: the index of the store is complete, and a session's
tracker belongs to that session. -/
structure Anchored (s : RunnerState α L InMemoryStore) : Prop where
  indexed : s.store.Indexed
  known : ∀ sid t, s.sessions sid = some t → t < s.nextRef
  owner : ∀ sid t, s.sessions sid = some t → (s.trackers t).ctx.sessionID = sid

section

variable (hl : r.lineage = some lin) (ho : lin.store = InMemoryStore.ops)
  {s : RunnerState α L InMemoryStore}

include hl ho

theorem Anchored.local {t : Ref} {a : Action α L} (h : Local t a) (hs : Anchored s) : Anchored
    (sem r ω a s).2 := by
  have hframe := local_framed (r := r) (ω := ω) h s
  obtain ⟨hid, hw⟩ := local_walks_step hl ho h s
  refine ⟨(hw hs.indexed).1, ?_, ?_⟩
  · rw [hframe.sessions, hframe.nextRef]
    exact hs.known
  · rw [hframe.sessions]
    intro sid t' ht'
    by_cases hne : t' = t
    · subst hne
      exact hid.trans (hs.owner sid t' ht')
    · rw [hframe.others t' hne]
      exact hs.owner sid t' ht'

theorem anchored_sem (a : Action α L) (hs : Anchored s) : Anchored (sem r ω a s).2 := by
  cases a with
  | lookup | storeGet | fireFailureHook => exact hs
  | storeAppend n =>
    simp only [sem, storeAppend, hl, ho]
    exact ⟨InMemoryStore.indexed_append hs.indexed n, hs.known, hs.owner⟩
  | deleteSession sid =>
    refine ⟨hs.indexed, fun sid' t ht => ?_, fun sid' t ht => ?_⟩ <;>
      simp only [sem, Function.update_apply] at ht <;> split_ifs at ht
    · exact hs.known sid' t ht
    · exact hs.owner sid' t ht
  | create sid cohortID =>
    simp only [sem, createSession]
    split
    · exact hs
    split
    · exact hs
    refine ⟨hs.indexed, fun sid' t ht => ?_, fun sid' t ht => ?_⟩ <;>
      simp only [Function.update_apply] at ht ⊢ <;> split_ifs at ht with hsid
    · cases ht
      exact Nat.lt_succ_self _
    · exact Nat.lt_succ_of_lt (hs.known sid' t ht)
    · cases ht
      simp [newSessionContext, hsid]
    · rw [if_neg (hs.known sid' t ht).ne]
      exact hs.owner sid' t ht
  | readCurrent t | readState t | clearCurrent t | setEntered t | moveTo t | enter t
  | onMessage t | checkComplete t | exit t | commit t =>
    refine hs.local (t := t) hl ho ?_
    exact rfl

end

theorem handleMessage_reaches (r : SessionRunner α L S) (ω : MapOrder) (sid : String)
    (m : Message) (s : RunnerState α L S) :
    let es := (handleMessage r sid m.msgType m.sender m.payload).events (sem r ω) s
    ((∃ e ∈ es, isOnMessage e.act = true) ↔ ∃ t p, s.sessions sid = some t ∧
      (s.trackers t).current = some p ∧ m.msgType ∈ p.consumedMessageTypes) ∧
    ∀ e ∈ es, isOnMessage e.act = true → ∃ t p, s.sessions sid = some t ∧
      (s.trackers t).current = some p ∧
      e.act = .onMessage t p m.msgType m.sender m.payload := by
  have hrun := handleMessage_run r ω sid m s
  generalize handleMessage .. = f at *
  generalize f.events _ _ = es, f.result _ _ = o, f.final _ _ = s' at *
  cases hrun with
  | inactive hs => simp [isOnMessage, hs]
  | noPhase hs hp =>
    refine ⟨iff_of_false (by simp [isOnMessage]) ?_, by simp [isOnMessage]⟩
    rintro ⟨t', p', hs', hp', -⟩
    rw [hs] at hs'
    cases hs'
    rw [hp] at hp'
    cases hp'
  | notConsumed hs hp hm =>
    refine ⟨iff_of_false (by simp [isOnMessage]) ?_, by simp [isOnMessage]⟩
    rintro ⟨t', p', hs', hp', hm'⟩
    rw [hs] at hs'
    cases hs'
    rw [hp] at hp'
    cases hp'
    exact hm hm'
  | @messageFailed t p _ hs hp hm | @waiting t p hs hp hm =>
    refine ⟨iff_of_true (by simp [isOnMessage]) ⟨t, p, hs, hp, hm⟩, ?_⟩
    simp only [mem_cons, not_mem_nil, or_false]
    rintro e (rfl | rfl | rfl | rfl) he <;> first | exact ⟨t, p, hs, hp, rfl⟩ | cases he
  | @advancing t p hs hp hm =>
    refine ⟨iff_of_true (by simp [isOnMessage]) ⟨t, p, hs, hp, hm⟩, fun e he hmsg => ?_⟩
    rcases mem_append.mp he with he | he
    · simp only [mem_cons, not_mem_nil, or_false] at he
      rcases he with rfl | rfl | rfl | rfl <;> first | exact ⟨t, p, hs, hp, rfl⟩ | cases hmsg
    · rw [((advance_steps r t _).events _ _ e he).quiet] at hmsg
      cases hmsg

theorem handleMessage_walks (hl : r.lineage = some lin) (ho : lin.store = InMemoryStore.ops)
    (hs : Anchored s) (sid : String) (m : Message) :
    InMemoryStore.OnlyWalks (· = sid) s.store
      ((handleMessage r sid m.msgType m.sender m.payload).final (sem r ω) s).store := by
  have hrun := handleMessage_run r ω sid m s
  generalize handleMessage .. = f at *
  generalize f.events _ _ = es, f.result _ _ = o, f.final _ _ = s' at *
  have hmessage : ∀ t p, s.sessions sid = some t →
      ((afterMessage r ω m s t p).trackers t).ctx.sessionID = sid ∧
      InMemoryStore.OnlyWalks (· = sid) s.store (afterMessage r ω m s t p).store := by
    intro t p ht
    have hlocal := local_walks_step (ω := ω) hl ho
      (a := .onMessage t p m.msgType m.sender m.payload) rfl s
    rw [hs.owner sid t ht] at hlocal
    exact hlocal
  cases hrun with
  | inactive | noPhase | notConsumed => exact .refl _ _
  | @messageFailed t p _ ht | @waiting t p ht => exact (hmessage t p ht).2
  | @advancing t p ht =>
    obtain ⟨hid, hw⟩ := hmessage t p ht
    have hsteps := (advance_steps r t (r.phases.length + 1)).mono fun _ => WalkStep.local
    have hrest := local_walks (ω := ω) hl ho hsteps (afterMessage r ω m s t p)
    rw [hid] at hrest
    exact hw.trans hrest

theorem anchored_service {ι : Type} [DecidableEq ι] (hl : r.lineage = some lin)
    (ho : lin.store = InMemoryStore.ops) {app : L} {work : ι → List Request}
    {Q : Pool ι (RunnerState α L InMemoryStore) (Action α L) Action.Res Unit}
    (h : Pool.Run (sem r ω) (fun _ _ => True) (service r InMemoryStore.empty app work) Q) :
    Anchored Q.state := by
  refine h.invariant (sem r ω) (I := fun Q => Anchored Q.state) ?_
    ⟨InMemoryStore.indexed_empty, nofun, nofun⟩
  intro P i R hP _ hs
  obtain ⟨a, k, -, rfl⟩ := Pool.step_eq_some _ hs
  exact anchored_sem hl ho a hP

theorem not_isOnMessage_of_isStoreGet {a : Action α L} (h : isStoreGet a = true) :
    isOnMessage a = false := by
  cases a with
  | storeGet => rfl
  | _ => cases h

theorem acceptable_iff (ho : lin.store = InMemoryStore.ops) {store : InMemoryStore}
    {payload : Bytes} {node : DAGNode} :
    Acceptable lin store payload node ↔ verify lin.sha256 node payload lin.verifiers = .ok () ∧
      ∀ parent ∈ node.parents, (store.byHash parent).isSome := by
  have hget : ∀ ref, (∃ n, lin.store.get ref store = .ok n) ↔ (store.byHash ref).isSome := by
    intro ref
    simp only [ho, InMemoryStore.ops, InMemoryStore.get]
    cases store.byHash ref <;> simp
  rw [verify_ok_iff]
  constructor
  · intro h
    exact ⟨h.verified, fun parent hp => (hget parent).mp (h.parents parent hp)⟩
  · intro h
    exact ⟨h.1, fun parent hp => (hget parent).mpr (h.2 parent hp)⟩

theorem append_refuses {store : InMemoryStore} {node : DAGNode} {e : StoreErr}
    (h : (InMemoryStore.append node store).1 = some e) : e = .nodeExists := by
  unfold InMemoryStore.append at h
  cases hn : store.byHash node.hash with
  | none => simp [hn] at h
  | some n => simpa [hn] using h.symm

theorem handleLineageMessage_reaches (hl : r.lineage = some lin)
    (ho : lin.store = InMemoryStore.ops) (s : RunnerState α L InMemoryStore) (sid : String)
    (m : Message) (node : DAGNode) :
    let es := (handleLineageMessage r sid m.msgType m.sender m.payload (some node)).events
      (sem r ω) s
    ((∃ e ∈ es, isOnMessage e.act = true) ↔
      verify lin.sha256 node m.payload lin.verifiers = .ok () ∧
      (∀ parent ∈ node.parents, (s.store.byHash parent).isSome) ∧
      ∃ t p, s.sessions sid = some t ∧ (s.trackers t).current = some p ∧
        m.msgType ∈ p.consumedMessageTypes) ∧
    ∀ e ∈ es, isOnMessage e.act = true → ∃ t p, s.sessions sid = some t ∧
      (s.trackers t).current = some p ∧
      e.act = .onMessage t p m.msgType m.sender m.payload := by
  have hrun := handleLineageMessage_run ω sid m node s hl
  have hreach := handleMessage_reaches r ω sid m (afterAppend lin node s)
  generalize handleLineageMessage .. = f at *
  generalize f.events _ _ = es, f.result _ _ = o, f.final _ _ = s' at *
  rw [← and_assoc, ← acceptable_iff ho]
  cases hrun with
  | @rejected reads e hnot hreads =>
    have hquiet : ∀ d ∈ reads ++ reported lin sid node s, isOnMessage d.act ≠ true := by
      intro d hd
      rcases mem_append.mp hd with hd | hd
      · simp [not_isOnMessage_of_isStoreGet (hreads d hd)]
      · unfold reported at hd
        split_ifs at hd
        · rw [mem_singleton.mp hd]
          simp [isOnMessage]
        · cases hd
    refine ⟨iff_of_false ?_ fun h => hnot h.1, fun d hd hmsg => (hquiet d hd hmsg).elim⟩
    rintro ⟨d, hd, hmsg⟩
    exact hquiet d hd hmsg
  | unstored _ _ happ hne => exact (hne (append_refuses (by rwa [ho] at happ))).elim
  | @passed reads e hacc hreads =>
    have hmem : ∀ d ∈ reads ++ ⟨s, .storeAppend node, e⟩ ::
        (handleMessage r sid m.msgType m.sender m.payload).events (sem r ω)
          (afterAppend lin node s), isOnMessage d.act = true →
        d ∈ (handleMessage r sid m.msgType m.sender m.payload).events (sem r ω)
          (afterAppend lin node s) := by
      intro d hd hmsg
      rcases mem_append.mp hd with hd | hd
      · rw [not_isOnMessage_of_isStoreGet (hreads d hd)] at hmsg
        cases hmsg
      · rcases mem_cons.mp hd with rfl | hd
        · cases hmsg
        · exact hd
    refine ⟨⟨?_, ?_⟩, fun d hd hmsg => hreach.2 d (hmem d hd hmsg) hmsg⟩
    · rintro ⟨d, hd, hmsg⟩
      exact ⟨hacc, hreach.1.mp ⟨d, hmem d hd hmsg, hmsg⟩⟩
    · rintro ⟨-, hphase⟩
      obtain ⟨d, hd, hmsg⟩ := hreach.1.mpr hphase
      exact ⟨d, mem_append_right _ (mem_cons_of_mem _ hd), hmsg⟩

theorem handleLineageMessage_walks (hl : r.lineage = some lin)
    (ho : lin.store = InMemoryStore.ops) (hs : Anchored s)
    (sid : String) (m : Message) (node : DAGNode) :
    InMemoryStore.OnlyWalks (fun id => id = node.sessionID ∨ id = sid) s.store
      ((handleLineageMessage r sid m.msgType m.sender m.payload (some node)).final
        (sem r ω) s).store := by
  have hrun := handleLineageMessage_run ω sid m node s hl
  generalize handleLineageMessage .. = f at *
  generalize f.events _ _ = es, f.result _ _ = o, f.final _ _ = s' at *
  have happend : InMemoryStore.OnlyWalks (fun id => id = node.sessionID ∨ id = sid) s.store
      (afterAppend lin node s).store := by
    simp only [afterAppend, ho]
    exact InMemoryStore.onlyWalks_append s.store (Or.inl rfl)
  cases hrun with
  | rejected => exact .refl _ _
  | unstored => exact happend
  | passed =>
    have hanchored : Anchored (afterAppend lin node s) :=
      ⟨(happend hs.indexed).1, hs.known, hs.owner⟩
    have hmessage := handleMessage_walks (ω := ω) hl ho hanchored sid m
    exact happend.trans (hmessage.mono fun _ h => Or.inr h)

/-- Everything a lineage message is checked against: its node on its own, the node's parents, and
whether the session's current phase takes the type. The phase that receives it is the session's
current one, and only two walks can grow. -/
theorem lineage_message_checks {ι : Type} [DecidableEq ι] {sha256 : Bytes → NodeRef}
    {phases : List (Phase α L)} {o : ComposeOptions InMemoryStore}
    (hr : composeWith sha256 phases o = .ok r) (ho : o.store = InMemoryStore.ops) {app : L}
    {work : ι → List Request}
    {Q : Pool ι (RunnerState α L InMemoryStore) (Action α L) Action.Res Unit}
    (h : Pool.Run (sem r ω) (fun _ _ => True) (service r InMemoryStore.empty app work) Q)
    (sid : String) (m : Message) (node : DAGNode) :
    ∃ lin, r.lineage = some lin ∧ lin.sha256 = sha256 ∧
      let prog := handleLineageMessage r sid m.msgType m.sender m.payload (some node)
      let es := prog.events (sem r ω) Q.state
      ((∃ e ∈ es, isOnMessage e.act = true) ↔
        verify sha256 node m.payload lin.verifiers = .ok () ∧
        (∀ parent ∈ node.parents, (Q.state.store.byHash parent).isSome) ∧
        ∃ t p, Q.state.sessions sid = some t ∧ (Q.state.trackers t).current = some p ∧
          m.msgType ∈ p.consumedMessageTypes) ∧
      (∀ e ∈ es, isOnMessage e.act = true → ∃ t p, Q.state.sessions sid = some t ∧
        (Q.state.trackers t).current = some p ∧
        e.act = .onMessage t p m.msgType m.sender m.payload) ∧
      ∀ id, id ≠ node.sessionID → id ≠ sid →
        (prog.final (sem r ω) Q.state).store.walk id = Q.state.store.walk id := by
  obtain ⟨-, -, signer, -, hl⟩ := composeWith_pipeline hr
  have hQ := anchored_service hl ho h
  obtain ⟨hiff, hphase⟩ := handleLineageMessage_reaches hl ho Q.state sid m node
  have hwalks := handleLineageMessage_walks (ω := ω) hl ho hQ sid m node
  refine ⟨_, hl, rfl, hiff, hphase, fun id hnode hsid => ?_⟩
  exact (hwalks hQ.indexed).2 id (by simp [hnode, hsid])

end

def toyHash (b : Bytes) : NodeRef :=
  Vector.ofFn fun i => b.foldl (fun acc x => acc * 31 + x) (UInt8.ofNat i.val)

def foldHash (b : Bytes) : NodeRef :=
  Vector.replicate 32 (.ofNat (b.foldl (fun acc x => acc * 31 + x.toNat) 0))

def toySigner : Signer where
  sign msg := .ok (1 :: msg)
  verify key msg sig := if key ++ msg = sig then none else some "bad signature"
  publicKey := [1]
  algorithm := "toy"

def gatePhases : List (Phase Unit Unit) :=
  [quorumPhase "collect" "collecting" stateNone "share" "shares" 2]

def gateOptions : ComposeOptions InMemoryStore :=
  ⟨InMemoryStore.ops, some toySigner, ⟨[("toy", toySigner)], by simp⟩, false⟩

def gateRunner : SessionRunner Unit Unit InMemoryStore :=
  (composeWith toyHash gatePhases gateOptions).toOption.get (by decide)

def signedShare (sid phaseID : String) : DAGNode :=
  (commit toyHash sid phaseID "share" [42] [] toySigner).toOption.get rfl

def shareFrame (version : String) (lineage : Option DAGNode) : WSMessage :=
  ⟨version, "share", "b", [42], lineage⟩

def oneClient (msgs : List WSMessage) : Unit → List Request := fun _ =>
  .begin "b" "" :: msgs.map (.frame "alice")

def afterFrames (msgs : List WSMessage) :
    Pool Unit (RunnerState Unit Unit InMemoryStore) (SessionRunner.Action Unit Unit)
      SessionRunner.Action.Res Unit :=
  (service gateRunner InMemoryStore.empty () (oneClient msgs)).runSchedule
    (sem gateRunner .listed) (List.replicate 12 ())

theorem afterFrames_run (msgs : List WSMessage) :
    Pool.Run (sem gateRunner .listed) (fun _ _ => True)
      (service gateRunner InMemoryStore.empty () (oneClient msgs)) (afterFrames msgs) :=
  Pool.runSchedule_run ..

def receivers (es : List (RunnerEvent Unit Unit InMemoryStore)) : List String :=
  es.filterMap fun e => match e.act with
    | .onMessage _ p _ _ _ => some p.name
    | _ => none

def signedFrame : WSMessage := shareFrame "2" (some (signedShare "b" "collect"))

theorem lineage_gate_signed : composeWith toyHash gatePhases gateOptions = .ok gateRunner ∧
    receivers ((afterFrames [signedFrame]).history.map Prod.snd) = ["collect"] ∧
    ∃ lin, gateRunner.lineage = some lin ∧ lin.sha256 = toyHash ∧
      ∀ x ∈ (afterFrames [signedFrame]).history,
        Delivers (CarriedBy lin (oneClient [signedFrame] x.1)) x.2.act := by
  have hr : composeWith toyHash gatePhases gateOptions = .ok gateRunner := rfl
  refine ⟨hr, by decide +kernel,
    lineage_gate hr .listed InMemoryStore.empty () ?_ (afterFrames_run [signedFrame])⟩
  intro i pseudonym msg hmsg
  simp only [oneClient, map_cons, map_nil, mem_cons, reduceCtorEq,
    Request.frame.injEq, not_mem_nil, or_false, false_or] at hmsg
  rw [hmsg.2]
  rfl

/-- A first-version frame without a node is accepted and delivered on a lineage runner. -/
theorem unsigned_frame_delivered :
    composeWith toyHash gatePhases gateOptions = .ok gateRunner ∧
    validateInboundMessage (shareFrame "1" none) = .ok () ∧ (shareFrame "1" none).lineage = none ∧
    ∃ Q, Pool.Run (sem gateRunner .listed) (fun _ _ => True)
        (service gateRunner InMemoryStore.empty () (oneClient [shareFrame "1" none])) Q ∧
      receivers (Q.history.map Prod.snd) = ["collect"] := by
  refine ⟨rfl, rfl, rfl, _, afterFrames_run _, ?_⟩
  decide +kernel

def replayEvents (node : DAGNode) : List (RunnerEvent Unit Unit InMemoryStore) :=
  (handleLineageMessage gateRunner "b" "share" "alice" [42] (some node)).events
    (sem gateRunner .listed) (afterFrames []).state

def replayStore (node : DAGNode) : InMemoryStore :=
  ((handleLineageMessage gateRunner "b" "share" "alice" [42] (some node)).final
    (sem gateRunner .listed) (afterFrames []).state).store

theorem lineage_message_checks_own :
    receivers (replayEvents (signedShare "b" "collect")) = ["collect"] ∧
    ∀ id, id ≠ "b" → (replayStore (signedShare "b" "collect")).walk id =
      (afterFrames []).state.store.walk id := by
  have hr : composeWith toyHash gatePhases gateOptions = .ok gateRunner := rfl
  obtain ⟨_, -, -, -, -, hwalk⟩ := lineage_message_checks hr rfl (afterFrames_run []) "b"
    ⟨"share", "alice", [42]⟩ (signedShare "b" "collect")
  exact ⟨by decide +kernel, fun id hid => hwalk id hid hid⟩

/-- A node signed for session `a` and another phase is accepted in session `b`: it is delivered to a
phase it does not name, and lands in the walk of `a`. -/
theorem foreign_node_delivered :
    composeWith toyHash gatePhases gateOptions = .ok gateRunner ∧
    (signedShare "a" "reveal").sessionID = "a" ∧ (signedShare "a" "reveal").phaseID = "reveal" ∧
    receivers (replayEvents (signedShare "a" "reveal")) = ["collect"] ∧
    (afterFrames []).state.store.walk "a" = [] ∧
    (replayStore (signedShare "a" "reveal")).walk "a" = [signedShare "a" "reveal"] := by
  refine ⟨rfl, rfl, rfl, ?_, ?_, ?_⟩ <;> decide +kernel

section

variable {α L : Type} {r : SessionRunner α L InMemoryStore} {ω : MapOrder}
  {lin : LineageState InMemoryStore}

theorem handleMessage_framed (sid : String) (m : Message)
    (s : RunnerState α L InMemoryStore) :
    let s' := (handleMessage r sid m.msgType m.sender m.payload).final (sem r ω) s
    s' = s ∨ ∃ t, s.sessions sid = some t ∧ Framed t s s' := by
  have hrun := handleMessage_run r ω sid m s
  generalize handleMessage .. = f at *
  generalize f.events _ _ = es, f.result _ _ = o, f.final _ _ = s' at *
  cases hrun with
  | inactive | noPhase | notConsumed => exact .inl rfl
  | messageFailed ht | waiting ht => exact .inr ⟨_, ht, local_framed (a := .onMessage ..) rfl s⟩
  | @advancing t p ht =>
    have hlocal := (advance_steps r t (r.phases.length + 1)).mono fun _ => WalkStep.local
    exact .inr ⟨t, ht, (local_framed (a := .onMessage t p ..) rfl s).trans (local_final hlocal _)⟩

/-- Whatever its clients have done to the service, a message for one session leaves every other
session and its lineage where they are. -/
theorem message_spares_others {ι : Type} [DecidableEq ι] (hl : r.lineage = some lin)
    (ho : lin.store = InMemoryStore.ops) {app : L} {work : ι → List Request}
    {Q : Pool ι (RunnerState α L InMemoryStore) (Action α L) Action.Res Unit}
    (h : Pool.Run (sem r ω) (fun _ _ => True) (service r InMemoryStore.empty app work) Q)
    {sid other : String} (hne : other ≠ sid) (m : Message) :
    let s' := (handleMessage r sid m.msgType m.sender m.payload).final (sem r ω) Q.state
    (s'.sessions other).map s'.trackers = (Q.state.sessions other).map Q.state.trackers ∧
      s'.store.walk other = Q.state.store.walk other := by
  have hQ := anchored_service hl ho h
  refine ⟨?_, (handleMessage_walks hl ho hQ sid m hQ.indexed).2 other hne⟩
  obtain same | ⟨t, ht, hframe⟩ := handleMessage_framed (ω := ω) sid m Q.state
  · rw [same]
  rw [hframe.sessions]
  refine Option.map_congr fun t' active => hframe.others t' ?_
  rintro rfl
  exact hne ((hQ.owner other _ active).symm.trans (hQ.owner sid _ ht))

end

def twoSessions : Unit → List Request := fun _ => [.begin "a" "", .begin "b" ""]

theorem message_spares_b :
    let Q := (service gateRunner InMemoryStore.empty () twoSessions).runSchedule
      (sem gateRunner .listed) (List.replicate 6 ())
    let s' := (handleMessage gateRunner "a" "share" "alice" []).final (sem gateRunner .listed)
      Q.state
    (s'.sessions "b").map s'.trackers = some (Q.state.trackers 1) :=
  (message_spares_others rfl rfl (Pool.runSchedule_run ..) (by decide) ⟨"share", "alice", []⟩).1

end LineageDispatch
