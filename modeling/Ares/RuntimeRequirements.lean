import Ares.LineageDispatch
import Ares.PipelineShapes

/-! `Compose` checks that an earlier phase declares each required key. -/
namespace RuntimeRequirements

open InterleavedPrograms LineageDispatch LineageNodes PhasePipelines PipelineShapes SessionRunner
  SessionRunnerDiscipline List Function

variable {α L S : Type} {r : SessionRunner α L S}

def Required (p : Phase α L) (key : String) : Prop :=
  ∃ kt, (key, kt) ∈ p.requires.entries ∧ kt.required = true

def Present (ctx : SessionContext α) (key : String) : Prop := (ctx.values key).isSome

/-- How `MustGet` ends; its two panics name the key. -/
inductive MustGot (β : Type) where
  | value (b : β)
  | notSet (key : String)
  | wrongType (key : String)

def mustGet {β : Type} (assertType : Value α → Option β) (ctx : SessionContext α) (key : String) :
    MustGot β :=
  match ctx.values key with
  | none => .notSet key
  | some v =>
    match assertType v with
    | none => .wrongType key
    | some typed => .value typed

theorem mustGet_notSet_iff {β : Type} (assertType : Value α → Option β) (ctx : SessionContext α)
    (key : String) : mustGet assertType ctx key = .notSet key ↔ ¬ Present ctx key := by
  unfold mustGet Present
  cases ctx.values key with
  | none => simp
  | some v => cases asserted : assertType v <;> simp [asserted]

def Supplies (p : Phase α L) (key : String) : Prop :=
  ∀ e, (∀ k, Required p k → Present e.ctx k) → (p.exit e).err = none →
    ((p.exit e).values key).isSome

def Held (r : SessionRunner α L S) (p : Phase α L) (key : String) : Prop :=
  ∃ (i j : ℕ) (q : Phase α L), i < j ∧ (inlinePhases r.phases)[i]? = some q ∧
    (inlinePhases r.phases)[j]? = some p ∧ Supplies q key

def Supplied (r : SessionRunner α L S) : Prop :=
  ∀ p ∈ inlinePhases r.phases, ∀ key, Required p key → Held r p key

/-- The context has no way to remove a key: a hook can only set and update. -/
structure KeepsKeys (p : Phase α L) : Prop where
  enter : ∀ e key, Present e.ctx key → ((p.enter e).values key).isSome
  onMessage : ∀ msgType sender payload e key, Present e.ctx key →
    ((p.onMessage msgType sender payload e).values key).isSome
  exit : ∀ e key, Present e.ctx key → ((p.exit e).values key).isSome

/-- If the step enters a phase, it finds the keys the phase requires, and `MustGet` on one of them
does not panic for want of the key. -/
def Met (e : Event (RunnerState α L S) (Action α L) Action.Res) : Prop :=
  ∀ t p, e.act = .enter t p → ∀ key, Required p key →
    Present (e.pre.trackers t).ctx key ∧
      ∀ (β : Type) (assertType : Value α → Option β),
        mustGet assertType (e.pre.trackers t).ctx key ≠ .notSet key

section

variable {p q : Phase α L} {key : String}

theorem held_next (hr : Pipeline r) (member : p ∈ inlinePhases r.phases)
    (next : r.byEntryState p.exitState = some q) (held : Held r q key) :
    Held r p key ∨ Supplies p key := by
  obtain ⟨i, j, supplier, before, there, here, supplies⟩ := held
  obtain ⟨m, at_m⟩ := mem_iff_getElem?.mp member
  have inside := (List.getElem?_eq_some_iff.mp here).1
  by_cases last : m + 1 < (inlinePhases r.phases).length
  · -- the phase is followed by the next one of the list
    have follows := hr.next at_m (List.getElem?_eq_getElem last)
    rw [next, Option.some.injEq] at follows
    have same := position_unique hr here (List.getElem?_eq_getElem last) (by rw [follows])
    rcases Nat.lt_or_ge i m with earlier | late
    · exact .inl ⟨i, m, supplier, earlier, there, at_m, supplies⟩
    · have this : i = m := by omega
      rw [this, at_m, Option.some.injEq] at there
      exact .inr (there ▸ supplies)
  · exact .inl ⟨i, m, supplier, by omega, there, at_m, supplies⟩

theorem not_held_first (hr : Pipeline r) (first : r.byEntryState r.initialState = some p) :
    ¬ Held r p key := by
  rintro ⟨i, j, q, before, there, here, -⟩
  obtain ⟨-, entry⟩ := (hr.byEntry _ _).mp first
  have initial := hr.initial
  cases phases : inlinePhases r.phases with
  | nil => simp [phases] at here
  | cons head tail =>
    rw [phases] at initial
    have zero : (inlinePhases r.phases)[0]? = some head := by simp [phases]
    have := position_unique hr here zero (by rw [entry, initial]; rfl)
    omega

end

/-- What a call last learned of a tracker: the phase it read, left or moved it to. -/
inductive Place (α L : Type) where
  | idle
  | reading (t : Ref) (p : Phase α L)
  | leaving (t : Ref) (p : Phase α L)
  | entering (t : Ref) (p : Phase α L)

def Place.after : Place α L → (a : Action α L) → a.Res → Place α L
  | _, .readCurrent t, current =>
    match current with
    | some p => .reading t p
    | none => .idle
  | _, .create _ _, created =>
    match created with
    | .ok (t, first) => .entering t first
    | .error _ => .idle
  | _, .exit t p, e => if e.isNone then .leaving t p else .idle
  | _, .moveTo t _ p, _ => .entering t p
  | x, _, _ => x

def Place.Allows (r : SessionRunner α L S) : Place α L → Action α L → Prop
  | x, .onMessage t p _ _ _ | x, .exit t p => x = .reading t p
  | x, .moveTo t state q => r.byEntryState state = some q ∧
      ∃ p, x = .leaving t p ∧ p.exitState = state
  | x, .enter t p => x = .entering t p
  | x, .commit t p => x = .leaving t p
  | _, _ => True

abbrev Keeps (r : SessionRunner α L S) {β : Type} (p : RunnerProg α L β) : Prop :=
  p.Obeys Place.after (Place.Allows r)

section

variable (r : SessionRunner α L S)

theorem beginSession_keeps (sid cohortID : String) :
    Keeps r (beginSession sid cohortID : RunnerProg α L _) := by
  intro x
  simp only [beginSession]
  split_ifs
  · trivial
  refine ⟨trivial, fun created => ?_⟩
  cases created with
  | error e => trivial
  | ok first =>
    refine ⟨rfl, fun e => ?_⟩
    cases e with
    | some e | none => exact ⟨trivial, fun _ => trivial⟩

theorem leave_follows (w : Walk) (t : Ref) (p : Phase α L) :
    (leave r w t p).Follows Place.after (Place.Allows r) (fun _ _ => True) (.reading t p) := by
  refine ⟨rfl, fun e => ?_⟩
  cases e with
  | some e => trivial
  | none =>
    refine ⟨rfl, fun e => ?_⟩
    cases e with
    | some e => trivial
    | none =>
      split_ifs
      · trivial
      · split
        · trivial
        · rename_i next found
          refine ⟨⟨found, p, rfl, rfl⟩, fun _ => ⟨rfl, fun e => ?_⟩⟩
          cases e with
          | some e => trivial
          | none => exact ⟨trivial, fun _ => trivial⟩

theorem advance_keeps (t : Ref) (hops : ℕ) : Keeps r (advance r t hops) := by
  induction hops with
  | zero => exact fun _ => trivial
  | succ hops ih =>
    intro x
    rw [advance_succ]
    refine ⟨trivial, fun current => ?_⟩
    cases current with
    | none => trivial
    | some current =>
      refine (leave_follows r .advance t current).bind fun y left _ => ?_
      cases left with
      | failed e => trivial
      | terminal => exact ⟨trivial, fun _ => trivial⟩
      | entered next =>
        unfold afterLeave
        dsimp only
        split_ifs
        · trivial
        · refine ⟨trivial, fun done => ?_⟩
          cases done with
          | false => trivial
          | true => exact ih _

theorem handleMessage_keeps (sid msgType sender : String) (payload : Bytes) :
    Keeps r (handleMessage r sid msgType sender payload) := by
  intro x
  simp only [handleMessage, call, Prog.call_bind]
  refine ⟨trivial, fun t => ?_⟩
  cases t with
  | none => trivial
  | some t =>
    refine ⟨trivial, fun current => ?_⟩
    cases current with
    | none => trivial
    | some current =>
      dsimp only
      split_ifs
      · refine ⟨rfl, fun e => ?_⟩
        cases e with
        | some e => trivial
        | none =>
          refine ⟨trivial, fun done => ?_⟩
          cases done with
          | false => trivial
          | true => exact advance_keeps ..
      · exact ⟨trivial, fun _ => trivial⟩

theorem advanceWalk_keeps (sid : String) (target : SessionState) (t : Ref) (hops : ℕ) :
    Keeps r (advanceWalk r sid target t hops) := by
  induction hops with
  | zero => exact fun _ => trivial
  | succ hops ih =>
    intro x
    simp only [advanceWalk_succ, call, Prog.call_bind]
    refine ⟨trivial, fun state => ?_⟩
    dsimp only
    split_ifs
    · trivial
    refine ⟨trivial, fun current => ?_⟩
    cases current with
    | none => trivial
    | some current =>
      refine (leave_follows r .advanceToState t current).bind fun y left _ => ?_
      cases left with
      | failed e | terminal => trivial
      | entered next => exact ih y

theorem advanceToState_keeps (sid : String) (target : SessionState) :
    Keeps r (advanceToState r sid target) := by
  intro x
  simp only [advanceToState, call, Prog.call_bind]
  refine ⟨trivial, fun t => ?_⟩
  cases t with
  | none => trivial
  | some t =>
    refine ⟨trivial, fun state => ?_⟩
    dsimp only
    split_ifs
    · trivial
    · refine ⟨trivial, fun current => ?_⟩
      dsimp only
      split_ifs
      · trivial
      · exact advanceWalk_keeps ..

theorem call_keeps (c : Call) : Keeps r (c.prog r) := by
  cases c with
  | begin sid cohortID => exact beginSession_keeps r sid cohortID
  | message sid m => exact handleMessage_keeps r sid m.msgType m.sender m.payload
  | advanceTo sid target => exact advanceToState_keeps r sid target
  | ended sid => exact fun _ => ⟨trivial, fun _ => trivial⟩

theorem serve_keeps (reqs : List Request) : Keeps r (serve r reqs) := by
  refine serve_obeys ?_ (call_keeps r) reqs
  intro x a step
  cases a <;> trivial

end

/-- The tracker exists, the phase is one of the pipeline, and what it holds is in the context. -/
structure Stocked (r : SessionRunner α L S) (s : RunnerState α L S) (t : Ref) (p : Phase α L) :
    Prop where
  known : t < s.nextRef
  member : p ∈ inlinePhases r.phases
  held : ∀ key, Held r p key → Present (s.trackers t).ctx key

def AllStocked (r : SessionRunner α L S) (s : RunnerState α L S) : Prop :=
  ∀ t p, (s.trackers t).current = some p → Stocked r s t p

def Place.Asserts (r : SessionRunner α L S) : Place α L → RunnerState α L S → Prop
  | .idle, _ => True
  | .reading t p, s | .entering t p, s => Stocked r s t p
  | .leaving t p, s => Stocked r s t p ∧ ∀ key, Supplies p key → Present (s.trackers t).ctx key

section

variable {ω : MapOrder} {a : Action α L} {x : Place α L} {s s' : RunnerState α L S}

def KeyKept (s s' : RunnerState α L S) : Prop :=
  s.nextRef ≤ s'.nextRef ∧ ∀ t < s.nextRef, ∀ key, Present (s.trackers t).ctx key →
    Present (s'.trackers t).ctx key

theorem Stocked.mono (kept : KeyKept s s') {t : Ref} {p : Phase α L}
    (stocked : Stocked r s t p) : Stocked r s' t p :=
  ⟨stocked.known.trans_le kept.1, stocked.member, fun key held =>
    kept.2 t stocked.known key (stocked.held key held)⟩

theorem Place.Asserts.mono (kept : KeyKept s s') (asserts : x.Asserts r s) : x.Asserts r s' := by
  cases x with
  | idle => trivial
  | reading t p | entering t p => exact Stocked.mono kept asserts
  | leaving t p =>
    exact ⟨asserts.1.mono kept, fun key supplies =>
      kept.2 t asserts.1.known key (asserts.2 key supplies)⟩

theorem keyKept_applyHook (t : Ref) {hook : HookEnv α L → HookOut α L}
    (keeps : ∀ e key, Present e.ctx key → ((hook e).values key).isSome) (s : RunnerState α L S) :
    KeyKept s (applyHook r t hook s).2 := by
  refine ⟨le_rfl, fun t' _ key present => ?_⟩
  by_cases same : t' = t
  · subst same
    simpa [applyHook, Present] using keeps (s.env r t') key present
  · simpa [applyHook, same] using present

def writer : Action α L → Option (Phase α L)
  | .enter _ p | .onMessage _ p _ _ _ | .exit _ p => some p
  | _ => none

theorem keyKept_sem (keeps : ∀ p ∈ writer a, KeepsKeys p)
    (s : RunnerState α L S) : KeyKept s (sem r ω a s).2 := by
  cases a with
  | enter t p => exact keyKept_applyHook t (keeps p rfl).enter s
  | onMessage t p msgType sender payload =>
    exact keyKept_applyHook t ((keeps p rfl).onMessage msgType sender payload) s
  | exit t p => exact keyKept_applyHook t (keeps p rfl).exit s
  | create sid cohortID =>
    simp only [sem, createSession]
    split
    · exact ⟨le_rfl, fun _ _ _ => id⟩
    · split
      · exact ⟨le_rfl, fun _ _ _ => id⟩
      · refine ⟨Nat.le_succ _, fun t known key present => ?_⟩
        simpa [known.ne] using present
  | moveTo t state p | clearCurrent t | setEntered t =>
    refine ⟨le_rfl, fun t' _ key present => ?_⟩
    simp only [sem, updateTracker_apply]
    split_ifs <;> exact present
  | commit t p =>
    refine ⟨(framed_commit p t s).nextRef.ge, fun t' _ key present => ?_⟩
    simpa only [sem, commit_trackers] using present
  | lookup | deleteSession | readCurrent | readState | checkComplete | storeGet | storeAppend
  | fireFailureHook => exact ⟨le_rfl, fun _ _ _ => id⟩

theorem allStocked_fresh (store : S) (app : L) : AllStocked r (.fresh store app) := nofun

theorem keepsKeys_of_asserts (keeps : ∀ p ∈ inlinePhases r.phases, KeepsKeys p)
    (asserts : x.Asserts r s) (allows : x.Allows r a) : ∀ p ∈ writer a, KeepsKeys p := by
  intro p writes
  refine keeps p ?_
  cases a with
  | enter t q =>
    cases writes
    rw [show x = .entering t p from allows] at asserts
    exact asserts.member
  | onMessage t q msgType sender payload | exit t q =>
    cases writes
    rw [show x = .reading t p from allows] at asserts
    exact asserts.member
  | _ => cases writes

theorem allStocked_sem (hr : Pipeline r)
    (kept : KeyKept s (sem r ω a s).2) (stocked : AllStocked r s) (asserts : x.Asserts r s)
    (allows : x.Allows r a) : AllStocked r (sem r ω a s).2 := by
  intro t p current
  by_cases moves : Moves s t a
  · cases a with
    | moveTo t' state q =>
      obtain rfl : t' = t := moves
      obtain ⟨next, p', rfl, rfl⟩ := allows
      simp only [sem, updateTracker_apply, if_true, Option.some.injEq] at current
      subst current
      refine ⟨asserts.1.known, ((hr.byEntry _ _).mp next).1, fun key held => ?_⟩
      refine kept.2 t' asserts.1.known key ?_
      rcases held_next hr asserts.1.member next held with before | supplies
      · exact asserts.1.held key before
      · exact asserts.2 key supplies
    | clearCurrent t' =>
      obtain rfl : t' = t := moves
      simp [sem] at current
    | create sid cohortID =>
      simp only [sem, createSession] at current ⊢
      split at current
      · exact stocked t p current
      · split at current
        · exact stocked t p current
        · rename_i first found
          obtain rfl : t = s.nextRef := moves
          simp only [update_self, Option.some.injEq] at current
          subst current
          exact ⟨Nat.lt_succ_self _, ((hr.byEntry _ _).mp found).1, fun key held =>
            absurd held (not_held_first hr found)⟩
    | _ => exact moves.elim
  · exact (stocked t p ((sem_position r ω moves).2 ▸ current)).mono kept

theorem exit_supplies (supplied : Supplied r) {t : Ref} {p : Phase α L}
    (stocked : Stocked r s t p) (done : (sem r ω (.exit t p) s).1 = none) {key : String}
    (supplies : Supplies p key) : Present ((sem r ω (.exit t p) s).2.trackers t).ctx key := by
  have found : ∀ k, Required p k → Present (s.env r t).ctx k := fun k required =>
    stocked.held k (supplied p stocked.member k required)
  simpa [sem, applyHook, Present] using supplies (s.env r t) found done

theorem asserts_after (hr : Pipeline r) (keeps : ∀ p ∈ inlinePhases r.phases, KeepsKeys p)
    (supplied : Supplied r) (x : Place α L) (a : Action α L) (s : RunnerState α L S)
    (stocked : AllStocked r s) (asserts : x.Asserts r s) (allows : x.Allows r a) :
    AllStocked r (sem r ω a s).2 ∧ (x.after a (sem r ω a s).1).Asserts r (sem r ω a s).2 := by
  have kept : KeyKept s (sem r ω a s).2 := keyKept_sem (keepsKeys_of_asserts keeps asserts allows) s
  have stocked' := allStocked_sem hr kept stocked asserts allows
  refine ⟨stocked', ?_⟩
  cases a with
  | readCurrent t =>
    cases current : (s.trackers t).current with
    | none => simp [sem, Place.after, current, Place.Asserts]
    | some p => simpa [sem, Place.after, current, Place.Asserts] using stocked t p current
  | create sid cohortID =>
    cases created : (sem r ω (.create sid cohortID) s).1 with
    | error e => trivial
    | ok first =>
      refine stocked' first.1 first.2 ?_
      simp only [sem, createSession] at created ⊢
      split at created
      · cases created
      · split at created
        · cases created
        · cases created
          simp
  | exit t p =>
    obtain rfl : x = .reading t p := allows
    cases done : (sem r ω (.exit t p) s).1 with
    | some e => trivial
    | none =>
      exact ⟨Stocked.mono kept asserts, fun key supplies =>
        exit_supplies supplied asserts done supplies⟩
  | moveTo t state q => exact stocked' t q (by simp [sem])
  | _ => exact asserts.mono kept

/-- In every interleaving of the calls, the keys a phase requires are there when it is entered, if
phases before it on the way supply them. -/
theorem requirements_met (accepted : Accepted r)
    (keeps : ∀ p ∈ inlinePhases r.phases, KeepsKeys p) (supplied : Supplied r) {ι : Type}
    [DecidableEq ι] {store : S} {app : L} {work : ι → List Request}
    {Q : Pool ι (RunnerState α L S) (Action α L) Action.Res Unit}
    (run : Pool.Run (sem r ω) (fun _ _ => True) (service r store app work) Q) :
    ∀ e ∈ Q.history, Met e.2 := by
  have hr := accepted.pipeline
  have known := run.asserted (sem r ω) (asserts_after hr keeps supplied)
    (fun x y a s _ asserts allows other =>
      other.mono (keyKept_sem (keepsKeys_of_asserts keeps asserts allows) s))
    (fun i => serve_keeps r (work i) .idle) (allStocked_fresh store app) trivial
  intro e mem t p enters key required
  obtain ⟨x, -, asserts, allows⟩ := known e mem
  rw [enters] at allows
  rw [show x = .entering t p from allows] at asserts
  have present := asserts.held key (supplied p asserts.member key required)
  exact ⟨present, fun β assertType missing =>
    (mustGet_notSet_iff assertType _ key).mp missing present⟩

end

def cryptoCtx (required : Bool) : ContextSchema :=
  ⟨[("crypto_ctx", ⟨"KeyBundle", required, .empty, false⟩)], by simp⟩

def cohortKeygenPhase : Phase Unit Unit :=
  { quorumPhase "cohort-keygen" stateNone stateNone "" "" 0 with
    runsAt := .registration
    consumedMessageTypes := []
    provides := cryptoCtx false }

def keygenPhase : Phase Unit Unit :=
  { quorumPhase "keygen" "KEYGEN" "SCORE" "share" "shares" 1 with
    provides := cryptoCtx false
    exit := fun e => { e.unchanged with
      values := update e.ctx.values "crypto_ctx" (some (.bytes [])) } }

def scoringPhase : Phase Unit Unit :=
  { quorumPhase "scoring" "SCORE" stateNone "bid" "bids" 1 with requires := cryptoCtx true }

def scoringRunner : SessionRunner Unit Unit Unit :=
  (compose [keygenPhase, scoringPhase]).toOption.get (by decide)

def outOfBandRunner : SessionRunner Unit Unit Unit :=
  (compose [cohortKeygenPhase, scoringPhase]).toOption.get (by decide)

theorem isSome_update {values : String → Option (Value α)} (key : String) (v : Value α)
    {key' : String} (present : (values key').isSome) :
    (update values key (some v) key').isSome := by
  by_cases same : key' = key
  · simp [same]
  · simpa [same] using present

theorem keepsKeys_quorum (name : String) (entryState exitState : SessionState)
    (msgType bucketKey : String) (n : ℕ) :
    KeepsKeys (quorumPhase name entryState exitState msgType bucketKey n : Phase α L) :=
  ⟨fun _ _ => id, fun _ _ _ _ _ => isSome_update _ _, fun _ _ => id⟩

theorem keepsKeys_scoring : ∀ p ∈ inlinePhases scoringRunner.phases, KeepsKeys p := by
  have quorum := keepsKeys_quorum (α := Unit) (L := Unit)
  intro p member
  have listed := member
  rcases mem_pair.mp listed with rfl | rfl
  · have keygen := quorum "keygen" "KEYGEN" "SCORE" "share" "shares" 1
    exact ⟨keygen.enter, keygen.onMessage, fun _ _ => isSome_update _ _⟩
  · have scoring := quorum "scoring" "SCORE" stateNone "bid" "bids" 1
    exact ⟨scoring.enter, scoring.onMessage, scoring.exit⟩

theorem supplied_scoring : Supplied scoringRunner := by
  intro p member key required
  have listed := member
  rcases mem_pair.mp listed with rfl | rfl
  · obtain ⟨kt, entry, -⟩ := required
    cases entry
  · obtain ⟨kt, entry, -⟩ := required
    cases mem_singleton.mp entry
    exact ⟨0, 1, keygenPhase, Nat.zero_lt_one, rfl, rfl, fun e _ _ => by simp [keygenPhase]⟩

theorem requirements_met_scoring :
    let Q := (service scoringRunner () () fun _ : Unit =>
      [.begin "s" "", .advanceTo "s" "SCORE"]).runSchedule (sem scoringRunner .listed)
        (List.replicate 12 ())
    compose [keygenPhase, scoringPhase] = .ok scoringRunner ∧ Supplied scoringRunner ∧
      (∃ e ∈ Q.history, e.2.act = .enter 0 scoringPhase) ∧ ∀ e ∈ Q.history, Met e.2 := by
  intro Q
  have accepted : compose [keygenPhase, scoringPhase] = .ok scoringRunner := rfl
  have entered : Q.history[11]?.map (·.2.act) = some (.enter 0 scoringPhase) := rfl
  obtain ⟨e, there, enters⟩ := Option.map_eq_some_iff.mp entered
  exact ⟨accepted, supplied_scoring, ⟨e, mem_of_getElem? there, enters⟩,
    requirements_met (.inl ⟨_, accepted⟩) keepsKeys_scoring supplied_scoring
      (Pool.runSchedule_run ..)⟩

/-- The only provider of the key runs at registration: the pipeline is accepted, and `BeginSession`
enters its first phase on an empty context. -/
theorem outOfBand_key_missing :
    let Q := (service outOfBandRunner () () fun _ : Unit => [.begin "s" ""]).runSchedule
      (sem outOfBandRunner .listed) [(), ()]
    compose [cohortKeygenPhase, scoringPhase] = .ok outOfBandRunner ∧
      Pool.Run (sem outOfBandRunner .listed) (fun _ _ => True)
        (service outOfBandRunner () () fun _ : Unit => [.begin "s" ""]) Q ∧
      Required scoringPhase "crypto_ctx" ∧
      ∃ e ∈ Q.history, e.2.act = .enter 0 scoringPhase ∧
        mustGet some (e.2.pre.trackers 0).ctx "crypto_ctx" = .notSet "crypto_ctx" ∧ ¬ Met e.2 := by
  intro Q
  have required : Required scoringPhase "crypto_ctx" := ⟨_, mem_singleton.mpr rfl, rfl⟩
  have entered : Q.history[1]?.map (fun e => (e.2.act, (e.2.pre.trackers 0).ctx)) =
      some (.enter 0 scoringPhase, newSessionContext "s") := rfl
  obtain ⟨e, there, eq⟩ := Option.map_eq_some_iff.mp entered
  obtain ⟨enters, empty⟩ := Prod.mk.inj eq
  have missing : mustGet some (e.2.pre.trackers 0).ctx "crypto_ctx" = .notSet "crypto_ctx" := by
    rw [empty]
    rfl
  exact ⟨rfl, Pool.runSchedule_run .., required, e, mem_of_getElem? there, enters, missing,
    fun met => (met 0 scoringPhase enters "crypto_ctx" required).2 _ some missing⟩

end RuntimeRequirements
