import Ares.LineageAttribution

/-! Every error of the four public methods should match exactly one of the four sentinels, and a
lineage error should blame a participant only for a node that does not verify or whose parent is
missing. -/
namespace ErrorClasses

open InterleavedPrograms LineageNodes PhasePipelines SessionRunner SessionRunnerDiscipline
  LineageDispatch LineageAttribution List

variable {α L S : Type} {r : SessionRunner α L S}

def sentinels : List Sentinel := [.transient, .permanent, .appAttributable, .frameworkBug]

def Classified (classes : List Sentinel) : Prop := sentinels.countP (· ∈ classes) = 1

instance (classes : List Sentinel) : Decidable (Classified classes) :=
  inferInstanceAs (Decidable (_ = 1))

theorem classified_single (c : Sentinel) : Classified [c] := by
  cases c <;> rfl

inductive Call where
  | begin (sid cohortID : String)
  | message (sid : String) (m : Message)
  | lineage (c : Inbound)
  | advanceTo (sid : String) (target : SessionState)

def failure {β : Type} : Outcome (Except RunErr β) → Option RunErr
  | .returned (.error e) => some e
  | _ => none

def Call.prog (r : SessionRunner α L S) : Call → RunnerProg α L (Option RunErr)
  | .begin sid cohortID => do
    return failure (← beginSession sid cohortID)
  | .message sid m => do
    return failure (← handleMessage r sid m.msgType m.sender m.payload)
  | .lineage c => do
    return failure (← c.prog r)
  | .advanceTo sid target => do
    return failure (← advanceToState r sid target)

def RunErr.isMismatch : RunErr → Bool
  | .mismatch .. => true
  | _ => false

inductive Fault where
  | unwrapped
  | unavailable
  | absent (parent : NodeRef)
  | unclassified
  deriving DecidableEq

def fault : (a : Action α L) → a.Res → Option Fault
  | .commit .., some (.walk _) => some .unwrapped
  | .storeGet h, .error .nodeNotFound => some (.absent h)
  | .storeGet _, .error _ => some .unavailable
  | .create .., .error e =>
    if Classified e.classes ∧ RunErr.isMismatch e = false then none else some .unclassified
  | .enter .., some e | .onMessage .., some e | .exit .., some e =>
    if Classified e.classes then none else some .unclassified
  | _, _ => none

def after (x : List Fault) (a : Action α L) (y : a.Res) : List Fault := x ++ (fault a y).toList

/-- What a call is about: whether `Verify` rejects its node, and the node's parents. -/
structure Subject where
  rejected : Prop
  parents : List NodeRef

section

variable (c : Subject)

def Verdict : List Fault → Option RunErr → Prop
  | [], o => ∀ e, o = some e → Classified e.classes ∧ (RunErr.isMismatch e = true → c.rejected)
  | [.unwrapped], o => ∃ e, o = some e ∧ ¬ Classified e.classes
  | [.unavailable], o => ¬ c.rejected ∧ ∃ e, o = some e ∧ RunErr.isMismatch e = true
  | [.absent p], o => p ∈ c.parents ∧ ∀ e, o = some e → Classified e.classes
  | [.unclassified], _ => True
  | _, _ => False

abbrev Reports {β : Type} (p : RunnerProg α L (Outcome (Except RunErr β))) : Prop :=
  p.Follows after (fun _ _ => True) (fun y o => Verdict c y (failure o)) []

theorem verdict_fine : Verdict c [] none := by
  intro e h
  cases h

theorem verdict_plain {e : RunErr} (classified : Classified e.classes)
    (other : RunErr.isMismatch e = false) : Verdict c [] (some e) := by
  intro e' h
  cases h
  exact ⟨classified, fun mismatch => by cases other.symm.trans mismatch⟩

theorem verdict_hook {e : AppErr} {e' : RunErr} (same : e'.classes = e.classes)
    (other : RunErr.isMismatch e' = false) :
    Verdict c
      (Option.toList (if Classified e.classes then none else some .unclassified)) (some e') := by
  split_ifs with classified
  · exact verdict_plain c (same ▸ classified) other
  · trivial

theorem verdict_commit {t : Ref} {p : Phase α L} {e : CommitErr} {name : String}
    {w : Walk} : Verdict c (after [] (.commit t p : Action α L) (some e))
      (some (.commit name w e)) := by
  cases e with
  | walk e => exact ⟨_, rfl, show ¬ Classified [] by decide⟩
  | sign | append => exact verdict_plain c (classified_single _) rfl

theorem advance_reports (r : SessionRunner α L S) (t : Ref) (hops : ℕ) :
    Reports c (advance r t hops) := by
  induction hops with
  | zero => exact verdict_plain c (classified_single _) rfl
  | succ hops ih =>
    refine ⟨trivial, fun current => ?_⟩
    cases current with
    | none => exact verdict_fine c
    | some current =>
      refine ⟨trivial, fun e => ?_⟩
      cases e with
      | some e => exact verdict_hook c rfl rfl
      | none =>
        refine ⟨trivial, fun e => ?_⟩
        cases e with
        | some e => exact verdict_commit c
        | none =>
          split_ifs
          · exact ⟨trivial, fun _ => verdict_fine c⟩
          · split
            · exact verdict_plain c (classified_single _) rfl
            · refine ⟨trivial, fun _ => ⟨trivial, fun e => ?_⟩⟩
              cases e with
              | some e => exact verdict_hook c rfl rfl
              | none =>
                refine ⟨trivial, fun _ => ?_⟩
                split_ifs
                · exact verdict_fine c
                · refine ⟨trivial, fun complete => ?_⟩
                  cases complete with
                  | true => exact ih
                  | false => exact verdict_fine c

theorem handleMessage_reports (r : SessionRunner α L S) (sid msgType sender : String)
    (payload : Bytes) : Reports c (handleMessage r sid msgType sender payload) := by
  simp only [handleMessage, call, Prog.call_bind]
  refine ⟨trivial, fun t => ?_⟩
  cases t with
  | none => exact verdict_plain c (classified_single _) rfl
  | some t =>
    refine ⟨trivial, fun current => ?_⟩
    cases current with
    | none => exact verdict_fine c
    | some p =>
      dsimp only
      split_ifs
      · refine ⟨trivial, fun e => ?_⟩
        cases e with
        | some e => exact verdict_hook c rfl rfl
        | none =>
          refine ⟨trivial, fun complete => ?_⟩
          cases complete with
          | true => exact advance_reports ..
          | false => exact verdict_fine c
      · exact ⟨trivial, fun _ => verdict_plain c (classified_single _) rfl⟩

theorem beginSession_reports (sid cohortID : String) :
    Reports c (beginSession sid cohortID : RunnerProg α L _) := by
  simp only [beginSession]
  split_ifs
  · exact verdict_plain c (classified_single _) rfl
  refine ⟨trivial, fun created => ?_⟩
  cases created with
  | error e =>
    change Verdict c (Option.toList (if Classified e.classes ∧ RunErr.isMismatch e = false then none
      else some .unclassified)) (some e)
    split_ifs with regular
    · exact verdict_plain c regular.1 regular.2
    · trivial
  | ok first =>
    refine ⟨trivial, fun e => ?_⟩
    cases e with
    | some e =>
      refine ⟨trivial, fun _ => ?_⟩
      change Verdict c (_ ++ []) _
      rw [append_nil]
      exact verdict_hook c rfl rfl
    | none => exact ⟨trivial, fun _ => verdict_fine c⟩

theorem advanceWalk_reports (r : SessionRunner α L S) (sid : String) (target : SessionState)
    (t : Ref) (hops : ℕ) : Reports c (advanceWalk r sid target t hops) := by
  induction hops with
  | zero => exact verdict_plain c (classified_single _) rfl
  | succ hops ih =>
    simp only [advanceWalk, call, Prog.call_bind]
    refine ⟨trivial, fun state => ?_⟩
    dsimp only
    split_ifs
    · exact verdict_fine c
    refine ⟨trivial, fun current => ?_⟩
    cases current with
    | none => exact verdict_plain c (classified_single _) rfl
    | some current =>
      refine ⟨trivial, fun e => ?_⟩
      cases e with
      | some e => exact verdict_hook c rfl rfl
      | none =>
        refine ⟨trivial, fun e => ?_⟩
        cases e with
        | some e => exact verdict_commit c
        | none =>
          split_ifs
          · exact verdict_plain c (classified_single _) rfl
          · split
            · exact verdict_plain c (classified_single _) rfl
            · refine ⟨trivial, fun _ => ⟨trivial, fun e => ?_⟩⟩
              cases e with
              | some e => exact verdict_hook c rfl rfl
              | none => exact ⟨trivial, fun _ => ih⟩

theorem advanceToState_reports (r : SessionRunner α L S) (sid : String) (target : SessionState) :
    Reports c (advanceToState r sid target) := by
  simp only [advanceToState, call, Prog.call_bind]
  refine ⟨trivial, fun t => ?_⟩
  cases t with
  | none => exact verdict_plain c (classified_single _) rfl
  | some t =>
    refine ⟨trivial, fun state => ?_⟩
    dsimp only
    split_ifs
    · exact verdict_fine c
    · refine ⟨trivial, fun current => ?_⟩
      dsimp only
      split_ifs
      · exact verdict_fine c
      · exact advanceWalk_reports ..

theorem checkParents_follows (hash : NodeRef) (i : ℕ) (ps : List NodeRef) :
    (checkParents hash i ps : RunnerProg α L _).Follows after (fun _ _ => True)
      (fun y o => (y = [] ∧ o = none) ∨
        (∃ p ∈ ps, y = [.absent p] ∧ o.isSome) ∨ (y = [.unavailable] ∧ o.isSome)) [] := by
  induction ps generalizing i with
  | nil => exact Or.inl ⟨rfl, rfl⟩
  | cons p ps ih =>
    refine ⟨trivial, fun found => ?_⟩
    cases found with
    | ok n =>
      refine (ih (i + 1)).mono ?_
      rintro y o (fine | ⟨q, hq, hy⟩ | broken)
      · exact Or.inl fine
      · exact Or.inr (Or.inl ⟨q, mem_cons_of_mem _ hq, hy⟩)
      · exact Or.inr (Or.inr broken)
    | error e =>
      cases e with
      | nodeNotFound => exact Or.inr (Or.inl ⟨p, mem_cons_self .., rfl, rfl⟩)
      | nodeExists | backend => exact Or.inr (Or.inr ⟨rfl, rfl⟩)

theorem mismatch_follows {x : List Fault} {sid phase role : String} {e : MismatchError}
    (verdict : Verdict c x (some (.mismatch sid phase role e))) (hook : Bool)
    (ev : LineageFailureEvent) :
    (do
      if hook then call (.fireFailureHook ev)
      return .returned (.error (.mismatch sid phase role e)) :
        RunnerProg α L (Outcome (Except RunErr Bool))).Follows after (fun _ _ => True)
      (fun y o => Verdict c y (failure o)) x := by
  cases hook with
  | true =>
    refine ⟨trivial, fun _ => ?_⟩
    change Verdict c (x ++ []) _
    rwa [append_nil]
  | false => exact verdict

theorem handleLineageMessage_reports {lin : LineageState S}
    (hl : r.lineage = some lin) (sid msgType sender : String) (payload : Bytes) (node : DAGNode) :
    Reports ⟨verify lin.sha256 node payload lin.verifiers ≠ .ok (), node.parents⟩
      (handleLineageMessage r sid msgType sender payload (some node)) := by
  simp only [handleLineageMessage, hl, lineageMismatch]
  cases verified : verify lin.sha256 node payload lin.verifiers with
  | error e =>
    apply mismatch_follows
    intro e' h
    cases h
    exact ⟨classified_single _, fun _ => by simp⟩
  | ok u =>
    refine Prog.Follows.bind (checkParents_follows node.hash 0 node.parents) ?_
    rintro y o (⟨rfl, rfl⟩ | ⟨p, hp, rfl, missing⟩ | ⟨rfl, failed⟩)
    · refine ⟨trivial, fun stored => ?_⟩
      cases stored with
      | none => exact handleMessage_reports ..
      | some e =>
        cases e with
        | nodeExists => exact handleMessage_reports ..
        | nodeNotFound | backend => exact verdict_plain _ (classified_single _) rfl
    · obtain ⟨e, rfl⟩ := Option.isSome_iff_exists.mp missing
      apply mismatch_follows
      refine ⟨hp, fun e' h => ?_⟩
      cases h
      exact classified_single _
    · obtain ⟨e, rfl⟩ := Option.isSome_iff_exists.mp failed
      apply mismatch_follows
      exact ⟨fun rejected => rejected rfl, _, rfl, rfl⟩

end

def Call.subject (r : SessionRunner α L S) : Call → Subject
  | .lineage c =>
    match r.lineage, c.lineageNode with
    | some lin, some node => ⟨verify lin.sha256 node c.payload lin.verifiers ≠ .ok (), node.parents⟩
    | _, _ => ⟨False, []⟩
  | _ => ⟨False, []⟩

theorem Reports.failure {c : Subject} {β : Type}
    {p : RunnerProg α L (Outcome (Except RunErr β))} (reports : Reports c p) :
    (do return failure (← p) : RunnerProg α L (Option RunErr)).Follows after (fun _ _ => True)
      (Verdict c) [] :=
  Prog.Follows.bind reports fun _ _ verdict => verdict

theorem Call.prog_follows (r : SessionRunner α L S) (c : Call) :
    (c.prog r).Follows after (fun _ _ => True) (Verdict (c.subject r)) [] := by
  cases c with
  | begin sid cohortID => exact (beginSession_reports _ sid cohortID).failure
  | message sid m => exact (handleMessage_reports _ r ..).failure
  | advanceTo sid target => exact (advanceToState_reports _ r sid target).failure
  | lineage c =>
    simp only [Call.prog, Call.subject, Inbound.prog]
    cases hl : r.lineage with
    | none =>
      simp only [handleLineageMessage, hl]
      exact (handleMessage_reports _ r ..).failure
    | some lin =>
      cases hn : c.lineageNode with
      | none =>
        simp only [handleLineageMessage, hl]
        exact verdict_plain _ (classified_single _) rfl
      | some node => exact (handleLineageMessage_reports hl ..).failure

def own {ι : Type} [DecidableEq ι] (i : ι) (h : List (ι × RunnerEvent α L S)) :
    List (RunnerEvent α L S) :=
  (h.filter (·.1 = i)).map Prod.snd

def faultOf (d : RunnerEvent α L S) : Option Fault := fault d.act d.res

theorem status_eq {ι : Type} [DecidableEq ι] (h : List (ι × RunnerEvent α L S)) (i : ι) :
    Pool.status after [] h i = (own i h).filterMap faultOf := by
  have general : ∀ (l : List (ι × RunnerEvent α L S)) (x : List Fault),
      l.foldl (fun x e => after x e.2.act e.2.res) x = x ++ (l.map Prod.snd).filterMap faultOf := by
    intro l
    induction l with
    | nil => simp
    | cons e l ih =>
      intro x
      rw [foldl_cons, ih, map_cons, filterMap_cons]
      cases met : faultOf e.2 with
      | none => simp [after, show fault e.2.act e.2.res = none from met]
      | some f => simp [after, show fault e.2.act e.2.res = some f from met]
  exact general _ []

def hookErr : (a : Action α L) → a.Res → Option AppErr
  | .enter .., e | .onMessage .., e | .exit .., e => e
  | _, _ => none

def HookClassified (d : RunnerEvent α L S) : Prop :=
  ∀ e, hookErr d.act d.res = some e → Classified e.classes

instance (d : RunnerEvent α L S) : Decidable (HookClassified d) :=
  inferInstanceAs (Decidable (∀ e ∈ hookErr d.act d.res, Classified e.classes))

def ReadFailed (d : RunnerEvent α L S) : Prop :=
  faultOf d = some .unwrapped ∨ faultOf d = some .unavailable

instance (d : RunnerEvent α L S) : Decidable (ReadFailed d) :=
  inferInstanceAs (Decidable (_ ∨ _))

structure Sound (c : Subject) (events : List (RunnerEvent α L S)) (o : Option RunErr) : Prop where
  classified : ∀ e, o = some e → Classified e.classes
  blame : ∀ e, o = some e → RunErr.isMismatch e = true →
    c.rejected ∨ ∃ p ∈ c.parents, ∃ d ∈ events, faultOf d = some (.absent p)

theorem Verdict.sound_iff {c : Subject} {events : List (RunnerEvent α L S)} {o : Option RunErr}
    (verdict : Verdict c (events.filterMap faultOf) o)
    (regular : ∀ d ∈ events, faultOf d ≠ some .unclassified) :
    Sound c events o ↔ ∀ d ∈ events, ¬ ReadFailed d := by
  have met : ∀ f, f ∈ events.filterMap faultOf ↔ ∃ d ∈ events, faultOf d = some f :=
    fun f => mem_filterMap
  generalize events.filterMap faultOf = x at verdict met
  cases x with
  | nil =>
    refine iff_of_true ⟨fun e he => (verdict e he).1, fun e he mismatch => ?_⟩ ?_
    · exact Or.inl ((verdict e he).2 mismatch)
    · rintro d hd (failed | failed) <;> cases (met _).mpr ⟨d, hd, failed⟩
  | cons f rest =>
    cases rest with
    | cons g rest => cases f <;> exact verdict.elim
    | nil =>
      obtain ⟨d, hd, hf⟩ := (met f).mp (mem_singleton_self f)
      cases f with
      | unwrapped =>
        obtain ⟨e, he, unclassified⟩ := verdict
        refine iff_of_false (fun sound => unclassified (sound.classified e he)) ?_
        exact fun clean => clean d hd (Or.inl hf)
      | unavailable =>
        obtain ⟨accepted, e, he, mismatch⟩ := verdict
        refine iff_of_false (fun sound => ?_) fun clean => clean d hd (Or.inr hf)
        rcases sound.blame e he mismatch with rejected | ⟨p, -, missing⟩
        · exact accepted rejected
        · cases mem_singleton.mp ((met _).mpr missing)
      | absent p =>
        obtain ⟨hp, classified⟩ := verdict
        refine iff_of_true ⟨classified, fun _ _ _ => Or.inr ⟨p, hp, d, hd, hf⟩⟩ ?_
        rintro d' hd' (failed | failed) <;> cases mem_singleton.mp ((met _).mpr ⟨d', hd', failed⟩)
      | unclassified => exact absurd hf (regular d hd)

theorem createSession_error {sid cohortID : String}
    {s : RunnerState α L S} {e : RunErr} (h : (createSession r sid cohortID s).1 = .error e) :
    Classified e.classes ∧ RunErr.isMismatch e = false := by
  unfold createSession at h
  split at h
  · cases h
    exact ⟨classified_single _, rfl⟩
  · split at h
    · cases h
      exact ⟨classified_single _, rfl⟩
    · cases h

theorem faultOf_ne_unclassified {ω : MapOrder}
    {d : RunnerEvent α L S} (answer : d.res = (sem r ω d.act d.pre).1)
    (hook : HookClassified d) : faultOf d ≠ some .unclassified := by
  obtain ⟨s, a, y⟩ := d
  cases a with
  | create sid cohortID =>
    cases y with
    | ok t => simp [faultOf, fault]
    | error e =>
      have regular :=
        createSession_error (answer.symm : (createSession r sid cohortID s).1 = .error e)
      simp [faultOf, fault, regular]
  | enter | onMessage | exit =>
    cases y with
    | none => simp [faultOf, fault]
    | some e => simp [faultOf, fault, show Classified e.classes from hook e rfl]
  | commit =>
    cases y with
    | none => simp [faultOf, fault]
    | some e => cases e <;> simp [faultOf, fault]
  | storeGet =>
    cases y with
    | ok n => simp [faultOf, fault]
    | error e => cases e <;> simp [faultOf, fault]
  | lookup | deleteSession | readCurrent | readState | moveTo | clearCurrent | setEntered
  | checkComplete | storeAppend | fireFailureHook => simp [faultOf, fault]

/-- For every runner over every store and every interleaving of calls whose hooks return classified
errors: a call that has returned returned a sound error exactly if none of its reads of the store
failed. -/
theorem errors_sound_iff {ι : Type} [DecidableEq ι] (r : SessionRunner α L S) (ω : MapOrder)
    (store : S) (app : L) (calls : ι → Call)
    {Q : Pool ι (RunnerState α L S) (Action α L) Action.Res (Option RunErr)}
    (run : Pool.Run (sem r ω) (fun _ _ => True)
      (Pool.start (.fresh store app) fun i => (calls i).prog r) Q)
    (hooks : ∀ x ∈ Q.history, HookClassified x.2) {i : ι} {o : Option RunErr}
    (returned : Q.threads i = .ret o) :
    Sound ((calls i).subject r) (own i Q.history) o ↔ ∀ d ∈ own i Q.history, ¬ ReadFailed d := by
  have verdict := Pool.follows_run (sem r ω) after (fun _ _ => True)
    (fun j => (calls j).prog_follows r) run i
  rw [returned, status_eq] at verdict
  refine verdict.sound_iff fun d hd => ?_
  obtain ⟨x, hx, rfl⟩ := mem_map.mp hd
  have performed := mem_of_mem_filter hx
  exact faultOf_ne_unclassified (run.answers (sem r ω) x performed) (hooks x performed)

def sealPhase : Phase Unit Unit :=
  { quorumPhase "seal" "sealing" "closing" "share" "shares" 1 with
    provides := ⟨[("total", ⟨"[]byte", true, .empty, false⟩)], by simp⟩
    onMessage := fun _ _ payload e =>
      { e.unchanged with values := Function.update e.ctx.values "total" (some (.bytes payload)) }
    checkComplete := fun _ => true }

def closePhase : Phase Unit Unit :=
  { quorumPhase "close" "closing" stateNone "done" "dones" 1 with
    requires := ⟨[("total", ⟨"[]byte", true, .empty, false⟩)], by simp⟩
    checkComplete := fun _ => true }

def downStore : Store Unit where
  append _ s := (none, s)
  get _ _ := .error (.backend "connection refused")
  walkSession _ _ := [.error (.backend "connection refused")]

def sealOptions {T : Type} (store : Store T) : ComposeOptions T :=
  ⟨store, some toySigner, gateOptions.peerVerifiers, false⟩

def sealRunner {T : Type} (store : Store T) : SessionRunner Unit Unit T :=
  (composeWith foldHash [sealPhase, closePhase] (sealOptions store)).toOption.get rfl

def orphan : DAGNode :=
  (commit foldHash "b" "seal" "share" [42] [signedShare "b" "reveal"] toySigner).toOption.get rfl

def sealCalls : ℕ → Call
  | 0 => .begin "b" ""
  | 1 => .message "b" ⟨"share", "alice", [42]⟩
  | 2 => .message "b" ⟨"done", "alice", []⟩
  | _ => .lineage ⟨⟨"share", "alice", [42]⟩, "b", some orphan⟩

def sealRun {T : Type} (store : Store T) (init : T) :
    Pool ℕ (RunnerState Unit Unit T) (SessionRunner.Action Unit Unit) SessionRunner.Action.Res
      (Option RunErr) :=
  (Pool.start (.fresh init ()) fun i => (sealCalls i).prog (sealRunner store)).runSchedule
    (sem (sealRunner store) .listed)
    (List.replicate 3 0 ++ List.replicate 10 1 ++ List.replicate 7 2 ++ [3])

def returned (p : RunnerProg Unit Unit (Option RunErr)) : Option (Option RunErr) :=
  match p with
  | .ret o => some o
  | .act .. => none

theorem eq_ret {p : RunnerProg Unit Unit (Option RunErr)} {o : Option RunErr}
    (h : returned p = some o) : p = .ret o := by
  cases p with
  | ret o' =>
    cases h
    rfl
  | act a k => cases h

theorem errors_sound_iff_orphan :
    let Q := sealRun InMemoryStore.ops .empty
    (∀ x ∈ Q.history, HookClassified x.2) ∧
      ∃ e, Q.threads 3 = .ret (some e) ∧ RunErr.isMismatch e = true ∧
        Sound ((sealCalls 3).subject (sealRunner InMemoryStore.ops)) (own 3 Q.history)
          (some e) := by
  intro Q
  have hooks : ∀ x ∈ Q.history, HookClassified x.2 := by decide +kernel
  have mismatch : ∃ o ∈ returned (Q.threads 3), ∃ e ∈ o, RunErr.isMismatch e = true := by
    decide +kernel
  obtain ⟨o, ho, e, he, hmis⟩ := mismatch
  cases he
  have done := eq_ret ho
  refine ⟨hooks, e, done, hmis, ?_⟩
  exact (errors_sound_iff (sealRunner InMemoryStore.ops) .listed .empty () sealCalls
    (Pool.runSchedule_run ..) hooks done).mpr (by decide +kernel)

/-- On a store that cannot be read, one call returns an error without a sentinel, and another one
blames the sender of a node that verifies. -/
theorem backend_failure_misreported :
    let Q := sealRun downStore ()
    composeWith foldHash [sealPhase, closePhase] (sealOptions downStore) =
        .ok (sealRunner downStore) ∧
      (∀ x ∈ Q.history, HookClassified x.2) ∧
      returned (Q.threads 2) =
        some (some (.commit "close" .advance (.walk (.backend "connection refused")))) ∧
      RunErr.classes (.commit "close" .advance (.walk (.backend "connection refused"))) = [] ∧
      (returned (Q.threads 3)).map (Option.map RunErr.classes) =
        some (some [.appAttributable]) ∧
      verify foldHash orphan [42] (allVerifiers (sealOptions downStore) toySigner) = .ok () ∧
      (own 3 Q.history).map faultOf = [some .unavailable] := by
  refine ⟨rfl, ?_, ?_, rfl, ?_, ?_, ?_⟩ <;> decide +kernel

end ErrorClasses
