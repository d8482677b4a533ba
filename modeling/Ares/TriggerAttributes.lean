import Ares.LineageDispatch

/-! `ManualAdminTrigger.Start` begins a session and only then writes the caller's attributes into
its context, one at a time. -/
namespace TriggerAttributes

open InterleavedPrograms LineageDispatch LineageNodes PhasePipelines SessionRunner
  SessionRunnerDiscipline List

variable {α L S : Type}

inductive TriggerAction (α L : Type) where
  | runner (a : Action α L)
  | countStart
  | set (t : Ref) (key : String) (value : Value α)
  | broadcast (sid : String) (participants : List String) (type : String)

abbrev TriggerAction.Res : TriggerAction α L → Type
  | .runner a => a.Res
  | .countStart | .set .. | .broadcast .. => Unit

structure TriggerState (α L S : Type) where
  runner : RunnerState α L S
  startedCount : ℕ
  sent : List (String × List String × String)

def triggerSem (r : SessionRunner α L S) (ω : MapOrder) :
    (a : TriggerAction α L) → TriggerState α L S → a.Res × TriggerState α L S
  | .runner a, s => ((sem r ω a s.runner).1, { s with runner := (sem r ω a s.runner).2 })
  | .countStart, s => ((), { s with startedCount := s.startedCount + 1 })
  | .set t key value, s =>
    ((), { s with runner := s.runner.updateTracker t fun tr =>
      { tr with ctx := { tr.ctx with values := Function.update tr.ctx.values key (some value) } } })
  | .broadcast sid participants type, s =>
    ((), { s with sent := s.sent ++ [(sid, participants, type)] })

abbrev TriggerProg (α L : Type) (β : Type) := Prog (TriggerAction α L) TriggerAction.Res β

def take (a : TriggerAction α L) : TriggerProg α L a.Res := Prog.call a

def onRunner {β : Type} (p : RunnerProg α L β) : TriggerProg α L β :=
  p.embed TriggerAction.runner fun _ y => y

structure ManualAdminTrigger where
  hub : Bool
  inviteType : String

inductive StartErr where
  | noParticipants
  | beginSession (sid : String) (e : RunErr)
  deriving DecidableEq

def StartErr.text : StartErr → String
  | .noParticipants => "trigger: no participants supplied"
  | .beginSession sid e => "trigger: BeginSession(" ++ goQuote sid ++ "): " ++ e.text

def seed (t : Ref) : List (String × Value α) → TriggerProg α L Unit
  | [] => return ()
  | (key, value) :: attrs => do
    take (.set t key value)
    seed t attrs

def invite (trigger : ManualAdminTrigger) (sid : String) (participants : List String) :
    TriggerProg α L Unit :=
  if trigger.hub ∧ trigger.inviteType ≠ "" then
    take (.broadcast sid participants trigger.inviteType)
  else return ()

def start (trigger : ManualAdminTrigger) (sid : String) (participants : List String)
    (attrs : StringMap (Value α)) : TriggerProg α L (Outcome (Except StartErr Unit)) := do
  if participants.length = 0 then
    return .returned (.error .noParticipants)
  else
    take .countStart
    match ← onRunner (beginSession sid "") with
    | .panicked => return .panicked
    | .returned (.error e) => return .returned (.error (.beginSession sid e))
    | .returned (.ok t) =>
      seed t attrs.entries
      invite trigger sid participants
      return .returned (.ok ())

def triggered {ι : Type} (r : SessionRunner α L S) (store : S) (app : L)
    (trigger : ManualAdminTrigger) (sid : String) (participants : List String)
    (attrs : StringMap (Value α)) (work : ι → List Request) :
    Pool (Option ι) (TriggerState α L S) (TriggerAction α L) TriggerAction.Res Unit :=
  Pool.start ⟨.fresh store app, 0, []⟩ fun
    | none => do let _ ← start trigger sid participants attrs
    | some i => onRunner (serve r (work i))

def HookOn (t : Ref) : TriggerAction α L → Prop
  | .runner (.enter t' _) | .runner (.onMessage t' _ _ _ _) | .runner (.checkComplete t' _)
  | .runner (.exit t' _) => t' = t
  | _ => False

def Blank (s : TriggerState α L S) (t : Ref) : Prop :=
  (s.runner.trackers t).ctx.values = fun _ => none

def Observes (attrs : StringMap (Value α)) (s : TriggerState α L S) (t : Ref) : Prop :=
  ∀ attr ∈ attrs.entries, ((s.runner.trackers t).ctx.values attr.1).isSome

theorem observes_blank_iff {attrs : StringMap (Value α)} {s : TriggerState α L S} {t : Ref}
    (blank : Blank s t) : Observes attrs s t ↔ attrs.entries = [] := by
  constructor
  · intro observes
    refine eq_nil_iff_forall_not_mem.mpr fun attr member => ?_
    have found := observes attr member
    rw [blank] at found
    cases found
  · intro none attr member
    rw [none] at member
    cases member

section

variable {r : SessionRunner α L S} {ω : MapOrder} {t : Ref}

variable {a : TriggerAction α L}

theorem blank_sem {s : TriggerState α L S} (quiet : ¬ HookOn t a)
    (unset : ∀ key value, a ≠ .set t key value) (blank : Blank s t) :
    Blank (triggerSem r ω a s).2 t := by
  unfold Blank at blank ⊢
  cases a with
  | countStart | broadcast => exact blank
  | set t' key value =>
    have other : t ≠ t' := by
      rintro rfl
      exact unset key value rfl
    simpa [triggerSem, other] using blank
  | runner a =>
    cases a with
    | enter t' p | onMessage t' p | exit t' p =>
      have other : t ≠ t' := fun same => quiet same.symm
      simpa [triggerSem, sem, applyHook, other] using blank
    | create sid cohortID =>
      simp only [triggerSem, sem, createSession]
      split
      · exact blank
      · split
        · exact blank
        · by_cases new : t = s.runner.nextRef
          · simp [new, newSessionContext]
          · simpa [new] using blank
    | moveTo t' | clearCurrent t' | setEntered t' =>
      simp only [triggerSem, sem, updateTracker_apply]
      split_ifs <;> exact blank
    | commit t' p => simpa only [triggerSem, sem, commit_trackers] using blank
    | _ => exact blank

def enteredAfter (x : List Ref) : (a : TriggerAction α L) → a.Res → List Ref
  | .runner (.enter t _), _ => t :: x
  | _, _ => x

def SetsEntered (x : List Ref) : TriggerAction α L → Prop
  | .set t _ _ => t ∈ x
  | _ => True

theorem onRunner_obeys {β : Type} (p : RunnerProg α L β) :
    (onRunner p).Obeys enteredAfter SetsEntered := by
  intro x
  induction p generalizing x with
  | ret b => trivial
  | act a k ih => exact ⟨trivial, fun y => ih y _⟩

theorem beginSession_enters (sid : String) (x : List Ref) :
    (onRunner (beginSession sid "") : TriggerProg α L _).Follows enteredAfter SetsEntered
      (fun x begun => ∀ t, begun = .returned (.ok t) → t ∈ x) x := by
  simp only [beginSession]
  split_ifs
  · intro t begun
    cases begun
  refine ⟨trivial, fun created => ?_⟩
  cases created with
  | error e =>
    intro t begun
    cases begun
  | ok first =>
    refine ⟨trivial, fun e => ?_⟩
    cases e with
    | some e =>
      refine ⟨trivial, fun _ t begun => ?_⟩
      cases begun
    | none =>
      refine ⟨trivial, fun _ t begun => ?_⟩
      cases begun
      exact mem_cons_self

theorem seed_follows (t : Ref) (attrs : List (String × Value α)) {x : List Ref} (entered : t ∈ x) :
    (seed t attrs : TriggerProg α L Unit).Follows enteredAfter SetsEntered (fun _ _ => True) x := by
  induction attrs with
  | nil => trivial
  | cons attr attrs ih => exact ⟨entered, fun _ => ih⟩

theorem start_obeys (trigger : ManualAdminTrigger) (sid : String) (participants : List String)
    (attrs : StringMap (Value α)) :
    (start trigger sid participants attrs : TriggerProg α L _).Obeys enteredAfter SetsEntered := by
  intro x
  unfold start
  split_ifs
  · trivial
  refine ⟨trivial, fun _ => (beginSession_enters sid x).bind fun y begun entered => ?_⟩
  cases begun with
  | panicked => trivial
  | returned ended =>
    cases ended with
    | error e => trivial
    | ok t =>
      refine (seed_follows t attrs.entries (entered t rfl)).bind fun z _ _ => ?_
      unfold invite
      split_ifs
      · exact ⟨trivial, fun _ => trivial⟩
      · trivial

variable {ι : Type} [DecidableEq ι] {store : S} {app : L} {trigger : ManualAdminTrigger}
  {sid : String} {participants : List String} {attrs : StringMap (Value α)}
  {work : ι → List Request}
  {Q : Pool (Option ι) (TriggerState α L S) (TriggerAction α L) TriggerAction.Res Unit}

structure Unseeded (Q : Pool (Option ι) (TriggerState α L S) (TriggerAction α L)
    TriggerAction.Res Unit) : Prop where
  follows : ∀ i, (Q.threads i).Follows enteredAfter SetsEntered (fun _ _ => True)
    (Pool.status enteredAfter [] Q.history i)
  entered : ∀ i, ∀ t ∈ Pool.status enteredAfter [] Q.history i, ∃ e ∈ Q.history, HookOn t e.2.act
  blank : ∀ t, (∀ e ∈ Q.history, ¬ HookOn t e.2.act) → Blank Q.state t
  first : ∀ t, (∃ e ∈ Q.history, HookOn t e.2.act) →
    ∃ e ∈ Q.history, HookOn t e.2.act ∧ Blank e.2.pre t

theorem mem_enteredAfter {x : List Ref} {y : a.Res}
    (entered : t ∈ enteredAfter x a y) : t ∈ x ∨ HookOn t a := by
  cases a with
  | runner a =>
    cases a with
    | enter t' p =>
      rcases mem_cons.mp entered with rfl | before
      · exact .inr rfl
      · exact .inl before
    | _ => exact .inl entered
  | _ => exact .inl entered

theorem unseeded_step {R : Pool (Option ι) (TriggerState α L S) (TriggerAction α L)
    TriggerAction.Res Unit} {i : Option ι} (unseeded : Unseeded Q)
    (step : Q.step (triggerSem r ω) i = some R) : Unseeded R := by
  have follows := Pool.follows_step (triggerSem r ω) enteredAfter SetsEntered unseeded.follows step
  obtain ⟨a, k, next, rfl⟩ := Pool.step_eq_some _ step
  have inOrder := unseeded.follows i
  rw [next] at inOrder
  refine ⟨follows, fun j t entered => ?_, fun t quiet => ?_, fun t hook => ?_⟩
  · have earlier : t ∈ Pool.status enteredAfter [] Q.history j ∨ HookOn t a := by
      by_cases same : j = i
      · subst same
        rw [Pool.status_append_self] at entered
        exact mem_enteredAfter entered
      · rw [Pool.status_append_of_ne _ _ _ same] at entered
        exact .inl entered
    rcases earlier with earlier | now
    · obtain ⟨e, mem, hook⟩ := unseeded.entered j t earlier
      exact ⟨e, mem_append_left _ mem, hook⟩
    · exact ⟨_, mem_append_right _ (mem_singleton_self _), now⟩
  · have before : ∀ e ∈ Q.history, ¬ HookOn t e.2.act := fun e mem =>
      quiet e (mem_append_left _ mem)
    refine blank_sem (quiet _ (mem_append_right _ (mem_singleton_self _))) ?_
      (unseeded.blank t before)
    rintro key value rfl
    obtain ⟨e, mem, hook⟩ := unseeded.entered i t inOrder.1
    exact before e mem hook
  · by_cases before : ∃ e ∈ Q.history, HookOn t e.2.act
    · obtain ⟨e, mem, found⟩ := unseeded.first t before
      exact ⟨e, mem_append_left _ mem, found⟩
    · obtain ⟨e, mem, on⟩ := hook
      rcases mem_append.mp mem with old | new
      · exact absurd ⟨e, old, on⟩ before
      · refine ⟨e, mem, on, ?_⟩
        rw [mem_singleton.mp new]
        exact unseeded.blank t fun d old hook => before ⟨d, old, hook⟩

section

variable
  (run : Pool.Run (triggerSem r ω) (fun _ _ => True)
    (triggered r store app trigger sid participants attrs work) Q)

include run

theorem unseeded_run : Unseeded Q := by
  refine run.invariant (triggerSem r ω)
    (fun _ _ _ unseeded _ step => unseeded_step unseeded step) ?_
  refine ⟨fun i => ?_, fun i t entered => ?_, fun t _ => rfl, fun t hook => ?_⟩
  · cases i with
    | none => exact (start_obeys trigger sid participants attrs []).bind fun _ _ _ => trivial
    | some i => exact onRunner_obeys _ []
  · cases entered
  · obtain ⟨e, mem, -⟩ := hook
    cases mem

theorem observe_iff (hook : ∃ e ∈ Q.history, HookOn t e.2.act) :
    (∀ e ∈ Q.history, HookOn t e.2.act → Observes attrs e.2.pre t) ↔ attrs.entries = [] := by
  constructor
  · intro observe
    obtain ⟨e, mem, on, blank⟩ := (unseeded_run run).first t hook
    exact (observes_blank_iff blank).mp (observe e mem on)
  · intro none e _ _ attr member
    rw [none] at member
    cases member

end

def Began (sid : String) (t : Ref) (Q : Pool (Option ι) (TriggerState α L S) (TriggerAction α L)
    TriggerAction.Res Unit) : Prop :=
  ∃ s first, (none, ⟨s, .runner (.create sid ""), .ok (t, first)⟩) ∈ Q.history

variable (r ω store app trigger sid participants attrs work) in
def Precede : Prop :=
  ∀ Q, Pool.Run (triggerSem r ω) (fun _ _ => True)
      (triggered r store app trigger sid participants attrs work) Q →
    ∀ t, Began sid t Q → ∀ e ∈ Q.history, HookOn t e.2.act → Observes attrs e.2.pre t

theorem not_began (run : Pool.Run (triggerSem r ω) (fun _ _ => True)
    (triggered r store app trigger sid participants attrs work) Q)
    (refused : participants = [] ∨ sid = "") : ¬ Began sid t Q := by
  rintro ⟨s, first, mem⟩
  have never := Pool.always_history (triggerSem r ω)
    (φ := fun i a => i = none → a ≠ TriggerAction.runner (.create sid "")) ?_ run
  · exact never _ mem rfl rfl
  · intro i
    cases i with
    | some i => exact Prog.always_of_forall (fun _ => nofun) _
    | none =>
      rcases refused with rfl | rfl
      · trivial
      · unfold start
        split_ifs
        · trivial
        · exact ⟨fun _ => nofun, fun _ => trivial⟩

variable (ω store app trigger attrs work) in
theorem exists_begun (hr : Pipeline r) (someone : participants ≠ []) (named : sid ≠ "")
    (phased : inlinePhases r.phases ≠ []) :
    ∃ Q, Pool.Run (triggerSem r ω) (fun _ _ => True)
        (triggered r store app trigger sid participants attrs work) Q ∧
      Began sid 0 Q ∧ ∃ e ∈ Q.history, HookOn 0 e.2.act := by
  obtain ⟨first, rest, listed⟩ := exists_cons_of_ne_nil phased
  have initial : r.byEntryState r.initialState = some first := by
    rw [hr.byEntry, hr.initial, listed]
    exact ⟨mem_cons_self, rfl⟩
  have counted : participants.length ≠ 0 := by simpa using someone
  let s₀ : TriggerState α L S := ⟨.fresh store app, 1, []⟩
  let s₁ := (triggerSem r ω (.runner (.create sid "")) s₀).2
  have history : ((triggered r store app trigger sid participants attrs work).runSchedule
      (triggerSem r ω) [none, none, none]).history =
        [(none, ⟨⟨.fresh store app, 0, []⟩, .countStart, ()⟩),
          (none, ⟨s₀, .runner (.create sid ""), .ok (0, first)⟩),
          (none, ⟨s₁, .runner (.enter 0 first),
            (triggerSem r ω (.runner (.enter 0 first)) s₁).1⟩)] := by
    simp [s₀, s₁, Pool.runSchedule, Pool.step, triggered, Pool.start, start, counted, take,
      onRunner, beginSession, named, call, Prog.embed, triggerSem, sem, createSession,
      RunnerState.fresh, initial]
  refine ⟨_, Pool.runSchedule_run _ _ [none, none, none], ⟨s₀, first, ?_⟩, ?_⟩
  · rw [history]
    exact .tail _ (.head _)
  · rw [history]
    exact ⟨_, .tail _ (.tail _ (.head _)), rfl⟩

/-- The attributes precede the session only if there are none, or no session. -/
theorem attributes_precede_iff (accepted : Accepted r) :
    Precede r ω store app trigger sid participants attrs work ↔
      attrs.entries = [] ∨ participants = [] ∨ sid = "" ∨ inlinePhases r.phases = [] := by
  have hr := accepted.pipeline
  constructor
  · intro precede
    by_cases someone : participants = []
    · exact .inr (.inl someone)
    by_cases named : sid = ""
    · exact .inr (.inr (.inl named))
    by_cases phased : inlinePhases r.phases = []
    · exact .inr (.inr (.inr phased))
    obtain ⟨Q, run, began, hook⟩ :=
      exists_begun ω store app trigger attrs work hr someone named phased
    exact .inl ((observe_iff run hook).mp (precede Q run 0 began))
  · rintro (none | refused | refused | unphased) Q run t began
    · intro e _ _ attr member
      rw [none] at member
      cases member
    · exact absurd began (not_began run (.inl refused))
    · exact absurd began (not_began run (.inr refused))
    · obtain ⟨s, first, mem⟩ := began
      have answer : .ok (t, first) = (createSession r sid "" s.runner).1 :=
        run.answers (triggerSem r ω) _ mem
      unfold createSession at answer
      split at answer
      · cases answer
      · split at answer
        · cases answer
        · rename_i p found
          have member := ((hr.byEntry _ _).mp found).1
          rw [unphased] at member
          cases member

end

def maxPrice : StringMap (Value Unit) := ⟨[("max_price", .bytes [50])], by simp⟩

def sharing : Unit → List Request := fun _ => [.frame "alice" ⟨"", "share", "s", [], none⟩]

def auctionStart (attrs : StringMap (Value Unit)) :
    Pool (Option Unit) (TriggerState Unit Unit Unit) (TriggerAction Unit Unit)
      TriggerAction.Res Unit :=
  triggered auctionRunner () () ⟨true, "auction.invitation"⟩ "s" ["alice"] attrs sharing

theorem attributes_precede_iff_none : compose auctionPhases = .ok auctionRunner ∧
    Precede auctionRunner .listed () () ⟨true, "auction.invitation"⟩ "s" ["alice"] .empty sharing :=
  have accepted : compose auctionPhases = .ok auctionRunner := rfl
  ⟨accepted, (attributes_precede_iff (.inl ⟨_, accepted⟩)).mpr (.inl rfl)⟩

theorem unobserved {Q : Pool (Option Unit) (TriggerState Unit Unit Unit) (TriggerAction Unit Unit)
    TriggerAction.Res Unit} {n : ℕ} {a : TriggerAction Unit Unit}
    (there : Q.history[n]?.map (fun e =>
      (e.2.act, (e.2.pre.runner.trackers 0).ctx.values "max_price")) = some (a, none)) :
    ∃ e ∈ Q.history, e.2.act = a ∧ ¬ Observes maxPrice e.2.pre 0 := by
  obtain ⟨e, mem, eq⟩ := Option.map_eq_some_iff.mp there
  obtain ⟨act, absent⟩ := Prod.mk.inj eq
  refine ⟨e, mem_of_getElem? mem, act, fun observes => ?_⟩
  have found := observes ("max_price", .bytes [50]) (mem_singleton.mpr rfl)
  rw [absent] at found
  cases found

/-- The share arrives when the session exists and before the attribute is written: neither `Enter`
nor `OnMessage` finds it. -/
theorem max_price_not_observed :
    let Q := (auctionStart maxPrice).runSchedule (triggerSem auctionRunner .listed)
      (List.replicate 4 none ++ List.replicate 3 (some ()))
    let collect : Phase Unit Unit := quorumPhase "collect" "collecting" "summing" "share" "shares" 1
    compose auctionPhases = .ok auctionRunner ∧
      Pool.Run (triggerSem auctionRunner .listed) (fun _ _ => True) (auctionStart maxPrice) Q ∧
      Began "s" 0 Q ∧
      (∃ e ∈ Q.history, e.2.act = .runner (.enter 0 collect) ∧ ¬ Observes maxPrice e.2.pre 0) ∧
      ∃ e ∈ Q.history, e.2.act = .runner (.onMessage 0 collect "share" "alice" []) ∧
        ¬ Observes maxPrice e.2.pre 0 := by
  intro Q collect
  have created : Q.history[1]? = some (none, ⟨⟨.fresh () (), 1, []⟩, .runner (.create "s" ""),
    .ok (0, collect)⟩) := rfl
  refine ⟨rfl, Pool.runSchedule_run .., ⟨_, _, mem_of_getElem? created⟩, ?_, ?_⟩
  · exact unobserved (n := 2) rfl
  · exact unobserved (n := 6) rfl

end TriggerAttributes
