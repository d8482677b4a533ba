import Ares.LineageCommits
import Ares.OperationRuns

/-! When a node is turned down, the failure hook is handed the producer the node itself names,
whoever sent it; when it is taken, the store keeps the first node of each hash, and the hash leaves
the producer out. -/
namespace LineageAttribution

open InterleavedPrograms OperationRuns LineageNodes PhasePipelines SessionRunner
  SessionRunnerDiscipline LineageDispatch LineageCommits List

variable {α L S : Type}

structure Inbound extends Message where
  sid : String
  lineageNode : Option DAGNode

def Inbound.prog (r : SessionRunner α L S) (c : Inbound) :
    RunnerProg α L (Outcome (Except RunErr Bool)) :=
  handleLineageMessage r c.sid c.msgType c.sender c.payload c.lineageNode

def Inbound.next (r : SessionRunner α L S) (ω : MapOrder) (c : Inbound) (s : RunnerState α L S) :
    RunnerState α L S :=
  (c.prog r).final (sem r ω) s

def reportOf : Action α L → Option LineageFailureEvent
  | .fireFailureHook ev => some ev
  | _ => none

def Inbound.reports (r : SessionRunner α L S) (ω : MapOrder) (c : Inbound)
    (s : RunnerState α L S) : List LineageFailureEvent :=
  ((c.prog r).events (sem r ω) s).filterMap fun d => reportOf d.act

/-- A report of a confirmed mismatch is sound: the key it attributes signed every node it shows or
belongs to the sender, and a sender without that key does not bring it about. -/
structure Justified (verifiers : String → Option Signer) (holds : String → Bytes → Prop)
    (sender : String) (ev : LineageFailureEvent) : Prop where
  signed : ev.kind = "mismatch-confirmed" → ∀ node ∈ ev.dagNodes,
    (node.producer = ev.attributee ∧ Signed verifiers node) ∨ holds sender ev.attributee
  held : ev.kind = "mismatch-confirmed" → holds sender ev.attributee

def Answerable (lin : LineageState S) (holds : String → Bytes → Prop) (s : RunnerState α L S)
    (c : Inbound) : Prop :=
  ∀ node ∈ c.lineageNode,
    holds c.sender node.producer ∨ Acceptable lin s.store c.payload node

section

variable {r : SessionRunner α L S} {lin : LineageState S} (ω : MapOrder)

theorem handleMessage_reports (sid msgType sender : String) (payload : Bytes) :
    (handleMessage r sid msgType sender payload).Always fun a => reportOf a = none := by
  refine handleMessage_always r rfl (fun _ _ _ => rfl) fun t a h => ?_
  cases a with
  | fireFailureHook => exact h.elim
  | _ => rfl

theorem reports_nil {es : List (RunnerEvent α L S)} (h : ∀ d ∈ es, reportOf d.act = none) :
    es.filterMap (fun d => reportOf d.act) = [] :=
  filterMap_eq_nil_iff.mpr h

theorem reports_reads {reads : List (RunnerEvent α L S)}
    (h : ∀ d ∈ reads, isStoreGet d.act = true) :
    reads.filterMap (fun d => reportOf d.act) = [] := by
  refine reports_nil fun d hd => ?_
  have hget := h d hd
  cases hact : d.act with
  | fireFailureHook => simp [hact, isStoreGet] at hget
  | _ => rfl

theorem reports_spec (hl : r.lineage = some lin) (c : Inbound) (s : RunnerState α L S)
    (ev : LineageFailureEvent) :
    ev ∈ c.reports r ω s ↔ lin.failureHook = true ∧ ∃ node ∈ c.lineageNode,
      ¬ Acceptable lin s.store c.payload node ∧ ev = mismatchEvent c.sid node := by
  unfold Inbound.reports Inbound.prog
  cases hn : c.lineageNode with
  | none => simp [handleLineageMessage, hl]
  | some node =>
    have hrun := handleLineageMessage_run ω c.sid c.toMessage node s hl
    generalize handleLineageMessage .. = f at *
    generalize f.events _ _ = es, f.result _ _ = o, f.final _ _ = s' at *
    cases hrun with
    | rejected hnot hreads =>
      rw [filterMap_append, reports_reads hreads, nil_append]
      unfold reported
      cases lin.failureHook with
      | true => simp [reportOf, hnot]
      | false => simp
    | unstored hacc hreads =>
      rw [filterMap_append, reports_reads hreads]
      simp [reportOf, hacc]
    | passed hacc hreads =>
      have hquiet := reports_nil ((handleMessage_reports (r := r) c.sid c.msgType c.sender
        c.payload).events (sem r ω) (afterAppend lin node s))
      rw [filterMap_append, reports_reads hreads, filterMap_cons, hquiet]
      simp [reportOf, hacc]

theorem justified_iff (hl : r.lineage = some lin) (hhook : lin.failureHook = true)
    (holds : String → Bytes → Prop) (c : Inbound) (s : RunnerState α L S) :
    (∀ ev ∈ c.reports r ω s, Justified lin.verifiers holds c.sender ev) ↔
      Answerable lin holds s c := by
  constructor
  · intro h node hn
    by_cases hacc : Acceptable lin s.store c.payload node
    · exact Or.inr hacc
    · have hev := (reports_spec ω hl c s _).mpr ⟨hhook, node, hn, hacc, rfl⟩
      exact Or.inl ((h _ hev).held rfl)
  · intro h ev hev
    obtain ⟨-, node, hn, hnot, rfl⟩ := (reports_spec ω hl c s ev).mp hev
    have hheld := (h node hn).resolve_right hnot
    exact ⟨fun _ _ _ => Or.inr hheld, fun _ => hheld⟩

end

/-- Over every sequence of calls: the hook is handed sound reports only, exactly when no hook is
registered or each call's sender answers for the node it sends. -/
theorem blame_sound_iff {sha256 : Bytes → NodeRef} {phases : List (Phase α L)}
    {o : ComposeOptions S} {r : SessionRunner α L S} (hr : composeWith sha256 phases o = .ok r)
    (ω : MapOrder) (holds : String → Bytes → Prop) (s : RunnerState α L S) (calls : List Inbound) :
    ∃ lin, r.lineage = some lin ∧ lin.sha256 = sha256 ∧ lin.store = o.store ∧
      (AllSteps (Inbound.next r ω)
          (fun s c => ∀ ev ∈ c.reports r ω s, Justified lin.verifiers holds c.sender ev) s calls ↔
        o.failureHook = false ∨
          AllSteps (Inbound.next r ω) (Answerable lin holds) s calls) := by
  obtain ⟨-, -, signer, -, hl⟩ := composeWith_pipeline hr
  refine ⟨_, hl, rfl, rfl, ?_⟩
  by_cases hhook : o.failureHook = false
  · refine iff_of_true ?_ (Or.inl hhook)
    induction calls generalizing s with
    | nil => trivial
    | cons c calls ih =>
      refine ⟨fun ev hev => ?_, ih _⟩
      have hfired := ((reports_spec ω hl c s ev).mp hev).1
      cases hhook.symm.trans hfired
  · rw [or_iff_right hhook]
    induction calls generalizing s with
    | nil => exact Iff.rfl
    | cons c calls ih =>
      exact and_congr (justified_iff ω hl (Bool.of_not_eq_false hhook) holds c s) (ih _)

section

variable {r : SessionRunner α L InMemoryStore} {lin : LineageState InMemoryStore} {ω : MapOrder}

def TurnedDown : Outcome (Except RunErr Bool) → Prop
  | .returned (.error (.mismatch ..)) | .returned (.error (.storeAppend ..)) => True
  | _ => False

theorem recorded_first (hl : r.lineage = some lin) (ho : lin.store = InMemoryStore.ops)
    (s : RunnerState α L InMemoryStore) (sid : String) (m : Message) (node : DAGNode)
    (hres : ¬ TurnedDown ((handleLineageMessage r sid m.msgType m.sender m.payload
      (some node)).result (sem r ω) s)) :
    ((handleLineageMessage r sid m.msgType m.sender m.payload (some node)).final
      (sem r ω) s).store.byHash node.hash = some ((s.store.byHash node.hash).getD node) := by
  have hrun := handleLineageMessage_run ω sid m node s hl
  generalize handleLineageMessage .. = f at *
  generalize f.events _ _ = es, f.result _ _ = o, f.final _ _ = s' at *
  cases hrun with
  | rejected | unstored => exact (hres trivial).elim
  | passed =>
    apply final_keeps hl ho
    simp only [afterAppend, ho]
    exact InMemoryStore.append_byHash ..

end

structure SameProducer (n node : DAGNode) : Prop where
  producer : n.producer = node.producer
  algorithm : n.algorithm = node.algorithm
  signature : n.signature = node.signature

/-- From every state of the runner: an accepted node is recorded with its own key exactly when no
node with another key or signature was stored under its hash before. -/
theorem recorded_producer_iff {sha256 : Bytes → NodeRef} {phases : List (Phase α L)}
    {o : ComposeOptions InMemoryStore} {r : SessionRunner α L InMemoryStore}
    (hr : composeWith sha256 phases o = .ok r) (ho : o.store = InMemoryStore.ops)
    (ω : MapOrder) (s : RunnerState α L InMemoryStore) (c : Inbound) {node : DAGNode}
    (hn : c.lineageNode = some node) (hres : ¬ TurnedDown ((c.prog r).result (sem r ω) s)) :
    (c.next r ω s).store.byHash node.hash = some ((s.store.byHash node.hash).getD node) ∧
      ((∃ n, (c.next r ω s).store.byHash node.hash = some n ∧ SameProducer n node) ↔
        ∀ n, s.store.byHash node.hash = some n → SameProducer n node) := by
  obtain ⟨-, -, signer, -, hl⟩ := composeWith_pipeline hr
  simp only [Inbound.next, Inbound.prog, hn] at hres ⊢
  have hfirst := recorded_first hl ho s c.sid c.toMessage node hres
  refine ⟨hfirst, ?_⟩
  simp only [hfirst, Option.some.injEq, exists_eq_left']
  cases s.store.byHash node.hash with
  | none =>
    refine iff_of_true ⟨rfl, rfl, rfl⟩ ?_
    rintro _ ⟨⟩
  | some n => simp

def hookRunner : SessionRunner Unit Unit InMemoryStore :=
  (composeWith toyHash gatePhases { gateOptions with failureHook := true }).toOption.get
    (by decide)

def opened : RunnerState Unit Unit InMemoryStore :=
  begun hookRunner .listed InMemoryStore.empty () "b" ""

def ownKey (sender : String) (key : Bytes) : Prop :=
  (sender = "alice" ∧ key = [1]) ∨ (sender = "bob" ∧ key = [2])

def bobSigner : Signer := { toySigner with sign := fun msg => .ok (2 :: msg), publicKey := [2] }

def bobShare : DAGNode := (commit toyHash "b" "collect" "share" [42] [] bobSigner).toOption.get rfl

def share (sender : String) (payload : Bytes) (node : DAGNode) : Inbound :=
  ⟨⟨"share", sender, payload⟩, "b", some node⟩

def forgedShare : DAGNode := { signedShare "b" "collect" with signature := [0] }

theorem hookRunner_composed :
    composeWith toyHash gatePhases { gateOptions with failureHook := true } = .ok hookRunner := rfl

theorem blame_sound_iff_own :
    (share "alice" [7] (signedShare "b" "collect")).reports hookRunner .listed opened =
        [mismatchEvent "b" (signedShare "b" "collect")] ∧ ∃ lin, hookRunner.lineage = some lin ∧
        AllSteps (Inbound.next hookRunner .listed)
          (fun s c => ∀ ev ∈ c.reports hookRunner .listed s,
            Justified lin.verifiers ownKey c.sender ev) opened
          [share "alice" [7] (signedShare "b" "collect"), share "bob" [42] bobShare] := by
  refine ⟨by decide +kernel, ?_⟩
  obtain ⟨lin, hl, -, -, hiff⟩ := blame_sound_iff hookRunner_composed .listed ownKey opened
    [share "alice" [7] (signedShare "b" "collect"), share "bob" [42] bobShare]
  refine ⟨lin, hl, hiff.mpr (Or.inr ⟨?_, ?_, trivial⟩)⟩
  · rintro _ ⟨⟩
    exact Or.inl (Or.inl ⟨rfl, rfl⟩)
  · rintro _ ⟨⟩
    exact Or.inl (Or.inr ⟨rfl, rfl⟩)

/-- A sender who holds no key has `alice` reported: with a made-up node, and with a node that
`alice` signed, replayed with another payload. -/
theorem outsider_blames :
    composeWith toyHash gatePhases { gateOptions with failureHook := true } = .ok hookRunner ∧
      ¬ ownKey "mallory" [1] ∧
      (∃ lin, hookRunner.lineage = some lin ∧ ¬ Signed lin.verifiers forgedShare) ∧
      (share "mallory" [42] forgedShare).reports hookRunner .listed opened =
        [⟨"mismatch-confirmed", "b", "collect", "share", [1], [forgedShare]⟩] ∧
      (share "mallory" [7] (signedShare "b" "collect")).reports hookRunner .listed opened =
        [⟨"mismatch-confirmed", "b", "collect", "share", [1], [signedShare "b" "collect"]⟩] := by
  refine ⟨rfl, by simp [ownKey], ⟨_, rfl, ?_⟩, by decide +kernel, by decide +kernel⟩
  rintro ⟨v, hv, hsig⟩
  cases hv
  revert hsig
  decide +kernel

theorem recorded_producer_iff_first :
    (share "alice" [42] (signedShare "b" "collect")).lineageNode =
        some (signedShare "b" "collect") ∧
      ∃ n, ((share "alice" [42] (signedShare "b" "collect")).next hookRunner .listed
          opened).store.byHash (signedShare "b" "collect").hash = some n ∧
        SameProducer n (signedShare "b" "collect") := by
  have hres : ((share "alice" [42] (signedShare "b" "collect")).prog hookRunner).result
      (sem hookRunner .listed) opened = .returned (.ok false) := by decide +kernel
  refine ⟨rfl, ((recorded_producer_iff hookRunner_composed rfl .listed opened
    (share "alice" [42] (signedShare "b" "collect")) rfl ?_).2).mpr ?_⟩
  · rw [hres]
    exact id
  · intro n hn
    cases hn

/-- Two participants commit the same share: both calls are accepted, and the store names
the first of them only. -/
theorem second_producer_unrecorded :
    let s := (share "alice" [42] (signedShare "b" "collect")).next hookRunner .listed opened
    composeWith toyHash gatePhases { gateOptions with failureHook := true } = .ok hookRunner ∧
      ((share "bob" [42] bobShare).prog hookRunner).result (sem hookRunner .listed) s =
        .returned (.ok true) ∧
      ((share "bob" [42] bobShare).next hookRunner .listed s).store.byHash bobShare.hash =
        some (signedShare "b" "collect") ∧
      (signedShare "b" "collect").producer ≠ bobShare.producer := by
  refine ⟨rfl, ?_, ?_, ?_⟩ <;> decide +kernel

end LineageAttribution
