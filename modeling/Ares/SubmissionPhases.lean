import Ares.SessionRunner

/-! The onion shuffle, the slot verification, the bound check and the ballot phase. -/
namespace SubmissionPhases

open LineageNodes PhasePipelines SessionRunner Function

/-- Go leaves the order of a map iteration open. -/
structure EntryOrder where
  order : {ν : Type} → List (String × ν) → List (String × ν)
  perm : ∀ {ν : Type} (l : List (String × ν)), (order l).Perm l

def EntryOrder.listed : EntryOrder := ⟨fun l => l, .refl⟩

structure SlotEntry where
  slotIndex : ℤ
  slotDKPubHex : String
  deriving DecidableEq

structure Ballot (F : Type) where
  voter : String
  choice : ℤ
  weight : F
  deriving DecidableEq

structure Bound (F : Type) where
  lo : F
  hi : F

inductive Severity where
  | ok | soft | hard
  deriving DecidableEq

structure Params (F : Type) where
  epsNorm : F
  nuHard : F

structure Violation (F : Type) where
  party : String
  nu : F
  sev : Severity
  deriving DecidableEq

abbrev Fuse (F : Type) := List Bytes → ℕ → Except String (List F)

inductive Entry (F H : Type) where
  | names (l : List String)
  | int (n : ℤ)
  | ballots (m : String → Option (Ballot F))
  | handle (h : H)
  | fuse (f : Fuse F)

variable {F H : Type}

section

variable (values : String → Option (Value (Entry F H))) (key : String)

def tryNames : Option (List String) :=
  match values key with
  | some (.other (.names l)) => some l
  | _ => none

def tryInt : Option ℤ :=
  match values key with
  | some (.other (.int n)) => some n
  | _ => none

def tryHandle : Option H :=
  match values key with
  | some (.other (.handle h)) => some h
  | _ => none

def tryFuse : Option (Fuse F) :=
  match values key with
  | some (.other (.fuse f)) => some f
  | _ => none

def tryBlobs : Option (StringMap Bytes) :=
  match values key with
  | some (.bucket m) => some m
  | _ => none

def accumulatedMessages : StringMap Bytes := (tryBlobs values key).getD .empty

end

inductive ExitErr where
  | decodeSlot (sender text : String)
  | duplicateSlot (index : ℤ)
  | commitSlots (e : AppErr)
  | decodePartials (sender text : String)
  | fuseFailed (party text : String)
  | fuseEmpty (party : String)
  | boundViolation
  | decodeBallot (voter text : String)
  deriving DecidableEq

def ExitErr.text : ExitErr → String
  | .decodeSlot s t => "anon: decode slot submission from " ++ s ++ ": " ++ t
  | .duplicateSlot i => "anon: duplicate slot index " ++ toString i
  | .commitSlots e => "anon: commit assembled slot list: " ++ e.text
  | .decodePartials s t =>
    Sentinel.transient.text ++ ": boundcheck: decode partial map from " ++ s ++ ": " ++ t
  | .fuseFailed p t =>
    Sentinel.transient.text ++ ": boundcheck: fuse partials for checked party " ++ p ++ ": " ++ t
  | .fuseEmpty p =>
    Sentinel.transient.text ++ ": boundcheck: fuse returned no values for checked party " ++ p
  | .boundViolation => Sentinel.appAttributable.text ++ ": bound violation"
  | .decodeBallot v t => "PhaseSubmitVote: decode ballot from " ++ v ++ ": " ++ t

def ExitErr.classes : ExitErr → List Sentinel
  | .decodeSlot .. | .duplicateSlot _ | .decodeBallot .. => []
  | .commitSlots e => e.classes
  | .decodePartials .. | .fuseFailed .. | .fuseEmpty _ => [.transient]
  | .boundViolation => [.appAttributable]

def ExitErr.appErr (e : ExitErr) : AppErr := ⟨e.text, e.classes⟩

structure ExitOut (F H : Type) where
  values : String → Option (Value (Entry F H))
  reports : List (Violation F)
  artifacts : List Artifact
  err : Option ExitErr

abbrev Env (F H : Type) := HookEnv (Entry F H) (List (Violation F))

abbrev HookResult (F H : Type) := HookOut (Entry F H) (List (Violation F))

def ExitOut.hookOut {F H : Type} (out : ExitOut F H) : HookResult F H :=
  ⟨out.values, out.reports, out.artifacts, out.err.map ExitErr.appErr⟩

def ended {F H : Type} (e : Env F H) (err : Option ExitErr) : ExitOut F H :=
  ⟨e.ctx.values, e.app, [], err⟩

def keyType (typeName : String) (required noLineage : Bool) : ContextKeyType :=
  ⟨typeName, required, .empty, noLineage⟩

section

/-- `OnMessage` of all four phases: the message goes into a bucket under its sender. -/
def collect (bucketKey sender : String) (payload : Bytes) (e : Env F H) : HookResult F H :=
  { e.unchanged with values := accumulateMessage e.ctx.values bucketKey sender payload }

def allSubmitted (participantsKey bucketKey : String) (e : Env F H) : Bool :=
  match tryNames e.ctx.values participantsKey with
  | none => false
  | some participants => quorumReached e.ctx.values bucketKey participants.length

def decodeAll {β : Type} (decode : Bytes → Except String β) (err : String → String → ExitErr) :
    List (String × Bytes) → Except ExitErr (List (String × β))
  | [] => .ok []
  | (sender, payload) :: rest =>
    match decode payload with
    | .error t => .error (err sender t)
    | .ok b =>
      match decodeAll decode err rest with
      | .error e => .error e
      | .ok bs => .ok ((sender, b) :: bs)

end

def stateGossip : SessionState := "GOSSIP"

def stateVerifying : SessionState := "VERIFYING"

def stateScoring : SessionState := "SCORING"

namespace Anon

def ctxParticipants : String := "anon.participants"

def ctxPeelRounds : String := "anon.peel_rounds"

def ctxAssembledSlotList : String := "anon.assembled_slot_list"

def roleSlotSubmission : String := "slot-submission"

def msgOnionBatch : String := "onion.batch"

def msgPeelForward : String := "onion.peel_forward"

def msgSlotSubmit : String := "slot.submit"

def bucketOnions : String := "anon.bucket.onions"

def bucketPeels : String := "anon.bucket.peels"

def bucketSlots : String := "anon.bucket.slots"

end Anon

section

open Anon

def exitGShuffle (e : Env F H) : ExitOut F H :=
  let rounds := (accumulatedMessages e.ctx.values bucketPeels).entries.length
  { ended e none with
    values := update e.ctx.values ctxPeelRounds (some (.other (.int rounds))) }

def phaseGShuffle : Phase (Entry F H) (List (Violation F)) where
  name := "anon-g-shuffle"
  runsAt := .inline
  entryState := stateGossip
  exitState := stateVerifying
  internalStates := []
  consumedMessageTypes := [msgOnionBatch, msgPeelForward]
  requires := ⟨[(ctxParticipants, keyType "[]string" true false)], by decide⟩
  provides := ⟨[(ctxPeelRounds, keyType "int" false false)], by decide⟩
  enter := HookEnv.unchanged
  onMessage msgType sender payload e :=
    if msgType = msgOnionBatch then collect bucketOnions sender payload e
    else if msgType = msgPeelForward then collect bucketPeels sender payload e
    else e.unchanged
  checkComplete := allSubmitted ctxParticipants bucketPeels
  exit e := (exitGShuffle e).hookOut

end

structure SlotCodec where
  decode : Bytes → Except String SlotEntry
  encode : List SlotEntry → Bytes
  encode_length : ∀ {xs ys}, encode xs = encode ys → xs.length = ys.length

def collectSlots (decode : Bytes → Except String SlotEntry) (seen : List ℤ) :
    List (String × Bytes) → Except ExitErr (List SlotEntry)
  | [] => .ok []
  | (sender, payload) :: rest =>
    match decode payload with
    | .error t => .error (.decodeSlot sender t)
    | .ok slot =>
      if slot.slotIndex ∈ seen then .error (.duplicateSlot slot.slotIndex)
      else match collectSlots decode (slot.slotIndex :: seen) rest with
      | .error e => .error e
      | .ok slots => .ok (slot :: slots)

section

open Anon

def commitFailure : Option AppErr → Option ExitErr
  | some err => if .permanent ∈ err.classes then none else some (.commitSlots err)
  | none => none

def exitGVerify (codec : SlotCodec) (commit : Artifact → Option AppErr) (ω : EntryOrder)
    (e : Env F H) : ExitOut F H :=
  let raw := accumulatedMessages e.ctx.values bucketSlots
  match collectSlots codec.decode [] (ω.order raw.entries) with
  | .error err => ended e (some err)
  | .ok slots =>
    let encoded := codec.encode (slots.mergeSort fun a b => decide (a.slotIndex ≤ b.slotIndex))
    let parents := e.dag.filter fun n => n.role = roleSlotSubmission
    let artifact : Artifact := ⟨"anon-g-verify", ctxAssembledSlotList, encoded, parents⟩
    { values := update e.ctx.values ctxAssembledSlotList (some (.bytes encoded))
      reports := e.app
      artifacts := [artifact]
      err := commitFailure (commit artifact) }

def phaseGVerify (exitState : SessionState) (codec : SlotCodec)
    (commit : Artifact → Option AppErr) (ω : EntryOrder) :
    Phase (Entry F H) (List (Violation F)) where
  name := "anon-g-verify"
  runsAt := .inline
  entryState := stateVerifying
  exitState := exitState
  internalStates := []
  consumedMessageTypes := [msgSlotSubmit]
  requires := ⟨[(ctxParticipants, keyType "[]string" true false)], by decide⟩
  provides := ⟨[(ctxAssembledSlotList, keyType "[]byte" false true)], by decide⟩
  enter := HookEnv.unchanged
  onMessage _ sender payload e := collect bucketSlots sender payload e
  checkComplete := allSubmitted ctxParticipants bucketSlots
  exit e := (exitGVerify codec commit ω e).hookOut

end

namespace BoundCheck

def ctxEncryptedInputs : String := "boundcheck.encrypted_inputs"

def ctxInputDim : String := "boundcheck.input_dim"

def ctxEvalKeyBundle : String := "boundcheck.eval_key_bundle"

def ctxJointPublicKey : String := "boundcheck.joint_public_key"

def ctxBoundCheckCiphers : String := "boundcheck.check_ciphertexts"

def ctxBoundCheckCommitments : String := "boundcheck.check_commitments"

def ctxBoundCheckHandle : String := "boundcheck.handle"

def ctxBoundCheckFuse : String := "boundcheck.fuse"

def msgBoundPartial : String := "bound_check.partial"

def bucketPartials : String := "boundcheck.bucket.partials"

def ctxParticipants : String := "participants"

structure BoundCircuit (F H : Type) where
  eval : H → List Bytes → Except String Bytes
  bound : Bound F
  dim : ℤ

/-- The phase's own fields. `handler` says whether a violation handler is set, `decode`
reads a `map[string][]byte`. -/
structure BoundPhase (F H : Type) where
  circuit : BoundCircuit F H
  handler : Bool
  params : Params F
  entryState : SessionState
  exitState : SessionState
  handle : Option H
  fuse : Option (Fuse F)
  decode : Bytes → Except String (String → Option Bytes)
  sha256 : Bytes → NodeRef

section

variable {F H : Type}

def permanentErr (text : String) : AppErr :=
  ⟨Sentinel.permanent.text ++ ": boundcheck: " ++ text, [.permanent]⟩

def notSet (key : String) : AppErr := permanentErr ("context key " ++ goQuote key ++ " not set")

def evalChecks (p : BoundPhase F H) (handle : H) (sessionID : String) :
    List (String × Bytes) → StringMap Bytes × StringMap Bytes →
      Except AppErr (StringMap Bytes × StringMap Bytes)
  | [], acc => .ok acc
  | (party, encInput) :: rest, (checks, commitments) =>
    match p.circuit.eval handle [encInput] with
    | .error t => .error ⟨Sentinel.transient.text ++ ": boundcheck: eval circuit for party " ++
        party ++ ": " ++ t, [.transient]⟩
    | .ok encCheck =>
      let inner := p.sha256 encInput
      let commitment := p.sha256 (encCheck ++ inner.bytes ++ utf8 sessionID)
      evalChecks p handle sessionID rest
        (bucketInsert checks party encCheck, bucketInsert commitments party commitment.bytes)

def enterBound (p : BoundPhase F H) (ω : EntryOrder) (e : Env F H) : HookResult F H :=
  let values := e.ctx.values
  match tryInt values ctxInputDim with
  | none => { e.unchanged with err := some (notSet ctxInputDim) }
  | some dim =>
    if dim < 2 then
      { e.unchanged with
        err := some (permanentErr ("input dim " ++ toString dim ++
          " < 2; scalar bounds need a Class-2 comparison circuit")) }
    else if dim ≠ p.circuit.dim then
      { e.unchanged with
        err := some (permanentErr ("CtxInputDim " ++ toString dim ++ " != circuit dim " ++
          toString p.circuit.dim)) }
    else match p.handle <|> tryHandle values ctxBoundCheckHandle with
    | none => e.unchanged
    | some handle =>
      match tryBlobs values ctxEncryptedInputs with
      | none => { e.unchanged with err := some (notSet ctxEncryptedInputs) }
      | some encInputs =>
        match evalChecks p handle e.ctx.sessionID (ω.order encInputs.entries)
            (.empty, .empty) with
        | .error err => { e.unchanged with err := some err }
        | .ok (checks, commitments) =>
          { e.unchanged with
            values := update
              (update values ctxBoundCheckCiphers (some (.bucket checks)))
              ctxBoundCheckCommitments (some (.bucket commitments)) }

/-- The partials for one checked party in participant order, and the senders who
withheld theirs. -/
def collectPartials (senderMaps : String → Option (String → Option Bytes))
    (checkedParty : String) : List String → List Bytes × List String
  | [] => ([], [])
  | sender :: rest =>
    let (blobs, withheld) := collectPartials senderMaps checkedParty rest
    match senderMaps sender with
    | none => (blobs, sender :: withheld)
    | some m =>
      match m checkedParty with
      | none => (blobs, sender :: withheld)
      | some blob => (blob :: blobs, withheld)

variable [Zero F] [One F] [Add F] [Sub F] [Max F] [LE F] [DecidableLE F]

def classify (value : F) (b : Bound F) (p : Params F) : F × Severity :=
  let nu := max 0 (max (b.lo - value) (value - b.hi))
  if nu ≤ p.epsNorm then (nu, .ok) else if nu ≤ p.nuHard then (nu, .soft) else (nu, .hard)

/-- The loop over the checked parties: the parties out of bound, and the senders who
withheld a partial. -/
def checkParties (p : BoundPhase F H) (fuse : Fuse F)
    (senderMaps : String → Option (String → Option Bytes)) (participants : List String) :
    List String → Except ExitErr (List (Violation F) × List String)
  | [] => .ok ([], [])
  | checkedParty :: rest =>
    let (blobs, withheld) := collectPartials senderMaps checkedParty participants
    if withheld ≠ [] then
      match checkParties p fuse senderMaps participants rest with
      | .error err => .error err
      | .ok (violators, more) => .ok (violators, withheld ++ more)
    else match fuse blobs 1 with
    | .error t => .error (.fuseFailed checkedParty t)
    | .ok [] => .error (.fuseEmpty checkedParty)
    | .ok (value :: _) =>
      let (nu, sev) := classify value p.circuit.bound p.params
      match checkParties p fuse senderMaps participants rest with
      | .error err => .error err
      | .ok (violators, more) =>
        .ok (if sev = .ok then violators else ⟨checkedParty, nu, sev⟩ :: violators, more)

/-- The end of `Exit`: withholding senders join the violators, in the order the map gives
them, and all of them are reported. -/
def reportAll (p : BoundPhase F H) (ω : EntryOrder) (e : Env F H)
    (found : List (Violation F) × List String) : ExitOut F H :=
  let withholding := ω.order (found.2.dedup.map fun sender => (sender, ()))
  let violators := found.1 ++
    withholding.map fun x => ⟨x.1, p.params.nuHard + 1, .hard⟩
  if violators = [] then ended e none
  else { ended e (some .boundViolation) with
    reports := if p.handler then e.app ++ violators else e.app }

def exitBound (p : BoundPhase F H) (ω : EntryOrder) (e : Env F H) : ExitOut F H :=
  match p.fuse <|> tryFuse e.ctx.values ctxBoundCheckFuse with
  | none => ended e none
  | some fuse =>
    let participants := (tryNames e.ctx.values ctxParticipants).getD []
    let rawPartials := accumulatedMessages e.ctx.values bucketPartials
    match decodeAll p.decode .decodePartials (ω.order rawPartials.entries) with
    | .error err => ended e (some err)
    | .ok maps =>
      match checkParties p fuse (fun sender => maps.lookup sender) participants participants with
      | .error err => ended e (some err)
      | .ok found => reportAll p ω e found

def BoundPhase.phase (p : BoundPhase F H) (ω : EntryOrder) :
    Phase (Entry F H) (List (Violation F)) where
  name := "bound-check"
  runsAt := .inline
  entryState := p.entryState
  exitState := p.exitState
  internalStates := []
  consumedMessageTypes := [msgBoundPartial]
  requires := ⟨[(ctxEncryptedInputs, keyType "map[string][]byte" true false),
    (ctxInputDim, keyType "int" true false), (ctxEvalKeyBundle, keyType "[]byte" true false),
    (ctxJointPublicKey, keyType "[]byte" true false),
    (ctxParticipants, keyType "[]string" true false)], by decide⟩
  provides := ⟨[(ctxBoundCheckCiphers, keyType "map[string][]byte" false false),
    (ctxBoundCheckCommitments, keyType "map[string][]byte" false false)], by decide⟩
  enter := enterBound p ω
  onMessage _ sender payload e := collect bucketPartials sender payload e
  checkComplete := allSubmitted ctxParticipants bucketPartials
  exit e := (exitBound p ω e).hookOut

end

end BoundCheck

namespace Voting

def ctxVoteParticipants : String := "vote.participants"

def ctxVoteBallots : String := "vote.ballots"

def bucketBallots : String := "vote.bucket.ballots"

def msgVoteBallot : String := "vote.ballot"

section

variable {F H : Type} [Zero F] [One F] [LE F] [DecidableLE F]

def ballotOf (voter : String) (b : ℤ × F) : Ballot F :=
  ⟨voter, b.1, if b.2 ≤ 0 then 1 else b.2⟩

def exitSubmitVote (decode : Bytes → Except String (ℤ × F)) (ω : EntryOrder) (e : Env F H) :
    ExitOut F H :=
  let raw := accumulatedMessages e.ctx.values bucketBallots
  match decodeAll decode .decodeBallot (ω.order raw.entries) with
  | .error err => ended e (some err)
  | .ok decoded =>
    let parsed := fun voter => (decoded.lookup voter).map (ballotOf voter)
    { ended e none with
      values := update e.ctx.values ctxVoteBallots (some (.other (.ballots parsed))) }

def phaseSubmitVote (entryState : SessionState) (decode : Bytes → Except String (ℤ × F))
    (ω : EntryOrder) : Phase (Entry F H) (List (Violation F)) where
  name := "vote-submit"
  runsAt := .inline
  entryState := entryState
  exitState := stateScoring
  internalStates := []
  consumedMessageTypes := [msgVoteBallot]
  requires := ⟨[(ctxVoteParticipants, keyType "[]string" true false)], by decide⟩
  provides := ⟨[(ctxVoteBallots, keyType "map[string]Ballot" false false)], by decide⟩
  enter := HookEnv.unchanged
  onMessage _ sender payload e := collect bucketBallots sender payload e
  checkComplete := allSubmitted ctxVoteParticipants bucketBallots
  exit e := (exitSubmitVote decode ω e).hookOut

end

end Voting

inductive SubmissionPhase (F H : Type) where
  | gShuffle
  | gVerify (exitState : SessionState) (codec : SlotCodec) (commit : Artifact → Option AppErr)
  | boundCheck (p : BoundCheck.BoundPhase F H)
  | submitVote (entryState : SessionState) (decode : Bytes → Except String (ℤ × F))

namespace SubmissionPhase

variable {F H : Type}

def bucketKey : SubmissionPhase F H → String
  | .gShuffle => Anon.bucketPeels
  | .gVerify .. => Anon.bucketSlots
  | .boundCheck _ => BoundCheck.bucketPartials
  | .submitVote .. => Voting.bucketBallots

def msgType : SubmissionPhase F H → String
  | .gShuffle => Anon.msgPeelForward
  | .gVerify .. => Anon.msgSlotSubmit
  | .boundCheck _ => BoundCheck.msgBoundPartial
  | .submitVote .. => Voting.msgVoteBallot

def participantsKey : SubmissionPhase F H → String
  | .gShuffle | .gVerify .. => Anon.ctxParticipants
  | .boundCheck _ => BoundCheck.ctxParticipants
  | .submitVote .. => Voting.ctxVoteParticipants

variable [Zero F] [One F] [Add F] [Sub F] [Max F] [LE F] [DecidableLE F]

def exit (ω : EntryOrder) : SubmissionPhase F H → Env F H → ExitOut F H
  | .gShuffle => exitGShuffle
  | .gVerify _ codec commit => exitGVerify codec commit ω
  | .boundCheck p => BoundCheck.exitBound p ω
  | .submitVote _ decode => Voting.exitSubmitVote decode ω

def phase (ω : EntryOrder) : SubmissionPhase F H → Phase (Entry F H) (List (Violation F))
  | .gShuffle => phaseGShuffle
  | .gVerify exitState codec commit => phaseGVerify exitState codec commit ω
  | .boundCheck p => p.phase ω
  | .submitVote entryState decode => Voting.phaseSubmitVote entryState decode ω

end SubmissionPhase

end SubmissionPhases
