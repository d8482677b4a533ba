import Ares.ClientLineage
import Ares.JsonTexts
import Ares.MachineIntegers

/-! `GossipParticipant` hashes a canonical text of its slot entry into a lineage node,
`ARESSession.send` writes the frame, and the hub takes the payload from the frame as the text that
stands there. -/

namespace PythonFrames

open ClientLineage LineageNodes JsonTexts MachineIntegers List

def encodeText (text : List Char) : Bytes := utf8 (String.ofList text)

def decodeText (b : Bytes) : Option (List Char) :=
  (String.fromUTF8? ⟨b.toArray⟩).map String.toList

theorem decodeText_encodeText (text : List Char) : decodeText (encodeText text) = some text := by
  have back : String.fromUTF8? ⟨(encodeText text).toArray⟩ = some (String.ofList text) := by
    exact dif_pos (String.ofList text).isValidUTF8
  rw [decodeText, back, Option.map_some, String.toList_ofList]

theorem encodeText_inj {t t' : List Char} : encodeText t = encodeText t' ↔ t = t' := by
  constructor
  · intro eq
    have texts := congrArg decodeText eq
    rw [decodeText_encodeText, decodeText_encodeText] at texts
    exact Option.some.inj texts
  · intro eq
    rw [eq]

def canonicalBytes (v : Json) : Bytes := encodeText (write compact (sortKeys v))

def loads (b : Bytes) : Option Json := (decodeText b).bind parse

structure GossipParticipant where
  sessionID : String
  selfIndex : ℤ
  slotDkPub : Bytes

namespace GossipParticipant

variable (p : GossipParticipant)

def slotEntry : Json :=
  .obj [("slot_index", .int p.selfIndex), ("slot_dk_pub", .str (hex p.slotDkPub))]

def slotEntryBytes : Bytes := canonicalBytes p.slotEntry

end GossipParticipant

def number (width low high : ℕ) (text : List Char) : Option (ℕ × List Char) :=
  let run := text.take width
  let n := Nat.ofDigitChars 10 run 0
  if run.length = width ∧ run.all Char.isDigit ∧ low ≤ n ∧ n ≤ high then
    some (n, text.drop width)
  else none

def expect (c : Char) : List Char → Option (List Char)
  | [] => none
  | d :: text => if d = c then some text else none

def daysIn (month year : ℕ) : ℕ :=
  if month = 2 then if year % 4 = 0 ∧ (year % 100 ≠ 0 ∨ year % 400 = 0) then 29 else 28
  else if month ∈ [4, 6, 9, 11] then 30 else 31

def fraction (text : List Char) : List Char :=
  match text with
  | '.' :: d :: rest => if d.isDigit then rest.dropWhile Char.isDigit else text
  | _ => text

def zone (text : List Char) : Option (List Char) :=
  match text with
  | 'Z' :: rest => some rest
  | sign :: rest =>
    if sign = '+' ∨ sign = '-' then do
      let (_, rest) ← number 2 0 23 rest
      let (_, rest) ← number 2 0 59 (← expect ':' rest)
      return rest
    else none
  | [] => none

/-- What is left behind a time of RFC 3339, as `time.Time` reads it from JSON. -/
def afterTime (text : List Char) : Option (List Char) := do
  let (year, text) ← number 4 0 9999 text
  let (month, text) ← number 2 1 12 (← expect '-' text)
  let (_, text) ← number 2 1 (daysIn month year) (← expect '-' text)
  let (_, text) ← number 2 0 23 (← expect 'T' text)
  let (_, text) ← number 2 0 59 (← expect ':' text)
  let (_, text) ← number 2 0 59 (← expect ':' text)
  zone (fraction text)

def isTime (s : String) : Bool := afterTime s.toList = some []

def nodeDict (createdAt : String) (w : WireNode) : Json :=
  .obj [("hash", .str w.hash), ("session_id", .str w.sessionID), ("phase_id", .str w.phaseID),
    ("role", .str w.role), ("parents", .arr (w.parents.map .str)),
    ("parent_roles", .arr (w.parentRoles.map .str)), ("payload_hash", .str w.payloadHash),
    ("created_at", .str createdAt), ("producer", .str w.producer),
    ("signature", .str w.signature), ("algorithm", .str w.algorithm)]

/-- What a node is built from beside its content. The clock's text is a time. -/
structure Draw where
  seed : Bytes
  nonce : Bytes
  createdAt : String
  stamped : isTime createdAt = true

def buildNodeDict (sha256 : Bytes → NodeRef) (ed : Ed25519) (d : Draw) (sessionID : String)
    (payloadBytes : Bytes) : Except BuildErr Json :=
  (Python.dialect.buildSlotNode sha256 ed
    { sessionID := sessionID, payloadBytes := payloadBytes, ed25519Seed := d.seed,
      nonce := d.nonce, parentsHex := [] }).map fun built => nodeDict d.createdAt built.node

def GossipParticipant.slotSubmission (sha256 : Bytes → NodeRef) (ed : Ed25519) (d : Draw)
    (p : GossipParticipant) : Except BuildErr (Bytes × Json) :=
  (buildNodeDict sha256 ed d p.sessionID p.slotEntryBytes).map fun node => (p.slotEntryBytes, node)

structure ARESSession where
  pseudonym : String
  sessionID : String
  closed : Bool

def payloadMember : Json → List (String × Json)
  | .null => []
  | payload => [("payload", payload)]

def lineageMembers : Option Json → List (String × Json)
  | none => []
  | some lineage => [("version", .str "2"), ("lineage", lineage)]

def ARESSession.frame (s : ARESSession) (msgType : String) (payload : Json) (seq : ℤ)
    (lineage : Option Json) : List (String × Json) :=
  [("type", .str msgType), ("session_id", .str s.sessionID), ("seq", .int seq)] ++
    payloadMember payload ++ lineageMembers lineage

def ARESSession.send (s : ARESSession) (msgType : String) (payload : Json) (seq : ℤ)
    (lineage : Option Json) : Except String Bytes :=
  if s.closed then .error (s.pseudonym ++ ": session closed")
  else .ok (encodeText (write spaced (.obj (s.frame msgType payload seq lineage))))

structure WSMessage where
  version : String
  type : String
  sessionID : String
  seq : ℤ
  payload : Bytes
  timestamp : String
  lineage : Option DAGNode

section

variable (members : List Member)

def member (key : String) : Option Member := members.reverse.find? fun m => m.key = key

def stringField (key : String) : Option String :=
  match (member members key).map Member.value with
  | none | some .null => some ""
  | some (.str s) => some s
  | some _ => none

def int64Field (key : String) : Option ℤ :=
  match (member members key).map Member.value with
  | none | some .null => some 0
  | some (.int n) => if int64 n = n then some n else none
  | some _ => none

def rawField (key : String) : Bytes :=
  match member members key with
  | none => []
  | some m => encodeText m.raw

def nodeRefField (key : String) : Option NodeRef :=
  match (member members key).map Member.value with
  | none => some (Vector.replicate 32 0)
  | some (.str s) => unmarshalNodeRef s
  | some _ => none

def timeField (key : String) : Option Unit :=
  match (member members key).map Member.value with
  | none | some .null => some ()
  | some (.str s) => if isTime s then some () else none
  | some _ => none

def asString : Json → Option String
  | .str s => some s
  | .null => some ""
  | _ => none

def asNodeRef : Json → Option NodeRef
  | .str s => unmarshalNodeRef s
  | _ => none

def listField {α : Type} (element : Json → Option α) (key : String) : Option (List α) :=
  match (member members key).map Member.value with
  | none | some .null => some []
  | some (.arr items) => items.mapM element
  | some _ => none

end

def unmarshalDAGNode (text : List Char) : Option DAGNode := do
  let members ← parseObject text
  let hash ← nodeRefField members "hash"
  let sessionID ← stringField members "session_id"
  let phaseID ← stringField members "phase_id"
  let role ← stringField members "role"
  let parents ← listField members asNodeRef "parents"
  let parentRoles ← listField members asString "parent_roles"
  let payloadHash ← nodeRefField members "payload_hash"
  let () ← timeField members "created_at"
  let producer ← (stringField members "producer").bind decodeString
  let signature ← (stringField members "signature").bind decodeString
  let algorithm ← stringField members "algorithm"
  return ⟨hash, sessionID, phaseID, role, parents, parentRoles, payloadHash, producer, signature,
    algorithm⟩

def lineageField (members : List Member) : Option (Option DAGNode) :=
  match member members "lineage" with
  | none | some ⟨_, .null, _⟩ => some none
  | some m => (unmarshalDAGNode m.raw).map some

def unmarshalFrame (data : Bytes) : Option WSMessage := do
  let members ← (decodeText data).bind parseObject
  let version ← stringField members "version"
  let type ← stringField members "type"
  let sessionID ← stringField members "session_id"
  let seq ← int64Field members "seq"
  let timestamp ← stringField members "timestamp"
  let lineage ← lineageField members
  return ⟨version, type, sessionID, seq, rawField members "payload", timestamp, lineage⟩

def wireProtocolVersion : String := "1"

def wireProtocolVersionLineage : String := "2"

def validateInboundMessage (msg : WSMessage) : Option String :=
  let v := if msg.version = "" then wireProtocolVersion else msg.version
  if v = wireProtocolVersion then none
  else if v = wireProtocolVersionLineage then
    if msg.lineage.isNone then
      some ("transport: v" ++ v ++ " frame requires non-nil Lineage field")
    else none
  else
    some ("transport: unknown protocol version " ++ goQuote v ++ " (supported: " ++
      goQuote wireProtocolVersion ++ ", " ++ goQuote wireProtocolVersionLineage ++ ")")

/-- What `readPump` makes of one frame, before sequence numbers and rates are looked at. -/
def receive (data : Bytes) : Option WSMessage := do
  let msg ← unmarshalFrame data
  if validateInboundMessage msg = none then return msg else none

theorem mapM_str {α : Type} {element : Json → Option α} {ofString : String → Option α}
    (each : ∀ s, element (.str s) = ofString s) (l : List String) :
    (l.map Json.str).mapM element = l.mapM ofString := by
  induction l with
  | nil => rfl
  | cons s l ih => rw [map_cons, mapM_cons, mapM_cons, ih, each]

theorem mapM_some (l : List String) : l.mapM (some : String → Option String) = some l := by
  induction l with
  | nil => rfl
  | cons s l ih =>
    rw [mapM_cons, ih]
    rfl

theorem unmarshalDAGNode_write {createdAt : String} (stamped : isTime createdAt = true)
    (w : WireNode) :
    unmarshalDAGNode (write spaced (nodeDict createdAt w)) = unmarshalNode w := by
  have parents : (w.parents.map Json.str).mapM asNodeRef = w.parents.mapM unmarshalNodeRef :=
    mapM_str (fun _ => rfl) _
  have roles : (w.parentRoles.map Json.str).mapM asString = w.parentRoles.mapM some :=
    mapM_str (fun _ => rfl) _
  rw [unmarshalDAGNode, nodeDict, parseObject_write]
  simp [member, nodeRefField, stringField, timeField, listField, Member.written, parents, roles,
    mapM_some, unmarshalNode, stamped]

def wirePayload : Json → Bytes
  | .null => []
  | v => encodeText (write spaced v)

theorem payloadMember_cases (payload : Json) :
    (payload = .null ∧ payloadMember payload = [] ∧ wirePayload payload = []) ∨
      (payload ≠ .null ∧ payloadMember payload = [("payload", payload)] ∧
        wirePayload payload = encodeText (write spaced payload)) := by
  cases payload with
  | null => exact .inl ⟨rfl, rfl, rfl⟩
  | _ => exact .inr ⟨by simp, rfl, rfl⟩

theorem lineageField_written {members : List Member} {createdAt : String}
    (stamped : isTime createdAt = true) {w : WireNode} {node : DAGNode}
    (decodes : unmarshalNode w = some node)
    (found : member members "lineage" =
      some (Member.written spaced ("lineage", nodeDict createdAt w))) :
    lineageField members = some (some node) := by
  have lineage := unmarshalDAGNode_write stamped w
  rw [decodes] at lineage
  rw [lineageField, found]
  simp only [nodeDict] at lineage ⊢
  simp [Member.written, lineage]

theorem frame_fields (s : ARESSession) (msgType : String) (payload : Json) {seq : ℤ}
    (range : int64 seq = seq) (lineage : Json) :
    let members := (s.frame msgType payload seq (some lineage)).map (Member.written spaced)
    stringField members "version" = some "2" ∧ stringField members "type" = some msgType ∧
      stringField members "session_id" = some s.sessionID ∧ int64Field members "seq" = some seq ∧
      rawField members "payload" = wirePayload payload ∧
      stringField members "timestamp" = some "" ∧
      member members "lineage" = some (Member.written spaced ("lineage", lineage)) := by
  rcases payloadMember_cases payload with ⟨-, absent, wire⟩ | ⟨-, present, wire⟩
  · rw [ARESSession.frame, absent, wire]
    simp [lineageMembers, member, stringField, int64Field, rawField, Member.written, range]
  · rw [ARESSession.frame, present, wire]
    simp [lineageMembers, member, stringField, int64Field, rawField, Member.written, range]

theorem receive_send {s : ARESSession} (isOpen : s.closed = false) (msgType : String)
    (payload : Json) {seq : ℤ} (range : int64 seq = seq) {createdAt : String}
    (stamped : isTime createdAt = true) {w : WireNode} {node : DAGNode}
    (decodes : unmarshalNode w = some node) :
    ∃ frame, s.send msgType payload seq (some (nodeDict createdAt w)) = .ok frame ∧ receive frame =
        some ⟨"2", msgType, s.sessionID, seq, wirePayload payload, "", some node⟩ := by
  refine ⟨encodeText (write spaced (.obj (s.frame msgType payload seq
    (some (nodeDict createdAt w))))), ?_, ?_⟩
  · rw [ARESSession.send, isOpen]
    rfl
  · obtain ⟨version, type, sessionID, seqIs, raw, timestamp, found⟩ :=
      frame_fields s msgType payload range (nodeDict createdAt w)
    rw [receive, unmarshalFrame, decodeText_encodeText, Option.bind_some, parseObject_write]
    simp only [Option.bind_eq_bind, Option.bind_some, version, type, sessionID, seqIs, raw,
      timestamp, lineageField_written stamped decodes found]
    rfl

theorem sortKeys_null {v : Json} : sortKeys v = .null ↔ v = .null := by
  cases v <;> simp [sortKeys]

theorem wirePayload_eq_iff (v : Json) :
    wirePayload (sortKeys v) = canonicalBytes v ↔ separators v = 0 ∧ v ≠ .null := by
  rcases payloadMember_cases (sortKeys v) with ⟨null, -, wire⟩ | ⟨other, -, wire⟩
  · rw [sortKeys_null] at null
    rw [wire, null]
    simp only [ne_eq, not_true_eq_false, and_false, iff_false]
    intro empty
    have texts : [] = write compact .null := encodeText_inj.mp empty
    cases texts
  · rw [ne_eq, sortKeys_null] at other
    rw [wire, canonicalBytes, encodeText_inj, write_spaced_iff, separators_sortKeys]
    exact (and_iff_left other).symm

theorem loads_canonicalBytes (v : Json) : loads (canonicalBytes v) = some (sortKeys v) := by
  rw [loads, canonicalBytes, decodeText_encodeText, Option.bind_some, parse_write]

section

variable {sha256 : Bytes → NodeRef} {ed : Ed25519} {verifiers : String → Option Signer}
  {key : Bytes} {sessionID : String}

theorem buildSlotNode_fits {a : SlotArgs} {built : BuiltNode} (parents : a.parentsHex = [])
    (ok : Python.dialect.buildSlotNode sha256 ed a = .ok built) :
    (utf8 a.sessionID).length < 2 ^ 32 ∧ a.ed25519Seed.length = 32 := by
  rw [Dialect.buildSlotNode, parents, Dialect.decodeParents] at ok
  cases input : Python.dialect.nodeHashInput (Python.dialect.encode a.sessionID)
      (Python.dialect.encode a.phaseID) (Python.dialect.encode a.role)
      (sha256 a.payloadBytes).bytes (Python.dialect.sort []) with
  | none =>
    simp only [input] at ok
    cases ok
  | some bytes =>
    constructor
    · by_contra long
      have overflow : Python.dialect.lp (Python.dialect.encode a.sessionID) = none := by
        simp only [Dialect.lp, Python.dialect, Python.packI, if_neg long, Option.map_none]
      rw [Dialect.nodeHashInput, overflow] at input
      cases input
    · by_contra short
      simp only [input, ne_eq, short] at ok
      split at ok <;> cases ok

def slotNodeOf (sha256 : Bytes → NodeRef) (ed : Ed25519) (d : Draw) (sessionID : String)
    (payloadBytes : Bytes) : DAGNode :=
  slotNode sha256 ed sessionID "anon-g-verify" "slot-submission" payloadBytes [] d.seed d.nonce []

theorem slotNodeOf_verify_iff (sessionID : String) (correct : ed.Correct)
    (hv : verifiers "ed25519" = some (ed25519Signer ed key)) {d : Draw}
    (seed : d.seed.length = 32) {hashed payload : Bytes}
    (noCollision : sha256 payload = sha256 hashed → payload = hashed) :
    verify sha256 (slotNodeOf sha256 ed d sessionID hashed) payload verifiers = .ok () ↔
      payload = hashed := by
  constructor
  · intro passes
    have verified := (verify_ok_iff sha256).mp passes
    exact noCollision verified.payloadHash.symm
  · rintro rfl
    exact slotNode_verify correct seed d.nonce key [] hv

theorem buildNodeDict_eq {d : Draw} (size : (utf8 sessionID).length < 2 ^ 32)
    (seed : d.seed.length = 32) (payloadBytes : Bytes) :
    buildNodeDict sha256 ed d sessionID payloadBytes =
      .ok (nodeDict d.createdAt (toWire (slotNodeOf sha256 ed d sessionID payloadBytes))) := by
  have fits : Fits sessionID "anon-g-verify" "slot-submission" [] :=
    ⟨size, by decide, by decide, by decide⟩
  exact congrArg (Except.map fun built => nodeDict d.createdAt built.node)
    (buildSlotNode_eq Python.dialect_standard fits (Perm.refl []) seed d.nonce)

theorem buildNodeDict_ok {d : Draw} {payloadBytes : Bytes} {dict : Json}
    (built : buildNodeDict sha256 ed d sessionID payloadBytes = .ok dict) :
    d.seed.length = 32 ∧
      dict = nodeDict d.createdAt (toWire (slotNodeOf sha256 ed d sessionID payloadBytes)) := by
  cases ok : Python.dialect.buildSlotNode sha256 ed
      { sessionID := sessionID, payloadBytes := payloadBytes, ed25519Seed := d.seed,
        nonce := d.nonce, parentsHex := [] } with
  | error e =>
    rw [buildNodeDict, ok] at built
    cases built
  | ok b =>
    obtain ⟨size, seed⟩ := buildSlotNode_fits rfl ok
    rw [buildNodeDict_eq size seed] at built
    cases built
    exact ⟨seed, rfl⟩

theorem GossipParticipant.separators_slotEntry (p : GossipParticipant) :
    separators p.slotEntry ≠ 0 := by
  rw [GossipParticipant.slotEntry, separators, memberSeparators_two, memberSeparators]
  omega

/-- The node of a frame verifies exactly if its payload is written without a separator, so never the
one of a slot submission. -/
theorem frame_verified_iff (correct : ed.Correct)
    (hv : verifiers "ed25519" = some (ed25519Signer ed key)) {d : Draw} {v dict : Json}
    (built : buildNodeDict sha256 ed d sessionID (canonicalBytes v) = .ok dict)
    {s : ARESSession} (isOpen : s.closed = false) (msgType : String) {seq : ℤ}
    (range : int64 seq = seq)
    (noCollision : sha256 (wirePayload (sortKeys v)) = sha256 (canonicalBytes v) →
      wirePayload (sortKeys v) = canonicalBytes v) :
    ∃ payload frame msg node, loads (canonicalBytes v) = some payload ∧
      s.send msgType payload seq (some dict) = .ok frame ∧ receive frame = some msg ∧
      msg.lineage = some node ∧ (msg.payload = canonicalBytes v ↔ separators v = 0 ∧ v ≠ .null) ∧
      (verify sha256 node msg.payload verifiers = .ok () ↔ separators v = 0 ∧ v ≠ .null) ∧
      ∀ p : GossipParticipant, v = p.slotEntry →
        verify sha256 node msg.payload verifiers ≠ .ok () := by
  obtain ⟨seed, rfl⟩ := buildNodeDict_ok built
  obtain ⟨frame, sent, received⟩ := receive_send isOpen msgType (sortKeys v) range d.stamped
    (unmarshalNode_toWire (slotNodeOf sha256 ed d sessionID (canonicalBytes v)))
  have passes_iff := slotNodeOf_verify_iff sessionID correct hv seed noCollision
  have verified := passes_iff.trans (wirePayload_eq_iff v)
  refine ⟨_, frame, _, _, loads_canonicalBytes v, sent, received, rfl, wirePayload_eq_iff v,
    verified, ?_⟩
  rintro p rfl passes
  exact p.separators_slotEntry (verified.mp passes).1

end

def someDraw : Draw := ⟨List.replicate 32 5, [], "2026-01-01T00:00:00Z", by decide⟩

def someSession : ARESSession := ⟨"alice", "s", false⟩

theorem frame_verified_number :
    ∃ dict payload frame msg node,
      buildNodeDict foldDigest digestScheme someDraw "s" (canonicalBytes (.int 7)) = .ok dict ∧
      loads (canonicalBytes (.int 7)) = some payload ∧
      someSession.send "slot.submit" payload 0 (some dict) = .ok frame ∧
      receive frame = some msg ∧ msg.lineage = some node ∧
      verify foldDigest node msg.payload digestVerifiers = .ok () := by
  have built : buildNodeDict foldDigest digestScheme someDraw "s" (canonicalBytes (.int 7)) =
      .ok _ := buildNodeDict_eq (by decide) (by decide) _
  have plain : separators (.int 7) = 0 ∧ Json.int 7 ≠ .null := ⟨by rw [separators], by simp⟩
  obtain ⟨payload, frame, msg, node, loaded, sent, received, lineage, -, verified, -⟩ :=
    frame_verified_iff digestScheme_correct (rfl : digestVerifiers "ed25519" = _) built
      (s := someSession) rfl "slot.submit" (by decide : int64 0 = 0)
      fun _ => (wirePayload_eq_iff (.int 7)).mpr plain
  exact ⟨_, payload, frame, msg, node, built, loaded, sent, received, lineage, verified.mpr plain⟩

theorem sortKeys_slotEntry (p : GossipParticipant) :
    sortKeys p.slotEntry =
      .obj [("slot_dk_pub", .str (hex p.slotDkPub)), ("slot_index", .int p.selfIndex)] := by
  have order : ¬ "slot_index" ≤ "slot_dk_pub" := by decide
  simp only [GossipParticipant.slotEntry, sortKeys, sortMembers]
  simp [List.mergeSort]

theorem wirePayload_slotEntry_ne (p : GossipParticipant) :
    wirePayload (sortKeys p.slotEntry) ≠ p.slotEntryBytes := by
  intro same
  exact p.separators_slotEntry ((wirePayload_eq_iff p.slotEntry).mp same).1

def someSlot : GossipParticipant := ⟨"s", 0, [7]⟩

/-- The payload of a slot submission is written with spaces that the hashed bytes do not have. -/
theorem slot_frame_rejected :
    ∃ dict payload frame msg node, someSlot.slotSubmission foldDigest digestScheme someDraw =
        .ok (someSlot.slotEntryBytes, dict) ∧ loads someSlot.slotEntryBytes = some payload ∧
      someSession.send "slot.submit" payload 0 (some dict) = .ok frame ∧
      receive frame = some msg ∧ msg.lineage = some node ∧ msg.payload ≠ someSlot.slotEntryBytes ∧
      verify foldDigest node msg.payload digestVerifiers ≠ .ok () := by
  have built : buildNodeDict foldDigest digestScheme someDraw "s" someSlot.slotEntryBytes =
      .ok _ := buildNodeDict_eq (by decide) (by decide) _
  have submitted := congrArg (Except.map fun node => (someSlot.slotEntryBytes, node)) built
  have digests : foldDigest (wirePayload (sortKeys someSlot.slotEntry)) ≠
      foldDigest someSlot.slotEntryBytes := by
    rw [GossipParticipant.slotEntryBytes, canonicalBytes, sortKeys_slotEntry]
    decide +kernel
  obtain ⟨frame, sent, received⟩ := receive_send (s := someSession) rfl "slot.submit"
    (sortKeys someSlot.slotEntry) (by decide : int64 0 = 0) someDraw.stamped
    (unmarshalNode_toWire
      (slotNodeOf foldDigest digestScheme someDraw "s" someSlot.slotEntryBytes))
  refine ⟨_, _, frame, _, _, submitted, loads_canonicalBytes _, sent, received, rfl,
    wirePayload_slotEntry_ne someSlot, ?_⟩
  intro passes
  have same := (slotNodeOf_verify_iff "s" digestScheme_correct (rfl : digestVerifiers "ed25519" = _)
    (by decide) fun eq => absurd eq digests).mp passes
  exact wirePayload_slotEntry_ne someSlot same

end PythonFrames
