import Ares.CommittedNodes

/-! The Python, Swift and Kotlin clients build slot nodes of their own, each with what its language
offers. They differ on malformed input and on lengths of `2 ^ 32` and more. -/
namespace ClientLineage

open ByteStrings CommittedNodes LineageNodes List

structure Dialect where
  encode : String → Bytes
  u32be : ℕ → Option Bytes
  fromHex : String → Option Bytes
  sort : List Bytes → List Bytes

def pairsFromHex (byteOf : Char → Char → Option UInt8) : List Char → Option Bytes
  | [] => some []
  | [_] => none
  | c :: d :: rest =>
    match byteOf c d with
    | none => none
    | some b => (pairsFromHex byteOf rest).map (b :: ·)

def twoDigits (c d : Char) : Option UInt8 :=
  match digitVal c, digitVal d with
  | some hi, some lo => some (.ofNat (16 * hi + lo))
  | _, _ => none

namespace Python

def isSpace (c : Char) : Bool := c ∈ [' ', '\t', '\n', '\r', Char.ofNat 11, Char.ofNat 12]

def fromHexChars : List Char → Option Bytes
  | [] => some []
  | [c] => if isSpace c then some [] else none
  | c :: d :: rest =>
    if isSpace c then fromHexChars (d :: rest)
    else match twoDigits c d with
    | none => none
    | some b => (fromHexChars rest).map (b :: ·)

def packI (n : ℕ) : Option Bytes :=
  if n < 2 ^ 32 then
    some [.ofNat (n / 2 ^ 24 % 256), .ofNat (n / 2 ^ 16 % 256), .ofNat (n / 2 ^ 8 % 256),
      .ofNat (n % 256)]
  else none

def lt : Bytes → Bytes → Bool
  | _, [] => false
  | [], _ :: _ => true
  | a :: as, b :: bs => if a = b then lt as bs else decide (a < b)

def dialect : Dialect where
  encode := utf8
  u32be := packI
  fromHex s := fromHexChars s.toList
  sort l := l.mergeSort fun a b => !lt b a

end Python

namespace Swift

/-- `UInt8(_, radix: 16)` of two characters: a sign may stand for the first digit. -/
def byteOf (c d : Char) : Option UInt8 :=
  if c = '+' then (digitVal d).map .ofNat
  else if c = '-' then if digitVal d = some 0 then some 0 else none
  else twoDigits c d

def u32be (n : UInt32) : Bytes :=
  [((n >>> 24) &&& 0xff).toUInt8, ((n >>> 16) &&& 0xff).toUInt8, ((n >>> 8) &&& 0xff).toUInt8,
    (n &&& 0xff).toUInt8]

def lexicographicallyPrecedes : Bytes → Bytes → Bool
  | _, [] => false
  | [], _ :: _ => true
  | a :: as, b :: bs => if a < b then true else if b < a then false else
      lexicographicallyPrecedes as bs

def dialect : Dialect where
  encode := utf8
  u32be n := if n < 2 ^ 32 then some (u32be (.ofNat n)) else none
  fromHex s := pairsFromHex byteOf s.toList
  sort l := l.mergeSort fun a b => !lexicographicallyPrecedes b a

end Swift

namespace Kotlin

/-- The zeros of the decimal digits outside ASCII, as far as they are one UTF-16 unit. -/
def zeros : List ℕ :=
  [0x660, 0x6F0, 0x7C0, 0x966, 0x9E6, 0xA66, 0xAE6, 0xB66, 0xBE6, 0xC66, 0xCE6, 0xD66, 0xDE6, 0xE50,
    0xED0, 0xF20, 0x1040, 0x1090, 0x17E0, 0x1810, 0x1946, 0x19D0, 0x1A80, 0x1A90, 0x1B50, 0x1BB0,
    0x1C40, 0x1C50, 0xA620, 0xA8D0, 0xA900, 0xA9D0, 0xA9F0, 0xAA50, 0xABF0, 0xFF10]

/-- `Character.digit(_, 16)`: digits of every script, and fullwidth letters. -/
def digitOf (c : Char) : Option ℕ :=
  match zeros.find? fun z => z ≤ c.toNat ∧ c.toNat < z + 10 with
  | some z => some (c.toNat - z)
  | none =>
    if 0xFF21 ≤ c.toNat ∧ c.toNat ≤ 0xFF26 then some (c.toNat - 0xFF17)
    else if 0xFF41 ≤ c.toNat ∧ c.toNat ≤ 0xFF46 then some (c.toNat - 0xFF37)
    else digitVal c

/-- `toIntOrNull(16)` of two characters, cut to a byte. -/
def byteOf (c d : Char) : Option UInt8 :=
  if c < '0' then
    if c = '-' then (digitOf d).map fun v => .ofNat (256 - v)
    else if c = '+' then (digitOf d).map .ofNat
    else none
  else match digitOf c, digitOf d with
  | some hi, some lo => some (.ofNat (16 * hi + lo))
  | _, _ => none

def u32be (n : BitVec 32) : Bytes :=
  [⟨(n >>> 24).setWidth 8⟩, ⟨(n >>> 16).setWidth 8⟩, ⟨(n >>> 8).setWidth 8⟩, ⟨n.setWidth 8⟩]

def compareLex : Bytes → Bytes → ℤ
  | [], bs => -(bs.length : ℤ)
  | as, [] => as.length
  | a :: as, b :: bs =>
    let d : ℤ := a.toNat - b.toNat
    if d ≠ 0 then d else compareLex as bs

def dialect : Dialect where
  encode s := utf8OfUtf16 (s.toList.flatMap utf16Char)
  u32be n := some (u32be (.ofNat 32 n))
  fromHex s := pairsFromHex byteOf s.toList
  sort l := l.mergeSort fun a b => decide (compareLex a b ≤ 0)

end Kotlin

def dialects : List Dialect := [Python.dialect, Swift.dialect, Kotlin.dialect]

/-- The signature scheme; a nonce stands for the randomness of the signatures that are not
deterministic. -/
structure Ed25519 where
  publicKey : Bytes → Bytes
  sign : Bytes → Bytes → Bytes → Bytes
  verify : Bytes → Bytes → Bytes → Bool

structure Ed25519.Correct (ed : Ed25519) : Prop where
  key_length : ∀ seed, seed.length = 32 → (ed.publicKey seed).length = 32
  signature_length : ∀ seed nonce msg, (ed.sign seed nonce msg).length = 64
  verify_sign : ∀ seed nonce msg, seed.length = 32 →
    ed.verify (ed.publicKey seed) msg (ed.sign seed nonce msg) = true

def hex (b : Bytes) : String := String.ofList (hexDigits b)

/-- A node in the wire form: bytes as lowercase hex. -/
structure WireNode where
  hash : String
  sessionID : String
  phaseID : String
  role : String
  parents : List String
  parentRoles : List String
  payloadHash : String
  producer : String
  signature : String
  algorithm : String
  deriving DecidableEq

inductive BuildErr where
  | badParentHex (parent : String)
  | parentNot32Bytes (parent : String) (size : ℕ)
  | sizeOverflow
  | badSeed
  deriving DecidableEq

structure SlotArgs where
  sessionID : String
  payloadBytes : Bytes
  ed25519Seed : Bytes
  nonce : Bytes
  parentsHex : List String
  phaseID : String := "anon-g-verify"
  role : String := "slot-submission"

structure BuiltNode where
  node : WireNode
  nodeHashInput : Bytes
  signingMsg : Bytes
  sk : Bytes
  pk : Bytes

namespace Dialect

variable (d : Dialect)

def lp (b : Bytes) : Option Bytes := (d.u32be b.length).map (· ++ b)

def decodeParents : List String → Except BuildErr (List Bytes)
  | [] => .ok []
  | ph :: phs =>
    match d.fromHex ph with
    | none => .error (.badParentHex ph)
    | some pb =>
      if pb.length ≠ 32 then .error (.parentNot32Bytes ph pb.length)
      else (decodeParents phs).map (pb :: ·)

def nodeHashInput (sid phase role payloadHash : Bytes) (parents : List Bytes) : Option Bytes := do
  let sid ← d.lp sid
  let phase ← d.lp phase
  let role ← d.lp role
  let payloadHash ← d.lp payloadHash
  let count ← d.u32be parents.length
  return sid ++ phase ++ role ++ payloadHash ++ count ++ parents.flatten

def signingMsg (nodeHash sid phase role : Bytes) : Option Bytes := do
  let sid ← d.lp sid
  let phase ← d.lp phase
  let role ← d.lp role
  return nodeHash ++ sid ++ phase ++ role

def buildSlotNode (sha256 : Bytes → NodeRef) (ed : Ed25519) (a : SlotArgs) :
    Except BuildErr BuiltNode :=
  let sid := d.encode a.sessionID
  let phase := d.encode a.phaseID
  let role := d.encode a.role
  let payloadHash := (sha256 a.payloadBytes).bytes
  match d.decodeParents a.parentsHex with
  | .error e => .error e
  | .ok decoded =>
    let parents := d.sort decoded
    match d.nodeHashInput sid phase role payloadHash parents with
    | none => .error .sizeOverflow
    | some input =>
      let nodeHash := (sha256 input).bytes
      match d.signingMsg nodeHash sid phase role with
      | none => .error .sizeOverflow
      | some msg =>
        if a.ed25519Seed.length ≠ 32 then .error .badSeed
        else
          let pk := ed.publicKey a.ed25519Seed
          .ok
            { node :=
                { hash := hex nodeHash
                  sessionID := a.sessionID
                  phaseID := a.phaseID
                  role := a.role
                  parents := parents.map hex
                  parentRoles := []
                  payloadHash := hex payloadHash
                  producer := hex pk
                  signature := hex (ed.sign a.ed25519Seed a.nonce msg)
                  algorithm := "ed25519" }
              nodeHashInput := input
              signingMsg := msg
              sk := a.ed25519Seed
              pk := pk }

end Dialect

def decodeString (s : String) : Option Bytes := pairsFromHex twoDigits s.toList

def NodeRef.ofBytes (b : Bytes) : Option NodeRef :=
  if h : b.length = 32 then some ⟨b.toArray, h⟩ else none

def unmarshalNodeRef (s : String) : Option NodeRef :=
  if (utf8 s).length ≠ 64 then none else (decodeString s).bind NodeRef.ofBytes

def unmarshalNode (w : WireNode) : Option DAGNode := do
  let hash ← unmarshalNodeRef w.hash
  let parents ← w.parents.mapM unmarshalNodeRef
  let payloadHash ← unmarshalNodeRef w.payloadHash
  let producer ← decodeString w.producer
  let signature ← decodeString w.signature
  return ⟨hash, w.sessionID, w.phaseID, w.role, parents, w.parentRoles, payloadHash, producer,
    signature, w.algorithm⟩

def toWire (n : DAGNode) : WireNode where
  hash := hex n.hash.bytes
  sessionID := n.sessionID
  phaseID := n.phaseID
  role := n.role
  parents := n.parents.map fun p => hex p.bytes
  parentRoles := n.parentRoles
  payloadHash := hex n.payloadHash.bytes
  producer := hex n.producer
  signature := hex n.signature
  algorithm := n.algorithm

def ed25519Signer (ed : Ed25519) (seed : Bytes) : Signer where
  sign msg := .ok (ed.sign seed [] msg)
  verify key msg sig :=
    if key.length ≠ 32 then some "sign: invalid ed25519 pubkey size"
    else if sig.length ≠ 64 then some "sign: invalid ed25519 signature size"
    else if ed.verify key msg sig = false then some "sign: ed25519 signature verification failed"
    else none
  publicKey := ed.publicKey seed
  algorithm := "ed25519"

/-- A dialect does what the Go code does, short of malformed hex and long sizes. -/
structure Dialect.Standard (d : Dialect) : Prop where
  encode : ∀ s, d.encode s = utf8 s
  u32be : ∀ n, n < 2 ^ 32 → d.u32be n = some (putUint32 n)
  fromHex : ∀ b, d.fromHex (hex b) = some b
  sort : ∀ l, d.sort l = sortBytes l

theorem twoDigits_digitChar {hi lo : ℕ} (hhi : hi < 16) (hlo : lo < 16) :
    twoDigits (Nat.digitChar hi) (Nat.digitChar lo) = some (.ofNat (16 * hi + lo)) := by
  simp only [twoDigits, digitVal_digitChar hhi, digitVal_digitChar hlo]

/-- Not a sign, and of ASCII. -/
def PlainChar (c : Char) : Prop := c ≠ '+' ∧ c ≠ '-' ∧ c.toNat < 128

theorem plainChar_digitChar {v : ℕ} (h : v < 16) : PlainChar (Nat.digitChar v) := by
  unfold PlainChar
  revert v
  decide

theorem pairsFromHex_hex {byteOf : Char → Char → Option UInt8}
    (digits : ∀ c d, PlainChar c → PlainChar d → byteOf c d = twoDigits c d) (b : Bytes) :
    pairsFromHex byteOf (hex b).toList = some b := by
  rw [hex, String.toList_ofList]
  apply read_hexDigits
  · rfl
  · intro hi lo rest hhi hlo
    rw [pairsFromHex, digits _ _ (plainChar_digitChar hhi) (plainChar_digitChar hlo),
      twoDigits_digitChar hhi hlo]

theorem Swift.byteOf_plain (c d : Char) (plus : c ≠ '+') (minus : c ≠ '-') :
    byteOf c d = twoDigits c d := by
  rw [byteOf, if_neg plus, if_neg minus]

theorem Kotlin.digitOf_ascii {c : Char} (ascii : c.toNat < 128) : digitOf c = digitVal c := by
  have none : zeros.find? (fun z => z ≤ c.toNat ∧ c.toNat < z + 10) = none := by
    have high : ∀ z ∈ zeros, 128 ≤ z := by decide
    simp only [find?_eq_none, decide_eq_true_eq]
    intro z mem
    have := high z mem
    omega
  simp only [digitOf, none]
  rw [if_neg (by omega), if_neg (by omega)]

theorem Kotlin.byteOf_plain (c d : Char) (hc : PlainChar c) (hd : PlainChar d) :
    byteOf c d = twoDigits c d := by
  rw [byteOf, digitOf_ascii hc.2.2, digitOf_ascii hd.2.2]
  split_ifs with low minus plus
  · exact absurd minus hc.2.1
  · exact absurd plus hc.1
  · have other : digitVal c = none := by
      have below : ∀ {x : Char}, '0' ≤ x → ¬ x ≤ c := fun le => not_le.mpr (low.trans_le le)
      simp [digitVal, below]
    rw [twoDigits, other]
  · rfl

theorem Python.fromHexChars_hex (b : Bytes) : fromHexChars (hex b).toList = some b := by
  rw [hex, String.toList_ofList]
  apply read_hexDigits
  · rfl
  · intro hi lo rest hhi hlo
    have plain : isSpace (Nat.digitChar hi) = false := by
      revert hi
      decide
    simp [fromHexChars, plain, twoDigits_digitChar hhi hlo]

theorem Python.lt_eq (a b : Bytes) : lt a b = decide (a < b) := by
  induction a generalizing b with
  | nil => cases b <;> simp [lt]
  | cons x a ih =>
    cases b with
    | nil => simp [lt]
    | cons y b =>
      rw [lt, ih]
      by_cases same : x = y
      · simp [same]
      · simp [same, cons_lt_cons_iff]

theorem Swift.precedes_eq (a b : Bytes) : lexicographicallyPrecedes a b = decide (a < b) := by
  induction a generalizing b with
  | nil => cases b <;> simp [lexicographicallyPrecedes]
  | cons x a ih =>
    cases b with
    | nil => simp [lexicographicallyPrecedes]
    | cons y b =>
      rw [lexicographicallyPrecedes, ih]
      by_cases less : x < y
      · simp [less, cons_lt_cons_iff]
      by_cases more : y < x
      · have other : x ≠ y := fun same => less (same ▸ more)
        simp [more, other, cons_lt_cons_iff]
      · have same : x = y := UInt8.le_antisymm (UInt8.not_lt.mp more) (UInt8.not_lt.mp less)
        simp [same]

theorem Kotlin.compareLex_nonpos (a b : Bytes) : compareLex a b ≤ 0 ↔ a ≤ b := by
  induction a generalizing b with
  | nil => simp [compareLex]
  | cons x a ih =>
    cases b with
    | nil => simp [compareLex]
    | cons y b =>
      simp only [compareLex]
      rw [cons_le_cons_iff, ← ih, UInt8.lt_iff_toNat_lt, ← UInt8.toNat_inj]
      split_ifs with differ <;> omega

theorem byte_mod (n : ℕ) : UInt8.ofNat (n % 256) = UInt8.ofNat n := UInt8.ofNat_mod_size

theorem low_byte (m : UInt32) : (m &&& 0xff).toUInt8 = UInt8.ofNat m.toNat := by
  have mask := Nat.and_two_pow_sub_one_eq_mod m.toNat 8
  rw [← UInt8.toNat_inj, UInt32.toNat_toUInt8, UInt32.toNat_and, UInt8.toNat_ofNat',
    show (255 : UInt32).toNat = 255 from rfl, mask, Nat.mod_mod]

theorem ofBitVec_shiftRight (n k : ℕ) :
    (⟨(BitVec.ofNat 32 n >>> k).setWidth 8⟩ : UInt8) = .ofNat (n % 2 ^ 32 / 2 ^ k) := by
  rw [← UInt8.toNat_inj, UInt8.toNat_ofBitVec, BitVec.toNat_setWidth, BitVec.toNat_ushiftRight,
    BitVec.toNat_ofNat, Nat.shiftRight_eq_div_pow, UInt8.toNat_ofNat']

theorem not_lt_eq (a b : Bytes) : (!decide (b < a)) = decide (a ≤ b) := by
  rw [← decide_not]
  exact decide_eq_decide.mpr List.not_lt

theorem Python.dialect_standard : dialect.Standard where
  encode _ := rfl
  u32be n h := by
    simp only [dialect, packI, if_pos h, putUint32]
    exact congrArg some (by simp only [byte_mod])
  fromHex := fromHexChars_hex
  sort l := by simp only [dialect, lt_eq, not_lt_eq, sortBytes]

theorem Swift.dialect_standard : dialect.Standard where
  encode _ := rfl
  u32be n h := by
    simp only [dialect, if_pos h, u32be, low_byte, UInt32.toNat_shiftRight,
      UInt32.toNat_ofNat', Nat.mod_eq_of_lt h, Nat.shiftRight_eq_div_pow]
    rfl
  fromHex := pairsFromHex_hex fun c d hc _ => byteOf_plain c d hc.1 hc.2.1
  sort l := by simp only [dialect, precedes_eq, not_lt_eq, sortBytes]

theorem Kotlin.dialect_standard : dialect.Standard where
  encode s := by
    simp only [dialect, utf8OfUtf16_flatMap]
    rw [← utf8_ofList, String.ofList_toList]
  u32be n h := by
    have whole : (⟨(BitVec.ofNat 32 n).setWidth 8⟩ : UInt8) = .ofNat n := by
      have shifted := ofBitVec_shiftRight n 0
      rwa [BitVec.ushiftRight_zero, pow_zero, Nat.div_one, Nat.mod_eq_of_lt h] at shifted
    simp only [dialect, u32be, putUint32, ofBitVec_shiftRight, whole, Nat.mod_eq_of_lt h]
  fromHex := pairsFromHex_hex byteOf_plain
  sort l := by simp only [dialect, compareLex_nonpos, sortBytes]

theorem standard_of_mem : ∀ d ∈ dialects, d.Standard := by
  simp only [dialects, forall_mem_cons]
  exact ⟨Python.dialect_standard, Swift.dialect_standard, Kotlin.dialect_standard, by simp⟩

theorem sortParents_bytes (refs : List NodeRef) (roles : List String) :
    (sortParents refs roles).1.map NodeRef.bytes = sortBytes (refs.map NodeRef.bytes) := by
  apply eq_sortBytes ((sortParents_perm refs roles).map _)
  exact pairwise_map.mpr (sortParents_pairwise refs roles)

/-! What the Go code stores, hashes and signs for given parents, in any order. -/

def parentOrder (refs : List NodeRef) : List NodeRef := (sortParents refs []).1

def hashInput (sha256 : Bytes → NodeRef) (sessionID phaseID role : String) (payload : Bytes)
    (refs : List NodeRef) : Bytes :=
  nodeEncoding sessionID phaseID role (hashPayload sha256 payload) (parentOrder refs)

def messageToSign (sha256 : Bytes → NodeRef) (sessionID phaseID role : String) (payload : Bytes)
    (refs : List NodeRef) : Bytes :=
  signingMessage (sha256 (hashInput sha256 sessionID phaseID role payload refs)) sessionID phaseID
    role

structure Fits (sessionID phaseID role : String) (parents : List NodeRef) : Prop where
  sessionID : (utf8 sessionID).length < 2 ^ 32
  phaseID : (utf8 phaseID).length < 2 ^ 32
  role : (utf8 role).length < 2 ^ 32
  parents : parents.length < 2 ^ 32

section

variable {d : Dialect} (std : d.Standard)

include std

theorem lp_eq {b : Bytes} (h : b.length < 2 ^ 32) : d.lp b = some (writeLenPrefixed b) := by
  rw [Dialect.lp, std.u32be _ h]
  rfl

theorem decodeParents_hex (refs : List NodeRef) :
    d.decodeParents (refs.map fun p => hex p.bytes) = .ok (refs.map NodeRef.bytes) := by
  induction refs with
  | nil => rfl
  | cons p refs ih =>
    have size : p.bytes.length = 32 := by simp [NodeRef.bytes]
    simp only [map_cons, Dialect.decodeParents, std.fromHex, size, ih]
    rfl

theorem sort_parents {refs refs' : List NodeRef} (perm : refs.Perm refs') :
    d.sort (refs.map NodeRef.bytes) = (parentOrder refs').map NodeRef.bytes := by
  rw [std.sort, parentOrder, sortParents_bytes, sortBytes_congr (perm.map _)]

section

variable {sessionID phaseID role : String} {refs : List NodeRef}
  (fits : Fits sessionID phaseID role refs)

include fits

theorem nodeHashInput_eq (payloadHash : NodeRef) :
    d.nodeHashInput (utf8 sessionID) (utf8 phaseID) (utf8 role) payloadHash.bytes
        (refs.map NodeRef.bytes) = some (nodeEncoding sessionID phaseID role payloadHash refs) := by
  have size : payloadHash.bytes.length < 2 ^ 32 := by simp [NodeRef.bytes]
  simp only [Dialect.nodeHashInput, lp_eq std fits.sessionID, lp_eq std fits.phaseID,
    lp_eq std fits.role, lp_eq std size, length_map, std.u32be _ fits.parents]
  rfl

theorem signingMsg_eq (hash : NodeRef) :
    d.signingMsg hash.bytes (utf8 sessionID) (utf8 phaseID) (utf8 role) =
      some (signingMessage hash sessionID phaseID role) := by
  simp only [Dialect.signingMsg, lp_eq std fits.sessionID, lp_eq std fits.phaseID,
    lp_eq std fits.role]
  rfl

end

end

def slotNode (sha256 : Bytes → NodeRef) (ed : Ed25519) (sessionID phaseID role : String)
    (payload : Bytes) (refs : List NodeRef) (seed nonce : Bytes) (roles : List String) :
    DAGNode where
  hash := sha256 (hashInput sha256 sessionID phaseID role payload refs)
  sessionID := sessionID
  phaseID := phaseID
  role := role
  parents := parentOrder refs
  parentRoles := roles
  payloadHash := hashPayload sha256 payload
  producer := ed.publicKey seed
  signature := ed.sign seed nonce (messageToSign sha256 sessionID phaseID role payload refs)
  algorithm := "ed25519"

section

variable {sha256 : Bytes → NodeRef} {ed : Ed25519} {sessionID phaseID role : String}
  {payload : Bytes} {refs : List NodeRef} {seed : Bytes}

theorem buildSlotNode_eq {d : Dialect} (std : d.Standard)
    (fits : Fits sessionID phaseID role refs) {parents : List NodeRef} (perm : parents.Perm refs)
    (hseed : seed.length = 32) (nonce : Bytes) :
    d.buildSlotNode sha256 ed
        ⟨sessionID, payload, seed, nonce, parents.map fun p => hex p.bytes, phaseID, role⟩ =
      .ok ⟨toWire (slotNode sha256 ed sessionID phaseID role payload refs seed nonce []),
        hashInput sha256 sessionID phaseID role payload refs,
        messageToSign sha256 sessionID phaseID role payload refs, seed, ed.publicKey seed⟩ := by
  have ordered := { fits with parents := (sortParents_perm refs []).length_eq ▸ fits.parents }
  have input : d.nodeHashInput (utf8 sessionID) (utf8 phaseID) (utf8 role) (sha256 payload).bytes
      ((parentOrder refs).map NodeRef.bytes) =
        some (hashInput sha256 sessionID phaseID role payload refs) :=
    nodeHashInput_eq std ordered (sha256 payload)
  have msg := signingMsg_eq std fits (sha256 (hashInput sha256 sessionID phaseID role payload refs))
  simp only [Dialect.buildSlotNode, decodeParents_hex std, sort_parents std perm, std.encode, input,
    msg, hseed, map_map]
  rfl

theorem utf8_hex (b : Bytes) : (utf8 (hex b)).length = 2 * b.length := by
  have digit : ∀ v, v < 16 → (String.utf8EncodeChar (Nat.digitChar v)).length = 1 := by decide
  rw [hex, utf8_ofList]
  induction b with
  | nil => rfl
  | cons x b ih =>
    rw [hexDigits, flatMap_cons, flatMap_append, ← hexDigits, length_append, ih]
    simp only [hexPair, flatMap_cons, flatMap_nil, append_nil, length_append,
      digit _ (half_lt x), digit _ (rest_lt x), length_cons]
    omega

theorem decodeString_hex (b : Bytes) : decodeString (hex b) = some b :=
  pairsFromHex_hex (fun _ _ _ _ => rfl) b

theorem unmarshalNodeRef_hex (p : NodeRef) : unmarshalNodeRef (hex p.bytes) = some p := by
  have size : p.bytes.length = 32 := by simp [NodeRef.bytes]
  rw [unmarshalNodeRef, utf8_hex, size, if_neg (by decide), decodeString_hex, Option.bind_some,
    NodeRef.ofBytes, dif_pos size]
  rfl

theorem mapM_unmarshalNodeRef (l : List NodeRef) :
    (l.map fun p => hex p.bytes).mapM unmarshalNodeRef = some l := by
  induction l with
  | nil => rfl
  | cons p l ih =>
    rw [map_cons, mapM_cons, ih, unmarshalNodeRef_hex]
    rfl

theorem unmarshalNode_toWire (n : DAGNode) : unmarshalNode (toWire n) = some n := by
  simp only [unmarshalNode, toWire, unmarshalNodeRef_hex, mapM_unmarshalNodeRef, decodeString_hex]
  rfl

theorem ed25519Signer_verify (correct : ed.Correct) (hseed : seed.length = 32)
    (key nonce msg : Bytes) :
    (ed25519Signer ed key).verify (ed.publicKey seed) msg (ed.sign seed nonce msg) = none := by
  simp only [ed25519Signer, correct.key_length seed hseed, correct.signature_length,
    correct.verify_sign seed nonce msg hseed]
  rfl

theorem slotNode_verify (correct : ed.Correct) (hseed : seed.length = 32) (nonce key : Bytes)
    (roles : List String) {verifiers : String → Option Signer}
    (hv : verifiers "ed25519" = some (ed25519Signer ed key)) :
    verify sha256 (slotNode sha256 ed sessionID phaseID role payload refs seed nonce roles)
      payload verifiers = .ok () := by
  refine (verify_ok_iff sha256).mpr ⟨rfl, rfl, ?_, _, hv, ed25519Signer_verify correct hseed ..⟩
  intro empty
  have size := correct.key_length seed hseed
  rw [show ed.publicKey seed = [] from empty] at size
  cases size

theorem commit_agrees {parents : List DAGNode} (perm : (parents.map DAGNode.hash).Perm refs) :
    ∃ roles, commit sha256 sessionID phaseID role payload parents (ed25519Signer ed seed) =
      .ok (slotNode sha256 ed sessionID phaseID role payload refs seed [] roles) := by
  have order : (sortParents (parents.map DAGNode.hash) (parents.map DAGNode.role)).1 =
      parentOrder refs := sortParents_congr perm _ _
  have again : ∀ roles, (sortParents (parentOrder refs) roles).1 = parentOrder refs :=
    fun roles => sortParents_congr (sortParents_perm refs []) _ _
  simp only [commit, order, newDAGNode, again]
  exact ⟨_, rfl⟩

end

/-- For every slot whose sizes fit into 32 bits and from every order of its parents, `Commit` and
the three clients store the same order of parents, hash the same bytes and sign the same message,
and what they build passes `Verify`. -/
theorem builders_agree (sha256 : Bytes → NodeRef) {ed : Ed25519} (correct : ed.Correct)
    {verifiers : String → Option Signer} {key : Bytes}
    (hv : verifiers "ed25519" = some (ed25519Signer ed key)) {sessionID phaseID role : String}
    (payload : Bytes) {refs : List NodeRef} (fits : Fits sessionID phaseID role refs) :
    let input := hashInput sha256 sessionID phaseID role payload refs
    let msg := messageToSign sha256 sessionID phaseID role payload refs
    (∀ (parents : List DAGNode) (seed : Bytes), (parents.map DAGNode.hash).Perm refs →
      seed.length = 32 →
      ∃ node, commit sha256 sessionID phaseID role payload parents (ed25519Signer ed seed) =
          .ok node ∧
        node.parents = parentOrder refs ∧ node.hash = sha256 input ∧
        nodeEncoding node.sessionID node.phaseID node.role node.payloadHash node.parents = input ∧
        node.signature = ed.sign seed [] msg ∧ verify sha256 node payload verifiers = .ok ()) ∧
    ∀ d ∈ dialects, ∀ (parents : List NodeRef) (seed nonce : Bytes), parents.Perm refs →
      seed.length = 32 →
      ∃ built node, d.buildSlotNode sha256 ed
          ⟨sessionID, payload, seed, nonce, parents.map fun p => hex p.bytes, phaseID, role⟩ =
            .ok built ∧
        built.nodeHashInput = input ∧ built.signingMsg = msg ∧
        unmarshalNode built.node = some node ∧ node.parents = parentOrder refs ∧
        node.hash = sha256 input ∧ verify sha256 node payload verifiers = .ok () := by
  intro input msg
  constructor
  · intro parents seed perm hseed
    obtain ⟨roles, committed⟩ := commit_agrees perm
    exact ⟨_, committed, rfl, rfl, rfl, rfl, slotNode_verify correct hseed [] key roles hv⟩
  · intro d hd parents seed nonce perm hseed
    exact ⟨_, _, buildSlotNode_eq (standard_of_mem d hd) fits perm hseed nonce, rfl, rfl,
      unmarshalNode_toWire _, rfl, rfl, slotNode_verify correct hseed nonce key [] hv⟩

def foldDigest (b : Bytes) : NodeRef :=
  Vector.replicate 32 (.ofNat (b.foldl (fun acc x => acc * 31 + x.toNat) 0))

def digestScheme : Ed25519 where
  publicKey seed := seed
  sign seed _ msg := (foldDigest (seed ++ msg)).bytes ++ (foldDigest msg).bytes
  verify key msg sig := decide (sig = (foldDigest (key ++ msg)).bytes ++ (foldDigest msg).bytes)

theorem digestScheme_correct : digestScheme.Correct where
  key_length _ h := h
  signature_length _ _ _ := by simp [digestScheme, NodeRef.bytes]
  verify_sign _ _ _ _ := decide_eq_true rfl

def twoParents : List NodeRef := [Vector.replicate 32 200, Vector.replicate 32 3]

def digestVerifiers (a : String) : Option Signer :=
  if a = "ed25519" then some (ed25519Signer digestScheme []) else none

theorem twoParents_fits : Fits "s" "anon-g-verify" "slot-submission" twoParents := by
  constructor <;> decide

theorem builders_agree_two :
    twoParents.reverse.Perm twoParents ∧
    ∀ d ∈ dialects, ∃ built node, d.buildSlotNode foldDigest digestScheme
        { sessionID := "s", payloadBytes := [7], ed25519Seed := List.replicate 32 5, nonce := [],
          parentsHex := twoParents.reverse.map fun p => hex p.bytes } = .ok built ∧
      built.nodeHashInput =
        hashInput foldDigest "s" "anon-g-verify" "slot-submission" [7] twoParents ∧
      unmarshalNode built.node = some node ∧
      verify foldDigest node [7] digestVerifiers = .ok () := by
  refine ⟨reverse_perm _, ?_⟩
  intro d hd
  obtain ⟨-, clients⟩ := builders_agree foldDigest digestScheme_correct
    (rfl : digestVerifiers "ed25519" = _) [7] twoParents_fits
  obtain ⟨built, node, hbuilt, hinput, -, hnode, -, -, hverify⟩ :=
    clients d hd twoParents.reverse (List.replicate 32 5) [] (reverse_perm _) (by decide)
  exact ⟨built, node, hbuilt, hinput, hnode, hverify⟩

end ClientLineage
