import Ares.LineageNodes
import Ares.WireFormats

/-! What `DeriveNodeHash` hashes and what `SigningMessage` returns, as wire formats. -/
namespace LineageEncodings

open LineageNodes WireFormats List

def uint32 : Format UInt8 ℕ where
  fits n := n < 2 ^ 32
  write := putUint32
  read
    | a :: b :: c :: d :: rest =>
      some (((a.toNat * 256 + b.toNat) * 256 + c.toNat) * 256 + d.toNat, rest)
    | _ => none
  read_write n fits rest := by
    have value : ((((.ofNat (n / 2 ^ 24) : UInt8).toNat * 256 +
        (.ofNat (n / 2 ^ 16) : UInt8).toNat) * 256 + (.ofNat (n / 2 ^ 8) : UInt8).toNat) * 256 +
        (.ofNat n : UInt8).toNat) = n := by
      simp only [UInt8.toNat_ofNat']
      omega
    exact congrArg (fun m => some (m, rest)) value

def name : Format UInt8 Bytes := .counted uint32 .symbol

def reference : Format UInt8 NodeRef := .block 32

def ofBytes (b : Bytes) : Option NodeRef :=
  if size : b.length = 32 then some ⟨b.toArray, size⟩ else none

theorem ofBytes_bytes (r : NodeRef) : ofBytes r.bytes = some r := by
  have size : r.bytes.length = 32 := Vector.length_toList
  rw [ofBytes, dif_pos size]
  exact congrArg some (Vector.toList_inj.mp rfl)

def prefixedReference : Format UInt8 NodeRef := name.reshape NodeRef.bytes ofBytes ofBytes_bytes

theorem name_write (b : Bytes) : name.write b = writeLenPrefixed b := by
  have symbols := flatMap_singleton' b
  exact congrArg (putUint32 b.length ++ ·) symbols

theorem name_fits {b : Bytes} : name.fits b ↔ b.length < 2 ^ 32 :=
  ⟨fun fits => fits.1, fun short => ⟨short, fun _ _ => trivial⟩⟩

theorem writeLenPrefixed_append {a b x y : Bytes} (ha : a.length < 2 ^ 32)
    (hb : b.length < 2 ^ 32) (h : writeLenPrefixed a ++ x = writeLenPrefixed b ++ y) :
    a = b ∧ x = y := by
  rw [← name_write, ← name_write] at h
  exact name.write_append_inj (name_fits.mpr ha) (name_fits.mpr hb) h

structure NodeContent where
  sessionID : Bytes
  phaseID : Bytes
  role : Bytes
  payloadHash : NodeRef
  parents : List NodeRef
  deriving DecidableEq

def NodeContent.encoding (c : NodeContent) : Bytes :=
  writeLenPrefixed c.sessionID ++ writeLenPrefixed c.phaseID ++ writeLenPrefixed c.role ++
    writeLenPrefixed c.payloadHash.bytes ++ putUint32 c.parents.length ++
    c.parents.flatMap NodeRef.bytes

structure NodeContent.Short (c : NodeContent) : Prop where
  sessionID : c.sessionID.length < 2 ^ 32
  phaseID : c.phaseID.length < 2 ^ 32
  role : c.role.length < 2 ^ 32
  parents : c.parents.length < 2 ^ 32

def nodeFormat : Format UInt8 NodeContent :=
  (name.both (name.both (name.both (prefixedReference.both (.counted uint32 reference))))).reshape
    (fun c => (c.sessionID, c.phaseID, c.role, c.payloadHash, c.parents))
    (fun (s, p, r, h, ps) => some ⟨s, p, r, h, ps⟩) fun _ => rfl

theorem nodeFormat_write (c : NodeContent) : nodeFormat.write c = c.encoding := by
  have fields : nodeFormat.write c = name.write c.sessionID ++ (name.write c.phaseID ++
      (name.write c.role ++ (name.write c.payloadHash.bytes ++
        (putUint32 c.parents.length ++ c.parents.flatMap NodeRef.bytes)))) := rfl
  simp [fields, name_write, NodeContent.encoding]

theorem NodeContent.Short.fits {c : NodeContent} (short : c.Short) : nodeFormat.fits c := by
  refine ⟨name_fits.mpr short.sessionID, name_fits.mpr short.phaseID, name_fits.mpr short.role,
    name_fits.mpr ?_, short.parents, fun _ _ => trivial⟩
  simp [NodeRef.bytes]

structure SigningContent where
  hash : NodeRef
  sessionID : Bytes
  phaseID : Bytes
  role : Bytes
  deriving DecidableEq

def SigningContent.encoding (c : SigningContent) : Bytes :=
  c.hash.bytes ++ writeLenPrefixed c.sessionID ++ writeLenPrefixed c.phaseID ++
    writeLenPrefixed c.role

structure SigningContent.Short (c : SigningContent) : Prop where
  sessionID : c.sessionID.length < 2 ^ 32
  phaseID : c.phaseID.length < 2 ^ 32
  role : c.role.length < 2 ^ 32

def signingFormat : Format UInt8 SigningContent :=
  (reference.both (name.both (name.both name))).reshape
    (fun c => (c.hash, c.sessionID, c.phaseID, c.role))
    (fun (h, s, p, r) => some ⟨h, s, p, r⟩) fun _ => rfl

theorem signingFormat_write (c : SigningContent) : signingFormat.write c = c.encoding := by
  have fields : signingFormat.write c = c.hash.bytes ++ (name.write c.sessionID ++
      (name.write c.phaseID ++ name.write c.role)) := rfl
  simp [fields, name_write, SigningContent.encoding]

theorem SigningContent.Short.fits {c : SigningContent} (short : c.Short) : signingFormat.fits c :=
  ⟨trivial, name_fits.mpr short.sessionID, name_fits.mpr short.phaseID, name_fits.mpr short.role⟩

/-- Both functions encode by these formats, and no two short contents share an encoding. -/
theorem encodings_unambiguous :
    (∀ sha256 sessionID phaseID role payload sortedParents,
      deriveNodeHash sha256 sessionID phaseID role payload sortedParents =
        sha256 (NodeContent.encoding ⟨utf8 sessionID, utf8 phaseID, utf8 role,
          hashPayload sha256 payload, sortedParents⟩)) ∧
    (∀ hash sessionID phaseID role, signingMessage hash sessionID phaseID role =
      SigningContent.encoding ⟨hash, utf8 sessionID, utf8 phaseID, utf8 role⟩) ∧
    Set.InjOn NodeContent.encoding {c | c.Short} ∧
    Set.InjOn SigningContent.encoding {c | c.Short} := by
  refine ⟨fun _ _ _ _ _ _ => rfl, fun _ _ _ _ => rfl, ?_, ?_⟩
  · intro c short c' short' same
    rw [← nodeFormat_write, ← nodeFormat_write] at same
    exact nodeFormat.write_injOn short.fits short'.fits same
  · intro c short c' short' same
    rw [← signingFormat_write, ← signingFormat_write] at same
    exact signingFormat.write_injOn short.fits short'.fits same

theorem encodings_unambiguous_split :
    let word := NodeContent.encoding ⟨utf8 "ab", utf8 "c", [], Vector.replicate 32 0, []⟩
    let word' := NodeContent.encoding ⟨utf8 "a", utf8 "bc", [], Vector.replicate 32 0, []⟩
    word.length = word'.length ∧ word ≠ word' := by
  refine ⟨by decide, fun same => ?_⟩
  have short : ∀ s p : Bytes, s.length < 2 ^ 32 → p.length < 2 ^ 32 →
      NodeContent.Short ⟨s, p, [], Vector.replicate 32 0, []⟩ :=
    fun _ _ hs hp => ⟨hs, hp, Nat.two_pow_pos 32, Nat.two_pow_pos 32⟩
  have equal := encodings_unambiguous.2.2.1 (short (utf8 "ab") (utf8 "c") (by decide) (by decide))
    (short (utf8 "a") (utf8 "bc") (by decide) (by decide)) same
  exact absurd (congrArg (fun c => c.sessionID.length) equal) (by decide)

end LineageEncodings
