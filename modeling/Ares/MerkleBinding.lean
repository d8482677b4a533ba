import Ares.ContentGraphs
import Ares.LineageEncodings
import Ares.LineageStoreLog
import Ares.OperationRuns

/-! The hash of a node covers its session, phase, role, payload hash and parents, each with its
length in front as a 32-bit word. -/
namespace MerkleBinding

open OperationRuns LineageEncodings LineageNodes LineageStoreLog ContentGraphs List

@[simp] theorem length_bytes (r : NodeRef) : r.bytes.length = 32 := by
  simp [NodeRef.bytes]

theorem bytes_injective : Function.Injective NodeRef.bytes := by
  intro r r' h
  exact Vector.toList_inj.mp h

theorem flatMap_bytes_injective {ps qs : List NodeRef}
    (h : ps.flatMap NodeRef.bytes = qs.flatMap NodeRef.bytes) : ps = qs := by
  induction ps generalizing qs with
  | nil =>
    cases qs with
    | nil => rfl
    | cons q qs =>
      have lengths := congrArg List.length h
      simp at lengths
      omega
  | cons p ps ih =>
    cases qs with
    | nil => simpa using congrArg List.length h
    | cons q qs =>
      obtain ⟨first, rest⟩ := append_inj h (by simp)
      rw [bytes_injective first, ih rest]

theorem utf8_injective : Function.Injective utf8 := by
  intro s t h
  exact String.toByteArray_inj.mp (ByteArray.ext (Array.toList_inj.mp h))

def encodingOf (n : DAGNode) : Bytes :=
  nodeEncoding n.sessionID n.phaseID n.role n.payloadHash n.parents

structure SameContent (n n' : DAGNode) : Prop where
  sessionID : n.sessionID = n'.sessionID
  phaseID : n.phaseID = n'.phaseID
  role : n.role = n'.role
  payloadHash : n.payloadHash = n'.payloadHash
  parents : n.parents = n'.parents

structure Short (bound : ℕ) (n : DAGNode) : Prop where
  sessionID : (utf8 n.sessionID).length < bound
  phaseID : (utf8 n.phaseID).length < bound
  role : (utf8 n.role).length < bound

theorem encodingOf_binds {n n' : DAGNode} (short : Short (2 ^ 32) n) (short' : Short (2 ^ 32) n')
    (h : encodingOf n = encodingOf n') : SameContent n n' := by
  simp only [encodingOf, nodeEncoding, append_assoc] at h
  obtain ⟨session, h⟩ := writeLenPrefixed_append short.sessionID short'.sessionID h
  obtain ⟨phase, h⟩ := writeLenPrefixed_append short.phaseID short'.phaseID h
  obtain ⟨role, h⟩ := writeLenPrefixed_append short.role short'.role h
  obtain ⟨payload, h⟩ := writeLenPrefixed_append (by simp) (by simp) h
  -- the count of the parents is not needed to tell them apart: they come last
  obtain ⟨-, refs⟩ := append_inj h rfl
  exact ⟨utf8_injective session, utf8_injective phase, utf8_injective role,
    bytes_injective payload, flatMap_bytes_injective refs⟩

/-- A node with the payload and the verifiers it is checked with before it is appended. -/
structure Submission where
  node : DAGNode
  payload : Bytes
  verifiers : String → Option Signer

def Submission.next (sub : Submission) (s : InMemoryStore) : InMemoryStore :=
  (s.append sub.node).2

structure Submission.Valid (sha256 : Bytes → NodeRef) (s : InMemoryStore) (sub : Submission) :
    Prop where
  verified : verify sha256 sub.node sub.payload sub.verifiers = .ok ()
  parents : ∀ p ∈ sub.node.parents, (s.byHash p).isSome

def Filling (sha256 : Bytes → NodeRef) (subs : List Submission) : Prop :=
  AllSteps Submission.next (Submission.Valid sha256) .empty subs

def filled (subs : List Submission) : InMemoryStore := last Submission.next .empty subs

def hashed (subs : List Submission) : Set Bytes :=
  {b | ∃ sub ∈ subs, b = sub.payload ∨ b = encodingOf sub.node}

/-- The stored nodes are among those submitted, under the hash of their encoding. -/
structure Addressed (sha256 : Bytes → NodeRef) (subs : List Submission) (s : InMemoryStore) :
    Prop where
  grown : Grown DAGNode.parents s.byHash
  address : ∀ h n, s.byHash h = some n → sha256 (encodingOf n) = h ∧ ∃ sub ∈ subs, sub.node = n

section

variable {sha256 : Bytes → NodeRef} {subs : List Submission}

theorem Submission.Valid.address {s : InMemoryStore} {sub : Submission}
    (valid : sub.Valid sha256 s) : sha256 (encodingOf sub.node) = sub.node.hash := by
  have verified := (verify_ok_iff sha256).mp valid.verified
  rw [verified.hash, deriveNodeHash, encodingOf, verified.payloadHash]

theorem Addressed.next {s : InMemoryStore}
    (addressed : Addressed sha256 subs s) {sub : Submission} (listed : sub ∈ subs)
    (valid : sub.Valid sha256 s) : Addressed sha256 subs (sub.next s) := by
  cases found : s.byHash sub.node.hash with
  | some n => simpa only [Submission.next, InMemoryStore.append, found] using addressed
  | none =>
    constructor
    · simp only [Submission.next, InMemoryStore.append, found]
      exact addressed.grown.insert found valid.parents
    · intro h n hn
      rcases (byHash_append found h n).mp hn with old | ⟨rfl, rfl⟩
      · exact addressed.address h n old
      · exact ⟨valid.address, sub, listed, rfl⟩

theorem filled_addressed (filling : Filling sha256 subs) : Addressed sha256 subs (filled subs) := by
  have run : ∀ (rest : List Submission) (s : InMemoryStore), rest ⊆ subs →
      Addressed sha256 subs s → AllSteps Submission.next (Submission.Valid sha256) s rest →
      Addressed sha256 subs (last Submission.next s rest) := by
    intro rest
    induction rest with
    | nil =>
      intro s _ addressed _
      exact addressed
    | cons sub rest ih =>
      intro s listed addressed steps
      obtain ⟨hsub, hrest⟩ := cons_subset.mp listed
      exact ih _ hrest (addressed.next hsub steps.1) steps.2
  refine run subs .empty (List.Subset.refl _) ⟨grown_empty, ?_⟩ filling
  intro h n hn
  cases hn

end

def ancestorsIn (s : InMemoryStore) (h : NodeRef) : Set NodeRef :=
  ancestors DAGNode.parents s.byHash h

/-- The nodes above a hash are the same finite acyclic graph in both stores. -/
structure Agree (s s' : InMemoryStore) (h : NodeRef) : Prop where
  finite : (ancestorsIn s h).Finite
  acyclic : ∀ a ∈ ancestorsIn s h, ¬ Relation.TransGen (Edge DAGNode.parents s.byHash) a a
  ancestors : ancestorsIn s h ⊆ ancestorsIn s' h
  nodes : ∀ a ∈ ancestorsIn s h, ∃ n n', s.byHash a = some n ∧ s'.byHash a = some n' ∧
    SameContent n n'

def Binding (bound : ℕ) : Prop :=
  ∀ (sha256 : Bytes → NodeRef) (subs subs' : List Submission),
    Filling sha256 subs → Filling sha256 subs' →
    (∀ sub ∈ subs ++ subs', Short bound sub.node) →
    Set.InjOn sha256 (hashed subs ∪ hashed subs') →
    ∀ h n n', (filled subs).byHash h = some n → (filled subs').byHash h = some n' →
      Agree (filled subs) (filled subs') h ∧ Agree (filled subs') (filled subs) h

theorem agree_of_binds {s s' : InMemoryStore} (grown : Grown DAGNode.parents s.byHash)
    (grown' : Grown DAGNode.parents s'.byHash)
    (bind : ∀ h n n', s.byHash h = some n → s'.byHash h = some n' → SameContent n n')
    {h : NodeRef} {n n' : DAGNode} (hn : s.byHash h = some n) (hn' : s'.byHash h = some n') :
    Agree s s' h := by
  have stored : (s.byHash h).isSome := by simp [hn]
  have stored' : (s'.byHash h).isSome := by simp [hn']
  have common := fun a => ancestor_common (a := a) bind (fun _ _ same => same.parents) grown grown'
    stored stored'
  exact ⟨grown.ancestors_finite stored, fun a _ => grown.acyclic a,
    fun a above => (common a above).1, fun a above => (common a above).2⟩

theorem binding_of_le {bound : ℕ} (hbound : bound ≤ 2 ^ 32) : Binding bound := by
  intro sha256 subs subs' filling filling' short collisionFree h n n' hn hn'
  have addressed := filled_addressed filling
  have addressed' := filled_addressed filling'
  have fits : ∀ sub ∈ subs ++ subs', Short (2 ^ 32) sub.node := fun sub hsub =>
    have named := short sub hsub
    ⟨named.sessionID.trans_le hbound, named.phaseID.trans_le hbound, named.role.trans_le hbound⟩
  have bind : ∀ h n n', (filled subs).byHash h = some n → (filled subs').byHash h = some n' →
      SameContent n n' := by
    intro h n n' hn hn'
    obtain ⟨address, sub, hsub, rfl⟩ := addressed.address h n hn
    obtain ⟨address', sub', hsub', rfl⟩ := addressed'.address h n' hn'
    have encodings := collisionFree (Or.inl ⟨sub, hsub, Or.inr rfl⟩)
      (Or.inr ⟨sub', hsub', Or.inr rfl⟩) (address.trans address'.symm)
    exact encodingOf_binds (fits sub (mem_append_left _ hsub))
      (fits sub' (mem_append_right _ hsub')) encodings
  refine ⟨agree_of_binds addressed.grown addressed'.grown bind hn hn',
    agree_of_binds addressed'.grown addressed.grown ?_ hn' hn⟩
  intro h n n' hn hn'
  have same := bind h n' n hn' hn
  exact ⟨same.sessionID.symm, same.phaseID.symm, same.role.symm, same.payloadHash.symm,
    same.parents.symm⟩

def nuls (n : ℕ) : String := String.ofList (List.replicate n (Char.ofNat 0))

theorem utf8_nuls (n : ℕ) : utf8 (nuls n) = List.replicate n 0 := by
  rw [nuls, utf8_ofList]
  induction n with
  | zero => rfl
  | succ n ih =>
    rw [replicate_succ, flatMap_cons, ih]
    rfl

def echoSigner : Signer where
  sign msg := .ok (1 :: msg)
  verify key msg sig := if key ++ msg = sig then none else some "bad signature"
  publicKey := [1]
  algorithm := "echo"

def leaf (sha256 : Bytes → NodeRef) (sessionID role : String) : Submission where
  node :=
    { hash := deriveNodeHash sha256 sessionID "" role [] []
      sessionID, role
      phaseID := ""
      parents := []
      parentRoles := []
      payloadHash := hashPayload sha256 []
      producer := [1]
      signature := 1 ::
        signingMessage (deriveNodeHash sha256 sessionID "" role [] []) sessionID "" role
      algorithm := "echo" }
  payload := []
  verifiers a := if a = "echo" then some echoSigner else none

theorem leaf_filling (sha256 : Bytes → NodeRef) (sessionID role : String) :
    Filling sha256 [leaf sha256 sessionID role] := by
  refine ⟨⟨(verify_ok_iff sha256).mpr ⟨rfl, rfl, by simp [leaf], echoSigner, rfl, ?_⟩, ?_⟩, trivial⟩
  · simp [leaf, echoSigner]
  · simp [leaf]

theorem leaf_stored (sha256 : Bytes → NodeRef) (sessionID role : String) :
    (filled [leaf sha256 sessionID role]).byHash (leaf sha256 sessionID role).node.hash =
      some (leaf sha256 sessionID role).node := by
  simp [filled, last, Submission.next, InMemoryStore.append, InMemoryStore.empty]

theorem encodingOf_leaf (sha256 : Bytes → NodeRef) :
    encodingOf (leaf sha256 (nuls (2 ^ 32)) "").node =
      encodingOf (leaf sha256 "" (nuls (2 ^ 32))).node := by
  have zero : putUint32 (2 ^ 32) = List.replicate 4 0 := by decide
  have zero' : putUint32 0 = List.replicate 4 0 := by decide
  have nothing : utf8 "" = [] := by decide
  have lengths : 4 + 2 ^ 32 + 4 + 4 = 4 + 4 + (4 + 2 ^ 32) := by omega
  simp only [encodingOf, nodeEncoding, leaf, writeLenPrefixed, utf8_nuls, nothing,
    length_replicate, length_nil, zero, zero', append_nil, replicate_append_replicate, lengths]

def emptinessHash (b : Bytes) : NodeRef := Vector.replicate 32 (if b = [] then 0 else 1)

def longSession : Submission := leaf emptinessHash (nuls (2 ^ 32)) ""

def longRole : Submission := leaf emptinessHash "" (nuls (2 ^ 32))

theorem emptinessHash_injOn :
    Set.InjOn emptinessHash (hashed [longSession] ∪ hashed [longRole]) := by
  have two : hashed [longSession] ∪ hashed [longRole] ⊆ {[], encodingOf longRole.node} := by
    intro b hb
    rcases hb with ⟨sub, hsub, hb⟩ | ⟨sub, hsub, hb⟩
    · rw [mem_singleton.mp hsub] at hb
      rcases hb with hb | hb
      · exact Or.inl hb
      · exact Or.inr (hb.trans (encodingOf_leaf emptinessHash))
    · rw [mem_singleton.mp hsub] at hb
      exact hb
  refine Set.InjOn.mono two ?_
  have apart : emptinessHash [] ≠ emptinessHash (encodingOf longRole.node) := by
    decide
  rintro a (rfl | rfl) b (rfl | rfl) same
  · rfl
  · exact absurd same apart
  · exact absurd same.symm apart
  · rfl

theorem longSession_hash : longSession.node.hash = longRole.node.hash := by
  have encodings := encodingOf_leaf emptinessHash
  exact congrArg emptinessHash encodings

theorem nuls_ne_empty : nuls (2 ^ 32) ≠ "" := by
  intro h
  have lengths := congrArg (fun s => (utf8 s).length) h
  simp only [utf8_nuls, length_replicate] at lengths
  exact absurd lengths (by decide)

/-- Two leaves with one hash and different sessions and roles, without a collision. -/
theorem long_names_share_hash :
    Filling emptinessHash [longSession] ∧ Filling emptinessHash [longRole] ∧
      Set.InjOn emptinessHash (hashed [longSession] ∪ hashed [longRole]) ∧
      (filled [longSession]).byHash longRole.node.hash = some longSession.node ∧
      (filled [longRole]).byHash longRole.node.hash = some longRole.node ∧
      longSession.node.sessionID ≠ longRole.node.sessionID ∧
      longSession.node.role ≠ longRole.node.role := by
  refine ⟨leaf_filling .., leaf_filling .., emptinessHash_injOn, ?_, leaf_stored .., nuls_ne_empty,
    nuls_ne_empty.symm⟩
  rw [← longSession_hash]
  exact leaf_stored ..

theorem not_binding_of_lt {bound : ℕ} (hbound : 2 ^ 32 < bound) : ¬ Binding bound := by
  intro binding
  have short : ∀ sub ∈ [longSession] ++ [longRole], Short bound sub.node := by
    have name : (utf8 (nuls (2 ^ 32))).length < bound := by
      rwa [utf8_nuls, length_replicate]
    have empty := (Nat.zero_le _).trans_lt name
    intro sub hsub
    rcases mem_append.mp hsub with hsub | hsub
    · rw [mem_singleton.mp hsub]
      exact ⟨name, empty, empty⟩
    · rw [mem_singleton.mp hsub]
      exact ⟨empty, empty, name⟩
  have stored : (filled [longSession]).byHash longSession.node.hash = some longSession.node :=
    leaf_stored ..
  have stored' : (filled [longRole]).byHash longSession.node.hash = some longRole.node := by
    rw [longSession_hash]
    exact leaf_stored ..
  obtain ⟨agree, -⟩ := binding emptinessHash [longSession] [longRole] (leaf_filling ..)
    (leaf_filling ..) short emptinessHash_injOn _ _ _ stored stored'
  obtain ⟨n, n', hn, hn', same⟩ := agree.nodes _ .refl
  rw [stored] at hn
  rw [stored'] at hn'
  cases hn
  cases hn'
  exact nuls_ne_empty same.sessionID

/-- A hash binds everything above it for names of less than `2 ^ 32` bytes, and not for
longer ones. -/
theorem merkle_binding_iff (bound : ℕ) : Binding bound ↔ bound ≤ 2 ^ 32 := by
  constructor
  · intro binding
    by_contra exceeds
    exact not_binding_of_lt (Nat.lt_of_not_le exceeds) binding
  · exact binding_of_le

end MerkleBinding
