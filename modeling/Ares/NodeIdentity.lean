import Ares.CommittedNodes
import Ares.MerkleBinding

/-! `DeriveNodeHash` asks for sorted parents and `Commit` sorts them. `Verify` derives the hash over
the parents as the node lists them and does not look at their order. -/
namespace NodeIdentity

open CommittedNodes LineageNodes LineageStoreLog MerkleBinding List

/-- Two nodes with the same inputs, up to the order in which they list their parents. -/
structure SameDerivation (n n' : DAGNode) : Prop where
  sessionID : n.sessionID = n'.sessionID
  phaseID : n.phaseID = n'.phaseID
  role : n.role = n'.role
  parents : n.parents.Perm n'.parents

def SortedParents (n : DAGNode) : Prop := n.parents.Pairwise fun a b => a.bytes ≤ b.bytes

theorem nodeEncoding_parents {sid phase role : String} {payloadHash : NodeRef}
    {ps qs : List NodeRef}
    (same : nodeEncoding sid phase role payloadHash ps =
      nodeEncoding sid phase role payloadHash qs) : ps = qs := by
  simp only [nodeEncoding, append_assoc] at same
  obtain ⟨-, same⟩ := append_inj same rfl
  obtain ⟨-, same⟩ := append_inj same rfl
  obtain ⟨-, same⟩ := append_inj same rfl
  obtain ⟨-, same⟩ := append_inj same rfl
  obtain ⟨-, refs⟩ := append_inj same rfl
  exact flatMap_bytes_injective refs

theorem append_eq_nodeExists {s : InMemoryStore} {node : DAGNode} :
    (s.append node).1 = some .nodeExists ↔ (s.byHash node.hash).isSome := by
  unfold InMemoryStore.append
  cases s.byHash node.hash with
  | none | some found => simp

theorem second_append {s : InMemoryStore} {n n' : DAGNode} (fresh : s.byHash n'.hash = none) :
    ((s.append n).2.append n').1 = some .nodeExists ↔ n.hash = n'.hash := by
  rw [append_eq_nodeExists]
  constructor
  · intro stored
    by_contra apart
    have kept : (s.append n).2.byHash n'.hash = s.byHash n'.hash := by
      unfold InMemoryStore.append
      split
      · rfl
      · exact Function.update_of_ne (Ne.symm apart) _ _
    rw [kept, fresh] at stored
    cases stored
  · intro same
    rw [← same, InMemoryStore.append_byHash]
    rfl

/-- Two accepted nodes of one derivation have one hash, and the store takes only one of them,
exactly when they list the parents in the same order; nodes with sorted parents do. -/
theorem canonical_identity_iff {sha256 : Bytes → NodeRef} {n n' : DAGNode} {payload : Bytes}
    {verifiers verifiers' : String → Option Signer}
    (accepted : verify sha256 n payload verifiers = .ok ())
    (accepted' : verify sha256 n' payload verifiers' = .ok ()) (same : SameDerivation n n')
    (free : sha256 (encodingOf n) = sha256 (encodingOf n') → encodingOf n = encodingOf n') :
    (n.hash = n'.hash ↔ n.parents = n'.parents) ∧
    (∀ s : InMemoryStore, s.byHash n'.hash = none →
      (((s.append n).2.append n').1 = some .nodeExists ↔ n.parents = n'.parents)) ∧
    (SortedParents n → SortedParents n' → n.parents = n'.parents) := by
  have v := (verify_ok_iff sha256).mp accepted
  have v' := (verify_ok_iff sha256).mp accepted'
  have hash : n.hash = sha256 (encodingOf n) := by
    rw [v.hash, deriveNodeHash, ← v.payloadHash]
    rfl
  have hash' : n'.hash = sha256 (encodingOf n') := by
    rw [v'.hash, deriveNodeHash, ← v'.payloadHash]
    rfl
  have payloads := v.payloadHash.trans v'.payloadHash.symm
  have identity : n.hash = n'.hash ↔ n.parents = n'.parents := by
    constructor
    · intro equal
      rw [hash, hash'] at equal
      have encodings := free equal
      rw [encodingOf, encodingOf, same.sessionID, same.phaseID, same.role, payloads] at encodings
      exact nodeEncoding_parents encodings
    · intro parents
      rw [hash, hash', encodingOf, encodingOf, same.sessionID, same.phaseID, same.role, payloads,
        parents]
  refine ⟨identity, ?_, eq_of_sorted same.parents⟩
  intro s fresh
  rw [second_append fresh, identity]

def endHash (b : Bytes) : NodeRef := Vector.replicate 32 (b.sum + b.getLastD 0)

def shareNode (role : String) : DAGNode :=
  (commit endHash "s" "collect" role [1] [] (tagSigner [1])).toOption.get rfl

def total (parentRoles : List String) (parents : List NodeRef) : DAGNode :=
  let hash := deriveNodeHash endHash "s" "sum" "total" [3] parents
  { hash, parents, parentRoles
    sessionID := "s", phaseID := "sum", role := "total"
    payloadHash := hashPayload endHash [3]
    producer := [1]
    signature := 7 :: signingMessage hash "s" "sum" "total"
    algorithm := "tag" }

theorem total_accepted (roles : List String) (parents : List NodeRef) :
    verify endHash (total roles parents) [3] (onlyTag (tagSigner [1])) = .ok () := by
  rw [verify_ok_iff]
  exact ⟨rfl, rfl, by simp [total], tagSigner [1], rfl, by simp [total, tagSigner]⟩

theorem total_same (roles roles' : List String) {refs refs' : List NodeRef}
    (perm : refs.Perm refs') : SameDerivation (total roles refs) (total roles' refs') :=
  ⟨rfl, rfl, rfl, perm⟩

theorem canonical_identity_iff_roles :
    let refs := [(shareNode "left").hash, (shareNode "right").hash]
    let n := total [] refs
    let n' := total ["left", "right"] refs
    n ≠ n' ∧ SameDerivation n n' ∧ n.hash = n'.hash := by
  intro refs n n'
  have same := total_same [] ["left", "right"] (Perm.refl refs)
  refine ⟨?_, same, (canonical_identity_iff (total_accepted [] refs)
    (total_accepted ["left", "right"] refs) same fun _ => rfl).1.mpr rfl⟩
  intro equal
  cases congrArg DAGNode.parentRoles equal

/-- The sender that lists the shares the other way round gets a second node for one sum. -/
theorem two_hashes_one_derivation :
    let left := shareNode "left"
    let right := shareNode "right"
    let n := total [] [left.hash, right.hash]
    let n' := total [] [right.hash, left.hash]
    let store := ((InMemoryStore.empty.append left).2.append right).2
    verify endHash n [3] (onlyTag (tagSigner [1])) = .ok () ∧
      verify endHash n' [3] (onlyTag (tagSigner [1])) = .ok () ∧
      SameDerivation n n' ∧ n.hash ≠ n'.hash ∧ (store.append n).1 = none ∧
      ((store.append n).2.append n').1 = none := by
  intro left right n n' store
  have same := total_same [] [] (Perm.swap right.hash left.hash [])
  refine ⟨total_accepted [] _, total_accepted [] _, same, ?_⟩
  decide +kernel

end NodeIdentity
