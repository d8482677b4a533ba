import Ares.ByteStrings
import Ares.LineageNodes

/-! `Commit` sorts the parents twice, once for the hash it signs and once when the node is built. -/
namespace CommittedNodes

open LineageNodes List

theorem sortParents_pairwise (refs : List NodeRef) (roles : List String) :
    (sortParents refs roles).1.Pairwise fun a b => a.bytes ≤ b.bytes :=
  pairwise_map.mpr (ByteStrings.pairwise_sortOn _ _)

theorem eq_of_sorted {refs refs' : List NodeRef} (perm : refs.Perm refs')
    (sorted : refs.Pairwise fun a b => a.bytes ≤ b.bytes)
    (sorted' : refs'.Pairwise fun a b => a.bytes ≤ b.bytes) : refs = refs' := by
  apply List.Perm.eq_of_pairwise _ sorted sorted' perm
  intro a b _ _ ab ba
  exact Vector.toList_inj.mp (List.le_antisymm ab ba)

theorem sortParents_congr {refs refs' : List NodeRef} (perm : refs.Perm refs')
    (roles roles' : List String) : (sortParents refs roles).1 = (sortParents refs' roles').1 := by
  apply eq_of_sorted _ (sortParents_pairwise refs roles) (sortParents_pairwise refs' roles')
  exact ((sortParents_perm refs roles).trans perm).trans (sortParents_perm refs' roles').symm

theorem zipRoles_nodes (parents : List DAGNode) :
    zipRoles (parents.map DAGNode.hash) (parents.map DAGNode.role) =
      parents.map fun n => (n.hash, n.role) := by
  induction parents with
  | nil => rfl
  | cons n parents ih => rw [map_cons, map_cons, zipRoles, ih, map_cons]

theorem zipRoles_pairs (l : List (NodeRef × String)) :
    zipRoles (l.map Prod.fst) (l.map Prod.snd) = l := by
  induction l with
  | nil => rfl
  | cons x l ih => rw [map_cons, map_cons, zipRoles, ih]

theorem zipRoles_sortParents (refs : List NodeRef) (roles : List String) :
    (zipRoles (sortParents refs roles).1 (sortParents refs roles).2).Perm
      (zipRoles refs roles) := by
  simp only [sortParents, zipRoles_pairs]
  exact mergeSort_perm ..

theorem sortParents_zip (refs : List NodeRef) (roles : List String) :
    ((sortParents refs roles).1.zip (sortParents refs roles).2).Perm (zipRoles refs roles) := by
  have pairs : (sortParents refs roles).1.zip (sortParents refs roles).2 =
      (zipRoles refs roles).mergeSort fun a b => decide (a.1.bytes ≤ b.1.bytes) :=
    (zip_of_prod rfl rfl).symm
  rw [pairs]
  exact mergeSort_perm ..

def parentRefs (parents : List DAGNode) : List NodeRef :=
  (sortParents (parents.map DAGNode.hash) []).1

structure Committed (sha256 : Bytes → NodeRef) (sid phase label : String) (payload : Bytes)
    (supplied : List DAGNode) (signer : Signer) (node : DAGNode) : Prop where
  sessionID : node.sessionID = sid
  phaseID : node.phaseID = phase
  role : node.role = label
  parents : node.parents = parentRefs supplied
  parallel : node.parentRoles.length = node.parents.length
  roles : (node.parents.zip node.parentRoles).Perm (supplied.map fun n => (n.hash, n.role))
  payloadHash : node.payloadHash = hashPayload sha256 payload
  hash : node.hash = deriveNodeHash sha256 sid phase label payload (parentRefs supplied)
  producer : node.producer = signer.publicKey
  algorithm : node.algorithm = signer.algorithm
  signature : signer.sign (signingMessage node.hash sid phase label) = .ok node.signature

section

variable {sha256 : Bytes → NodeRef} {sid phase label : String} {payload : Bytes}
  {supplied : List DAGNode} {signer : Signer} {node : DAGNode}

theorem commit_committed (ok : commit sha256 sid phase label payload supplied signer = .ok node) :
    Committed sha256 sid phase label payload supplied signer node := by
  -- both sorts leave the references in the one order there is
  have once : (sortParents (supplied.map DAGNode.hash) (supplied.map DAGNode.role)).1 =
      parentRefs supplied := sortParents_congr (.refl _) _ _
  have twice (roles : List String) : (sortParents (parentRefs supplied) roles).1 =
      parentRefs supplied := sortParents_congr (sortParents_perm _ _) _ _
  unfold commit at ok
  dsimp only at ok
  split at ok
  · cases ok
  rename_i signature signed
  cases ok
  refine ⟨rfl, rfl, rfl, ?_, by simp [newDAGNode, sortParents], ?_, rfl, ?_, rfl, rfl, ?_⟩
  · simp only [newDAGNode, once, twice]
  · have moved := zipRoles_sortParents (supplied.map DAGNode.hash) (supplied.map DAGNode.role)
    rw [zipRoles_nodes] at moved
    exact (sortParents_zip _ _).trans moved
  · simp only [newDAGNode, once, twice]
  · simpa only [newDAGNode, once, twice] using signed

theorem Committed.verify_iff
    (committed : Committed sha256 sid phase label payload supplied signer node)
    (own : ∀ msg sig, signer.sign msg = .ok sig → signer.verify signer.publicKey msg sig = none)
    {verifiers : String → Option Signer} (known : verifiers signer.algorithm = some signer) :
    verify sha256 node payload verifiers = .ok () ↔ signer.publicKey ≠ [] := by
  rw [verify_ok_iff]
  constructor
  · intro verified
    exact committed.producer ▸ verified.producer
  · intro keyed
    refine ⟨committed.payloadHash, ?_, committed.producer.symm ▸ keyed, signer, ?_, ?_⟩
    · rw [committed.sessionID, committed.phaseID, committed.role, committed.parents]
      exact committed.hash
    · rw [committed.algorithm, known]
    · rw [committed.sessionID, committed.phaseID, committed.role, committed.producer]
      exact own _ _ committed.signature

end

/-- What `Commit` returned does not depend on the order in which the parents were supplied: it
stores them sorted, each with the role it was supplied with. -/
structure Ordered (sha256 : Bytes → NodeRef) (sid phase label : String) (payload : Bytes)
    (supplied : List DAGNode) (node : DAGNode) : Prop where
  permuted : ∀ supplied' signer' node', supplied'.Perm supplied →
    commit sha256 sid phase label payload supplied' signer' = .ok node' →
      node'.hash = node.hash ∧ node'.parents = node.parents
  sorted : node.parents.Pairwise fun a b => a.bytes ≤ b.bytes
  parallel : node.parentRoles.length = node.parents.length
  roles : ∀ x ∈ node.parents.zip node.parentRoles, ∃ n ∈ supplied, n.hash = x.1 ∧ n.role = x.2

theorem Committed.ordered {sha256 : Bytes → NodeRef} {sid phase label : String} {payload : Bytes}
    {supplied : List DAGNode} {signer : Signer} {node : DAGNode}
    (committed : Committed sha256 sid phase label payload supplied signer node) :
    Ordered sha256 sid phase label payload supplied node := by
  refine ⟨?_, ?_, committed.parallel, ?_⟩
  · intro supplied' signer' node' perm ok'
    have committed' := commit_committed ok'
    have same : parentRefs supplied' = parentRefs supplied := sortParents_congr (perm.map _) _ _
    exact ⟨by rw [committed'.hash, committed.hash, same],
      by rw [committed'.parents, committed.parents, same]⟩
  · rw [committed.parents]
    exact sortParents_pairwise _ _
  · intro x paired
    obtain ⟨n, member, rfl⟩ := mem_map.mp (committed.roles.mem_iff.mp paired)
    exact ⟨n, member, rfl, rfl⟩

/-- The nodes of every signer are ordered. Those of one that accepts its own signatures are accepted
exactly if it has a public key to name as their producer. -/
theorem commit_agrees_iff {sha256 : Bytes → NodeRef} {sid phase label : String} {payload : Bytes}
    {supplied : List DAGNode} {signer : Signer} {node : DAGNode}
    (ok : commit sha256 sid phase label payload supplied signer = .ok node) :
    Ordered sha256 sid phase label payload supplied node ∧
      ((∀ msg sig, signer.sign msg = .ok sig →
          signer.verify signer.publicKey msg sig = none) →
        ∀ verifiers : String → Option Signer, verifiers signer.algorithm = some signer →
          (verify sha256 node payload verifiers = .ok () ↔ signer.publicKey ≠ [])) := by
  have committed := commit_committed ok
  refine ⟨committed.ordered, ?_⟩
  intro own verifiers known
  exact committed.verify_iff own known

def tagSigner (publicKey : Bytes) : Signer where
  sign msg := .ok (7 :: msg)
  verify _ msg sig := if 7 :: msg = sig then none else some "bad tag"
  publicKey := publicKey
  algorithm := "tag"

def onlyTag (signer : Signer) (algorithm : String) : Option Signer :=
  if algorithm = "tag" then some signer else none

theorem tagSigner_own (key : Bytes) (msg sig : Bytes)
    (signed : (tagSigner key).sign msg = .ok sig) :
    (tagSigner key).verify (tagSigner key).publicKey msg sig = none := by
  cases signed
  simp [tagSigner]

def lengthHash (b : Bytes) : NodeRef := Vector.replicate 32 (.ofNat b.length)

def twoShares : List DAGNode :=
  ["left", "right"].map fun role =>
    newDAGNode lengthHash "s" "collect" role [1, 2] [] [] [1] [] "tag"

def tagged (key : Bytes) (parents : List DAGNode) : DAGNode :=
  (commit lengthHash "s" "sum" "total" [3] parents (tagSigner key)).toOption.get rfl

theorem commit_tagged (key : Bytes) (parents : List DAGNode) :
    commit lengthHash "s" "sum" "total" [3] parents (tagSigner key) = .ok (tagged key parents) :=
  rfl

theorem commit_agrees_iff_shares :
    let node := tagged [1] twoShares
    commit lengthHash "s" "sum" "total" [3] twoShares (tagSigner [1]) = .ok node ∧
      node.parents.length = 2 ∧ Ordered lengthHash "s" "sum" "total" [3] twoShares node ∧
      verify lengthHash node [3] (onlyTag (tagSigner [1])) = .ok () := by
  have ok := commit_tagged [1] twoShares
  have agrees := commit_agrees_iff ok
  refine ⟨ok, (commit_parents lengthHash ok).length_eq, agrees.1, ?_⟩
  exact (agrees.2 (tagSigner_own [1]) _ rfl).mpr (by decide)

/-- Without a public key the node is refused, although the scheme accepts its own tags. -/
theorem keyless_node_refused :
    let node := tagged [] []
    commit lengthHash "s" "sum" "total" [3] [] (tagSigner []) = .ok node ∧
      (∀ msg sig, (tagSigner []).sign msg = .ok sig →
        (tagSigner []).verify (tagSigner []).publicKey msg sig = none) ∧
      onlyTag (tagSigner []) (tagSigner []).algorithm = some (tagSigner []) ∧
      verify lengthHash node [3] (onlyTag (tagSigner [])) =
        .error ⟨.signature, utf8 "non-empty producer pubkey", [], node.hash⟩ := by
  intro node
  have committed := commit_committed (commit_tagged [] [])
  have refused : verify lengthHash node [3] (onlyTag (tagSigner [])) =
      .error ⟨.signature, utf8 "non-empty producer pubkey", [], node.hash⟩ := by
    have derived : deriveNodeHash lengthHash node.sessionID node.phaseID node.role [3]
        node.parents = node.hash := by
      rw [committed.sessionID, committed.phaseID, committed.role, committed.parents]
      exact committed.hash.symm
    have producer : node.producer = [] := committed.producer
    have verifier : onlyTag (tagSigner []) node.algorithm = some (tagSigner []) := by
      rfl
    have hashed : hashPayload lengthHash [3] = node.payloadHash := committed.payloadHash.symm
    simp [verify, verifier, hashed, derived, producer]
  exact ⟨commit_tagged [] [], tagSigner_own [], rfl, refused⟩

end CommittedNodes
