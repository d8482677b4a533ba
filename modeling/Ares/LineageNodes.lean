import Ares.ByteStrings

/-! The nodes of the session-rooted Merkle DAG: canonical encodings, `Commit`, `Verify` and the
in-memory store. SHA-256 and the signature scheme are parameters. -/
namespace LineageNodes

export ByteStrings (Bytes)

abbrev NodeRef := Vector UInt8 32

def NodeRef.bytes (r : NodeRef) : Bytes := r.toList

def utf8 (s : String) : Bytes := s.toUTF8.data.toList

theorem utf8_ofList (l : List Char) : utf8 (String.ofList l) = l.flatMap String.utf8EncodeChar := by
  simp [utf8, List.utf8Encode]

/-- One character of a `%q` verb: the Go escapes of the ASCII range. Printability of
non-ASCII runes is not modelled, they stand for themselves. -/
def quoteChar (c : Char) : String :=
  match c.toNat with
  | 7 => "\\a"
  | 8 => "\\b"
  | 9 => "\\t"
  | 10 => "\\n"
  | 11 => "\\v"
  | 12 => "\\f"
  | 13 => "\\r"
  | 34 => "\\\""
  | 92 => "\\\\"
  | n =>
    if n < 32 ∨ n = 127 then
      "\\x" ++ String.ofList [Nat.digitChar (n / 16), Nat.digitChar (n % 16)]
    else c.toString

def goQuote (s : String) : String := "\"" ++ String.join (s.toList.map quoteChar) ++ "\""

structure DAGNode where
  hash : NodeRef
  sessionID : String
  phaseID : String
  role : String
  parents : List NodeRef
  parentRoles : List String
  payloadHash : NodeRef
  producer : Bytes
  signature : Bytes
  algorithm : String
  deriving DecidableEq

/-- The pluggable signature scheme; `none` from `verify` is the nil error. -/
structure Signer where
  sign : Bytes → Except String Bytes
  verify : Bytes → Bytes → Bytes → Option String
  publicKey : Bytes
  algorithm : String

def putUint32 (n : ℕ) : Bytes :=
  [.ofNat (n / 2 ^ 24), .ofNat (n / 2 ^ 16), .ofNat (n / 2 ^ 8), .ofNat n]

def writeLenPrefixed (b : Bytes) : Bytes := putUint32 b.length ++ b

def signingMessage (hash : NodeRef) (sessionID phaseID role : String) : Bytes :=
  hash.bytes ++ writeLenPrefixed (utf8 sessionID) ++ writeLenPrefixed (utf8 phaseID) ++
    writeLenPrefixed (utf8 role)

def zipRoles : List NodeRef → List String → List (NodeRef × String)
  | [], _ => []
  | p :: ps, [] => (p, "") :: zipRoles ps []
  | p :: ps, r :: rs => (p, r) :: zipRoles ps rs

def sortParents (parents : List NodeRef) (parentRoles : List String) : List NodeRef × List String :=
  let indexed := (zipRoles parents parentRoles).mergeSort
    fun a b => decide (a.1.bytes ≤ b.1.bytes)
  (indexed.map Prod.fst, indexed.map Prod.snd)

theorem zipRoles_fst (parents : List NodeRef) (roles : List String) :
    (zipRoles parents roles).map Prod.fst = parents := by
  induction parents generalizing roles with
  | nil => rfl
  | cons p ps ih =>
    cases roles with
    | nil | cons r rs => rw [zipRoles, List.map_cons, ih]

theorem sortParents_perm (parents : List NodeRef) (roles : List String) :
    (sortParents parents roles).1.Perm parents := by
  have sorted := (List.mergeSort_perm (zipRoles parents roles)
    fun a b => decide (a.1.bytes ≤ b.1.bytes)).map Prod.fst
  rwa [zipRoles_fst] at sorted

section

variable (sha256 : Bytes → NodeRef)

def hashPayload (payload : Bytes) : NodeRef := sha256 payload

def nodeEncoding (sessionID phaseID role : String) (payloadHash : NodeRef)
    (sortedParents : List NodeRef) : Bytes :=
  writeLenPrefixed (utf8 sessionID) ++ writeLenPrefixed (utf8 phaseID) ++
    writeLenPrefixed (utf8 role) ++ writeLenPrefixed payloadHash.bytes ++
    putUint32 sortedParents.length ++ sortedParents.flatMap NodeRef.bytes

def deriveNodeHash (sessionID phaseID role : String) (payload : Bytes)
    (sortedParents : List NodeRef) : NodeRef :=
  sha256 (nodeEncoding sessionID phaseID role (hashPayload sha256 payload) sortedParents)

def newDAGNode (sessionID phaseID role : String) (payload : Bytes) (parents : List NodeRef)
    (parentRoles : List String) (producer signature : Bytes) (algorithm : String) : DAGNode :=
  let (sortedParents, sortedRoles) := sortParents parents parentRoles
  { hash := deriveNodeHash sha256 sessionID phaseID role payload sortedParents
    sessionID, phaseID, role
    parents := sortedParents
    parentRoles := sortedRoles
    payloadHash := hashPayload sha256 payload
    producer, signature, algorithm }

/-- `Commit` with a non-nil signer; the only failure left is the signer's own. -/
def commit (sessionID phaseID role : String) (payload : Bytes) (parents : List DAGNode)
    (signer : Signer) : Except String DAGNode :=
  let (sortedRefs, sortedRoles) := sortParents (parents.map DAGNode.hash) (parents.map DAGNode.role)
  let hash := deriveNodeHash sha256 sessionID phaseID role payload sortedRefs
  match signer.sign (signingMessage hash sessionID phaseID role) with
  | .error e => .error e
  | .ok signature =>
    .ok (newDAGNode sha256 sessionID phaseID role payload sortedRefs sortedRoles
      signer.publicKey signature signer.algorithm)

section

variable {sessionID phaseID role : String} {payload : Bytes} {parents : List DAGNode}
  {signer : Signer} {node : DAGNode}
  (h : commit sha256 sessionID phaseID role payload parents signer = .ok node)

include h

theorem commit_sessionID : node.sessionID = sessionID := by
  unfold commit at h
  dsimp only at h
  split at h
  · cases h
  · cases h
    rfl

theorem commit_parents : node.parents.Perm (parents.map DAGNode.hash) := by
  unfold commit at h
  dsimp only at h
  split at h
  · cases h
  · cases h
    exact (sortParents_perm _ _).trans (sortParents_perm _ _)

end

inductive MismatchField where
  | algorithm | payloadHash | signature | parentRef
  deriving DecidableEq

structure MismatchError where
  field : MismatchField
  expected : Bytes
  got : Bytes
  nodeHash : NodeRef
  deriving DecidableEq

def verify (node : DAGNode) (payload : Bytes) (verifiers : String → Option Signer) :
    Except MismatchError Unit :=
  match verifiers node.algorithm with
  | none => .error ⟨.algorithm, utf8 ("verifier for " ++ goQuote node.algorithm), [], node.hash⟩
  | some v =>
    let payloadHash := hashPayload sha256 payload
    if payloadHash ≠ node.payloadHash then
      .error ⟨.payloadHash, node.payloadHash.bytes, payloadHash.bytes, node.hash⟩
    else
      let derived :=
        deriveNodeHash sha256 node.sessionID node.phaseID node.role payload node.parents
      if derived ≠ node.hash then
        .error ⟨.payloadHash, node.hash.bytes, derived.bytes, node.hash⟩
      else if node.producer.length = 0 then
        .error ⟨.signature, utf8 "non-empty producer pubkey", [], node.hash⟩
      else
        let sigMsg := signingMessage node.hash node.sessionID node.phaseID node.role
        match v.verify node.producer sigMsg node.signature with
        | some _ => .error ⟨.signature, node.signature, [], node.hash⟩
        | none => .ok ()

def Signed (verifiers : String → Option Signer) (node : DAGNode) : Prop :=
  ∃ v, verifiers node.algorithm = some v ∧
    v.verify node.producer (signingMessage node.hash node.sessionID node.phaseID node.role)
      node.signature = none

/-- What acceptance by `Verify` says about the node, one clause per check. -/
structure Verified (node : DAGNode) (payload : Bytes) (verifiers : String → Option Signer) :
    Prop where
  payloadHash : node.payloadHash = hashPayload sha256 payload
  hash : node.hash =
    deriveNodeHash sha256 node.sessionID node.phaseID node.role payload node.parents
  producer : node.producer ≠ []
  signed : Signed verifiers node

theorem verify_ok_iff {node : DAGNode} {payload : Bytes} {verifiers : String → Option Signer} :
    verify sha256 node payload verifiers = .ok () ↔ Verified sha256 node payload verifiers := by
  constructor
  · intro h
    unfold verify at h
    split at h
    · cases h
    rename_i v hv
    simp only at h
    split_ifs at h with hp hd hl
    split at h
    · cases h
    · rename_i hs
      exact ⟨(not_not.mp hp).symm, (not_not.mp hd).symm, fun he => hl (by simp [he]), v, hv, hs⟩
  · rintro ⟨hp, hd, hl, v, hv, hs⟩
    have hlen := mt List.length_eq_zero_iff.mp hl
    simp [verify, hv, ← hp, ← hd, hlen, hs]

end

inductive StoreErr where
  | nodeExists
  | nodeNotFound
  | backend (text : String)
  deriving DecidableEq

def StoreErr.text : StoreErr → String
  | .nodeExists => "lineage: node exists"
  | .nodeNotFound => "lineage: node not found"
  | .backend t => t

/-- The persistence interface. A failing `append` may still have changed the backend. -/
structure Store (S : Type) where
  append : DAGNode → S → Option StoreErr × S
  get : NodeRef → S → Except StoreErr DAGNode
  walkSession : String → S → List (Except StoreErr DAGNode)

structure InMemoryStore where
  byHash : NodeRef → Option DAGNode
  bySession : String → List NodeRef

namespace InMemoryStore

def empty : InMemoryStore := ⟨fun _ => none, fun _ => []⟩

def append (node : DAGNode) (s : InMemoryStore) : Option StoreErr × InMemoryStore :=
  match s.byHash node.hash with
  | some _ => (some .nodeExists, s)
  | none =>
    (none,
      { byHash := Function.update s.byHash node.hash (some node)
        bySession := Function.update s.bySession node.sessionID
          (s.bySession node.sessionID ++ [node.hash]) })

def get (hash : NodeRef) (s : InMemoryStore) : Except StoreErr DAGNode :=
  match s.byHash hash with
  | some node => .ok node
  | none => .error .nodeNotFound

def walk (sessionID : String) (s : InMemoryStore) : List DAGNode :=
  (s.bySession sessionID).filterMap s.byHash

def clear (sessionID : String) (s : InMemoryStore) : InMemoryStore :=
  { byHash := fun h => if h ∈ s.bySession sessionID then none else s.byHash h
    bySession := Function.update s.bySession sessionID [] }

def ops : Store InMemoryStore where
  append := append
  get := get
  walkSession id s := (s.walk id).map .ok

/-- Every indexed reference resolves: the walk of a session never skips one. -/
structure Indexed (s : InMemoryStore) : Prop where
  stored : ∀ id, ∀ r ∈ s.bySession id, ∃ n, s.byHash r = some n

theorem indexed_empty : Indexed empty := ⟨by simp [empty]⟩

variable {s : InMemoryStore}

theorem indexed_append (h : s.Indexed) (node : DAGNode) : (append node s).2.Indexed := by
  unfold append
  split
  · exact h
  · refine ⟨fun id r hr => ?_⟩
    by_cases hn : r = node.hash
    · exact ⟨node, by simp [hn]⟩
    · simp only [Function.update_of_ne hn]
      by_cases hi : id = node.sessionID
      · subst id
        simp only [Function.update_self, List.mem_append, List.mem_singleton, hn,
          or_false] at hr
        exact h.stored _ r hr
      · simp only [Function.update_of_ne hi] at hr
        exact h.stored id r hr

theorem walk_append_other (h : s.Indexed) (node : DAGNode) {id : String}
    (hid : id ≠ node.sessionID) : (append node s).2.walk id = s.walk id := by
  unfold append
  split
  · rfl
  · rename_i hnone
    simp only [walk, Function.update_of_ne hid]
    refine List.filterMap_congr fun r hr => ?_
    obtain ⟨n, hn⟩ := h.stored id r hr
    rw [Function.update_of_ne]
    intro he
    simp [he, hnone] at hn

theorem append_byHash (node : DAGNode) (s : InMemoryStore) :
    (append node s).2.byHash node.hash = some ((s.byHash node.hash).getD node) := by
  unfold append
  cases hn : s.byHash node.hash with
  | none => simp
  | some n => simpa using hn

def Keeps (s s' : InMemoryStore) : Prop := ∀ h n, s.byHash h = some n → s'.byHash h = some n

theorem Keeps.refl (s : InMemoryStore) : Keeps s s := fun _ _ h => h

variable {s' : InMemoryStore}

theorem Keeps.trans {s'' : InMemoryStore} (h : Keeps s s') (h' : Keeps s' s'') : Keeps s s'' :=
  fun ref n hn => h' ref n (h ref n hn)

theorem keeps_append (node : DAGNode) (s : InMemoryStore) : Keeps s (append node s).2 := by
  intro h n hn
  by_cases hh : h = node.hash
  · subst hh
    rw [append_byHash, hn]
    rfl
  · unfold append
    cases s.byHash node.hash with
    | none => simpa [Function.update_of_ne hh] using hn
    | some _ => exact hn

def Appends (P : InMemoryStore → DAGNode → Prop) : InMemoryStore → InMemoryStore → Prop :=
  Relation.ReflTransGen fun s s' => ∃ node, P s node ∧ (append node s).2 = s'

variable {P : InMemoryStore → DAGNode → Prop}

section

variable {I : InMemoryStore → Prop} (step : ∀ s node, P s node → I s → I (append node s).2)

include step

theorem Appends.invariant (h : Appends P s s') (hs : I s) : I s' := by
  induction h with
  | refl => exact hs
  | tail _ last ih =>
    obtain ⟨node, hnode, rfl⟩ := last
    exact step _ node hnode ih

theorem Appends.strengthen {Q : InMemoryStore → DAGNode → Prop}
    (h : ∀ s node, I s → P s node → Q s node) (appends : Appends P s s') (hs : I s) :
    Appends Q s s' := by
  induction appends with
  | refl => exact .refl
  | tail before last ih =>
    obtain ⟨node, hnode, ht⟩ := last
    exact ih.tail ⟨node, h _ node (Appends.invariant step before hs) hnode, ht⟩

end

theorem Appends.mono {Q : InMemoryStore → DAGNode → Prop} (h : ∀ s n, P s n → Q s n)
    (appends : Appends P s s') : Appends Q s s' :=
  appends.strengthen (I := fun _ => True) (fun _ _ _ _ => trivial) (fun s n _ => h s n) trivial

theorem Appends.keeps (h : Appends P s s') : Keeps s s' :=
  h.invariant (fun t node _ kept => kept.trans (keeps_append node t)) (.refl s)

def OnlyWalks (P : String → Prop) (s s' : InMemoryStore) : Prop :=
  s.Indexed → s'.Indexed ∧ ∀ id, ¬ P id → s'.walk id = s.walk id

theorem OnlyWalks.refl (P : String → Prop) (s : InMemoryStore) : OnlyWalks P s s :=
  fun h => ⟨h, fun _ _ => rfl⟩

theorem OnlyWalks.trans {P : String → Prop} {s'' : InMemoryStore} (h : OnlyWalks P s s')
    (h' : OnlyWalks P s' s'') : OnlyWalks P s s'' := by
  intro hi
  obtain ⟨hi', hw⟩ := h hi
  obtain ⟨hi'', hw'⟩ := h' hi'
  exact ⟨hi'', fun id hid => (hw' id hid).trans (hw id hid)⟩

theorem OnlyWalks.mono {P P' : String → Prop} (h : OnlyWalks P s s') (hP : ∀ id, P id → P' id) :
    OnlyWalks P' s s' :=
  fun hi => ⟨(h hi).1, fun id hid => (h hi).2 id fun hp => hid (hP id hp)⟩

theorem onlyWalks_append {P : String → Prop} (s : InMemoryStore) {node : DAGNode}
    (hn : P node.sessionID) : OnlyWalks P s (append node s).2 := by
  intro hi
  refine ⟨indexed_append hi node, fun id hid => walk_append_other hi node ?_⟩
  rintro rfl
  exact hid hn

end InMemoryStore

end LineageNodes
