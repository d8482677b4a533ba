import Ares.LineageNodes

/-! The store keeps two indexes, by hash and by session. -/
namespace LineageStoreLog

open LineageNodes List Function

structure Coherent (s : InMemoryStore) : Prop where
  hash : ∀ h n, s.byHash h = some n → n.hash = h
  listed : ∀ h n, s.byHash h = some n → h ∈ s.bySession n.sessionID
  stored : ∀ id, ∀ h ∈ s.bySession id, ∃ n, s.byHash h = some n ∧ n.sessionID = id
  nodup : ∀ id, (s.bySession id).Nodup

theorem coherent_empty : Coherent .empty := by
  constructor <;> simp [InMemoryStore.empty]

section

variable {s : InMemoryStore} {node : DAGNode} (fresh : s.byHash node.hash = none)

include fresh

theorem byHash_append (h : NodeRef) (n : DAGNode) :
    (s.append node).2.byHash h = some n ↔ s.byHash h = some n ∨ (n = node ∧ h = node.hash) := by
  simp only [InMemoryStore.append, fresh]
  by_cases same : h = node.hash
  · subst same
    simp [fresh, eq_comm]
  · simp [same]

theorem mem_bySession_append {id : String} {h : NodeRef} :
    h ∈ (s.append node).2.bySession id ↔
      h ∈ s.bySession id ∨ (id = node.sessionID ∧ h = node.hash) := by
  simp only [InMemoryStore.append, fresh]
  by_cases session : id = node.sessionID
  · subst session
    simp
  · simp [session]

end

section

variable {s : InMemoryStore} (coherent : Coherent s)

include coherent

theorem Coherent.mem_walk {id : String} {n : DAGNode} :
    n ∈ s.walk id ↔ s.byHash n.hash = some n ∧ n.sessionID = id := by
  rw [InMemoryStore.walk, mem_filterMap]
  constructor
  · intro h
    obtain ⟨ref, listed, found⟩ := h
    obtain ⟨m, stored, session⟩ := coherent.stored id ref listed
    rw [found] at stored
    cases stored
    rw [coherent.hash ref n found]
    exact ⟨found, session⟩
  · intro h
    obtain ⟨found, session⟩ := h
    exact ⟨n.hash, session ▸ coherent.listed n.hash n found, found⟩

theorem Coherent.walk_hashes (id : String) : (s.walk id).map DAGNode.hash = s.bySession id := by
  have each : ∀ l : List NodeRef, (∀ h ∈ l, ∃ n, s.byHash h = some n) →
      (l.filterMap s.byHash).map DAGNode.hash = l := by
    intro l
    induction l with
    | nil => simp
    | cons h l ih =>
      intro found
      obtain ⟨n, hn⟩ := found h (mem_cons_self ..)
      have rest := ih fun r hr => found r (mem_cons_of_mem _ hr)
      rw [filterMap_cons_some hn, map_cons, rest, coherent.hash h n hn]
  apply each
  intro h hh
  obtain ⟨n, found, -⟩ := coherent.stored id h hh
  exact ⟨n, found⟩

theorem Coherent.walk_nodup (id : String) : (s.walk id).Nodup := by
  apply Nodup.of_map DAGNode.hash
  rw [coherent.walk_hashes]
  exact coherent.nodup id

theorem Coherent.walk_append_own {node : DAGNode} (fresh : s.byHash node.hash = none) :
    (s.append node).2.walk node.sessionID = s.walk node.sessionID ++ [node] := by
  have kept : ∀ h ∈ s.bySession node.sessionID,
      update s.byHash node.hash (some node) h = s.byHash h := by
    intro h hh
    obtain ⟨n, found, -⟩ := coherent.stored _ h hh
    apply update_of_ne
    intro same
    rw [same, fresh] at found
    cases found
  simp only [InMemoryStore.append, fresh, InMemoryStore.walk, update_self,
    filterMap_append, filterMap_congr kept]
  simp

theorem Coherent.indexed : s.Indexed := by
  constructor
  intro id h hh
  obtain ⟨n, found, -⟩ := coherent.stored id h hh
  exact ⟨n, found⟩

theorem Coherent.walk_sublist_append (node : DAGNode) (id : String) :
    (s.walk id).Sublist ((s.append node).2.walk id) := by
  cases found : s.byHash node.hash with
  | some n => simp [InMemoryStore.append, found]
  | none =>
    by_cases session : id = node.sessionID
    · subst session
      rw [coherent.walk_append_own found]
      exact sublist_append_left ..
    · rw [InMemoryStore.walk_append_other coherent.indexed node session]

theorem Coherent.append (node : DAGNode) : Coherent (s.append node).2 := by
  cases found : s.byHash node.hash with
  | some n => simpa only [InMemoryStore.append, found] using coherent
  | none =>
    constructor
    · intro h n hn
      rcases (byHash_append found h n).mp hn with stored | ⟨rfl, rfl⟩
      · exact coherent.hash h n stored
      · rfl
    · intro h n hn
      rw [mem_bySession_append found]
      rcases (byHash_append found h n).mp hn with stored | ⟨rfl, rfl⟩
      · exact Or.inl (coherent.listed h n stored)
      · exact Or.inr ⟨rfl, rfl⟩
    · intro id h hh
      rcases (mem_bySession_append found).mp hh with listed | ⟨rfl, rfl⟩
      · obtain ⟨n, stored, session⟩ := coherent.stored id h listed
        exact ⟨n, (byHash_append found h n).mpr (Or.inl stored), session⟩
      · exact ⟨node, (byHash_append found _ node).mpr (Or.inr ⟨rfl, rfl⟩), rfl⟩
    · intro id
      by_cases session : id = node.sessionID
      · subst session
        have own : node.hash ∉ s.bySession node.sessionID := by
          intro listed
          obtain ⟨n, stored, -⟩ := coherent.stored _ _ listed
          rw [found] at stored
          cases stored
        simp only [InMemoryStore.append, found, update_self]
        rw [← concat_eq_append]
        exact (coherent.nodup _).concat own
      · simp only [InMemoryStore.append, found, update_of_ne session]
        exact coherent.nodup id

theorem Coherent.byHash_clear (id : String) (h : NodeRef) (n : DAGNode) :
    (s.clear id).byHash h = some n ↔ s.byHash h = some n ∧ n.sessionID ≠ id := by
  simp only [InMemoryStore.clear]
  constructor
  · intro kept
    split at kept
    · cases kept
    · next unlisted =>
      refine ⟨kept, ?_⟩
      intro session
      exact unlisted (session ▸ coherent.listed h n kept)
  · intro kept
    rw [if_neg]
    · exact kept.1
    · intro listed
      obtain ⟨m, stored, session⟩ := coherent.stored id h listed
      rw [kept.1] at stored
      cases stored
      exact kept.2 session

theorem Coherent.clear (id : String) : Coherent (s.clear id) := by
  constructor
  · intro h n hn
    exact coherent.hash h n ((coherent.byHash_clear id h n).mp hn).1
  · intro h n hn
    obtain ⟨stored, other⟩ := (coherent.byHash_clear id h n).mp hn
    simp only [InMemoryStore.clear, update_of_ne other]
    exact coherent.listed h n stored
  · intro id' h hh
    by_cases same : id' = id
    · simp [InMemoryStore.clear, same] at hh
    · simp only [InMemoryStore.clear, update_of_ne same] at hh
      obtain ⟨n, stored, session⟩ := coherent.stored id' h hh
      exact ⟨n, (coherent.byHash_clear id h n).mpr ⟨stored, session ▸ same⟩, session⟩
  · intro id'
    by_cases same : id' = id
    · simp [InMemoryStore.clear, same]
    · simp only [InMemoryStore.clear, update_of_ne same]
      exact coherent.nodup id'

theorem Coherent.walk_clear_other {id id' : String} (other : id' ≠ id) :
    (s.clear id).walk id' = s.walk id' := by
  simp only [InMemoryStore.walk]
  rw [show (s.clear id).bySession id' = s.bySession id' by
    simp [InMemoryStore.clear, update_of_ne other]]
  apply filterMap_congr
  intro h hh
  obtain ⟨n, stored, session⟩ := coherent.stored id' h hh
  rw [stored, (coherent.byHash_clear id h n).mpr ⟨stored, session ▸ other⟩]

end

theorem walk_clear_own (s : InMemoryStore) (id : String) : (s.clear id).walk id = [] := by
  simp [InMemoryStore.walk, InMemoryStore.clear]

inductive StoreOp where
  | append (node : DAGNode)
  | clear (sessionID : String)
  deriving DecidableEq

abbrev StoreEvent := StoreOp × Option StoreErr

def StoreOp.perform (s : InMemoryStore) : StoreOp → Option StoreErr × InMemoryStore
  | .append node => s.append node
  | .clear id => (none, s.clear id)

/-- A store together with everything that was done to it, oldest first. -/
structure Recorded where
  store : InMemoryStore
  history : List StoreEvent

def Recorded.next (op : StoreOp) (r : Recorded) : Recorded :=
  ⟨(op.perform r.store).2, r.history ++ [(op, (op.perform r.store).1)]⟩

def perform (ops : List StoreOp) : Recorded :=
  ops.foldl (fun r op => r.next op) ⟨.empty, []⟩

def sinceClear (id : String) (history : List StoreEvent) : List StoreEvent :=
  (history.reverse.takeWhile fun e => decide (e.1 ≠ .clear id)).reverse

def accepted (id : String) : StoreEvent → Option DAGNode
  | (.append node, none) => if node.sessionID = id then some node else none
  | _ => none

def sessionLog (id : String) (history : List StoreEvent) : List DAGNode :=
  (sinceClear id history).filterMap (accepted id)

theorem sessionLog_snoc {id : String} {e : StoreEvent} (other : e.1 ≠ .clear id)
    (history : List StoreEvent) :
    sessionLog id (history ++ [e]) = sessionLog id history ++ (accepted id e).toList := by
  have since : sinceClear id (history ++ [e]) = sinceClear id history ++ [e] := by
    simp [sinceClear, other]
  rw [sessionLog, since, filterMap_append, sessionLog]
  cases h : accepted id e with
  | none | some n => simp [h]

/-- The refinement: indexes that agree, and walks that are the logs of the history. -/
structure Refines (r : Recorded) : Prop where
  coherent : Coherent r.store
  walk : ∀ id, r.store.walk id = sessionLog id r.history

theorem refines_start : Refines ⟨.empty, []⟩ :=
  ⟨coherent_empty, by simp [InMemoryStore.empty, InMemoryStore.walk, sessionLog, sinceClear]⟩

theorem Refines.append {r : Recorded} (h : Refines r) (node : DAGNode) :
    Refines (r.next (.append node)) := by
  refine ⟨h.coherent.append node, ?_⟩
  intro id
  have kept : (StoreOp.append node, (r.store.append node).1).1 ≠ .clear id := by simp
  simp only [Recorded.next, StoreOp.perform]
  rw [sessionLog_snoc kept, ← h.walk]
  cases found : r.store.byHash node.hash with
  | some n => simp [InMemoryStore.append, found, accepted]
  | none =>
    by_cases session : node.sessionID = id
    · subst session
      rw [h.coherent.walk_append_own found]
      simp [InMemoryStore.append, found, accepted]
    · rw [InMemoryStore.walk_append_other h.coherent.indexed node (Ne.symm session)]
      simp [InMemoryStore.append, found, accepted, session]

theorem Refines.clear {r : Recorded} (h : Refines r) (id : String) :
    Refines (r.next (.clear id)) := by
  refine ⟨h.coherent.clear id, ?_⟩
  intro id'
  simp only [Recorded.next, StoreOp.perform]
  by_cases same : id' = id
  · subst same
    rw [walk_clear_own]
    simp [sessionLog, sinceClear]
  · have other : StoreOp.clear id ≠ .clear id' := by
      intro clear
      cases clear
      exact same rfl
    rw [h.coherent.walk_clear_other same, sessionLog_snoc other, h.walk]
    simp [accepted]

theorem refines_perform (ops : List StoreOp) : Refines (perform ops) := by
  have run : ∀ r, Refines r → Refines (ops.foldl (fun r op => r.next op) r) := by
    induction ops with
    | nil => exact fun _ h => h
    | cons op ops ih =>
      intro r h
      apply ih
      cases op with
      | append node => exact h.append node
      | clear id => exact h.clear id
  exact run _ refines_start

theorem get_ok_iff {s : InMemoryStore} {h : NodeRef} {n : DAGNode} :
    InMemoryStore.ops.get h s = .ok n ↔ s.byHash h = some n := by
  simp only [InMemoryStore.ops, InMemoryStore.get]
  cases s.byHash h <;> simp

theorem get_eq_ok {s : InMemoryStore} (coherent : Coherent s) (h : NodeRef) (n : DAGNode) :
    InMemoryStore.ops.get h s = .ok n ↔
      n.hash = h ∧ ∃ id, .ok n ∈ InMemoryStore.ops.walkSession id s := by
  have listed : ∀ id, (.ok n : Except StoreErr DAGNode) ∈ InMemoryStore.ops.walkSession id s ↔
      n ∈ s.walk id := by
    simp [InMemoryStore.ops]
  simp only [get_ok_iff, listed, coherent.mem_walk]
  constructor
  · intro stored
    have hash := coherent.hash h n stored
    exact ⟨hash, n.sessionID, by rwa [hash], rfl⟩
  · intro h'
    obtain ⟨rfl, id, stored, -⟩ := h'
    exact stored

/-- After any appends and clears, `WalkSession` yields the session's log, `Get` finds exactly what
some walk has, and `Append` is refused exactly where `Get` succeeds. -/
theorem store_refines_log (ops : List StoreOp) :
    (∀ id, InMemoryStore.ops.walkSession id (perform ops).store =
      (sessionLog id (perform ops).history).map .ok) ∧
    (∀ id, (sessionLog id (perform ops).history).Nodup) ∧
    (∀ h n, InMemoryStore.ops.get h (perform ops).store = .ok n ↔
      n.hash = h ∧ ∃ id, .ok n ∈ InMemoryStore.ops.walkSession id (perform ops).store) ∧
    ∀ node, ((InMemoryStore.ops.append node (perform ops).store).1 = some .nodeExists ↔
      ∃ n, InMemoryStore.ops.get node.hash (perform ops).store = .ok n) ∧
      ((InMemoryStore.ops.append node (perform ops).store).1 = none ↔
        InMemoryStore.ops.get node.hash (perform ops).store = .error .nodeNotFound) := by
  have refines := refines_perform ops
  refine ⟨?_, ?_, get_eq_ok refines.coherent, ?_⟩
  · intro id
    rw [← refines.walk]
    rfl
  · intro id
    rw [← refines.walk]
    exact refines.coherent.walk_nodup id
  · intro node
    simp only [InMemoryStore.ops, InMemoryStore.append, InMemoryStore.get]
    cases (perform ops).store.byHash node.hash <;> simp

end LineageStoreLog
