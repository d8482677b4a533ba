import Ares.ByteStrings
import Ares.FiniteMaps
import Ares.OperationRuns

/-! `HandleWS` registers a connection under its pseudonym, the deferred cleanup of `readPump`
removes the pseudonym again, and the senders look it up. -/

namespace HubConnections

open FiniteMaps OperationRuns List

export ByteStrings (Bytes)

def sendBufferSize : ℕ := 256

structure Connection where
  id : ℕ
  pseudonym : String
  deriving DecidableEq

/-- Connections are numbered in the order in which they were registered; `reading` holds those whose
`readPump` has not ended, and `queues` what waits in the send channel of each. -/
structure Hub where
  clients : FinMap String ℕ
  reading : List Connection
  queues : ℕ → List Bytes
  registered : ℕ

def newHub : Hub := ⟨∅, [], fun _ => [], 0⟩

namespace Hub

variable (h : Hub)

def handleWS (validateToken : String → String → Bool) (pseudonym token : String)
    (upgraded : Bool) : Hub :=
  if pseudonym = "" then h
  else if !validateToken pseudonym token then h
  else if !upgraded then h
  else
    { h with
      clients := h.clients.insert pseudonym h.registered
      reading := ⟨h.registered, pseudonym⟩ :: h.reading
      registered := h.registered + 1 }

def readPumpEnds (id : ℕ) : Hub :=
  match h.reading.find? fun c => c.id = id with
  | none => h
  | some c =>
    { h with
      clients := h.clients.erase c.pseudonym
      reading := h.reading.filter fun c => c.id ≠ id }

def enqueue (id : ℕ) (data : Bytes) : Hub :=
  if (h.queues id).length < sendBufferSize then
    { h with queues := Function.update h.queues id (h.queues id ++ [data]) }
  else h

def sendTo (pseudonym : String) (data : Option Bytes) : Hub :=
  match data with
  | none => h
  | some data =>
    match h.clients.lookup pseudonym with
    | none => h
    | some id => h.enqueue id data

def broadcast (data : Bytes) : Hub :=
  (values h.clients).foldl (fun h id => h.enqueue id data) h

def broadcastToSession (pseudonyms : List String) (data : Bytes) : Hub :=
  pseudonyms.foldl (fun h pseudonym => h.sendTo pseudonym (some data)) h

def writePump (id : ℕ) : Hub := { h with queues := Function.update h.queues id (h.queues id).tail }

end Hub

inductive Event where
  | handleWS (pseudonym token : String) (upgraded : Bool)
  | readPumpEnds (id : ℕ)
  | sendTo (pseudonym : String) (data : Option Bytes)
  | broadcast (data : Bytes)
  | broadcastToSession (pseudonyms : List String) (data : Bytes)
  | writePump (id : ℕ)

def next (validateToken : String → String → Bool) : Event → Hub → Hub
  | .handleWS pseudonym token upgraded, h => h.handleWS validateToken pseudonym token upgraded
  | .readPumpEnds id, h => h.readPumpEnds id
  | .sendTo pseudonym data, h => h.sendTo pseudonym data
  | .broadcast data, h => h.broadcast data
  | .broadcastToSession pseudonyms data, h => h.broadcastToSession pseudonyms data
  | .writePump id, h => h.writePump id

/-- A pseudonym is mapped exactly while one of its connections is read, and then to the newest of
those. -/
structure Hub.Maps (h : Hub) : Prop where
  present : ∀ p, (h.clients.lookup p).isSome ↔ ∃ c ∈ h.reading, c.pseudonym = p
  newest : ∀ p id, h.clients.lookup p = some id →
    ⟨id, p⟩ ∈ h.reading ∧ ∀ c ∈ h.reading, c.pseudonym = p → c.id ≤ id

def Hub.Reaches (h : Hub) : Prop :=
  ∀ p data, (∃ c ∈ h.reading, c.pseudonym = p) →
    ∃ c ∈ h.reading, c.pseudonym = p ∧ h.sendTo p (some data) = h.enqueue c.id data

theorem Hub.Maps.reaches {h : Hub} (maps : h.Maps) : h.Reaches := by
  intro p data live
  obtain ⟨id, found⟩ := Option.isSome_iff_exists.mp ((maps.present p).mpr live)
  refine ⟨⟨id, p⟩, (maps.newest p id found).1, rfl, ?_⟩
  rw [Hub.sendTo, found]

def LastReader (h : Hub) : Event → Prop
  | .readPumpEnds id => ∀ c ∈ h.reading, c.id = id → ∀ c' ∈ h.reading,
      c'.pseudonym = c.pseudonym → c' = c
  | _ => True

instance (h : Hub) (e : Event) : Decidable (LastReader h e) :=
  match e with
  | .readPumpEnds _ => inferInstanceAs (Decidable (∀ c ∈ h.reading, _))
  | .handleWS .. | .sendTo .. | .broadcast .. | .broadcastToSession .. | .writePump .. =>
    isTrue trivial

structure Hub.Numbered (h : Hub) : Prop where
  below : ∀ c ∈ h.reading, c.id < h.registered
  inj : ∀ c ∈ h.reading, ∀ c' ∈ h.reading, c.id = c'.id → c = c'

structure Hub.SameMap (h h' : Hub) : Prop where
  clients : h'.clients = h.clients
  reading : h'.reading = h.reading
  registered : h'.registered = h.registered

namespace Hub

variable {h h' h'' : Hub}

theorem SameMap.trans (one : h.SameMap h') (two : h'.SameMap h'') : h.SameMap h'' :=
  ⟨two.clients.trans one.clients, two.reading.trans one.reading,
    two.registered.trans one.registered⟩

theorem SameMap.numbered (same : h.SameMap h') (numbered : h.Numbered) : h'.Numbered := by
  constructor
  · rw [same.reading, same.registered]
    exact numbered.below
  · rw [same.reading]
    exact numbered.inj

theorem SameMap.maps (same : h.SameMap h') (maps : h.Maps) : h'.Maps := by
  constructor
  · rw [same.reading, same.clients]
    exact maps.present
  · rw [same.reading, same.clients]
    exact maps.newest

theorem sameMap_refl (h : Hub) : h.SameMap h := ⟨rfl, rfl, rfl⟩

theorem sameMap_enqueue (h : Hub) (id : ℕ) (data : Bytes) : h.SameMap (h.enqueue id data) := by
  rw [enqueue]
  split
  · exact ⟨rfl, rfl, rfl⟩
  · exact sameMap_refl h

theorem sameMap_sendTo (h : Hub) (p : String) (data : Option Bytes) :
    h.SameMap (h.sendTo p data) := by
  cases data with
  | none => exact sameMap_refl h
  | some data =>
    rw [sendTo]
    split
    · exact sameMap_refl h
    · exact sameMap_enqueue h _ _

theorem sameMap_foldl {α : Type} {f : Hub → α → Hub} (each : ∀ (h : Hub) a, h.SameMap (f h a))
    (l : List α) (h : Hub) : h.SameMap (l.foldl f h) := by
  induction l generalizing h with
  | nil => exact sameMap_refl h
  | cons a l ih => exact (each h a).trans (ih (f h a))

theorem Numbered.register (numbered : h.Numbered) (p : String) :
    Numbered ⟨h.clients.insert p h.registered, ⟨h.registered, p⟩ :: h.reading, h.queues,
      h.registered + 1⟩ := by
  constructor
  · intro c mem
    rcases mem_cons.mp mem with rfl | mem
    · exact Nat.lt_succ_self _
    · exact Nat.lt_succ_of_lt (numbered.below c mem)
  · intro c mem c' mem' eq
    rcases mem_cons.mp mem with rfl | old <;> rcases mem_cons.mp mem' with rfl | old'
    · rfl
    · have := numbered.below c' old'
      simp only at eq
      omega
    · have := numbered.below c old
      simp only at eq
      omega
    · exact numbered.inj c old c' old' eq

theorem Maps.register (maps : h.Maps) (numbered : h.Numbered) (p : String) :
    Maps ⟨h.clients.insert p h.registered, ⟨h.registered, p⟩ :: h.reading, h.queues,
      h.registered + 1⟩ := by
  constructor
  · intro q
    by_cases same : q = p
    · subst same
      simp
    · simp [AList.lookup_insert_ne same, maps.present q, Ne.symm same]
  · intro q id found
    by_cases same : q = p
    · subst same
      simp only [AList.lookup_insert, Option.some.injEq] at found
      subst found
      refine ⟨mem_cons_self, ?_⟩
      intro c mem _
      rcases mem_cons.mp mem with rfl | mem
      · exact le_rfl
      · exact (numbered.below c mem).le
    · simp only [AList.lookup_insert_ne same] at found
      obtain ⟨mem, top⟩ := maps.newest q id found
      refine ⟨mem_cons_of_mem _ mem, ?_⟩
      intro c mem named
      rcases mem_cons.mp mem with rfl | mem
      · exact absurd named (Ne.symm same)
      · exact top c mem named

theorem readPumpEnds_cases (h : Hub) (id : ℕ) :
    (h.readPumpEnds id = h ∧ ∀ c ∈ h.reading, c.id ≠ id) ∨
    ∃ c ∈ h.reading, c.id = id ∧ h.readPumpEnds id = { h with
      clients := h.clients.erase c.pseudonym
      reading := h.reading.filter fun c => c.id ≠ id } := by
  rw [readPumpEnds]
  cases found : h.reading.find? fun c => c.id = id with
  | none =>
    refine Or.inl ⟨rfl, ?_⟩
    intro c mem
    simpa using List.find?_eq_none.mp found c mem
  | some c =>
    refine Or.inr ⟨c, mem_of_find?_eq_some found, ?_, rfl⟩
    simpa using List.find?_some found

theorem Numbered.readPumpEnds (numbered : h.Numbered) (id : ℕ) : (h.readPumpEnds id).Numbered := by
  obtain ⟨eq, -⟩ | ⟨c, -, -, eq⟩ := h.readPumpEnds_cases id
  · rw [eq]
    exact numbered
  · rw [eq]
    constructor
    · intro c mem
      exact numbered.below c (mem_filter.mp mem).1
    · intro c mem c' mem'
      exact numbered.inj c (mem_filter.mp mem).1 c' (mem_filter.mp mem').1

theorem Maps.readPumpEnds_iff (maps : h.Maps) (numbered : h.Numbered) (id : ℕ) :
    (h.readPumpEnds id).Maps ↔ LastReader h (.readPumpEnds id) := by
  obtain ⟨eq, absent⟩ | ⟨c, mem, rfl, eq⟩ := h.readPumpEnds_cases id
  · rw [eq]
    constructor
    · intro _ c mem named
      exact absurd named (absent c mem)
    · intro _
      exact maps
  · rw [eq]
    constructor
    · intro after d inside same c' mem' named
      obtain rfl := numbered.inj d inside c mem same
      by_contra other
      have stays : c' ∈ h.reading.filter fun x => x.id ≠ d.id := by
        refine mem_filter.mpr ⟨mem', ?_⟩
        simpa using fun eq => other (numbered.inj c' mem' d inside eq)
      have mapped := (after.present d.pseudonym).mpr ⟨c', stays, named⟩
      simp at mapped
    · intro last
      have alone := last c mem rfl
      constructor
      · intro p
        by_cases same : p = c.pseudonym
        · subst same
          simp only [AList.lookup_erase, Option.isSome_none, Bool.false_eq_true, false_iff,
            not_exists, not_and]
          intro c' stays named
          obtain ⟨mem', ne⟩ := mem_filter.mp stays
          obtain rfl := alone c' mem' named
          simp at ne
        · rw [AList.lookup_erase_ne same, maps.present p]
          constructor
          · intro live
            obtain ⟨c', mem', named⟩ := live
            refine ⟨c', mem_filter.mpr ⟨mem', ?_⟩, named⟩
            simp only [decide_not, Bool.not_eq_true', decide_eq_false_iff_not]
            intro eq
            obtain rfl := numbered.inj c' mem' c mem eq
            exact same named.symm
          · intro live
            obtain ⟨c', stays, named⟩ := live
            exact ⟨c', (mem_filter.mp stays).1, named⟩
      · intro p id found
        have same : p ≠ c.pseudonym := by
          rintro rfl
          simp at found
        rw [AList.lookup_erase_ne same] at found
        obtain ⟨inside, top⟩ := maps.newest p id found
        refine ⟨mem_filter.mpr ⟨inside, ?_⟩, ?_⟩
        · simp only [decide_not, Bool.not_eq_true', decide_eq_false_iff_not]
          intro eq
          have := numbered.inj ⟨id, p⟩ inside c mem eq
          exact same (congrArg Connection.pseudonym this)
        · intro c' stays named
          exact top c' (mem_filter.mp stays).1 named

end Hub

section

variable (validateToken : String → String → Bool)

theorem handleWS_cases (h : Hub) (p token : String) (upgraded : Bool) :
    h.handleWS validateToken p token upgraded = h ∨ h.handleWS validateToken p token upgraded =
      ⟨h.clients.insert p h.registered, ⟨h.registered, p⟩ :: h.reading, h.queues,
        h.registered + 1⟩ := by
  rw [Hub.handleWS]
  split_ifs
  · exact Or.inl rfl
  · exact Or.inl rfl
  · exact Or.inl rfl
  · exact Or.inr rfl

theorem sameMap_next {e : Event} (h : Hub) (quiet : ∀ p t u, e ≠ .handleWS p t u)
    (ends : ∀ id, e ≠ .readPumpEnds id) : h.SameMap (next validateToken e h) := by
  cases e with
  | handleWS p t u => exact absurd rfl (quiet p t u)
  | readPumpEnds id => exact absurd rfl (ends id)
  | sendTo p data => exact h.sameMap_sendTo p data
  | broadcast data => exact Hub.sameMap_foldl (fun h id => h.sameMap_enqueue id data) _ h
  | broadcastToSession ps data =>
    exact Hub.sameMap_foldl (fun h p => h.sameMap_sendTo p (some data)) _ h
  | writePump id => exact ⟨rfl, rfl, rfl⟩

theorem numbered_next (e : Event) {h : Hub} (numbered : h.Numbered) :
    (next validateToken e h).Numbered := by
  cases e with
  | handleWS p t u =>
    rcases handleWS_cases validateToken h p t u with eq | eq
    · rw [next, eq]
      exact numbered
    · rw [next, eq]
      exact numbered.register p
  | readPumpEnds id => exact numbered.readPumpEnds id
  | sendTo | broadcast | broadcastToSession | writePump =>
    exact (sameMap_next validateToken h (by simp) (by simp)).numbered numbered

theorem maps_next_iff (e : Event) {h : Hub} (numbered : h.Numbered) (maps : h.Maps) :
    (next validateToken e h).Maps ↔ LastReader h e := by
  cases e with
  | handleWS p t u =>
    refine iff_of_true ?_ trivial
    rcases handleWS_cases validateToken h p t u with eq | eq
    · rw [next, eq]
      exact maps
    · rw [next, eq]
      exact maps.register numbered p
  | readPumpEnds id => exact maps.readPumpEnds_iff numbered id
  | sendTo | broadcast | broadcastToSession | writePump =>
    exact iff_of_true ((sameMap_next validateToken h (by simp) (by simp)).maps maps) trivial

theorem newHub_numbered : newHub.Numbered := ⟨by simp [newHub], by simp [newHub]⟩

theorem newHub_maps : newHub.Maps := by
  constructor
  · simp [newHub]
  · intro p id found
    simp [newHub] at found

/-- The connection map along any interleaving: it is right in every state, and then a message to a
pseudonym with a live connection is handed to a live connection, exactly when every reader ends as
the last one of its pseudonym. -/
theorem connection_map_iff (events : List Event) :
    (∀ h ∈ visited (next validateToken) newHub events, h.Maps ∧ h.Reaches) ↔
      AllSteps (next validateToken) LastReader newHub events := by
  rw [← forall_visited_iff (F := fun _ _ => True) (I := Hub.Numbered) (J := Hub.Maps)
    (fun h e numbered _ => numbered_next validateToken e numbered)
    (fun h e numbered maps _ => maps_next_iff validateToken e numbered maps)
    newHub_numbered newHub_maps (AllSteps.of_forall (fun _ _ => trivial) _ _)]
  constructor
  · intro all h mem
    exact (all h mem).1
  · intro all h mem
    exact ⟨all h mem, (all h mem).reaches⟩

/-- A client reconnects and its old reader ends late: the new connection is read, and it is no
longer in the map. -/
theorem late_reader_unmaps :
    let events := [.handleWS "p" "" true, .handleWS "p" "" true, .readPumpEnds 0]
    let h := last (next fun _ _ => true) newHub events
    h.reading = [⟨1, "p"⟩] ∧ h.clients.lookup "p" = none ∧
      ∀ data, h.sendTo "p" (some data) = h := by
  refine ⟨by decide, by decide, ?_⟩
  intro data
  rfl

end

end HubConnections
