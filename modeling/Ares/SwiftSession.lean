import Ares.OperationRuns

/-! `Session` as an actor: between two suspension points a job runs alone, so a run is any sequence
of jobs. -/

namespace SwiftSession

open OperationRuns List

inductive SessionError where
  | timeout (text : String)
  | closed (text : String)
  | cancellation
  deriving DecidableEq

/-- A suspended `receiveAny`, or an `expect` of a type with the frames it passed over. -/
structure Call (ι F : Type) where
  id : ι
  expecting : Option (String × List F)
  deriving DecidableEq

def Call.unmatched {ι F : Type} (c : Call ι F) : List F := c.expecting.elim [] Prod.snd

abbrev Outcome (ι F : Type) := ι × Except SessionError F

/-- `spawned`, `waiters` and `finished` are the `nextFrame` children that have not begun, those with
a continuation, and those that are done; `calls` wait in `group.next`, `leaving` for their child. -/
structure Session (ι F : Type) where
  pseudonym : String
  inbox : List F
  waiters : List ι
  closed : Bool
  closeError : Option SessionError
  spawned : List ι
  finished : List (Outcome ι F)
  calls : List (Call ι F)
  leaving : List (Call ι F)
  delivered : List F
  ended : List (Outcome ι F)

variable {ι F : Type}

def connect (pseudonym : String) : Session ι F :=
  ⟨pseudonym, [], [], false, none, [], [], [], [], [], []⟩

namespace Session

variable (s : Session ι F)

def deliver (frame : F) : Session ι F :=
  match s.waiters with
  | w :: ws =>
    { s with
      delivered := s.delivered ++ [frame], waiters := ws
      finished := (w, .ok frame) :: s.finished }
  | [] => { s with delivered := s.delivered ++ [frame], inbox := s.inbox ++ [frame] }

def failWaiters (err : SessionError) : Session ι F :=
  { s with waiters := [], finished := s.waiters.map (·, .error err) ++ s.finished }

def nextFrame (id : ι) : Session ι F :=
  match s.inbox with
  | f :: rest => { s with inbox := rest, finished := (id, .ok f) :: s.finished }
  | [] => { s with waiters := s.waiters ++ [id] }

def removeWaiter [DecidableEq ι] (id : ι) : Session ι F :=
  if id ∈ s.waiters then
    { s with waiters := s.waiters.erase id, finished := (id, .error .cancellation) :: s.finished }
  else s

def finish (id : ι) (r : Except SessionError F) : Session ι F :=
  { s with ended := (id, r) :: s.ended }

def suspend (c : Call ι F) : Session ι F :=
  { s with spawned := c.id :: s.spawned, calls := c :: s.calls }

/-- The part of `receiveAny` before its group, which it enters when it has no outcome. -/
def receiveAny : Option (Except SessionError F) × Session ι F :=
  match s.closeError with
  | some e => (some (.error e), s)
  | none =>
    if s.closed then (some (.error (.closed s.pseudonym)), s)
    else match s.inbox with
      | f :: rest => (some (.ok f), { s with inbox := rest })
      | [] => (none, s)

def expectError (target : String) : SessionError → SessionError
  | .timeout _ => .timeout (s.pseudonym ++ ": expect " ++ target)
  | e => e

/-- What `expect` does with the outcome of a `receiveAny`; `again` is the next round of its loop. -/
def settle (type : F → String) (target : String) (id : ι) (unmatched : List F)
    (again : List F → Session ι F → Session ι F) : Except SessionError F → Session ι F
  | .ok f =>
    if type f = target then { s with inbox := unmatched ++ s.inbox }.finish id (.ok f)
    else again (unmatched ++ [f]) s
  | .error e => { s with inbox := unmatched ++ s.inbox }.finish id (.error (s.expectError target e))

/-- The loop of `expect`, which comes round `rounds` times before the deadline. -/
def expect (type : F → String) (target : String) (id : ι) :
    ℕ → List F → Session ι F → Session ι F
  | 0, unmatched, s =>
    { s with inbox := unmatched ++ s.inbox }.finish id
      (.error (.timeout (s.pseudonym ++ ": expect " ++ target)))
  | rounds + 1, unmatched, s =>
    match s.receiveAny with
    | (some r, s) => s.settle type target id unmatched (expect type target id rounds) r
    | (none, s) => s.suspend ⟨id, some (target, unmatched)⟩

def resume (type : F → String) (c : Call ι F) (rounds : ℕ) (r : Except SessionError F) :
    Session ι F :=
  match c.expecting with
  | none => s.finish c.id r
  | some (target, unmatched) =>
    s.settle type target c.id unmatched (expect type target c.id rounds) r

def close : Session ι F :=
  let err := s.closeError.getD (.closed s.pseudonym)
  { s with closed := true, closeError := some err }.failWaiters err

def receiveFails (text : String) : Session ι F :=
  let err := .closed (s.pseudonym ++ ": " ++ text)
  { s with closed := true, closeError := some err }.failWaiters err

end Session

inductive Job (ι F : Type) where
  | deliver (frame : F)
  | receiveAny (id : ι)
  | expect (id : ι) (target : String) (rounds : ℕ)
  | nextFrame (id : ι)
  | received (c : Call ι F) (r : Except SessionError F) (rounds : ℕ)
  | timedOut (c : Call ι F)
  | leave (c : Call ι F) (r : Except SessionError F)
  | close
  | receiveFails (text : String)

def frames (l : List (Outcome ι F)) : List F := l.filterMap fun o => o.2.toOption

@[simp] theorem frames_cons (o : Outcome ι F) (l : List (Outcome ι F)) :
    frames (o :: l) = o.2.toOption.toList ++ frames l := by
  obtain ⟨_, _ | _⟩ := o <;> rfl

theorem receiveAny_cases (s : Session ι F) :
    (∃ e, s.receiveAny = (some (.error e), s)) ∨
    (∃ f rest, s.inbox = f :: rest ∧ s.receiveAny = (some (.ok f), { s with inbox := rest })) ∨
    (s.inbox = [] ∧ s.receiveAny = (none, s)) := by
  unfold Session.receiveAny
  split
  · exact .inl ⟨_, rfl⟩
  · split
    · exact .inl ⟨_, rfl⟩
    · split
      · next f rest found => exact .inr (.inl ⟨f, rest, found, rfl⟩)
      · next empty => exact .inr (.inr ⟨empty, rfl⟩)

variable [DecidableEq ι] [DecidableEq F]

def Session.ids (s : Session ι F) : List ι := (s.calls ++ s.leaving).map Call.id

def step (type : F → String) (s : Session ι F) : Job ι F → Option (Session ι F)
  | .deliver frame => some (s.deliver frame)
  | .receiveAny id =>
    if id ∈ s.ids then none
    else match s.receiveAny with
      | (some r, s) => some (s.finish id r)
      | (none, s) => some (s.suspend ⟨id, none⟩)
  | .expect id target rounds =>
    if id ∈ s.ids then none else some (s.expect type target id rounds [])
  | .nextFrame id =>
    if id ∈ s.spawned then some ({ s with spawned := s.spawned.erase id }.nextFrame id) else none
  | .received c r rounds =>
    if c ∈ s.calls ∧ (c.id, r) ∈ s.finished then
      some ({ s with calls := s.calls.erase c, finished := s.finished.erase (c.id, r) }.resume
        type c rounds r)
    else none
  | .timedOut c =>
    if c ∈ s.calls then
      some ({ s with calls := s.calls.erase c, leaving := c :: s.leaving }.removeWaiter c.id)
    else none
  | .leave c r =>
    if c ∈ s.leaving ∧ (c.id, r) ∈ s.finished then
      some ({ s with leaving := s.leaving.erase c, finished := s.finished.erase (c.id, r) }.resume
        type c 0 (.error (.timeout (s.pseudonym ++ ": receiveAny"))))
    else none
  | .close => some s.close
  | .receiveFails text => some (s.receiveFails text)

def Accounted (s : Session ι F) (held : List F) : Prop :=
  ∀ f, s.delivered.count f = (frames s.ended).count f + held.count f +
    ((frames s.finished).count f + ((s.calls ++ s.leaving).flatMap Call.unmatched).count f)

/-- The inbox is in the order of delivery; a continuation is in one place, and that of a call past
its timeout has been resumed, so that the call can leave. -/
structure Sound (s : Session ι F) : Prop where
  exactlyOnce : Accounted s s.inbox
  atRest : s.ids = [] → s.delivered.Perm (frames s.ended ++ s.inbox)
  inOrder : s.inbox.Sublist s.delivered
  resumedOnce : (s.spawned ++ s.waiters ++ s.finished.map Prod.fst).Nodup
  returns : ∀ c ∈ s.leaving, ∃ e, (c.id, .error e) ∈ s.finished

/-- A timeout is taken while the child of the call waits or has failed, and an `expect` goes on
while no other `expect` is suspended. -/
def Orderly (s : Session ι F) : Job ι F → Prop
  | .timedOut c => c.id ∉ s.spawned ∧ c.id ∉ (s.finished.filter (·.2.isOk)).map Prod.fst
  | .received c _ _ | .leave c _ => c.expecting.isSome →
      ∀ c' ∈ s.calls ++ s.leaving, c'.expecting.isSome → c' = c
  | _ => True

structure Books (s : Session ι F) (held : List F) : Prop where
  tally : Accounted s held
  owned : ∀ i, s.spawned.count i + s.waiters.count i + (s.finished.map Prod.fst).count i =
    s.ids.count i
  nodup : s.ids.Nodup
  returns : ∀ c ∈ s.leaving, ∃ e, (c.id, .error e) ∈ s.finished

structure Kept (s : Session ι F) (line : List F) : Prop extends Books s line where
  order : line.Sublist s.delivered
  ahead : ∀ c ∈ s.calls ++ s.leaving, c.expecting.isSome →
    (c.unmatched ++ line).Sublist s.delivered ∧
    (∀ f, (c.id, .ok f) ∈ s.finished → (c.unmatched ++ f :: line).Sublist s.delivered) ∧
    (c.id ∈ s.waiters → line = [])

def Steady (s : Session ι F) : Prop := Kept s s.inbox

theorem frames_count_erase {o : Outcome ι F} {l : List (Outcome ι F)} (mem : o ∈ l) (f : F) :
    (frames l).count f = o.2.toOption.toList.count f + (frames (l.erase o)).count f := by
  rw [← count_append, ← frames_cons]
  exact ((perm_cons_erase mem).filterMap _).count_eq f

namespace Kept

variable {s : Session ι F} {line : List F} {c : Call ι F} {r : Except SessionError F}

theorem sound (h : Steady s) : Sound s where
  exactlyOnce := h.tally
  atRest rest := by
    have none := map_eq_nil_iff.mp rest
    have idle : s.finished = [] := by
      refine eq_nil_iff_forall_not_mem.mpr fun o mem => ?_
      have owned := h.owned o.1
      have pos := count_pos_iff.mpr (mem_map_of_mem (f := Prod.fst) mem)
      rw [rest, count_nil] at owned
      omega
    refine perm_iff_count.mpr fun f => ?_
    rw [h.tally, none, idle, count_append]
    simp [frames]
  inOrder := h.order
  resumedOnce := by
    refine nodup_iff_count_le_one.mpr fun i => ?_
    rw [count_append, count_append, h.owned]
    exact nodup_iff_count_le_one.mp h.nodup i
  returns := h.returns

theorem deliver (h : Steady s) (frame : F) : Steady (s.deliver frame) := by
  have longer : s.delivered.Sublist (s.delivered ++ [frame]) := sublist_append_left ..
  unfold Session.deliver
  split
  · next w ws waiting =>
    refine ⟨⟨fun f => ?_, fun i => ?_, h.nodup, fun c mem => ?_⟩, h.order.trans longer,
      fun c mem some => ?_⟩
    · have tally := h.tally f
      simp only [frames_cons, Except.toOption, Option.toList, count_append] at tally ⊢
      omega
    · have owned := h.owned i
      simp only [Session.ids, waiting, map_cons, count_cons] at owned ⊢
      omega
    · obtain ⟨e, done⟩ := h.returns c mem
      exact ⟨e, mem_cons_of_mem _ done⟩
    · obtain ⟨before, held, none⟩ := h.ahead c mem some
      refine ⟨before.trans longer, fun f got => ?_, fun wait => none ?_⟩
      · rcases mem_cons.mp got with new | old
        · cases new
          have empty := none (by simp [waiting])
          rw [empty] at before ⊢
          simpa using before.append (.refl [frame])
        · exact (held f old).trans longer
      · rw [waiting]
        exact mem_cons_of_mem w wait
  · next none =>
    refine ⟨⟨fun f => ?_, h.owned, h.nodup, h.returns⟩, h.order.append (.refl _),
      fun c mem some => ?_⟩
    · have tally := h.tally f
      simp only [count_append] at tally ⊢
      omega
    · obtain ⟨before, held, -⟩ := h.ahead c mem some
      refine ⟨?_, fun f got => ?_, fun wait => ?_⟩
      · simpa using before.append (.refl [frame])
      · simpa using (held f got).append (.refl [frame])
      · simp [none] at wait

theorem failWaiters (h : Steady s) (err : SessionError) :
    Steady ({ s with closed := true, closeError := some err }.failWaiters err) := by
  refine ⟨⟨fun f => ?_, fun i => ?_, h.nodup, fun c mem => ?_⟩, h.order, fun c mem some => ?_⟩
  · have failed : frames (s.waiters.map fun w => ((w, .error err) : Outcome ι F)) = [] := by
      simp [frames, Except.toOption]
    have tally := h.tally f
    simp only [Session.failWaiters, frames, filterMap_append] at failed tally ⊢
    rw [failed]
    exact tally
  · have owned := h.owned i
    simp only [Session.failWaiters, Session.ids, map_append, map_map, count_append,
      Function.comp_def, map_id', count_nil] at owned ⊢
    omega
  · obtain ⟨e, done⟩ := h.returns c mem
    exact ⟨e, mem_append_right _ done⟩
  · obtain ⟨before, held, -⟩ := h.ahead c mem some
    refine ⟨before, fun f got => held f ?_, nofun⟩
    simpa [Session.failWaiters] using got

theorem nextFrame (h : Steady s) {id : ι} (spawned : id ∈ s.spawned) :
    Steady ({ s with spawned := s.spawned.erase id }.nextFrame id) := by
  have begun : ∀ i, s.spawned.count i = (s.spawned.erase id).count i + [id].count i := by
    intro i
    rw [(perm_cons_erase spawned).count_eq i, count_cons, count_singleton]
  unfold Session.nextFrame
  split
  · next f rest found =>
    rw [Steady, found] at h
    have shorter := sublist_cons_self f rest
    refine ⟨⟨fun g => ?_, fun i => ?_, h.nodup, fun c mem => ?_⟩, shorter.trans h.order,
      fun c mem some => ?_⟩
    · have tally := h.tally g
      simp only [frames_cons, Except.toOption, Option.toList, count_append, count_cons,
        count_nil] at tally ⊢
      omega
    · have owned := h.owned i
      rw [begun] at owned
      simp only [Session.ids, map_cons, count_cons, count_nil] at owned ⊢
      omega
    · obtain ⟨e, done⟩ := h.returns c mem
      exact ⟨e, mem_cons_of_mem _ done⟩
    · obtain ⟨before, held, none⟩ := h.ahead c mem some
      refine ⟨((Sublist.refl _).append shorter).trans before, fun g got => ?_, ?_⟩
      · rcases mem_cons.mp got with new | old
        · cases new
          exact before
        · exact ((Sublist.refl _).append (shorter.cons_cons g)).trans (held g old)
      · exact fun wait => nomatch none wait
  · next empty =>
    refine ⟨⟨h.tally, fun i => ?_, h.nodup, h.returns⟩, h.order, fun c mem some => ?_⟩
    · have owned := h.owned i
      rw [begun] at owned
      simp only [Session.ids, count_append] at owned ⊢
      omega
    · obtain ⟨before, held, -⟩ := h.ahead c mem some
      exact ⟨before, held, fun _ => empty⟩

theorem timedOut (h : Steady s) (mem : c ∈ s.calls) (orderly : Orderly s (.timedOut c)) :
    Steady ({ s with calls := s.calls.erase c, leaving := c :: s.leaving }.removeWaiter c.id) := by
  have moved := perm_middle.trans ((perm_cons_erase mem).symm.append_right s.leaving)
  have one : 0 < s.ids.count c.id := count_pos_iff.mpr (mem_map_of_mem (mem_append_left _ mem))
  have tally := h.tally
  have owned := h.owned
  simp only [Accounted, ← (moved.flatMap_right Call.unmatched).count_eq] at tally
  simp only [Session.ids, ← (moved.map Call.id).count_eq] at owned
  have nodup := (moved.map Call.id).nodup_iff.mpr h.nodup
  unfold Session.removeWaiter
  split
  · next waits =>
    refine ⟨⟨tally, fun i => ?_, nodup, fun c' mem' => ?_⟩, h.order, fun c' mem' some => ?_⟩
    · have counted := owned i
      rw [(perm_cons_erase waits).count_eq i] at counted
      simp only [Session.ids, map_cons, count_cons] at counted ⊢
      omega
    · rcases mem_cons.mp mem' with rfl | other
      · exact ⟨_, mem_cons_self⟩
      · obtain ⟨e, done⟩ := h.returns c' other
        exact ⟨e, mem_cons_of_mem _ done⟩
    · obtain ⟨before, held, none⟩ := h.ahead c' (moved.mem_iff.mp mem') some
      refine ⟨before, fun f got => held f ?_, fun wait => none (mem_of_mem_erase wait)⟩
      simpa using got
  · next not =>
    refine ⟨⟨tally, owned, nodup, fun c' mem' => ?_⟩, h.order, fun c' mem' => ?_⟩
    · rcases mem_cons.mp mem' with rfl | other
      · have counted := h.owned c'.id
        rw [count_eq_zero.mpr orderly.1, count_eq_zero.mpr not] at counted
        obtain ⟨⟨_, r⟩, done, rfl⟩ := mem_map.mp (count_pos_iff.mp (by omega :
          0 < (s.finished.map Prod.fst).count c'.id))
        cases r with
        | error e => exact ⟨e, done⟩
        | ok f => exact (orderly.2 (mem_map_of_mem (mem_filter.mpr ⟨done, rfl⟩))).elim
      · exact h.returns c' other
    · exact h.ahead c' (moved.mem_iff.mp mem')

theorem take (h : Steady s) {calls leaving}
    (split : (s.calls ++ s.leaving).Perm (c :: (calls ++ leaving)))
    (stay : ∀ c' ∈ leaving, c' ∈ s.leaving) (got : (c.id, r) ∈ s.finished) :
    let t := { s with
      calls := calls, leaving := leaving, finished := s.finished.erase (c.id, r) }
    c.id ∉ t.ids ∧ Books t (c.unmatched ++ (r.toOption.toList ++ s.inbox)) := by
  have ids := (split.map Call.id).nodup_iff.mp h.nodup
  obtain ⟨fresh, nodup⟩ := nodup_cons.mp ids
  refine ⟨fresh, fun f => ?_, fun i => ?_, nodup, fun c' mem => ?_⟩
  · have tally := h.tally f
    rw [(split.flatMap_right Call.unmatched).count_eq f, frames_count_erase got f] at tally
    simp only [flatMap_cons, count_append] at tally ⊢
    omega
  · have owned := h.owned i
    rw [Session.ids, (split.map Call.id).count_eq i,
      ((perm_cons_erase got).map Prod.fst).count_eq i] at owned
    simp only [Session.ids, map_cons, count_cons] at owned ⊢
    omega
  · obtain ⟨e, done⟩ := h.returns c' (stay c' mem)
    refine ⟨e, (mem_erase_of_ne ?_).mpr done⟩
    intro same
    have eq : c'.id = c.id := congrArg Prod.fst same
    exact fresh (eq ▸ mem_map_of_mem (mem_append_right _ mem))

theorem finish_error (h : Kept s line) (id : ι) (e : SessionError) :
    Kept ({ s with inbox := line }.finish id (.error e)) line :=
  ⟨⟨h.tally, h.owned, h.nodup, h.returns⟩, h.order, h.ahead⟩

theorem finish_ok {u rest : List F} {f : F} (h : Kept s (u ++ f :: rest)) (id : ι) :
    Kept ({ s with inbox := u ++ rest }.finish id (.ok f)) (u ++ rest) := by
  have shorter := (Sublist.refl u).append (sublist_cons_self f rest)
  refine ⟨⟨fun g => ?_, h.owned, h.nodup, h.returns⟩, shorter.trans h.order, fun c mem some => ?_⟩
  · have tally := h.tally g
    simp only [Session.finish, frames_cons, Except.toOption, Option.toList, count_append,
      count_cons, count_nil] at tally ⊢
    omega
  · obtain ⟨before, held, none⟩ := h.ahead c mem some
    refine ⟨((Sublist.refl _).append shorter).trans before, fun g got => ?_, fun wait => ?_⟩
    · exact ((Sublist.refl _).append (shorter.cons_cons g)).trans (held g got)
    · exact absurd (none wait) (by simp)

theorem suspend (h : Kept s c.unmatched) (fresh : c.id ∉ s.ids) : Kept (s.suspend c) [] := by
  refine ⟨⟨fun f => ?_, fun i => ?_, nodup_cons.mpr ⟨fresh, h.nodup⟩, h.returns⟩,
    nil_sublist _, fun c' mem some => ?_⟩
  · have tally := h.tally f
    simp only [Session.suspend, cons_append, flatMap_cons, count_append,
      count_nil] at tally ⊢
    omega
  · have owned := h.owned i
    simp only [Session.suspend, Session.ids, cons_append, map_cons, count_cons]
      at owned ⊢
    omega
  · rcases mem_cons.mp mem with rfl | other
    · refine ⟨by simpa [Session.suspend] using h.order, fun f got => ?_, fun _ => rfl⟩
      have owned := h.owned c'.id
      have child : 0 < (s.finished.map Prod.fst).count c'.id :=
        count_pos_iff.mpr (mem_map_of_mem got)
      rw [count_eq_zero.mpr fresh] at owned
      omega
    · obtain ⟨before, held, -⟩ := h.ahead c' other some
      refine ⟨?_, fun f got => ?_, fun _ => rfl⟩
      · exact ((Sublist.refl _).append (nil_sublist _)).trans before
      · exact ((Sublist.refl _).append ((nil_sublist _).cons_cons f)).trans (held f got)

theorem settle (type : F → String) (target : String) {id : ι} {u : List F}
    {again : List F → Session ι F → Session ι F} (h : Kept s (u ++ (r.toOption.toList ++ s.inbox)))
    (keeps : ∀ u, Kept s (u ++ s.inbox) → Steady (again u s)) :
    Steady (s.settle type target id u again r) := by
  cases r with
  | error e => exact h.finish_error id _
  | ok f =>
    simp only [Session.settle]
    split
    · exact h.finish_ok id
    · apply keeps
      rw [append_assoc]
      exact h

theorem expect (type : F → String) (target : String) (id : ι) (rounds : ℕ) {u : List F}
    (h : Kept s (u ++ s.inbox)) (fresh : id ∉ s.ids) :
    Steady (s.expect type target id rounds u) := by
  induction rounds generalizing s u with
  | zero => exact h.finish_error id _
  | succ n ih =>
    unfold Session.expect
    rcases receiveAny_cases s with ⟨e, thrown⟩ | ⟨f, rest, found, taken⟩ | ⟨empty, waits⟩
    · rw [thrown]
      exact h.finish_error id _
    · rw [taken]
      rw [found] at h
      have taken : Kept { s with inbox := rest } (u ++ f :: rest) :=
        ⟨⟨h.tally, h.owned, h.nodup, h.returns⟩, h.order, h.ahead⟩
      exact taken.settle type target fun u h => ih h fresh
    · rw [waits]
      rw [empty, append_nil] at h
      have kept := Kept.suspend (c := ⟨id, some (target, u)⟩) h fresh
      rwa [← empty] at kept

theorem resume (type : F → String) (h : Steady s) {r q : Except SessionError F}
    {calls leaving} (split : (s.calls ++ s.leaving).Perm (c :: (calls ++ leaving)))
    (stay : ∀ c' ∈ leaving, c' ∈ s.leaving) (got : (c.id, r) ∈ s.finished)
    (same : r.toOption = q.toOption) (rounds : ℕ)
    (alone : c.expecting.isSome →
      ∀ c' ∈ s.calls ++ s.leaving, c'.expecting.isSome → c' = c) :
    Steady ({ s with
      calls := calls, leaving := leaving, finished := s.finished.erase (c.id, r) }.resume
        type c rounds q) := by
  obtain ⟨fresh, books⟩ := take h split stay got
  have others : ∀ c' ∈ calls ++ leaving, c' ∈ s.calls ++ s.leaving :=
    fun c' mem => split.mem_iff.mpr (mem_cons_of_mem c mem)
  rw [same] at books
  unfold Session.resume
  split
  · next plain =>
    have unmatched : c.unmatched = [] := by rw [Call.unmatched, plain]; rfl
    rw [unmatched] at books
    refine ⟨⟨fun f => ?_, books.owned, books.nodup, books.returns⟩, h.order,
      fun c' mem some => ?_⟩
    · have tally := books.tally f
      simp only [Session.finish, frames_cons, count_append, nil_append] at tally ⊢
      omega
    · obtain ⟨before, held, none⟩ := h.ahead c' (others c' mem) some
      exact ⟨before, fun f mem => held f (mem_of_mem_erase mem), none⟩
  · next target u expects =>
    have expecting : c.expecting.isSome := by rw [expects]; rfl
    have unmatched : c.unmatched = u := by rw [Call.unmatched, expects]; rfl
    obtain ⟨before, held, -⟩ := h.ahead c (split.mem_iff.mpr mem_cons_self) expecting
    rw [unmatched] at before held books
    have kept : Kept { s with
        calls := calls, leaving := leaving, finished := s.finished.erase (c.id, r) }
        (u ++ (q.toOption.toList ++ s.inbox)) := by
      refine ⟨books, ?_, fun c' mem some => ?_⟩
      · rw [← same]
        cases r with
        | error e => exact before
        | ok f => exact held f got
      · cases alone expecting c' (others c' mem) some
        exact (fresh (mem_map_of_mem mem)).elim
    exact kept.settle type target fun u h => h.expect type target c.id rounds fresh

end Kept

theorem steady_step (type : F → String) (s : Session ι F) (job : Job ι F) (t : Session ι F)
    (h : Steady s) (orderly : Orderly s job) (stepped : step type s job = some t) : Steady t := by
  cases job with
  | deliver frame =>
    cases stepped
    exact Kept.deliver h frame
  | receiveAny id =>
    rw [step] at stepped
    split at stepped
    · cases stepped
    · next fresh =>
      rcases receiveAny_cases s with ⟨e, thrown⟩ | ⟨f, rest, found, taken⟩ | ⟨empty, waits⟩
      · rw [thrown] at stepped
        cases stepped
        exact h.finish_error id e
      · rw [taken] at stepped
        cases stepped
        rw [Steady, found] at h
        exact h.finish_ok (u := []) id
      · rw [waits] at stepped
        cases stepped
        rw [Steady, empty] at h
        have kept := Kept.suspend (c := ⟨id, none⟩) h fresh
        rwa [← empty] at kept
  | expect id target rounds =>
    rw [step] at stepped
    split at stepped
    · cases stepped
    · next fresh =>
      cases stepped
      exact h.expect type target id rounds (u := []) fresh
  | nextFrame id =>
    rw [step] at stepped
    split at stepped
    · next spawned =>
      cases stepped
      exact Kept.nextFrame h spawned
    · cases stepped
  | received c r rounds =>
    rw [step] at stepped
    split at stepped
    · next both =>
      cases stepped
      have split := (perm_cons_erase both.1).append_right s.leaving
      exact Kept.resume type h split (fun _ mem => mem) both.2 rfl rounds orderly
    · cases stepped
  | timedOut c =>
    rw [step] at stepped
    split at stepped
    · next mem =>
      cases stepped
      exact Kept.timedOut h mem orderly
    · cases stepped
  | leave c r =>
    rw [step] at stepped
    split at stepped
    · next both =>
      cases stepped
      obtain ⟨e, done⟩ := h.returns c both.1
      have once := (Kept.sound h).resumedOnce.of_append_right
      cases inj_on_of_nodup_map once both.2 done rfl
      have split := ((perm_cons_erase both.1).append_left s.calls).trans perm_middle
      exact Kept.resume type h split (fun _ => mem_of_mem_erase) both.2
        (q := .error (.timeout _)) rfl 0 orderly
    · cases stepped
  | close | receiveFails text =>
    cases stepped
    exact Kept.failWaiters h _

theorem steady_connect (pseudonym : String) : Steady (connect pseudonym : Session ι F) :=
  ⟨⟨fun _ => rfl, fun _ => rfl, nodup_nil, nofun⟩, .slnil, nofun⟩

/-- However the jobs of the actor interleave, frames are delivered once and in order and no call
outstays its timeout, as long as the jobs are orderly. -/
theorem frames_delivered_once (type : F → String) {pseudonym : String} {s : Session ι F}
    (run : Run (step type) Orderly (connect pseudonym) s) : Sound s :=
  Kept.sound (run.invariant (steady_step type) (steady_connect pseudonym))

instance (s : Session ι F) (job : Job ι F) : Decidable (Orderly s job) :=
  match job with
  | .timedOut _ => inferInstanceAs (Decidable (_ ∧ _))
  | .received c _ _ | .leave c _ =>
    inferInstanceAs (Decidable (c.expecting.isSome → ∀ c' ∈ s.calls ++ s.leaving, _))
  | .deliver _ | .receiveAny _ | .expect .. | .nextFrame _ | .close | .receiveFails _ =>
    isTrue trivial

def expectThenTimeout : List (Job ℕ String) :=
  [.expect 0 "bid" 1, .receiveAny 1, .nextFrame 0, .nextFrame 1, .deliver "hello",
    .received ⟨0, some ("bid", [])⟩ (.ok "hello") 1, .nextFrame 0, .timedOut ⟨1, none⟩,
    .leave ⟨1, none⟩ (.error .cancellation), .deliver "bid",
    .received ⟨0, some ("bid", ["hello"])⟩ (.ok "bid") 0]

theorem frames_delivered_once_expect :
    let s := play (step id) (connect "p") expectThenTimeout
    (s.inbox = ["hello"] ∧ s.ended.length = 2) ∧ Sound s :=
  ⟨by decide, frames_delivered_once id
    (Guarded.run (fun _ _ => id) (by decide))⟩

/-- A timeout before the child has begun leaves a call that waits for it, and that takes the next
frame with it; one after a delivery drops the frame; two overlapping calls of `expect` put their
frames back in the wrong order. -/
theorem frames_lost_and_swapped :
    (∃ s : Session ℕ String, Run (step id) (fun _ _ => True) (connect "p") s ∧
      ∃ c ∈ s.leaving, c.id ∈ s.waiters) ∧
    (∃ s : Session ℕ String, Run (step id) (fun _ _ => True) (connect "p") s ∧
      s.ids = [] ∧ s.delivered = ["bid"] ∧ s.inbox = [] ∧ frames s.ended = []) ∧
    ∃ s : Session ℕ String, Run (step id) (fun _ _ => True) (connect "p") s ∧
      s.ids = [] ∧ s.delivered = ["a", "b", "bid", "ask"] ∧ s.inbox = ["b", "a"] := by
  have played : ∀ jobs : List (Job ℕ String),
      Guarded (step id) (fun _ _ => True) (connect "p") jobs →
      Run (step id) (fun _ _ => True) (connect "p") (play (step id) (connect "p") jobs) :=
    fun _ => Guarded.run fun _ _ => id
  refine ⟨⟨_, played [.receiveAny 0, .timedOut ⟨0, none⟩, .nextFrame 0] (by decide), by decide⟩,
    ⟨_, played [.receiveAny 0, .nextFrame 0, .deliver "bid", .timedOut ⟨0, none⟩,
      .leave ⟨0, none⟩ (.ok "bid")] (by decide), by decide⟩,
    ⟨_, played [.expect 0 "bid" 1, .expect 1 "ask" 1, .nextFrame 0, .nextFrame 1, .deliver "a",
      .deliver "b", .received ⟨0, some ("bid", [])⟩ (.ok "a") 1, .nextFrame 0,
      .received ⟨1, some ("ask", [])⟩ (.ok "b") 1, .nextFrame 1, .deliver "bid",
      .deliver "ask", .received ⟨0, some ("bid", ["a"])⟩ (.ok "bid") 0,
      .received ⟨1, some ("ask", ["b"])⟩ (.ok "ask") 0] (by decide), by decide⟩⟩

end SwiftSession
