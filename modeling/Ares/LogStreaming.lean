import Ares.ByteStrings
import Ares.OperationRuns

/-! The debug log of the server: a ring of the last lines, and the stream of server-sent events in
which a client reads it. The event grammar also ends a line at a carriage return. -/
namespace LogStreaming

open OperationRuns List

section

abbrev Text := List UInt8

def lf : UInt8 := 10

def cr : UInt8 := 13

def dataLabel : Text := [100, 97, 116, 97]

def trimRight (part : Text) : Text := part.rdropWhile (· = cr)

def dataLine (part : Text) : Text := dataLabel ++ [58, 32] ++ trimRight part ++ [lf]

def writeSSE (line : Text) : Text := (line.splitOn lf).flatMap dataLine ++ [lf]

/-- The lines of a stream of events, each ended by CR, LF or CRLF; `skip` says that a line feed that
follows belongs to the end of the last line. -/
def eventLines (skip : Bool) (line : Text) : Text → List Text
  | [] => []
  | b :: rest =>
    if b = lf then if skip then eventLines false line rest else line :: eventLines false [] rest
    else if b = cr then line :: eventLines true [] rest
    else eventLines false (line ++ [b]) rest

structure Field where
  name : Text
  value : Text
  deriving DecidableEq

def readField (line : Text) : Field :=
  let rest := (line.dropWhile (· ≠ 58)).drop 1
  ⟨line.takeWhile (· ≠ 58), if rest.head? = some 32 then rest.tail else rest⟩

def events (fields : List Field) : List Text → List (List Field)
  | [] => []
  | line :: rest =>
    if line = [] then if fields = [] then events [] rest else fields :: events [] rest
    else if line.head? = some 58 then events fields rest
    else events (fields ++ [readField line]) rest

def eventData (fields : List Field) : Text :=
  [lf].intercalate ((fields.filter (·.name = dataLabel)).map Field.value)

def normalised (line : Text) : Text := [lf].intercalate ((line.splitOn lf).map trimRight)

def OneEvent (line : Text) : Prop :=
  ∃ fields, events [] (eventLines false [] (writeSSE line)) = [fields] ∧
    (∀ f ∈ fields, f.name = dataLabel) ∧ eventData fields = normalised line

/-- Carriage returns stand at the end of a part only. -/
def ReturnsLast (line : Text) : Prop := ∀ part ∈ line.splitOn lf, cr ∉ trimRight part

theorem eventLines_ended {text : Text} (plain : ∀ b ∈ text, b ≠ lf ∧ b ≠ cr) (line rest : Text) :
    eventLines false line (text ++ lf :: rest) = (line ++ text) :: eventLines false [] rest := by
  induction text generalizing line with
  | nil => simp [eventLines]
  | cons b text ih =>
    obtain ⟨notLf, notCr⟩ := plain b mem_cons_self
    rw [cons_append, eventLines, if_neg notLf, if_neg notCr,
      ih fun c mem => plain c (mem_cons_of_mem _ mem), append_assoc]
    rfl

theorem cr_not_mem_eventLines (skip : Bool) {line : Text} (clean : cr ∉ line) (text : Text) :
    ∀ l ∈ eventLines skip line text, cr ∉ l := by
  induction text generalizing skip line with
  | nil => simp [eventLines]
  | cons b text ih =>
    rw [eventLines]
    split_ifs with feed skipped ret
    · exact ih false clean
    · exact forall_mem_cons.mpr ⟨clean, ih false not_mem_nil⟩
    · exact forall_mem_cons.mpr ⟨clean, ih true not_mem_nil⟩
    · refine ih false ?_
      simp [clean, Ne.symm ret]

theorem cr_not_mem_events {fields : List Field} (clean : ∀ f ∈ fields, cr ∉ f.value)
    {lines : List Text} (all : ∀ l ∈ lines, cr ∉ l) :
    ∀ e ∈ events fields lines, ∀ f ∈ e, cr ∉ f.value := by
  induction lines generalizing fields with
  | nil => simp [events]
  | cons line lines ih =>
    obtain ⟨here, later⟩ := forall_mem_cons.mp all
    have none : ∀ f ∈ ([] : List Field), cr ∉ f.value := by simp
    rw [events]
    split_ifs
    · exact ih none later
    · exact forall_mem_cons.mpr ⟨clean, ih none later⟩
    · exact ih clean later
    · refine ih (fun f mem => ?_) later
      rcases mem_append.mp mem with mem | mem
      · exact clean f mem
      · rw [mem_singleton.mp mem]
        have sub : (readField line).value <:+ line := by
          have rest := (drop_suffix 1 _).trans (dropWhile_suffix (l := line) (· ≠ 58))
          unfold readField
          dsimp only
          split_ifs
          · exact (tail_suffix _).trans rest
          · exact rest
        exact fun inside => here (sub.subset inside)

theorem cr_mem_join (parts : List Text) :
    cr ∈ [lf].intercalate parts ↔ ∃ part ∈ parts, cr ∈ part := by
  have other : cr ≠ lf := by decide
  induction parts with
  | nil => simp
  | cons part parts ih =>
    by_cases none : parts = []
    · simp [none]
    · simp [intercalate_cons_of_ne_nil none, ih, other]

theorem eventLines_written {parts : List Text}
    (plain : ∀ part ∈ parts, ∀ b ∈ trimRight part, b ≠ lf ∧ b ≠ cr) :
    eventLines false [] (parts.flatMap dataLine ++ [lf]) =
      parts.map (fun part => dataLabel ++ [58, 32] ++ trimRight part) ++ [[]] := by
  induction parts with
  | nil => rfl
  | cons part parts ih =>
    obtain ⟨here, later⟩ := forall_mem_cons.mp plain
    have label : ∀ b ∈ dataLabel ++ [58, 32], b ≠ lf ∧ b ≠ cr := by decide +kernel
    have whole := forall_mem_append.mpr ⟨label, here⟩
    rw [flatMap_cons, dataLine, append_assoc, append_assoc, singleton_append,
      eventLines_ended whole, ih later]
    rfl

theorem events_written (parts : List Text) (fields : List Field) (some : fields ≠ [] ∨ parts ≠ []) :
    events fields (parts.map (fun part => dataLabel ++ [58, 32] ++ trimRight part) ++ [[]]) =
      [fields ++ parts.map fun part => ⟨dataLabel, trimRight part⟩] := by
  induction parts generalizing fields with
  | nil =>
    have nonempty := some.resolve_right (by simp)
    simp [events, nonempty]
  | cons part parts ih =>
    have read : readField (dataLabel ++ [58, 32] ++ trimRight part) =
        ⟨dataLabel, trimRight part⟩ := rfl
    rw [map_cons, cons_append, events, if_neg (by simp),
      if_neg (by simp [dataLabel]), read, ih _ (.inl (by simp)), append_assoc]
    rfl

theorem returnsLast_of_oneEvent {line : Text} (one : OneEvent line) : ReturnsLast line := by
  obtain ⟨fields, written, -, joined⟩ := one
  intro part mem inside
  have lines := cr_not_mem_eventLines false not_mem_nil (writeSSE line)
  have clean := cr_not_mem_events (forall_mem_nil _) lines fields (by simp [written])
  have found : cr ∈ normalised line := (cr_mem_join _).mpr ⟨_, mem_map_of_mem mem, inside⟩
  rw [← joined, eventData, cr_mem_join] at found
  obtain ⟨value, hvalue, inValue⟩ := found
  obtain ⟨f, hf, rfl⟩ := mem_map.mp hvalue
  exact clean f (mem_filter.mp hf).1 inValue

/-- A line arrives as one event with its text exactly if each of its parts has carriage returns at
its end only. -/
theorem one_event_iff (line : Text) : OneEvent line ↔ ReturnsLast line := by
  constructor
  · exact returnsLast_of_oneEvent
  · intro last
    refine ⟨(line.splitOn lf).map fun part => ⟨dataLabel, trimRight part⟩, ?_, ?_, ?_⟩
    · rw [writeSSE, eventLines_written, events_written _ _ (.inr (splitOn_ne_nil lf line))]
      · rfl
      · intro part mem b inside
        refine ⟨?_, ?_⟩
        · rintro rfl
          exact ByteStrings.not_mem_of_mem_splitOn line part mem
            (( rdropWhile_prefix _ _).subset inside)
        · rintro rfl
          exact last part mem inside
    · intro f mem
      obtain ⟨part, -, rfl⟩ := mem_map.mp mem
      rfl
    · rw [eventData, filter_eq_self.mpr (by simp), map_map]
      rfl

/-- The line `a`, two carriage returns, `id:1`. -/
theorem return_ends_event : ¬ OneEvent [97, cr, cr, 105, 100, 58, 49] := by
  intro one
  exact returnsLast_of_oneEvent one _ (by decide : [97, cr, cr, 105, 100, 58, 49] ∈ _) (by decide)

end

def logRingSize : ℕ := 4000

structure LogStream where
  ring : ℕ → String
  pos : ℕ
  full : Bool

namespace LogStream

def new : LogStream := ⟨fun _ => "", 0, false⟩

def write (ls : LogStream) (line : String) : LogStream where
  ring := Function.update ls.ring ls.pos line
  pos := (ls.pos + 1) % logRingSize
  full := ls.full || (ls.pos + 1) % logRingSize = 0

def entries (ls : LogStream) : List String :=
  (if ls.full then (List.range' ls.pos (logRingSize - ls.pos)).map ls.ring else []) ++
    (List.range ls.pos).map ls.ring

def buffered (ls : LogStream) : List String := ls.entries.filter (· ≠ "")

structure Holds (ls : LogStream) (lines : List String) : Prop where
  pos : ls.pos = lines.length % logRingSize
  full : ls.full = true ↔ logRingSize ≤ lines.length
  ring : ∀ j < lines.length, lines.length ≤ j + logRingSize →
    lines[j]? = some (ls.ring (j % logRingSize))

theorem holds_new : new.Holds [] := ⟨rfl, by decide, nofun⟩

section

variable {ls : LogStream} {lines : List String} (holds : ls.Holds lines)

include holds

theorem Holds.write (line : String) : (ls.write line).Holds (lines ++ [line]) := by
  have pos := holds.pos
  have full := holds.full
  refine ⟨?_, ?_, fun j bound recent => ?_⟩
  · simp only [LogStream.write, length_append, length_singleton, logRingSize, pos]
    omega
  · simp only [LogStream.write, length_append, length_singleton, Bool.or_eq_true,
      decide_eq_true_eq, logRingSize, full, pos]
    omega
  · simp only [length_append, length_singleton, logRingSize] at bound recent
    rcases Nat.lt_succ_iff_lt_or_eq.mp bound with earlier | rfl
    · have other : j % logRingSize ≠ ls.pos := by
        rw [pos, logRingSize]
        omega
      rw [List.getElem?_append_left earlier, LogStream.write]
      dsimp only
      rw [Function.update_of_ne other]
      exact holds.ring j earlier (by unfold logRingSize; omega)
    · simp [LogStream.write, holds.pos]

theorem Holds.entries : ls.entries = lines.drop (lines.length - logRingSize) := by
  have pos := holds.pos
  have ring := holds.ring
  unfold logRingSize at pos ring
  apply ext_getElem?
  intro i
  rw [List.getElem?_drop, LogStream.entries]
  by_cases wrapped : logRingSize ≤ lines.length
  · rw [if_pos (holds.full.mpr wrapped)]
    unfold logRingSize at wrapped ⊢
    -- the older part of the ring, the newer part, and what lies behind them
    by_cases older : i < 4000 - ls.pos
    · rw [ring _ (by omega) (by omega), List.getElem?_append_left (by simpa using older),
        List.getElem?_map, List.getElem?_range' older, Option.map_some]
      congr 2
      omega
    · rw [List.getElem?_append_right (by simpa using not_lt.mp older), length_map,
        length_range', List.getElem?_map]
      by_cases newer : i < 4000
      · rw [ring _ (by omega) (by omega), List.getElem?_range (by omega), Option.map_some]
        congr 2
        omega
      · rw [List.getElem?_eq_none (by simp; omega), List.getElem?_eq_none (by omega)]
        rfl
  · have unwrapped := mt holds.full.mp wrapped
    unfold logRingSize at wrapped ⊢
    rw [if_neg unwrapped, nil_append, List.getElem?_map]
    by_cases inside : i < lines.length
    · rw [ring _ (by omega) (by omega), List.getElem?_range (by omega), Option.map_some]
      congr 2
      omega
    · rw [List.getElem?_eq_none (by simp; omega), List.getElem?_eq_none (by omega)]
      rfl

theorem Holds.buffered :
    ls.buffered = (lines.drop (lines.length - logRingSize)).filter (· ≠ "") := by
  rw [LogStream.buffered, holds.entries]

end

/-- The ring keeps the lines written last, in order, whether it has wrapped or not. -/
theorem buffered_written (lines : List String) : (lines.foldl write new).buffered =
    (lines.drop (lines.length - logRingSize)).filter (· ≠ "") := by
  have run : ∀ (rest : List String) {ls : LogStream} {written : List String},
      ls.Holds written → (rest.foldl write ls).Holds (written ++ rest) := by
    intro rest
    induction rest with
    | nil => simp
    | cons line rest ih =>
      intro ls written holds
      simpa using ih (holds.write line)
  exact (run lines holds_new).buffered

end LogStream

def channelSize : ℕ := 512

inductive Stage where
  | idle
  | subscribed (queue : List String)
  | streaming (sent queue : List String)

def Stage.queue : Stage → List String
  | .idle => []
  | .subscribed queue | .streaming _ queue => queue

def push (line : String) (queue : List String) : List String :=
  if queue.length < channelSize then queue ++ [line] else queue

def Stage.offer (line : String) : Stage → Stage
  | .idle => .idle
  | .subscribed queue => .subscribed (push line queue)
  | .streaming sent queue => .streaming sent (push line queue)

structure Server where
  log : LogStream
  written : List String
  stage : Stage

inductive Event where
  | write (line : String)
  | subscribe
  | snapshot
  | receive

namespace Server

def start : Server := ⟨.new, [], .idle⟩

def step (s : Server) : Event → Option Server
  | .write line => some ⟨s.log.write line, s.written ++ [line], s.stage.offer line⟩
  | .subscribe =>
    match s.stage with
    | .idle => some { s with stage := .subscribed [] }
    | _ => none
  | .snapshot =>
    match s.stage with
    | .subscribed queue => some { s with stage := .streaming s.log.buffered queue }
    | _ => none
  | .receive =>
    match s.stage with
    | .streaming sent (line :: queue) => some { s with stage := .streaming (sent ++ [line]) queue }
    | _ => none

def room (s : Server) : Event → Bool
  | .write _ => s.stage.queue.length < channelSize
  | _ => true

def undivided (s : Server) : Event → Bool
  | .write _ =>
    match s.stage with
    | .subscribed _ => false
    | stage => stage.queue.length < channelSize
  | _ => true

def Streamed (s : Server) : Prop :=
  ∀ sent queue, s.stage = .streaming sent queue → ∃ before after, s.written = before ++ after ∧
    sent ++ queue = (before.drop (before.length - logRingSize)).filter (· ≠ "") ++ after

structure Kept (s : Server) : Prop where
  log : s.log.Holds s.written
  empty : ∀ queue, s.stage = .subscribed queue → queue = []
  streamed : s.Streamed

theorem kept_step {s t : Server} {e : Event} (kept : s.Kept) (undivided : s.undivided e)
    (taken : s.step e = some t) : t.Kept := by
  obtain ⟨log, written, stage⟩ := s
  obtain ⟨holds, empty, streamed⟩ := kept
  cases e with
  | write line =>
    cases taken
    refine ⟨holds.write line, ?_, ?_⟩
    · cases stage with
      | idle | streaming => exact nofun
      | subscribed queue => cases undivided
    · cases stage with
      | idle | subscribed => exact nofun
      | streaming sent queue =>
        obtain ⟨before, after, whole, shown⟩ := streamed sent queue rfl
        have room : queue.length < channelSize := of_decide_eq_true undivided
        rintro _ _ ⟨⟩
        refine ⟨before, after ++ [line], ?_, ?_⟩
        · rw [← append_assoc, ← whole]
        · rw [push, if_pos room, ← append_assoc, shown, append_assoc]
  | subscribe =>
    cases stage with
    | idle =>
      cases taken
      refine ⟨holds, ?_, nofun⟩
      rintro _ ⟨⟩
      rfl
    | subscribed | streaming => cases taken
  | snapshot =>
    cases stage with
    | idle | streaming => cases taken
    | subscribed queue =>
      cases taken
      refine ⟨holds, nofun, ?_⟩
      rintro _ _ ⟨⟩
      refine ⟨written, [], (append_nil _).symm, ?_⟩
      rw [holds.buffered, empty queue rfl]
  | receive =>
    cases stage with
    | idle | subscribed => cases taken
    | streaming sent queue =>
      cases queue with
      | nil => cases taken
      | cons line queue =>
        cases taken
        obtain ⟨before, after, whole, shown⟩ := streamed sent (line :: queue) rfl
        refine ⟨holds, nofun, ?_⟩
        rintro _ _ ⟨⟩
        exact ⟨before, after, whole, by rw [append_assoc]; exact shown⟩

/-- If no line is written between the subscription and the snapshot, and none finds the channel
full, each line is streamed once and in order. -/
theorem streamed_once {s : Server} (run : Run step (fun s e => s.undivided e) start s) :
    s.Streamed := by
  have kept : s.Kept := run.invariant (fun _ _ _ => kept_step) ⟨LogStream.holds_new, nofun, nofun⟩
  exact kept.streamed

theorem streamed_once_after : ∃ s, Run step (fun s e => s.undivided e) start s ∧
    s.stage = .streaming ["a"] ["b"] ∧ s.Streamed := by
  have run : Run step (fun s e => s.undivided e) start _ := Guarded.run (fun _ _ h => h)
    (by decide +kernel : Guarded step _ start [.write "a", .subscribe, .snapshot, .write "b"])
  exact ⟨_, run, rfl, streamed_once run⟩

/-- A line that is written between the subscription and the snapshot is sent twice. -/
theorem line_sent_twice : ∃ s, Run step (fun s e => s.room e) start s ∧
    s.stage = .streaming ["a", "a"] [] ∧ ¬ s.Streamed := by
  refine ⟨_, Guarded.run (fun _ _ h => h)
    (by decide +kernel : Guarded step _ start [.subscribe, .write "a", .snapshot, .receive]), rfl,
      ?_⟩
  intro streamed
  obtain ⟨before, after, whole, shown⟩ := streamed ["a", "a"] [] rfl
  have all : 1 = (before ++ after).length := congrArg List.length whole
  have sent := congrArg List.length shown
  have kept := length_filter_le (fun line => decide (line ≠ ""))
    (before.drop (before.length - logRingSize))
  simp only [length_append, length_drop, length_cons] at all sent kept
  omega

end Server

end LogStreaming
