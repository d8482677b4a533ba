import Ares.LineageDispatch
import Ares.OperationRuns

/-! What `readPump` does with a frame: the replay table of the hub decides first and records the
sequence number, the token bucket of the connection decides second. -/
namespace HubFrames

open LineageDispatch OperationRuns List Function

structure SeqMessage extends WSMessage where
  seq : ℤ

structure Frame where
  pseudonym : String
  msg : SeqMessage

abbrev SeqTable := String → Option ℤ

def Frame.stream (f : Frame) : String × String × String :=
  (f.msg.sessionID, f.pseudonym, f.msg.type)

def Frame.key (f : Frame) : String := f.msg.sessionID ++ "|" ++ f.pseudonym ++ "|" ++ f.msg.type

def checkAndRecordSeq (seqHigh : SeqTable) (f : Frame) : Bool × SeqTable :=
  if f.msg.seq = 0 then (true, seqHigh)
  else if (seqHigh f.key).any fun last => f.msg.seq ≤ last then (false, seqHigh)
  else (true, update seqHigh f.key (some f.msg.seq))

section

def seqHighAfter (frames : List Frame) : SeqTable :=
  frames.foldl (fun seqHigh f => (checkAndRecordSeq seqHigh f).2) fun _ => none

def accepts (before : List Frame) (f : Frame) : Bool :=
  (checkAndRecordSeq (seqHighAfter before) f).1

def Took (frames : List Frame) (f : Frame) : Prop :=
  ∃ before, before ++ [f] <+: frames ∧ f.msg.seq ≠ 0 ∧ accepts before f = true

def JudgedByStream (frames : List Frame) : Prop :=
  ∀ before f, before ++ [f] <+: frames →
    (accepts before f = true ↔ f.msg.seq = 0 ∨
      (∀ g ∈ before, g.stream = f.stream → g.msg.seq = 0) ∨
      ∀ g, Took before g → g.stream = f.stream → g.msg.seq < f.msg.seq)

variable {frames before : List Frame} {f g : Frame}

theorem took_concat : Took (before ++ [f]) g ↔
    Took before g ∨ g = f ∧ f.msg.seq ≠ 0 ∧ accepts before f = true := by
  constructor
  · rintro ⟨earlier, within, nonzero, accepted⟩
    rcases prefix_concat_iff.mp within with whole | within
    · obtain ⟨rfl, rfl⟩ := append_inj' whole rfl |>.imp_right singleton_inj.mp
      exact .inr ⟨rfl, nonzero, accepted⟩
    · exact .inl ⟨earlier, within, nonzero, accepted⟩
  · rintro (⟨earlier, within, rest⟩ | ⟨rfl, rest⟩)
    · exact ⟨earlier, within.trans (prefix_append _ _), rest⟩
    · exact ⟨before, prefix_rfl, rest⟩

theorem Took.mem (took : Took frames f) : f ∈ frames := by
  obtain ⟨before, within, -⟩ := took
  exact within.subset (mem_append_right _ mem_cons_self)

theorem accepts_iff_table : accepts before f = true ↔
    f.msg.seq = 0 ∨ ¬ ∃ last, seqHighAfter before f.key = some last ∧ f.msg.seq ≤ last := by
  unfold accepts checkAndRecordSeq
  by_cases zero : f.msg.seq = 0
  · simp [zero]
  · cases seqHighAfter before f.key with
    | none => simp [zero]
    | some last => by_cases le : f.msg.seq ≤ last <;> simp [zero, le]

theorem seqHighAfter_spec (frames : List Frame) (k : String) (n : ℤ) :
    (∃ last, seqHighAfter frames k = some last ∧ n ≤ last) ↔
      ∃ g, Took frames g ∧ g.key = k ∧ n ≤ g.msg.seq := by
  induction frames using List.reverseRecOn generalizing k n with
  | nil => simp [seqHighAfter, Took]
  | append_singleton before f ih =>
    have table : seqHighAfter (before ++ [f]) =
        (checkAndRecordSeq (seqHighAfter before) f).2 := by
      simp [seqHighAfter]
    simp only [table, took_concat]
    by_cases recorded : f.msg.seq ≠ 0 ∧ accepts before f = true
    · have updated : (checkAndRecordSeq (seqHighAfter before) f).2 =
          update (seqHighAfter before) f.key (some f.msg.seq) := by
        obtain ⟨nonzero, accepted⟩ := recorded
        unfold accepts checkAndRecordSeq at accepted
        unfold checkAndRecordSeq
        rw [if_neg nonzero] at accepted ⊢
        split_ifs at accepted ⊢
        rfl
      rw [updated]
      by_cases same : k = f.key
      · subst same
        have below := (accepts_iff_table.mp recorded.2).resolve_left recorded.1
        rw [ih] at below
        simp only [update_self, Option.some.injEq, exists_eq_left']
        constructor
        · exact fun le => ⟨f, .inr ⟨rfl, recorded⟩, rfl, le⟩
        · rintro ⟨g, took | ⟨rfl, -⟩, key, le⟩
          · by_contra above
            exact below ⟨g, took, key, by omega⟩
          · exact le
      · rw [update_of_ne same, ih]
        constructor
        · rintro ⟨g, took, rest⟩
          exact ⟨g, .inl took, rest⟩
        · rintro ⟨g, took | ⟨rfl, -⟩, key, le⟩
          · exact ⟨g, took, key, le⟩
          · exact absurd key.symm same
    · have kept : (checkAndRecordSeq (seqHighAfter before) f).2 = seqHighAfter before := by
        unfold accepts checkAndRecordSeq at recorded
        unfold checkAndRecordSeq
        split_ifs at recorded ⊢ with zero high
        · rfl
        · rfl
        · exact absurd ⟨zero, rfl⟩ recorded
      rw [kept, ih]
      simp [recorded]

theorem accepts_iff : accepts before f = true ↔
    f.msg.seq = 0 ∨ ∀ g, Took before g → g.key = f.key → g.msg.seq < f.msg.seq := by
  rw [accepts_iff_table, seqHighAfter_spec]
  simp only [not_exists, not_and, not_le]

/-- Frames are judged by the frames of their own stream, if no two streams of numbered frames have
one key. -/
theorem judged_by_stream (frames : List Frame)
    (apart : ∀ f ∈ frames, ∀ g ∈ frames, f.msg.seq ≠ 0 → g.msg.seq ≠ 0 → f.key = g.key →
      f.stream = g.stream) : JudgedByStream frames := by
  intro before f within
  rw [accepts_iff]
  have member : f ∈ frames := within.subset (mem_append_right _ mem_cons_self)
  have earlier : ∀ g ∈ before, g ∈ frames :=
    fun g mem => within.subset (mem_append_left _ mem)
  have key_of_stream : ∀ g : Frame, g.stream = f.stream → g.key = f.key := by
    intro g same
    simp only [Frame.stream, Prod.mk.injEq] at same
    simp only [Frame.key, same]
  constructor
  · rintro (zero | above)
    · exact .inl zero
    · exact .inr (.inr fun g took same => above g took (key_of_stream g same))
  · rintro (zero | first | above)
    · exact .inl zero
    · by_cases zero : f.msg.seq = 0
      · exact .inl zero
      · refine .inr fun g took key => ?_
        obtain ⟨-, -, nonzero, -⟩ := id took
        have same := apart g (earlier g took.mem) f member nonzero zero key
        exact absurd (first g took.mem same) nonzero
    · by_cases zero : f.msg.seq = 0
      · exact .inl zero
      · refine .inr fun g took key => ?_
        obtain ⟨-, -, nonzero, -⟩ := id took
        exact above g took (apart g (earlier g took.mem) f member nonzero zero key)

def seqFrame (sessionID pseudonym type : String) (seq : ℤ) : Frame :=
  ⟨pseudonym, { version := "1", type, sessionID, payload := [], lineage := none, seq }⟩

theorem judged_by_stream_two :
    JudgedByStream [seqFrame "s" "ann" "bid" 2, seqFrame "s" "bob" "bid" 1] := by
  refine judged_by_stream _ fun f hf g hg _ _ key => ?_
  simp only [mem_cons, not_mem_nil, or_false] at hf hg
  rcases hf with rfl | rfl <;> rcases hg with rfl | rfl <;>
    first | rfl | exact absurd key (by decide)

/-- Two streams whose names are joined to one key are taken for one. -/
theorem joined_names_collide :
    ¬ JudgedByStream [seqFrame "s|ann" "bob" "bid" 2, seqFrame "s" "ann|bob" "bid" 1] := by
  intro judged
  have second := judged [seqFrame "s|ann" "bob" "bid" 2] (seqFrame "s" "ann|bob" "bid" 1)
    prefix_rfl
  have fresh := second.mpr (.inr (.inl fun g mem same => by
    rw [mem_singleton.mp mem] at same
    exact absurd same (by decide)))
  exact absurd fresh (by decide)

end

structure RateLimiter where
  capacity : ℚ
  refillRate : ℚ
  tokens : ℚ
  lastTick : ℚ
  deriving DecidableEq

def newRateLimiter (rate burst now : ℚ) : Option RateLimiter :=
  if rate ≤ 0 ∨ burst ≤ 0 then none else some ⟨burst, rate, burst, now⟩

namespace RateLimiter

def refill (rl : RateLimiter) (now : ℚ) : RateLimiter :=
  let elapsed := now - rl.lastTick
  if elapsed > 0 then
    let tokens := rl.tokens + elapsed * rl.refillRate
    { rl with tokens := if tokens > rl.capacity then rl.capacity else tokens, lastTick := now }
  else rl

def allow (rl : RateLimiter) (now : ℚ) : Bool × RateLimiter :=
  let filled := rl.refill now
  if filled.tokens ≥ 1 then (true, { filled with tokens := filled.tokens - 1 })
  else (false, filled)

def after (rl : RateLimiter) (calls : List ℚ) : RateLimiter :=
  calls.foldl (fun rl now => (rl.allow now).2) rl

def admitted (rl : RateLimiter) : List ℚ → ℕ
  | [] => 0
  | now :: calls => (if (rl.allow now).1 then 1 else 0) + (rl.allow now).2.admitted calls

structure Filled (rate burst : ℚ) (rl : RateLimiter) : Prop where
  refills : rl.refillRate = rate
  limit : rl.capacity = burst
  nonneg : 0 ≤ rl.tokens
  le : rl.tokens ≤ burst

variable {rate burst : ℚ} {rl : RateLimiter}

section

variable (filled : Filled rate burst rl) (pos : 0 < rate)

include filled pos

theorem Filled.refill (now : ℚ) :
    Filled rate burst (rl.refill now) ∧
      (rl.refill now).tokens ≤ rl.tokens + rate * ((rl.refill now).lastTick - rl.lastTick) := by
  obtain ⟨rfl, rfl, nonneg, le⟩ := filled
  unfold RateLimiter.refill
  dsimp only
  split_ifs with later overflow
  · exact ⟨⟨rfl, rfl, nonneg.trans le, le_rfl⟩, by dsimp only; linarith⟩
  · have gained := mul_pos later pos
    exact ⟨⟨rfl, rfl, by dsimp only; linarith, not_lt.mp overflow⟩, by dsimp only; linarith⟩
  · exact ⟨⟨rfl, rfl, nonneg, le⟩, by simp⟩

theorem Filled.allow (now : ℚ) :
    Filled rate burst (rl.allow now).2 ∧
      (rl.allow now).2.tokens + (if (rl.allow now).1 then 1 else 0 : ℕ) ≤
        rl.tokens + rate * ((rl.allow now).2.lastTick - rl.lastTick) := by
  obtain ⟨full, gain⟩ := filled.refill pos now
  unfold RateLimiter.allow
  by_cases enough : (rl.refill now).tokens ≥ 1
  · rw [if_pos enough]
    refine ⟨⟨full.refills, full.limit, sub_nonneg.mpr enough, ?_⟩, by simpa using gain⟩
    exact (sub_le_self _ zero_le_one).trans full.le
  · rw [if_neg enough]
    exact ⟨full, by simpa using gain⟩

theorem Filled.after (calls : List ℚ) :
    Filled rate burst (rl.after calls) ∧ (rl.after calls).tokens + rl.admitted calls ≤
      rl.tokens + rate * ((rl.after calls).lastTick - rl.lastTick) := by
  induction calls generalizing rl with
  | nil => exact ⟨filled, by simp [RateLimiter.after, admitted]⟩
  | cons now calls ih =>
    obtain ⟨next, paid⟩ := filled.allow pos now
    obtain ⟨last, rest⟩ := ih next
    refine ⟨last, ?_⟩
    simp only [RateLimiter.after, foldl_cons, admitted, Nat.cast_add] at rest paid ⊢
    linarith

end

/-- From any call on, the limiter lets through at most the burst and what the rate gives for the
time that has passed. -/
theorem admitted_le {rate burst start : ℚ} {rl : RateLimiter}
    (made : newRateLimiter rate burst start = some rl) (before block : List ℚ) :
    0 ≤ (rl.after before).tokens ∧ (rl.after before).tokens ≤ burst ∧
      ((rl.after before).admitted block : ℚ) ≤ burst + rate *
        ((rl.after (before ++ block)).lastTick - (rl.after before).lastTick) := by
  unfold newRateLimiter at made
  split_ifs at made with off
  cases made
  simp only [not_or, not_le] at off
  have filled : Filled rate burst ⟨burst, rate, burst, start⟩ := ⟨rfl, rfl, off.2.le, le_rfl⟩
  have now := (filled.after off.1 before).1
  obtain ⟨later, paid⟩ := now.after off.1 block
  refine ⟨now.nonneg, now.le, ?_⟩
  have joined : ∀ rl : RateLimiter, rl.after (before ++ block) = (rl.after before).after block :=
    fun rl => foldl_append
  rw [joined]
  linarith [later.nonneg, now.le]

theorem admitted_le_backwards :
    ((RateLimiter.mk 2 1 2 0).admitted [0, 3, 1, 1, 1] : ℚ) ≤ 2 + 1 *
      (((RateLimiter.mk 2 1 2 0).after [0, 3, 1, 1, 1]).lastTick - 0) := by
  have made : newRateLimiter 1 2 0 = some ⟨2, 1, 2, 0⟩ := by simp [newRateLimiter]
  exact (admitted_le made [] [0, 3, 1, 1, 1]).2.2

end RateLimiter

structure Reader where
  seqHigh : SeqTable
  limiter : Option RateLimiter

inductive Verdict where
  | unreadable
  | invalid (e : ValidateErr)
  | replay
  | rateLimited
  | unhandled
  | delivered
  deriving DecidableEq

def Reader.allow (s : Reader) (now : ℚ) : Bool × Option RateLimiter :=
  match s.limiter with
  | none => (true, none)
  | some rl => ((rl.allow now).1, some (rl.allow now).2)

section

variable (pseudonym : String)

variable {pseudonym} {s : Reader} {msg : SeqMessage}

end

end HubFrames
