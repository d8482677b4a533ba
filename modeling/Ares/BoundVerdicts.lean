import Ares.BoundCheck

/-! Whom `Exit` reports to the violation handler, and what it returns. -/

namespace BoundVerdicts

open BoundCheck FallibleLists List

variable {K Party Raw Part : Type} {m : ℕ}

/-- The calls of `OnViolation`, in their order, and the error that is returned. -/
structure Verdict (Party K : Type) where
  calls : List (Violation Party K)
  returned : Option PhaseError
  deriving DecidableEq

def verdict : Except PhaseError (List (Violation Party K)) → Verdict Party K
  | .error e => ⟨[], some e⟩
  | .ok [] => ⟨[], none⟩
  | .ok (v :: vs) => ⟨v :: vs, some (.appAttributable, "bound violation")⟩

theorem verdict_calls (violators : List (Violation Party K)) :
    (verdict (.ok violators)).calls = violators := by
  cases violators with
  | nil | cons => rfl

theorem verdict_returned (violators : List (Violation Party K)) :
    (verdict (.ok violators)).returned =
      if violators.isEmpty then none else some (.appAttributable, "bound violation") := by
  cases violators with
  | nil | cons => rfl

variable [DecidableEq Party]

def Withholds (r : Round Party Raw K m) (replies : List (Party × Reply Party Part))
    (sender : Party) : Prop :=
  sender ∈ r.participants ∧ ∃ checked ∈ r.participants, partialOf replies checked sender = none

theorem mem_withholdingSenders {r : Round Party Raw K m}
    {replies : List (Party × Reply Party Part)} {sender : Party} :
    sender ∈ withholdingSenders r replies ↔ Withholds r replies sender := by
  simp [withholdingSenders, Withholds]

variable [Zero K] [Sub K] [Max K] [LE K] [DecidableLE K]

def distance (b : Bound K) (value : K) : K := max 0 (max (b.lo - value) (value - b.hi))

theorem classify_ok_iff {value : K} {b : Bound K} {p : Params K} :
    (classify value b p).2 = .ok ↔ distance b value ≤ p.epsNorm := by
  unfold classify distance
  by_cases small : max 0 (max (b.lo - value) (value - b.hi)) ≤ p.epsNorm
  · simp [small]
  · simp only [small, if_false]
    split <;> simp

variable [One K] [Add K]

def fusedValue (r : Round Party Raw K m) (fuse : List Part → ℕ → Except String (List K))
    (replies : List (Party × Reply Party Part)) (checked : Party) : Option K :=
  match r.participants.mapM (partialOf replies checked) with
  | none => none
  | some partials =>
    match fuse partials 1 with
    | .ok (value :: _) => some value
    | _ => none

def OutOfBounds (r : Round Party Raw K m) (fuse : List Part → ℕ → Except String (List K))
    (replies : List (Party × Reply Party Part)) (checked : Party) : Prop :=
  checked ∈ r.participants ∧ ∃ value, fusedValue r fuse replies checked = some value ∧
    ¬ distance r.circuit.bound value ≤ r.params.epsNorm

def Clean (r : Round Party Raw K m) (fuse : List Part → ℕ → Except String (List K))
    (replies : List (Party × Reply Party Part)) : Prop :=
  (∀ sender ∈ r.participants, ∀ checked ∈ r.participants,
    ∃ part, partialOf replies checked sender = some part) ∧
  ∀ checked ∈ r.participants, ∃ value, fusedValue r fuse replies checked = some value ∧
    distance r.circuit.bound value ≤ r.params.epsNorm

structure Just (r : Round Party Raw K m) (fuse : List Part → ℕ → Except String (List K))
    (replies : List (Party × Reply Party Part)) (v : Verdict Party K) : Prop where
  returns_nil : v.returned = none ↔ Clean r fuse replies
  returns_error : ¬ Clean r fuse replies → v.returned = some (.appAttributable, "bound violation")
  once : ∀ party, Withholds r replies party ∨ OutOfBounds r fuse replies party →
    (v.calls.map Violation.party).count party = 1
  nobody_else : ∀ party, ¬ (Withholds r replies party ∨ OutOfBounds r fuse replies party) →
    (v.calls.map Violation.party).count party = 0

section

variable {label : Party → String} {unmarshal : Raw → Except String (Reply Party Part)}
  {r : Round Party Raw K m} {fuse : List Part → ℕ → Except String (List K)}
  {replies : List (Party × Reply Party Part)}

def Fuses (fuse : List Part → ℕ → Except String (List K)) : Prop :=
  ∀ partials, ∃ value values, fuse partials 1 = .ok (value :: values)

def numeric (r : Round Party Raw K m) (fuse : List Part → ℕ → Except String (List K))
    (replies : List (Party × Reply Party Part)) (checked : Party) : Option (Violation Party K) :=
  (fusedValue r fuse replies checked).bind fun value =>
    let (nu, sev) := classify value r.circuit.bound r.params
    if sev = .ok then none else some ⟨checked, nu, sev⟩

theorem checkParty_eq (fuses : Fuses fuse) (checked : Party) :
    checkParty label r fuse replies checked = .ok (numeric r fuse replies checked) := by
  unfold checkParty numeric fusedValue
  cases quorum : r.participants.mapM (partialOf replies checked) with
  | none => rfl
  | some partials =>
    obtain ⟨value, values, fused⟩ := fuses partials
    simp only [fused]
    rfl

theorem numeric_party {checked : Party} {v : Violation Party K}
    (found : numeric r fuse replies checked = some v) : v.party = checked := by
  obtain ⟨value, -, here⟩ := Option.bind_eq_some_iff.mp found
  dsimp only at here
  split at here
  · cases here
  · cases here
    rfl

theorem numeric_isSome_iff {checked : Party} :
    (numeric r fuse replies checked).isSome ↔ ∃ value,
      fusedValue r fuse replies checked = some value ∧
        ¬ distance r.circuit.bound value ≤ r.params.epsNorm := by
  unfold numeric
  cases fusedValue r fuse replies checked with
  | none => simp
  | some value =>
    simp only [Option.bind_some, ← classify_ok_iff]
    split
    · simp [*]
    · simp [*]

theorem numeric_parties (parties : List Party) :
    ((parties.map (numeric r fuse replies)).reduceOption).map Violation.party =
      parties.filter fun checked => (numeric r fuse replies checked).isSome := by
  induction parties with
  | nil => rfl
  | cons checked rest ih =>
    cases found : numeric r fuse replies checked with
    | none =>
      simp [found, ih]
    | some v =>
      simp [found, ih, numeric_party found]

theorem exit_eq (decoded : r.rawPartials.mapM (decodeReply label unmarshal) = .ok replies)
    (fuses : Fuses fuse) : exit label unmarshal r (some fuse) =
      .ok ((r.participants.map (numeric r fuse replies)).reduceOption ++
        (withholdingSenders r replies).map fun sender =>
          ⟨sender, r.params.nuHard + 1, .hard⟩) := by
  have checked : r.participants.mapM (checkParty label r fuse replies) =
      .ok (r.participants.map (numeric r fuse replies)) :=
    mapM_of_forall fun party _ => checkParty_eq fuses party
  simp only [exit, decoded, checked, bind, Except.bind]
  rfl

theorem count_calls (nodup : r.participants.Nodup)
    (decoded : r.rawPartials.mapM (decodeReply label unmarshal) = .ok replies)
    (fuses : Fuses fuse) (party : Party) [Decidable (OutOfBounds r fuse replies party)]
    [Decidable (Withholds r replies party)] :
    ((verdict (exit label unmarshal r (some fuse))).calls.map Violation.party).count party =
      (if OutOfBounds r fuse replies party then 1 else 0) +
        if Withholds r replies party then 1 else 0 := by
  have numbered : ((r.participants.map (numeric r fuse replies)).reduceOption.map
      Violation.party).count party = if OutOfBounds r fuse replies party then 1 else 0 := by
    rw [numeric_parties, (nodup.filter _).count]
    apply if_congr _ rfl rfl
    rw [mem_filter, numeric_isSome_iff, OutOfBounds]
  have withheld : (withholdingSenders r replies).count party =
      if Withholds r replies party then 1 else 0 := by
    have single : (withholdingSenders r replies).Nodup := nodup_dedup _
    rw [single.count]
    exact if_congr mem_withholdingSenders rfl rfl
  rw [exit_eq decoded fuses, verdict_calls, map_append, count_append, numbered,
    map_map]
  congr 1
  rw [← withheld]
  exact congrArg (List.count party) (map_id _)

theorem clean_iff (fuses : Fuses fuse) : Clean r fuse replies ↔
    ∀ party, ¬ Withholds r replies party ∧ ¬ OutOfBounds r fuse replies party := by
  constructor
  · rintro ⟨supplied, within⟩ party
    constructor
    · rintro ⟨present, checked, mem, missing⟩
      obtain ⟨part, given⟩ := supplied party present checked mem
      rw [missing] at given
      cases given
    · rintro ⟨present, value, fused, outside⟩
      obtain ⟨value', fused', inside⟩ := within party present
      rw [fused] at fused'
      cases fused'
      exact outside inside
  · intro none
    have supplied : ∀ sender ∈ r.participants, ∀ checked ∈ r.participants,
        ∃ part, partialOf replies checked sender = some part := by
      intro sender present checked mem
      apply Option.ne_none_iff_exists'.mp
      intro missing
      exact (none sender).1 ⟨present, checked, mem, missing⟩
    refine ⟨supplied, ?_⟩
    intro checked mem
    obtain ⟨partials, quorum⟩ := exists_mapM_some
      fun sender present =>
        Option.isSome_iff_exists.mpr (supplied sender present checked mem)
    obtain ⟨value, values, fused⟩ := fuses partials
    have reached : fusedValue r fuse replies checked = some value := by
      simp only [fusedValue, quorum, fused]
    refine ⟨value, reached, ?_⟩
    by_contra outside
    exact (none checked).2 ⟨mem, value, reached, outside⟩

theorem violators_nil_iff (fuses : Fuses fuse) :
    (r.participants.map (numeric r fuse replies)).reduceOption ++
        ((withholdingSenders r replies).map fun sender =>
          (⟨sender, r.params.nuHard + 1, .hard⟩ : Violation Party K)) = [] ↔
      Clean r fuse replies := by
  rw [clean_iff fuses, append_eq_nil_iff, map_eq_nil_iff,
    ← map_eq_nil_iff, numeric_parties, filter_eq_nil_iff,
    eq_nil_iff_forall_not_mem]
  simp only [mem_withholdingSenders, numeric_isSome_iff]
  constructor
  · rintro ⟨inside, supplied⟩ party
    exact ⟨supplied party, fun ⟨present, outside⟩ => inside party present outside⟩
  · intro none
    exact ⟨fun party present outside => (none party).2 ⟨present, outside⟩,
      fun party => (none party).1⟩

end

/-- The verdict is just, with every violator reported once and nobody else, exactly when no
participant both withholds a partial and has a complete check that is out of bounds. -/
theorem exit_verdict_iff {label : Party → String}
    {unmarshal : Raw → Except String (Reply Party Part)} {r : Round Party Raw K m}
    {fuse : List Part → ℕ → Except String (List K)} {replies : List (Party × Reply Party Part)}
    (nodup : r.participants.Nodup)
    (decoded : r.rawPartials.mapM (decodeReply label unmarshal) = .ok replies)
    (fuses : Fuses fuse) :
    Just r fuse replies (verdict (exit label unmarshal r (some fuse))) ↔
      ∀ party, ¬ (Withholds r replies party ∧ OutOfBounds r fuse replies party) := by
  classical
  have count := count_calls nodup decoded fuses
  constructor
  · rintro just party ⟨withholds, outside⟩
    have once := just.once party (.inl withholds)
    rw [count, if_pos outside, if_pos withholds] at once
    cases once
  · intro apart
    have empty : _ ↔ Clean r fuse replies := violators_nil_iff fuses
    constructor
    · rw [exit_eq decoded fuses, verdict_returned, ← empty]
      simp
    · intro dirty
      rw [exit_eq decoded fuses, verdict_returned, if_neg]
      rwa [List.isEmpty_iff, empty]
    · intro party violates
      rw [count]
      rcases violates with withholds | outside
      · rw [if_pos withholds, if_neg fun outside => apart party ⟨withholds, outside⟩]
      · rw [if_pos outside, if_neg fun withholds => apart party ⟨withholds, outside⟩]
    · intro party neither
      rw [count, if_neg fun outside => neither (.inr outside),
        if_neg fun withholds => neither (.inl withholds)]

def twoParties (fromA fromB : Reply String ℤ) : Round String (Reply String ℤ) ℤ 1 where
  circuit := .distance [0, 0] 0 1
  params := ⟨0, 5⟩
  inputDim := some 2
  encryptedInputs := none
  participants := ["a", "b"]
  rawPartials := [("a", fromA), ("b", fromB)]

def sum (partials : List ℤ) (_ : ℕ) : Except String (List ℤ) := .ok [partials.sum]

theorem sum_fuses : Fuses sum := fun partials => ⟨partials.sum, [], rfl⟩

def onlyFor (checked : String) (part : ℤ) : Reply String ℤ :=
  fun party => if party = checked then some part else none

theorem exit_verdict_iff_apart :
    let r := twoParties (fun _ => some 4) (onlyFor "a" 4)
    let v := verdict (exit id .ok r (some sum))
    Just r sum r.rawPartials v ∧
      v.calls = [⟨"a", 7, .hard⟩, ⟨"b", 6, .hard⟩] := by
  refine ⟨(exit_verdict_iff (by decide) rfl sum_fuses).mpr ?_, by decide +kernel⟩
  rintro party ⟨⟨present, checked, mem, missing⟩, -, value, fused, -⟩
  fin_cases present
  · fin_cases mem <;> cases missing
  · cases fused

/-- A party that withholds its partial for the other and is itself out of bounds is reported
twice. -/
theorem reported_twice :
    let r := twoParties (onlyFor "a" 4) (fun _ => some 4)
    let v := verdict (exit id .ok r (some sum))
    r.participants.Nodup ∧ r.rawPartials.mapM (decodeReply id .ok) = .ok r.rawPartials ∧
      v = ⟨[⟨"a", 7, .hard⟩, ⟨"a", 6, .hard⟩], some (.appAttributable, "bound violation")⟩ ∧
      ¬ Just r sum r.rawPartials v := by
  intro r v
  have calls : v = ⟨[⟨"a", 7, .hard⟩, ⟨"a", 6, .hard⟩],
      some (.appAttributable, "bound violation")⟩ := by decide +kernel
  refine ⟨by decide, rfl, calls, ?_⟩
  intro just
  have once := just.once "a" (.inl ⟨by decide, "b", by decide, rfl⟩)
  cases once

end BoundVerdicts
