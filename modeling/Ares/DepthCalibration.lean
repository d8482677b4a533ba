import Ares.ConstraintValues

/-! The depth search of the calibrator. The counter of its loop is a word of thirty-two bits, and
the loop goes on while it is at most the last depth. -/

namespace DepthCalibration

open ConstraintValues

def lt (x y : GoFloat) : Bool :=
  match x.value, y.value with
  | some x, some y => x < y
  | _, _ => false

theorem lt_trans {x y z : GoFloat} (first : lt x y) (second : lt y z) : lt x z := by
  unfold lt at *
  split at first <;> split at second <;> simp_all
  exact first.trans second

structure CalibrationParams where
  scalingModSize : ℤ
  ringDim : UInt32
  startDepth : UInt32
  maxDepth : UInt32
  tolerance : GoFloat

structure CalibrationResult where
  circuit : String := ""
  depth : UInt32 := 0
  scalingModSize : ℤ
  ringDim : UInt32
  achievedAbsError : GoFloat := .posInf
  passed : Bool := false
  deriving DecidableEq

inductive SweepErr where
  | run (depth : UInt32) (err : String)
  | modulusCap (depth : UInt32)
  deriving DecidableEq

def SweepErr.text : SweepErr → String
  | .run depth err => "fhecalib: run at depth " ++ toString depth.toNat ++ ": " ++ err
  | .modulusCap depth =>
    "fhecalib: depth requires modulus exceeding RingDim cap (at depth " ++
      toString depth.toNat ++ ")"

structure DepthRun where
  absErr : GoFloat
  modulusCapHit : Bool := false
  err : Option String := none

variable (p : CalibrationParams) (runAtDepth : UInt32 → DepthRun)

/-- One turn of the loop: the result to go on with, or what is returned. -/
def turn (depth : UInt32) (res : CalibrationResult) :
    CalibrationResult ⊕ CalibrationResult × Option SweepErr :=
  let got := runAtDepth depth
  match got.err with
  | some e => .inr (res, some (.run depth e))
  | none =>
    if got.modulusCapHit then .inr (res, some (.modulusCap depth))
    else
      let res := if lt got.absErr res.achievedAbsError then
        { res with achievedAbsError := got.absErr } else res
      if p.tolerance.ge got.absErr then .inr ({ res with depth := depth, passed := true }, none)
      else .inl res

/-- The loop, where `n` runs can be made; without a result when these are not enough. -/
def sweepFrom (n : ℕ) (depth : UInt32) (res : CalibrationResult) :
    Option (CalibrationResult × Option SweepErr) :=
  if depth ≤ p.maxDepth then
    match n with
    | 0 => none
    | n + 1 => (turn p runAtDepth depth res).elim (sweepFrom n (depth + 1)) some
  else some (res, none)

def sweep (n : ℕ) : Option (CalibrationResult × Option SweepErr) :=
  sweepFrom p runAtDepth n p.startDepth
    { scalingModSize := p.scalingModSize, ringDim := p.ringDim }

def depths : ℕ := p.maxDepth.toNat + 1 - p.startDepth.toNat

def InRange (d : UInt32) : Prop := p.startDepth ≤ d ∧ d ≤ p.maxDepth

def Fails (d : UInt32) : Prop :=
  (runAtDepth d).err.isSome = true ∨ (runAtDepth d).modulusCapHit = true

def Passes (d : UInt32) : Prop :=
  ¬ Fails runAtDepth d ∧ p.tolerance.ge (runAtDepth d).absErr = true

def Stops (d : UInt32) : Prop := Fails runAtDepth d ∨ Passes p runAtDepth d

def First (d : UInt32) : Prop :=
  InRange p d ∧ ∀ d', InRange p d' → d' < d → ¬ Stops p runAtDepth d'

/-- The error of a depth below `bound`, or infinity, and none of these errors is smaller. -/
structure Smallest (bound : ℕ) (e : GoFloat) : Prop where
  seen : e = .posInf ∨ ∃ d, InRange p d ∧ d.toNat < bound ∧ (runAtDepth d).absErr = e
  le : ∀ d, InRange p d → d.toNat < bound → lt (runAtDepth d).absErr e = false

/-- What the search is to return; of the three conditions exactly one holds. -/
inductive Finds : CalibrationResult × Option SweepErr → Prop where
  | failed {d res e} (first : First p runAtDepth d) (fails : Fails runAtDepth d) :
    Finds (res, some e)
  | passed {d} {res : CalibrationResult} (first : First p runAtDepth d)
    (passes : Passes p runAtDepth d) : Finds ({ res with depth := d, passed := true }, none)
  | exhausted {res : CalibrationResult} (never : ∀ d, InRange p d → ¬ Stops p runAtDepth d)
    (failed : res.passed = false)
    (smallest : Smallest p runAtDepth (p.maxDepth.toNat + 1) res.achievedAbsError) :
    Finds (res, none)

theorem turn_spec (depth : UInt32) (res : CalibrationResult) :
    (∃ res', turn p runAtDepth depth res = .inl res' ∧ ¬ Stops p runAtDepth depth ∧
      res'.passed = res.passed ∧ res'.achievedAbsError =
        if lt (runAtDepth depth).absErr res.achievedAbsError then (runAtDepth depth).absErr
        else res.achievedAbsError) ∨
    ∃ out, turn p runAtDepth depth res = .inr out ∧ Stops p runAtDepth depth ∧
      (First p runAtDepth depth → Finds p runAtDepth out) := by
  unfold turn
  dsimp only
  split
  · next e err =>
    have fails : Fails runAtDepth depth := .inl (by simp [err])
    exact .inr ⟨_, rfl, .inl fails, fun first => .failed first fails⟩
  next err =>
  by_cases cap : (runAtDepth depth).modulusCapHit = true
  · rw [if_pos cap]
    exact .inr ⟨_, rfl, .inl (.inr cap), fun first => .failed first (.inr cap)⟩
  have clean : ¬ Fails runAtDepth depth := by simp [Fails, err, cap]
  rw [if_neg cap]
  by_cases meets : p.tolerance.ge (runAtDepth depth).absErr = true
  · rw [if_pos meets]
    exact .inr ⟨_, rfl, .inr ⟨clean, meets⟩, fun first => .passed first ⟨clean, meets⟩⟩
  · rw [if_neg meets]
    refine .inl ⟨_, rfl, fun stops => stops.elim clean fun passes => meets passes.2, ?_, ?_⟩
    all_goals split_ifs <;> rfl

variable {p runAtDepth} {n : ℕ} {depth : UInt32} {res : CalibrationResult}

theorem Smallest.next {e : GoFloat} (h : Smallest p runAtDepth depth.toNat e)
    (range : InRange p depth) : Smallest p runAtDepth (depth.toNat + 1)
      (if lt (runAtDepth depth).absErr e then (runAtDepth depth).absErr else e) := by
  have cases : ∀ d : UInt32, d.toNat < depth.toNat + 1 → d.toNat < depth.toNat ∨ d = depth := by
    intro d below
    rw [← UInt32.toNat_inj]
    omega
  split_ifs with less
  · refine ⟨.inr ⟨depth, range, by omega, rfl⟩, fun d mem below => ?_⟩
    rw [← Bool.not_eq_true]
    intro smaller
    obtain old | rfl := cases d below
    · exact Bool.false_ne_true ((h.le d mem old).symm.trans (lt_trans smaller less))
    · unfold lt at smaller
      split at smaller <;> simp_all
  · refine ⟨h.seen.imp_right ?_, fun d mem below => ?_⟩
    · rintro ⟨d, mem, below, eq⟩
      exact ⟨d, mem, by omega, eq⟩
    obtain old | rfl := cases d below
    · exact h.le d mem old
    · exact eq_false_of_ne_true less

/-- The invariant of the loop: no depth before the counter stops it, and the error kept is the
smallest of theirs. -/
theorem sweepFrom_finds (count : p.maxDepth.toNat + 1 - depth.toNat = n)
    (start : p.startDepth ≤ depth) (failed : res.passed = false)
    (before : ∀ d, InRange p d → d < depth → ¬ Stops p runAtDepth d)
    (smallest : Smallest p runAtDepth depth.toNat res.achievedAbsError)
    (ends : p.maxDepth.toNat + 1 < 2 ^ 32 ∨ ∃ d, InRange p d ∧ Stops p runAtDepth d) :
    ∃ out, sweepFrom p runAtDepth n depth res = some out ∧ Finds p runAtDepth out := by
  induction n generalizing depth res with
  | zero =>
    have past : p.maxDepth.toNat < depth.toNat := by omega
    have below : ∀ d, InRange p d → d.toNat < depth.toNat :=
      fun d range => (UInt32.le_iff_toNat_le.mp range.2).trans_lt past
    refine ⟨(res, none), ?_, .exhausted (fun d range => ?_) failed ⟨?_, fun d range _ => ?_⟩⟩
    · rw [sweepFrom, if_neg (UInt32.le_iff_toNat_le.not.mpr past.not_ge)]
    · exact before d range (UInt32.lt_iff_toNat_lt.mpr (below d range))
    · refine smallest.seen.imp_right ?_
      rintro ⟨d, range, _, eq⟩
      exact ⟨d, range, Nat.lt_succ_of_le (UInt32.le_iff_toNat_le.mp range.2), eq⟩
    · exact smallest.le d range (below d range)
  | succ n ih =>
    have within : depth ≤ p.maxDepth := UInt32.le_iff_toNat_le.mpr (by omega)
    rw [sweepFrom, if_pos within]
    obtain ⟨res', turned, goesOn, passed, achieved⟩ | ⟨out, turned, -, finds⟩ :=
      turn_spec p runAtDepth depth res
    all_goals rw [turned]
    · have before' : ∀ d, InRange p d → d ≤ depth → ¬ Stops p runAtDepth d := by
        intro d range le
        obtain lt | rfl : d < depth ∨ d = depth := by grind
        · exact before d range lt
        · exact goesOn
      have next : (depth + 1).toNat = depth.toNat + 1 := by
        have fits : depth.toNat + 1 < 2 ^ 32 := by
          obtain short | ⟨d, range, stops⟩ := ends
          · omega
          · have later := UInt32.le_iff_toNat_le.not.mp fun le => before' d range le stops
            have bound := d.toNat_lt
            omega
        exact Nat.mod_eq_of_lt fits
      refine ih (by omega) ?_ (passed.trans failed) (fun d range below => ?_) ?_
      · rw [UInt32.le_iff_toNat_le] at start ⊢
        omega
      · rw [UInt32.lt_iff_toNat_lt, next] at below
        exact before' d range (UInt32.le_iff_toNat_le.mpr (by omega))
      · rw [next, achieved]
        exact smallest.next ⟨start, within⟩
    · exact ⟨out, rfl, finds ⟨⟨start, within⟩, before⟩⟩

theorem sweepFrom_unfinished (last : p.maxDepth.toNat + 1 = 2 ^ 32)
    (never : ∀ k < n, ¬ Stops p runAtDepth (depth + UInt32.ofNat k)) :
    sweepFrom p runAtDepth n depth res = none := by
  have within : ∀ d : UInt32, d ≤ p.maxDepth := fun d => by
    have bound := d.toNat_lt
    exact UInt32.le_iff_toNat_le.mpr (by omega)
  induction n generalizing depth res with
  | zero => rw [sweepFrom, if_pos (within depth)]
  | succ n ih =>
    obtain ⟨res', turned, -⟩ | ⟨_, _, stops, _⟩ := turn_spec p runAtDepth depth res
    · rw [sweepFrom, if_pos (within depth), turned]
      refine ih fun k lt => ?_
      have same : depth + 1 + UInt32.ofNat k = depth + UInt32.ofNat (k + 1) := by
        rw [UInt32.ofNat_add, add_assoc, add_comm 1]
        rfl
      rw [same]
      exact never (k + 1) (by omega)
    · exact (never 0 n.succ_pos (by simpa using stops)).elim

/-- The sweep returns what it looks for exactly if the last depth is not the greatest word, or some
depth of the range ends it. -/
theorem sweep_finds_iff (p : CalibrationParams) (runAtDepth : UInt32 → DepthRun) :
    (∃ out, sweep p runAtDepth (depths p) = some out ∧ Finds p runAtDepth out) ↔
      p.maxDepth.toNat + 1 < 2 ^ 32 ∨ ∃ d, InRange p d ∧ Stops p runAtDepth d := by
  have nothing : ∀ d, InRange p d → ¬ d < p.startDepth := by
    unfold InRange
    grind
  constructor
  · rintro ⟨out, result, -⟩
    by_contra! endless
    have bound := p.maxDepth.toNat_lt
    have unfinished : sweep p runAtDepth (depths p) = none := by
      refine sweepFrom_unfinished (by omega) fun k lt => endless.2 _ ?_
      unfold depths at lt
      rw [InRange, UInt32.le_iff_toNat_le, UInt32.le_iff_toNat_le, UInt32.toNat_add,
        UInt32.toNat_ofNat']
      omega
    cases unfinished.symm.trans result
  · refine sweepFrom_finds rfl (by grind) rfl (fun d range below => ?_) ⟨.inl rfl, ?_⟩
    · exact (nothing d range below).elim
    · exact fun d range below => (nothing d range (UInt32.lt_iff_toNat_lt.mpr below)).elim

/-- The one depth of the range is the largest word: the counter wraps, and the search goes on. -/
theorem sweep_endless :
    let p : CalibrationParams := ⟨50, 16384, 4294967295, 4294967295, .negZero⟩
    depths p = 1 ∧ ∀ n, sweep p (fun _ => { absErr := .posInf }) n = none := by
  refine ⟨rfl, fun n => sweepFrom_unfinished rfl fun k _ stops => ?_⟩
  obtain fails | ⟨_, meets⟩ := stops
  · simp [Fails] at fails
  · have meets : GoFloat.negZero.ge .posInf = true := meets
    exact absurd meets (by decide)

end DepthCalibration
