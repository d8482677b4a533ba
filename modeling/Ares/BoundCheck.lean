import Ares.CyclicSlots
import Ares.FallibleLists
import Ares.MachineIntegers
import Ares.PhasePipelines

/-! The two squared-magnitude circuits of the bound-check phase over exact slot vectors, and the
phase around them: `Enter` evaluates the circuit on every submitted ciphertext, `Exit` fuses the
partial decrypts and classifies each value against the bound. -/

namespace BoundCheck

open CyclicSlots FallibleLists MachineIntegers PhasePipelines List Finset

section

variable {K : Type} {m : ℕ}

structure Bound (K : Type) where
  lo : K
  hi : K

inductive BoundCircuit (K : Type) where
  | norm (eps : K) (nDim : ℤ)
  | distance (center : List K) (lo hi : K)

namespace BoundCircuit

def dim : BoundCircuit K → ℤ
  | .norm _ nDim => nDim
  | .distance center _ _ => center.length

def center : BoundCircuit K → List K
  | .norm .. => []
  | .distance center _ _ => center

def bound [One K] [Add K] [Sub K] : BoundCircuit K → Bound K
  | .norm eps _ => ⟨1 - eps, 1 + eps⟩
  | .distance _ lo hi => ⟨lo, hi⟩

end BoundCircuit

def packed [Zero K] (m : ℕ) (vals : List K) : ZMod m → K := fun s => vals.getD s.val 0

def evalSubConst [Zero K] [Sub K] (ct : ZMod m → K) (vals : List K) : Except String (ZMod m → K) :=
  if vals.length = 0 then .error "fhecalib: encrypt center: values are required"
  else if m < vals.length then .error "fhecalib: encrypt center: contract encryption failed"
  else .ok (ct - packed m vals)

def evalSum [AddCommMonoid K] (ct : ZMod m → K) (n : ℤ) : ZMod m → K :=
  window (2 ^ Nat.clog 2 (if 0 < n then n.toNat else m)) ct

def evalProductSum [NonUnitalNonAssocSemiring K] (left right : ZMod m → K) (nSlots : ℤ) :
    Except String (ZMod m → K) :=
  if nSlots ≤ 0 then .error "nSlots must be positive"
  else .ok (evalSum (left * right) (int32 nSlots))

def BoundCircuit.eval [NonUnitalNonAssocRing K] (c : BoundCircuit K) (ct : ZMod m → K) :
    Except String (ZMod m → K) :=
  match c with
  | .norm _ nDim => evalProductSum ct ct nDim
  | .distance center _ _ => do
    let shifted ← evalSubConst ct center
    evalProductSum shifted shifted center.length

def BoundCircuit.squared [Ring K] (c : BoundCircuit K) (x : ZMod m → K) : K :=
  ∑ t ∈ Finset.range c.dim.toNat, (x t - c.center.getD t 0) ^ 2

def BoundCircuit.TailZero [Ring K] (c : BoundCircuit K) (x : ZMod m → K) : Prop :=
  ∀ t : ℕ, c.dim.toNat ≤ t → t < 2 ^ Nat.clog 2 c.dim.toNat → (x - packed m c.center) t = 0

end

section

variable {K : Type} {m : ℕ} {c : BoundCircuit K}

@[simp] theorem packed_nil [Zero K] : packed m ([] : List K) = 0 := by
  funext s
  simp [packed]

theorem evalSum_of_dim [AddCommMonoid K] (word : m ≤ 2 ^ 31) {n : ℤ} (pos : 0 < n)
    (fits : n ≤ m) (ct : ZMod m → K) :
    evalSum ct (int32 n) = window (2 ^ Nat.clog 2 n.toNat) ct := by
  rcases lt_or_eq_of_le (show n ≤ 2 ^ 31 by omega) with small | top
  · rw [int32_of_inInt32 ⟨by omega, small⟩, evalSum, if_pos pos]
  · -- the count wraps to a negative word and the batch size, which is the same, takes its place
    have batch : m = n.toNat := by omega
    have negative : int32 n < 0 := by
      rw [int32_of_overflow top.ge (by omega)]
      omega
    rw [evalSum, if_neg (by omega), ← batch]

theorem eval_eq [Ring K] (word : m ≤ 2 ^ 31) (two : 2 ≤ c.dim) (fits : c.dim ≤ m) (x : ZMod m → K) :
    c.eval x = .ok (window (2 ^ Nat.clog 2 c.dim.toNat)
      ((x - packed m c.center) * (x - packed m c.center))) := by
  cases c with
  | norm eps nDim =>
    simp only [BoundCircuit.dim] at two fits
    simp only [BoundCircuit.eval, BoundCircuit.center, BoundCircuit.dim, packed_nil, sub_zero]
    rw [evalProductSum, if_neg (by omega), evalSum_of_dim word (by omega) fits]
  | distance center lo hi =>
    simp only [BoundCircuit.dim] at two fits
    have shifted : evalSubConst x center = .ok (x - packed m center) := by
      rw [evalSubConst, if_neg (by omega), if_neg (by omega)]
    simp only [BoundCircuit.eval, BoundCircuit.center, BoundCircuit.dim, shifted, bind,
      Except.bind]
    rw [evalProductSum, if_neg (by omega), evalSum_of_dim word (by omega) fits]

theorem window_dim [Ring K] (fits : c.dim ≤ m) (x : ZMod m → K) :
    window c.dim.toNat ((x - packed m c.center) * (x - packed m c.center)) 0 = c.squared x := by
  apply sum_congr rfl
  intro t mem
  have below : t < m := by
    have := Finset.mem_range.mp mem
    omega
  rw [zero_add, Pi.mul_apply, Pi.sub_apply, packed, ZMod.val_natCast_of_lt below, sq]

theorem value_eq_iff [Field K] [LinearOrder K] [IsStrictOrderedRing K]
    (fits : c.dim ≤ m) (x : ZMod m → K) :
    window (2 ^ Nat.clog 2 c.dim.toNat)
        ((x - packed m c.center) * (x - packed m c.center)) 0 = c.squared x ↔ c.TailZero x := by
  have le : c.dim.toNat ≤ 2 ^ Nat.clog 2 c.dim.toNat := Nat.le_pow_clog (by omega) _
  rw [window_of_le le, window_dim fits, add_eq_left,
    sum_eq_zero_iff_of_nonneg fun t _ => by
      exact mul_self_nonneg _]
  simp only [mem_Ico, zero_add, Pi.mul_apply, mul_self_eq_zero, and_imp]
  rfl

end

section

inductive Severity where
  | ok | soft | hard
  deriving DecidableEq

structure Params (K : Type) where
  epsNorm : K
  nuHard : K

structure Violation (Party K : Type) where
  party : Party
  nu : K
  sev : Severity
  deriving DecidableEq

variable {K : Type}

def classify [Zero K] [Sub K] [Max K] [LE K] [DecidableLE K] (value : K) (b : Bound K)
    (p : Params K) : K × Severity :=
  let nu := max 0 (max (b.lo - value) (value - b.hi))
  if nu ≤ p.epsNorm then (nu, .ok) else if nu ≤ p.nuHard then (nu, .soft) else (nu, .hard)

theorem within_of_classify [Field K] [LinearOrder K] [IsStrictOrderedRing K] {value : K}
    {b : Bound K} {p : Params K} (ok : (classify value b p).2 = .ok) :
    b.lo - p.epsNorm ≤ value ∧ value ≤ b.hi + p.epsNorm := by
  have small : max 0 (max (b.lo - value) (value - b.hi)) ≤ p.epsNorm := by
    by_contra large
    rw [classify] at ok
    simp only [if_neg large] at ok
    split at ok <;> cases ok
  obtain ⟨-, low, high⟩ := by simpa only [max_le_iff] using small
  constructor
  · linarith
  · linarith

variable {Party Raw Part : Type} {m : ℕ}

/-- What the session context holds for one round of the phase. The accumulated replies are still the
bytes that were sent. -/
structure Round (Party Raw K : Type) (m : ℕ) where
  circuit : BoundCircuit K
  params : Params K
  inputDim : Option ℤ
  encryptedInputs : Option (List (Party × (ZMod m → K)))
  participants : List Party
  rawPartials : List (Party × Raw)

abbrev PhaseError := Sentinel × String

def checkInput [NonUnitalNonAssocRing K] (label : Party → String) (c : BoundCircuit K)
    (input : Party × (ZMod m → K)) : Except PhaseError (Party × (ZMod m → K)) :=
  match c.eval input.2 with
  | .error e =>
    .error (.transient, "boundcheck: eval circuit for party " ++ label input.1 ++ ": " ++ e)
  | .ok check => .ok (input.1, check)

def enter [NonUnitalNonAssocRing K] (label : Party → String) (r : Round Party Raw K m)
    (handle : Bool) : Except PhaseError (Option (List (Party × (ZMod m → K)))) :=
  match r.inputDim with
  | none => .error (.permanent, "boundcheck: context key \"boundcheck.input_dim\" not set")
  | some dim =>
    if dim < 2 then
      .error (.permanent, "boundcheck: input dim " ++ toString dim ++
        " < 2; scalar bounds need a Class-2 comparison circuit")
    else if dim ≠ r.circuit.dim then
      .error (.permanent, "boundcheck: CtxInputDim " ++ toString dim ++ " != circuit dim " ++
        toString r.circuit.dim)
    else if !handle then .ok none
    else
      match r.encryptedInputs with
      | none =>
        .error (.permanent, "boundcheck: context key \"boundcheck.encrypted_inputs\" not set")
      | some inputs => (inputs.mapM (checkInput label r.circuit)).map some

abbrev Reply (Party Part : Type) := Party → Option Part

def decodeReply (label : Party → String) (unmarshal : Raw → Except String (Reply Party Part))
    (raw : Party × Raw) : Except PhaseError (Party × Reply Party Part) :=
  match unmarshal raw.2 with
  | .error e =>
    .error (.transient, "boundcheck: decode partial map from " ++ label raw.1 ++ ": " ++ e)
  | .ok reply => .ok (raw.1, reply)

variable [DecidableEq Party]

def partialOf (replies : List (Party × Reply Party Part)) (checked sender : Party) : Option Part :=
  (replies.lookup sender).bind fun reply => reply checked

variable [Zero K] [One K] [Add K] [Sub K] [Max K] [LE K] [DecidableLE K] in
def checkParty (label : Party → String) (r : Round Party Raw K m)
    (fuse : List Part → ℕ → Except String (List K)) (replies : List (Party × Reply Party Part))
    (checked : Party) : Except PhaseError (Option (Violation Party K)) :=
  match r.participants.mapM (partialOf replies checked) with
  | none => .ok none
  | some partials =>
    match fuse partials 1 with
    | .error e =>
      .error (.transient, "boundcheck: fuse partials for checked party " ++ label checked ++
        ": " ++ e)
    | .ok [] =>
      .error (.transient, "boundcheck: fuse returned no values for checked party " ++
        label checked)
    | .ok (value :: _) =>
      let (nu, sev) := classify value r.circuit.bound r.params
      .ok (if sev = .ok then none else some ⟨checked, nu, sev⟩)

def withholdingSenders (r : Round Party Raw K m) (replies : List (Party × Reply Party Part)) :
    List Party :=
  (r.participants.filter fun sender =>
    r.participants.any fun checked => (partialOf replies checked sender).isNone).dedup

variable [Zero K] [One K] [Add K] [Sub K] [Max K] [LE K] [DecidableLE K] in
/-- `Exit`. The violators are handed to the handler, and unless there are none the session aborts
with `bound violation`. -/
def exit (label : Party → String) (unmarshal : Raw → Except String (Reply Party Part))
    (r : Round Party Raw K m) (fuse : Option (List Part → ℕ → Except String (List K))) :
    Except PhaseError (List (Violation Party K)) :=
  match fuse with
  | none => .ok []
  | some fuse => do
    let replies ← r.rawPartials.mapM (decodeReply label unmarshal)
    let found ← r.participants.mapM (checkParty label r fuse replies)
    return found.reduceOption ++ (withholdingSenders r replies).map fun sender =>
      ⟨sender, r.params.nuHard + 1, .hard⟩

def Decrypts (label : Party → String) (unmarshal : Raw → Except String (Reply Party Part))
    (r : Round Party Raw K m) (fuse : List Part → ℕ → Except String (List K))
    (checks : List (Party × (ZMod m → K))) : Prop :=
  ∀ replies party check partials, r.rawPartials.mapM (decodeReply label unmarshal) = .ok replies →
    (party, check) ∈ checks → r.participants.mapM (partialOf replies party) = some partials →
    fuse partials 1 = .ok [check 0]

end

section

variable {K : Type} [Field K] [LinearOrder K] {Party Raw Part : Type} [DecidableEq Party] {m : ℕ}
  {label : Party → String} {unmarshal : Raw → Except String (Reply Party Part)}
  {r : Round Party Raw K m} {fuse : List Part → ℕ → Except String (List K)} {party : Party}

omit [LinearOrder K] [DecidableEq Party] in
theorem mem_checks {inputs checks : List (Party × (ZMod m → K))}
    {x check : ZMod m → K} (given : r.encryptedInputs = some inputs)
    (entered : enter label r true = .ok (some checks)) (mem : (party, x) ∈ inputs)
    (evaluated : r.circuit.eval x = .ok check) : (party, check) ∈ checks := by
  have mapped : inputs.mapM (checkInput label r.circuit) = .ok checks := by
    simp only [enter, given, Bool.not_true, Bool.false_eq_true, if_false] at entered
    split at entered
    · cases entered
    · split_ifs at entered
      cases all : inputs.mapM (checkInput label r.circuit) with
      | error e =>
        rw [all] at entered
        cases entered
      | ok out =>
        rw [all] at entered
        cases entered
        rfl
  obtain ⟨out, mem, here⟩ := exists_right (forall₂_of_mapM_iff.mp mapped) mem
  rw [checkInput, evaluated] at here
  cases here
  exact mem

theorem exit_ok (passed : exit label unmarshal r (some fuse) = .ok []) :
    ∃ replies, r.rawPartials.mapM (decodeReply label unmarshal) = .ok replies ∧
      withholdingSenders r replies = [] ∧
      ∀ party ∈ r.participants, checkParty label r fuse replies party = .ok none := by
  simp only [exit] at passed
  cases decoded : r.rawPartials.mapM (decodeReply label unmarshal) with
  | error e =>
    rw [decoded] at passed
    cases passed
  | ok replies =>
    cases checked : r.participants.mapM (checkParty label r fuse replies) with
    | error e =>
      simp only [decoded, bind, Except.bind, checked] at passed
      cases passed
    | ok found =>
      simp only [decoded, bind, Except.bind, checked, pure, Except.pure, Except.ok.injEq,
        append_eq_nil_iff, map_eq_nil_iff] at passed
      refine ⟨replies, rfl, passed.2, ?_⟩
      intro party mem
      obtain ⟨v, mem, here⟩ := exists_right (forall₂_of_mapM_iff.mp checked) mem
      cases v with
      | none => exact here
      | some v =>
        have listed := reduceOption_mem_iff.mpr mem
        rw [passed.1] at listed
        cases listed

omit [Field K] [LinearOrder K] in
theorem quorum_complete {replies : List (Party × Reply Party Part)}
    (none_withheld : withholdingSenders r replies = []) (mem : party ∈ r.participants) :
    ∃ partials, r.participants.mapM (partialOf replies party) = some partials := by
  apply exists_mapM_some
  intro sender present
  by_contra missing
  have listed : sender ∈ withholdingSenders r replies := by
    rw [withholdingSenders, mem_dedup, mem_filter, any_eq_true]
    exact ⟨present, party, mem, by simpa using missing⟩
  rw [none_withheld] at listed
  cases listed

theorem accepted_within [IsStrictOrderedRing K] {checks : List (Party × (ZMod m → K))}
    {check : ZMod m → K} (decrypts : Decrypts label unmarshal r fuse checks)
    (passed : exit label unmarshal r (some fuse) = .ok []) (mem : party ∈ r.participants)
    (checked : (party, check) ∈ checks) :
    r.circuit.bound.lo - r.params.epsNorm ≤ check 0 ∧
      check 0 ≤ r.circuit.bound.hi + r.params.epsNorm := by
  obtain ⟨replies, decoded, complete, clean⟩ := exit_ok passed
  obtain ⟨partials, quorum⟩ := quorum_complete complete mem
  have value := decrypts replies party check partials decoded checked quorum
  have here := clean party mem
  rw [checkParty, quorum] at here
  simp only [value] at here
  apply within_of_classify
  by_contra violated
  rw [if_neg violated] at here
  cases here

/-- The bound check against arbitrary ciphertexts: the decrypted value is the squared distance of
the submitted vector exactly when the slots that the rounded window has in addition hold nothing,
and a party whose ciphertext is such passes only with an input inside the bound. -/
theorem bound_check_sound [IsStrictOrderedRing K] (word : m ≤ 2 ^ 31) (two : 2 ≤ r.circuit.dim)
    (fits : r.circuit.dim ≤ m) (x : ZMod m → K) :
    (∃ check, r.circuit.eval x = .ok check ∧
      (check 0 = r.circuit.squared x ↔ r.circuit.TailZero x)) ∧
    ∀ (label : Party → String) (unmarshal : Raw → Except String (Reply Party Part))
      (fuse : List Part → ℕ → Except String (List K)) (inputs checks : List (Party × (ZMod m → K)))
      (party : Party), r.encryptedInputs = some inputs → enter label r true = .ok (some checks) →
      Decrypts label unmarshal r fuse checks → exit label unmarshal r (some fuse) = .ok [] →
      party ∈ r.participants → (party, x) ∈ inputs → r.circuit.TailZero x →
      r.circuit.bound.lo - r.params.epsNorm ≤ r.circuit.squared x ∧
        r.circuit.squared x ≤ r.circuit.bound.hi + r.params.epsNorm := by
  have evaluated := eval_eq word two fits x
  have value := value_eq_iff fits x
  refine ⟨⟨_, evaluated, value⟩, ?_⟩
  intro label unmarshal fuse inputs checks party given entered decrypts passed present
    submitted tail
  have checked := mem_checks given entered submitted evaluated
  have within := accepted_within decrypts passed present checked
  rwa [value.mpr tail] at within

def lone (x : ZMod 4 → ℚ) : Round String (ZMod 4 → ℚ) ℚ 4 where
  circuit := .norm (1 / 100) 3
  params := ⟨1 / 100, 5 / 4⟩
  inputDim := some 3
  encryptedInputs := some [("p", x)]
  participants := ["p"]
  rawPartials := [("p", evalSum (x * x) 3)]

def loneReply (check : ZMod 4 → ℚ) : Except String (Reply String (ZMod 4 → ℚ)) :=
  .ok fun _ => some check

def loneFuse (partials : List (ZMod 4 → ℚ)) (_ : ℕ) : Except String (List ℚ) :=
  .ok (partials.map fun check => check 0)

theorem lone_decrypts (x : ZMod 4 → ℚ) :
    Decrypts id loneReply (lone x) loneFuse [("p", evalSum (x * x) 3)] := by
  intro replies party check partials decoded mem quorum
  obtain rfl : [("p", fun _ => some (evalSum (x * x) 3))] = replies := Except.ok.inj decoded
  rw [List.mem_singleton, Prod.mk.injEq] at mem
  obtain ⟨rfl, rfl⟩ := mem
  obtain rfl : [evalSum (x * x) 3] = partials := Option.some.inj quorum
  rfl

/-- A slot behind the three dimensions makes up what the norm lacks. -/
theorem fourth_slot_fills_norm :
    enter id (lone ![3 / 5, 0, 0, 4 / 5]) true =
        .ok (some [("p", evalSum (![3 / 5, 0, 0, 4 / 5] * ![3 / 5, 0, 0, 4 / 5]) 3)]) ∧
      Decrypts id loneReply (lone ![3 / 5, 0, 0, 4 / 5]) loneFuse
        [("p", evalSum (![3 / 5, 0, 0, 4 / 5] * ![3 / 5, 0, 0, 4 / 5]) 3)] ∧
      exit id loneReply (lone ![3 / 5, 0, 0, 4 / 5]) (some loneFuse) = .ok [] ∧
      evalSum (m := 4) (![3 / 5, 0, 0, 4 / 5] * ![3 / 5, 0, 0, 4 / 5] : Fin 4 → ℚ) 3 0 = 1 ∧
      (lone ![3 / 5, 0, 0, 4 / 5]).circuit.squared (m := 4) ![3 / 5, 0, 0, 4 / 5] = 9 / 25 := by
  refine ⟨rfl, lone_decrypts _, by decide +kernel, by decide +kernel, by decide +kernel⟩

theorem bound_check_sound_three :
    (lone ![3 / 5, 4 / 5, 0, 0]).circuit.TailZero (m := 4) ![3 / 5, 4 / 5, 0, 0] ∧
      exit id loneReply (lone ![3 / 5, 4 / 5, 0, 0]) (some loneFuse) = .ok [] ∧
      (49 / 50 : ℚ) ≤ (lone ![3 / 5, 4 / 5, 0, 0]).circuit.squared (m := 4) ![3 / 5, 4 / 5, 0, 0] ∧
      (lone ![3 / 5, 4 / 5, 0, 0]).circuit.squared (m := 4) ![3 / 5, 4 / 5, 0, 0] ≤ 51 / 50 := by
  have tail : (lone ![3 / 5, 4 / 5, 0, 0]).circuit.TailZero (m := 4) ![3 / 5, 4 / 5, 0, 0] := by
    intro t low high
    have last : t = 3 := by
      have width : 2 ^ Nat.clog 2 (Int.toNat 3) = 4 := by decide +kernel
      simp only [lone, BoundCircuit.dim] at low high
      omega
    rw [last]
    decide +kernel
  have passed : exit id loneReply (lone ![3 / 5, 4 / 5, 0, 0]) (some loneFuse) = .ok [] := by
    decide +kernel
  have within := (bound_check_sound (by decide) (by decide)
    (by decide) ![3 / 5, 4 / 5, 0, 0]).2 id loneReply loneFuse _ _ "p" rfl rfl (lone_decrypts _)
    passed (by decide) (by simp) tail
  refine ⟨tail, passed, ?_, ?_⟩
  · have low := within.1
    norm_num [lone, BoundCircuit.bound] at low ⊢
    linarith
  · have high := within.2
    norm_num [lone, BoundCircuit.bound] at high ⊢
    linarith

end

end BoundCheck
