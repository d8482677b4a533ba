import Ares.NearestRounding

/-! The dynamic values a schema may carry as constraints, as far as the checks of `Compose` look at
them: their type, the text their `%v` verb prints and, for the types `asFloat` knows, their
`float64`. -/
namespace ConstraintValues

open NearestRounding

inductive IntKind where
  | int | int8 | int16 | int32 | int64 | uint | uint8 | uint16 | uint32 | uint64 | uintptr
  deriving DecidableEq

def IntKind.name : IntKind → String
  | .int => "int"
  | .int8 => "int8"
  | .int16 => "int16"
  | .int32 => "int32"
  | .int64 => "int64"
  | .uint => "uint"
  | .uint8 => "uint8"
  | .uint16 => "uint16"
  | .uint32 => "uint32"
  | .uint64 => "uint64"
  | .uintptr => "uintptr"

def IntKind.bits : IntKind → ℕ
  | .int8 | .uint8 => 8
  | .int16 | .uint16 => 16
  | .int32 | .uint32 => 32
  | .int | .int64 | .uint | .uint64 | .uintptr => 64

def IntKind.signed : IntKind → Bool
  | .int | .int8 | .int16 | .int32 | .int64 => true
  | _ => false

def IntKind.least (k : IntKind) : ℤ := if k.signed then -2 ^ (k.bits - 1) else 0

def IntKind.greatest (k : IntKind) : ℤ := if k.signed then 2 ^ (k.bits - 1) - 1 else 2 ^ k.bits - 1

structure GoInt where
  kind : IntKind
  val : ℤ
  fits : kind.least ≤ val ∧ val ≤ kind.greatest
  deriving DecidableEq

inductive FloatKind where
  | float32 | float64
  deriving DecidableEq

def FloatKind.name : FloatKind → String
  | .float32 => "float32"
  | .float64 => "float64"

inductive GoFloat where
  | nan | negInf | posInf | negZero
  | finite (x : ℚ) (digits : x ∈ Digits 53)
  deriving DecidableEq

inductive GoNumber where
  | int (n : GoInt)
  | float (kind : FloatKind) (x : GoFloat)
  deriving DecidableEq

/-- Values of the predeclared types, of types declared over a number, and of any other type: that
type, which of its values it is, and the text it prints. -/
inductive ConstraintValue where
  | nil
  | bool (b : Bool)
  | int (n : GoInt)
  | float (kind : FloatKind) (x : GoFloat) (shown : String)
  | string (s : String)
  | named (type : String) (x : GoNumber) (shown : String)
  | other (type : String) (value : ℕ) (shown : String)
  deriving DecidableEq

def ConstraintValue.shown : ConstraintValue → String
  | .nil => "<nil>"
  | .bool b => if b then "true" else "false"
  | .int n => toString n.val
  | .float _ _ shown | .named _ _ shown | .other _ _ shown => shown
  | .string s => s

def ConstraintValue.typeName : ConstraintValue → String
  | .nil => "<nil>"
  | .bool _ => "bool"
  | .int n => n.kind.name
  | .float kind _ _ => kind.name
  | .string _ => "string"
  | .named type _ _ | .other type _ _ => type

def float64OfNat (m : ℕ) : ℕ :=
  let e := Nat.log2 m - 52
  let q := m / 2 ^ e
  let r := m % 2 ^ e
  if 2 * r > 2 ^ e ∨ (2 * r = 2 ^ e ∧ q % 2 = 1 ∧ 0 < e) then (q + 1) * 2 ^ e else q * 2 ^ e

def float64OfInt (n : ℤ) : ℤ :=
  if n < 0 then -(float64OfNat n.natAbs : ℤ) else float64OfNat n.natAbs

theorem quotient_lt (m : ℕ) : m / 2 ^ (Nat.log2 m - 52) < 2 ^ 53 := by
  rw [Nat.div_lt_iff_lt_mul (by positivity), ← pow_add]
  calc m < 2 ^ (Nat.log2 m + 1) := Nat.lt_log2_self
    _ ≤ 2 ^ (53 + (Nat.log2 m - 52)) := Nat.pow_le_pow_right (by norm_num) (by omega)

theorem le_quotient {m : ℕ} (positive : 0 < Nat.log2 m - 52) :
    2 ^ 53 ≤ 2 * (m / 2 ^ (Nat.log2 m - 52)) := by
  have nonzero : m ≠ 0 := by
    rintro rfl
    simp at positive
  have full : 2 ^ 52 ≤ m / 2 ^ (Nat.log2 m - 52) := by
    rw [Nat.le_div_iff_mul_le (by positivity), ← pow_add]
    calc 2 ^ (52 + (Nat.log2 m - 52)) ≤ 2 ^ Nat.log2 m :=
          Nat.pow_le_pow_right (by norm_num) (by omega)
      _ ≤ m := Nat.log2_self_le nonzero
  omega

theorem float64OfNat_nearest (m : ℕ) : Nearest (Digits 53) (m : ℚ) (float64OfNat m : ℚ) := by
  have lt := quotient_lt m
  have full := @le_quotient m
  simp only [float64OfNat]
  generalize Nat.log2 m - 52 = e at lt full ⊢
  have whole := Nat.div_add_mod' m (2 ^ e)
  have rest : m % 2 ^ e < 2 ^ e := Nat.mod_lt _ (by positivity)
  generalize m / 2 ^ e = q at lt full whole ⊢
  generalize m % 2 ^ e = r at rest whole ⊢
  have lower_mem := natCast_mem_digits e lt
  rcases Nat.eq_zero_or_pos e with rfl | positive
  · -- the number has no more digits than there is room for
    have none : r = 0 := by simpa using rest
    subst none
    rw [if_neg (by simp), ← whole]
    exact nearest_self lower_mem
  have upper_mem : (((q + 1) * 2 ^ e : ℕ) : ℚ) ∈ Digits 53 := by
    rcases Nat.lt_or_ge (q + 1) (2 ^ 53) with small | carry
    · exact natCast_mem_digits e small
    · have carried : (q + 1) * 2 ^ e = 2 ^ 52 * 2 ^ (e + 1) := by
        rw [show q + 1 = 2 ^ 53 by omega]
        ring
      rw [carried]
      exact natCast_mem_digits (e + 1) (by norm_num)
  have gap : ∀ z ∈ Digits 53, z ≤ ((q * 2 ^ e : ℕ) : ℚ) ∨ (((q + 1) * 2 ^ e : ℕ) : ℚ) ≤ z :=
    fun z mem => digits_gap (full positive) mem
  have unit : (q + 1) * 2 ^ e = q * 2 ^ e + 2 ^ e := by ring
  have lower : ((q * 2 ^ e : ℕ) : ℚ) ≤ m := by exact_mod_cast (by omega)
  have upper : (m : ℚ) ≤ ((q + 1) * 2 ^ e : ℕ) := by exact_mod_cast (by omega)
  split_ifs with up
  · refine nearest_upper upper_mem upper gap ?_
    have nearer : (q + 1) * 2 ^ e + q * 2 ^ e ≤ 2 * m := by omega
    have nearer : (((q + 1) * 2 ^ e : ℕ) : ℚ) + (q * 2 ^ e : ℕ) ≤ 2 * m := by exact_mod_cast nearer
    linarith
  · refine nearest_lower lower_mem lower gap ?_
    have nearer : 2 * m ≤ (q + 1) * 2 ^ e + q * 2 ^ e := by omega
    have nearer : (2 * m : ℚ) ≤ ((q + 1) * 2 ^ e : ℕ) + (q * 2 ^ e : ℕ) := by exact_mod_cast nearer
    linarith

theorem float64OfInt_nearest (n : ℤ) : Nearest (Digits 53) (n : ℚ) (float64OfInt n : ℚ) := by
  have near := float64OfNat_nearest n.natAbs
  unfold float64OfInt
  split_ifs with negative
  · have abs : (n : ℚ) = ((-(n.natAbs : ℤ) : ℤ) : ℚ) := congrArg Int.cast (by omega)
    rw [abs, Int.cast_neg, Int.cast_neg, Int.cast_natCast, Int.cast_natCast]
    exact near.neg fun z mem => neg_mem_digits mem
  · have abs : (n : ℚ) = ((n.natAbs : ℤ) : ℚ) := congrArg Int.cast (by omega)
    rw [abs, Int.cast_natCast, Int.cast_natCast]
    exact near

def GoFloat.value : GoFloat → Option (WithBot (WithTop ℚ))
  | .nan => none
  | .negInf => some ⊥
  | .posInf => some (⊤ : WithTop ℚ)
  | .negZero => some ((0 : ℚ) : WithTop ℚ)
  | .finite x _ => some (x : WithTop ℚ)

def GoFloat.ge (x y : GoFloat) : Bool :=
  match x.value, y.value with
  | some a, some b => decide (b ≤ a)
  | _, _ => false

def IntKind.converts : IntKind → Bool
  | .int | .int32 | .int64 | .uint | .uint32 | .uint64 => true
  | _ => false

def asFloat : ConstraintValue → Option GoFloat
  | .int n =>
    if n.kind.converts then some (.finite (float64OfInt n.val) (float64OfInt_nearest n.val).mem)
    else none
  | .float _ x _ => some x
  | _ => none

def atLeast (a b : ConstraintValue) : Option Bool :=
  match asFloat a, asFloat b with
  | some x, some y => some (x.ge y)
  | _, _ => none

def equalConstraint (a b : ConstraintValue) : Bool := a.shown = b.shown

end ConstraintValues
