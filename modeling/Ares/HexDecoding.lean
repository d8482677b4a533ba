import Ares.ClientLineage

/-! Each client reads hexadecimal two characters at a time with an integer parser of its language,
Go's `hex.DecodeString` digit by digit. -/

namespace HexDecoding

open ByteStrings ClientLineage LineageNodes List

def IsHexDigit (c : Char) : Prop :=
  '0' ≤ c ∧ c ≤ '9' ∨ 'a' ≤ c ∧ c ≤ 'f' ∨ 'A' ≤ c ∧ c ≤ 'F'

theorem digitVal_isSome_iff {c : Char} : (digitVal c).isSome ↔ IsHexDigit c := by
  unfold digitVal IsHexDigit
  split_ifs <;> simp_all

theorem not_isHexDigit_sign : ¬ IsHexDigit '+' ∧ ¬ IsHexDigit '-' := by
  unfold IsHexDigit
  decide

theorem IsHexDigit.plainChar {c : Char} (digit : IsHexDigit c) : PlainChar c := by
  refine ⟨?_, ?_, ?_⟩
  · rintro rfl
    exact not_isHexDigit_sign.1 digit
  · rintro rfl
    exact not_isHexDigit_sign.2 digit
  · have top : c ≤ 'f' := by
      rcases digit with ⟨-, le⟩ | ⟨-, le⟩ | ⟨-, le⟩
      · exact le.trans (by decide)
      · exact le
      · exact le.trans (by decide)
    have bound : c.toNat ≤ 102 := top
    omega

theorem digitVal_lower {c : Char} {v : ℕ} (val : digitVal c = some v) :
    v < 16 ∧ Nat.digitChar v = c.toLower := by
  have ascii : ∀ n < 128, ∀ v ∈ digitVal (Char.ofNat n),
      v < 16 ∧ Nat.digitChar v = (Char.ofNat n).toLower := by decide
  have digit := digitVal_isSome_iff.mp (by rw [val]; rfl)
  have here := ascii c.toNat digit.plainChar.2.2 v
  rw [Char.ofNat_toNat] at here
  exact here val

theorem twoDigits_spec {c d : Char} {b : UInt8} (read : twoDigits c d = some b) :
    IsHexDigit c ∧ IsHexDigit d ∧ hexPair b = [c.toLower, d.toLower] := by
  unfold twoDigits at read
  split at read
  · next hi lo high low =>
    obtain ⟨lt, eq⟩ := digitVal_lower high
    obtain ⟨lt', eq'⟩ := digitVal_lower low
    have byte : b.toNat = 16 * hi + lo := by
      rw [← Option.some.inj read, UInt8.toNat_ofNat']
      omega
    refine ⟨digitVal_isSome_iff.mp (by simp [high]), digitVal_isSome_iff.mp (by simp [low]), ?_⟩
    rw [hexPair, byte, ← eq, ← eq', show (16 * hi + lo) / 16 = hi by omega,
      show (16 * hi + lo) % 16 = lo by omega]
  · cases read

/-- The pairs of characters that stand for the bytes. -/
def pairs : List Char → List (Char × Char)
  | c :: d :: rest => (c, d) :: pairs rest
  | _ => []

def HexPair (p : Char × Char) : Prop := IsHexDigit p.1 ∧ IsHexDigit p.2

section

variable {byteOf byteOf' : Char → Char → Option UInt8}

theorem pairsFromHex_isSome_iff : ∀ {l : List Char}, (pairsFromHex byteOf l).isSome ↔
    l.length % 2 = 0 ∧ ∀ p ∈ pairs l, (byteOf p.1 p.2).isSome
  | [] => by simp [pairsFromHex, pairs]
  | [_] => by simp [pairsFromHex]
  | c :: d :: rest => by
    have tail := pairsFromHex_isSome_iff (l := rest)
    rw [pairsFromHex, pairs, forall_mem_cons, length_cons, length_cons, Nat.add_assoc,
      Nat.add_mod_right]
    cases byteOf c d with
    | none => simp
    | some b => simpa using tail

theorem pairsFromHex_congr : ∀ {l : List Char}, (∀ p ∈ pairs l, byteOf p.1 p.2 = byteOf' p.1 p.2) →
    pairsFromHex byteOf l = pairsFromHex byteOf' l
  | [], _ => rfl
  | [_], _ => rfl
  | c :: d :: rest, same => by
    rw [pairs, forall_mem_cons] at same
    rw [pairsFromHex, pairsFromHex, same.1, pairsFromHex_congr same.2]

end

theorem hexPairs_iff : ∀ {l : List Char}, l.length % 2 = 0 →
    ((∀ p ∈ pairs l, HexPair p) ↔ ∀ c ∈ l, IsHexDigit c)
  | [], _ => by simp [pairs]
  | [_], even => by cases even
  | c :: d :: rest, even => by
    rw [pairs, forall_mem_cons, forall_mem_cons, forall_mem_cons,
      hexPairs_iff (by simpa [Nat.add_assoc] using even), HexPair, and_assoc]

theorem twoDigits_isSome_iff {p : Char × Char} : (twoDigits p.1 p.2).isSome ↔ HexPair p := by
  constructor
  · intro some
    obtain ⟨b, read⟩ := Option.isSome_iff_exists.mp some
    exact ⟨(twoDigits_spec read).1, (twoDigits_spec read).2.1⟩
  · intro hex
    obtain ⟨hi, high⟩ := Option.isSome_iff_exists.mp (digitVal_isSome_iff.mpr hex.1)
    obtain ⟨lo, low⟩ := Option.isSome_iff_exists.mp (digitVal_isSome_iff.mpr hex.2)
    simp [twoDigits, high, low]

theorem decodeString_isSome_iff {s : String} :
    (decodeString s).isSome ↔ s.toList.length % 2 = 0 ∧ ∀ p ∈ pairs s.toList, HexPair p := by
  simp only [decodeString, pairsFromHex_isSome_iff, twoDigits_isSome_iff]

theorem hexDigits_decoded : ∀ {l : List Char} {b : Bytes}, pairsFromHex twoDigits l = some b →
    hexDigits b = l.map Char.toLower
  | [], _, read => by
    cases read
    rfl
  | [_], _, read => by cases read
  | c :: d :: rest, _, read => by
    rw [pairsFromHex] at read
    split at read
    · cases read
    · next byte pair =>
      obtain ⟨tail, more, rfl⟩ := Option.map_eq_some_iff.mp read
      rw [hexDigits, flatMap_cons, (twoDigits_spec pair).2.2, ← hexDigits, hexDigits_decoded more]
      rfl

/-- A decoder that takes exactly the texts of whole pairs of hexadecimal digits, gives back their
bytes and does as Go does. -/
structure Strict (fromHex : String → Option Bytes) (s : String) : Prop where
  accepts : (fromHex s).isSome ↔ s.length % 2 = 0 ∧ ∀ c ∈ s.toList, IsHexDigit c
  lower : ∀ b, fromHex s = some b → hex b = s.map Char.toLower
  go : fromHex s = decodeString s

theorem decodeString_strict (s : String) : Strict decodeString s where
  accepts := by
    rw [decodeString_isSome_iff, String.length_toList]
    constructor
    · rintro ⟨even, digits⟩
      exact ⟨even, (hexPairs_iff even).mp digits⟩
    · rintro ⟨even, digits⟩
      exact ⟨even, (hexPairs_iff even).mpr digits⟩
  lower b read := by
    rw [hex, hexDigits_decoded read, String.map_eq_internal]
  go := rfl

theorem strict_iff {fromHex : String → Option Bytes} {s : String} :
    Strict fromHex s ↔ fromHex s = decodeString s := by
  constructor
  · exact Strict.go
  · intro same
    have go := decodeString_strict s
    exact ⟨by rw [same, go.accepts], by rw [same]; exact go.lower, same⟩

/-- A text of whole pairs, each of them hexadecimal or a slip of the parser, and one of them a
slip. -/
def Misread (slip : Char × Char → Prop) (s : String) : Prop :=
  s.length % 2 = 0 ∧ (∀ p ∈ pairs s.toList, HexPair p ∨ slip p) ∧ ∃ p ∈ pairs s.toList, slip p

/-- What a parser of pairs takes: hexadecimal ones as Go does, and its slips beside them. -/
structure Takes (byteOf : Char → Char → Option UInt8) (slip : Char × Char → Prop) : Prop where
  isSome_iff : ∀ p, (byteOf p.1 p.2).isSome ↔ HexPair p ∨ slip p
  hexPair : ∀ p, HexPair p → byteOf p.1 p.2 = twoDigits p.1 p.2
  slip : ∀ p, slip p → ¬ HexPair p

theorem Takes.eq_decodeString_iff {byteOf : Char → Char → Option UInt8}
    {slip : Char × Char → Prop} (takes : Takes byteOf slip) (s : String) :
    pairsFromHex byteOf s.toList = decodeString s ↔ ¬ Misread slip s := by
  have read := @pairsFromHex_isSome_iff byteOf s.toList
  simp only [takes.isSome_iff, String.length_toList] at read
  have same : (∀ p ∈ pairs s.toList, HexPair p) →
      pairsFromHex byteOf s.toList = decodeString s :=
    fun digits => pairsFromHex_congr fun p mem => takes.hexPair p (digits p mem)
  constructor
  · rintro eq ⟨even, taken, p, mem, slips⟩
    have go := read.mpr ⟨even, taken⟩
    rw [eq, decodeString_isSome_iff] at go
    exact takes.slip p slips (go.2 p mem)
  · intro clean
    by_cases some : (pairsFromHex byteOf s.toList).isSome
    · obtain ⟨even, taken⟩ := read.mp some
      apply same
      intro p mem
      exact (taken p mem).resolve_right fun slips => clean ⟨even, taken, p, mem, slips⟩
    · by_cases go : (decodeString s).isSome
      · exact same (decodeString_isSome_iff.mp go).2
      · rw [Option.not_isSome_iff_eq_none.mp some, Option.not_isSome_iff_eq_none.mp go]

/-- Swift's `UInt8(_, radix: 16)` takes a plus before a digit and a minus before a zero. -/
def Swift.Slip (p : Char × Char) : Prop := p.1 = '+' ∧ IsHexDigit p.2 ∨ p.1 = '-' ∧ p.2 = '0'

/-- Kotlin's `toIntOrNull(16)` takes either sign before a digit, and the digits of every script. -/
def Kotlin.Slip (p : Char × Char) : Prop :=
  (p.1 = '+' ∨ p.1 = '-' ∨ (Kotlin.digitOf p.1).isSome) ∧ (Kotlin.digitOf p.2).isSome ∧ ¬ HexPair p

theorem digitVal_eq_zero {d : Char} : digitVal d = some 0 ↔ d = '0' := by
  constructor
  · intro zero
    have ascii : ∀ n < 128, digitVal (Char.ofNat n) = some 0 → Char.ofNat n = '0' := by decide
    have digit := digitVal_isSome_iff.mp (by rw [zero]; rfl)
    have here := ascii d.toNat digit.plainChar.2.2
    rw [Char.ofNat_toNat] at here
    exact here zero
  · rintro rfl
    rfl

theorem swift_takes : Takes Swift.byteOf Swift.Slip where
  isSome_iff := by
    rintro ⟨c, d⟩
    rw [← twoDigits_isSome_iff]
    simp only [Swift.Slip, ← digitVal_isSome_iff, ← digitVal_eq_zero]
    by_cases plus : c = '+'
    · subst plus
      simp [Swift.byteOf, twoDigits, show digitVal '+' = none from rfl]
    · by_cases minus : c = '-'
      · subst minus
        by_cases zero : digitVal d = some 0 <;>
          simp [Swift.byteOf, twoDigits, show digitVal '-' = none from rfl, zero]
      · simp [Swift.byteOf, plus, minus]
  hexPair p hex := Swift.byteOf_plain _ _ hex.1.plainChar.1 hex.1.plainChar.2.1
  slip p slips hex := by
    rcases slips with ⟨plus, -⟩ | ⟨minus, -⟩
    · exact hex.1.plainChar.1 plus
    · exact hex.1.plainChar.2.1 minus

theorem kotlin_takes : Takes Kotlin.byteOf Kotlin.Slip where
  isSome_iff := by
    rintro ⟨c, d⟩
    have digit : ∀ {c : Char}, IsHexDigit c → (Kotlin.digitOf c).isSome := by
      intro c hex
      rw [Kotlin.digitOf_ascii hex.plainChar.2.2]
      exact digitVal_isSome_iff.mpr hex
    simp only [HexPair, Kotlin.Slip]
    by_cases low : c < '0'
    · have small : c.toNat < 128 := Nat.lt_trans low (by decide)
      have other : digitVal c = none := by
        have below : ∀ {x : Char}, '0' ≤ x → ¬ x ≤ c := fun le => not_le.mpr (low.trans_le le)
        simp [digitVal, below]
      have plain : ¬ IsHexDigit c := by
        rw [← digitVal_isSome_iff, other]
        decide
      rw [Kotlin.byteOf, if_pos low, Kotlin.digitOf_ascii small, other]
      split_ifs with minus plus
      · simp [minus, not_isHexDigit_sign]
      · simp [plus, not_isHexDigit_sign]
      · simp [plain, minus, plus]
    · have signs : c ≠ '+' ∧ c ≠ '-' := by
        constructor
        · rintro rfl
          exact low (by decide)
        · rintro rfl
          exact low (by decide)
      have both : (Kotlin.byteOf c d).isSome ↔
          (Kotlin.digitOf c).isSome ∧ (Kotlin.digitOf d).isSome := by
        rw [Kotlin.byteOf, if_neg low]
        cases Kotlin.digitOf c <;> cases Kotlin.digitOf d <;> simp
      rw [both]
      constructor
      · rintro ⟨hc, hd⟩
        by_cases hex : IsHexDigit c ∧ IsHexDigit d
        · exact .inl hex
        · exact .inr ⟨.inr (.inr hc), hd, hex⟩
      · rintro (hex | ⟨plus | minus | hc, hd, -⟩)
        · exact ⟨digit hex.1, digit hex.2⟩
        · exact absurd plus signs.1
        · exact absurd minus signs.2
        · exact ⟨hc, hd⟩
  hexPair p hex := Kotlin.byteOf_plain _ _ hex.1.plainChar hex.2.plainChar
  slip p slips := slips.2.2

/-- Go decodes strictly. Each client does so for exactly the texts that its parser does not misread:
those of whole pairs, all of which it takes, where one is a slip. -/
theorem hex_decoding_strict (s : String) :
    Strict decodeString s ∧ (Strict Swift.dialect.fromHex s ↔ ¬ Misread Swift.Slip s) ∧
      (Strict Kotlin.dialect.fromHex s ↔ ¬ Misread Kotlin.Slip s) :=
  ⟨decodeString_strict s, strict_iff.trans (swift_takes.eq_decodeString_iff s),
    strict_iff.trans (kotlin_takes.eq_decodeString_iff s)⟩

/-- A sign stands for a digit in both clients, a minus is read differently, and an Arabic-Indic
digit is one in Kotlin. -/
theorem signs_decoded :
    decodeString "+f" = none ∧ decodeString "-0" = none ∧ decodeString "٠٠" = none ∧
      Swift.dialect.fromHex "+f" = some [15] ∧ Swift.dialect.fromHex "-0" = some [0] ∧
      Kotlin.dialect.fromHex "+f" = some [15] ∧ Kotlin.dialect.fromHex "-f" = some [241] ∧
      Kotlin.dialect.fromHex "٠٠" = some [0] := by
  decide

end HexDecoding
