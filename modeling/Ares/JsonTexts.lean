import Ares.ByteStrings

/-! A writer that escapes everything outside printable ASCII and leaves a gap of its choice after
commas and colons, and a reader that reads back what the writer wrote, with the text of each member
of an object beside its value. Numbers are integers. -/

namespace JsonTexts

open ByteStrings List

inductive Json where
  | null
  | bool (b : Bool)
  | int (n : ℤ)
  | str (s : String)
  | arr (items : List Json)
  | obj (members : List (String × Json))

def isSpace (c : Char) : Bool := c = ' ' || c = '\t' || c = '\n' || c = '\r'

structure Layout where
  comma : List Char
  colon : List Char
  comma_space : ∀ c ∈ comma, isSpace c
  colon_space : ∀ c ∈ colon, isSpace c

def compact : Layout := ⟨[], [], forall_mem_nil _, forall_mem_nil _⟩

def spaced : Layout :=
  ⟨[' '], [' '], forall_mem_singleton.mpr rfl, forall_mem_singleton.mpr rfl⟩

theorem spaced_comma : spaced.comma = [' '] := rfl

theorem spaced_colon : spaced.colon = [' '] := rfl

theorem compact_comma : compact.comma = [] := rfl

theorem compact_colon : compact.colon = [] := rfl

def hex4 (u : ℕ) : List Char :=
  [Nat.digitChar (u / 4096 % 16), Nat.digitChar (u / 256 % 16), Nat.digitChar (u / 16 % 16),
    Nat.digitChar (u % 16)]

def shortEscapes : List (Char × Char) :=
  [('"', '"'), ('\\', '\\'), ('\n', 'n'), ('\r', 'r'), ('\t', 't'), (Char.ofNat 8, 'b'),
    (Char.ofNat 12, 'f')]

def escapeChar (c : Char) : List Char :=
  match shortEscapes.lookup c with
  | some e => ['\\', e]
  | none =>
    if 0x20 ≤ c.toNat ∧ c.toNat < 0x7F then [c]
    else (utf16Char c).flatMap fun u => '\\' :: 'u' :: hex4 u

def writeString (s : String) : List Char := '"' :: (s.toList.flatMap escapeChar ++ ['"'])

def writeInt : ℤ → List Char
  | .ofNat n => Nat.toDigits 10 n
  | .negSucc n => '-' :: Nat.toDigits 10 (n + 1)

mutual

def write (lay : Layout) : Json → List Char
  | .null => ['n', 'u', 'l', 'l']
  | .bool true => ['t', 'r', 'u', 'e']
  | .bool false => ['f', 'a', 'l', 's', 'e']
  | .int n => writeInt n
  | .str s => writeString s
  | .arr items => '[' :: writeItems lay items ++ [']']
  | .obj members => '{' :: writeMembers lay members ++ ['}']

def writeItems (lay : Layout) : List Json → List Char
  | [] => []
  | [v] => write lay v
  | v :: vs => write lay v ++ ',' :: (lay.comma ++ writeItems lay vs)

def writeMembers (lay : Layout) : List (String × Json) → List Char
  | [] => []
  | [(k, v)] => writeString k ++ ':' :: (lay.colon ++ write lay v)
  | (k, v) :: ms =>
    writeString k ++ ':' :: (lay.colon ++ write lay v) ++ ',' :: (lay.comma ++ writeMembers lay ms)

end

theorem writeItems_two (lay : Layout) (v w : Json) (vs : List Json) :
    writeItems lay (v :: w :: vs) =
      write lay v ++ ',' :: (lay.comma ++ writeItems lay (w :: vs)) := by
  rw [writeItems]
  exact cons_ne_nil w vs

theorem writeMembers_two (lay : Layout) (k : String) (v : Json) (m : String × Json)
    (ms : List (String × Json)) :
    writeMembers lay ((k, v) :: m :: ms) = writeString k ++ ':' :: (lay.colon ++ write lay v) ++
        ',' :: (lay.comma ++ writeMembers lay (m :: ms)) := by
  rw [writeMembers]
  exact cons_ne_nil m ms

def skipSpace (text : List Char) : List Char := text.dropWhile isSpace

def readWord (word : List Char) (v : Json) (text : List Char) : Option (Json × List Char) :=
  if word.isPrefixOf text then some (v, text.drop word.length) else none

def readDigits (text : List Char) : Option (ℕ × List Char) :=
  let digits := text.takeWhile Char.isDigit
  if digits = [] ∨ (digits.head? = some '0' ∧ digits ≠ ['0']) then none
  else some (Nat.ofDigitChars 10 digits 0, text.dropWhile Char.isDigit)

def readInt : List Char → Option (ℤ × List Char)
  | '-' :: rest => (readDigits rest).map fun (n, rest) => (-(n : ℤ), rest)
  | text => (readDigits text).map fun (n, rest) => ((n : ℤ), rest)

def hexValue (a b c d : Char) : Option ℕ := do
  let a ← digitVal a
  let b ← digitVal b
  let c ← digitVal c
  let d ← digitVal d
  return 4096 * a + 256 * b + 16 * c + d

def readUnits : List Char → Option (List ℕ × List Char)
  | [] => none
  | c :: rest =>
    if c = '"' then some ([], rest)
    else if c = '\\' then
      match rest with
      | [] => none
      | e :: rest =>
        if e = 'u' then
          match rest with
          | h₃ :: h₂ :: h₁ :: h₀ :: rest => do
            let u ← hexValue h₃ h₂ h₁ h₀
            let (us, rest) ← readUnits rest
            return (u :: us, rest)
          | _ => none
        else if e = '/' then (readUnits rest).map fun (us, rest) => ('/'.toNat :: us, rest)
        else
          match shortEscapes.find? fun p => p.2 = e with
          | none => none
          | some (c, _) => (readUnits rest).map fun (us, rest) => (c.toNat :: us, rest)
    else if c.toNat < 0x20 then none
    else (readUnits rest).map fun (us, rest) => (c.toNat :: us, rest)

def unitChar (u : ℕ) : Char := if isHigh u || isLow u then Char.ofNat 0xFFFD else Char.ofNat u

def joinUnits : List ℕ → List Char
  | [] => []
  | [u] => [unitChar u]
  | u :: l :: us =>
    if isHigh u && isLow l then
      Char.ofNat ((u - 0xD800) * 0x400 + (l - 0xDC00) + 0x10000) :: joinUnits us
    else unitChar u :: joinUnits (l :: us)

def readString (text : List Char) : Option (String × List Char) :=
  match skipSpace text with
  | '"' :: rest => (readUnits rest).map fun (us, rest) => (String.ofList (joinUnits us), rest)
  | _ => none

def consumed (text rest : List Char) : List Char := text.take (text.length - rest.length)

/-- A member of an object as it is read: its key, its value and the text of its value. -/
structure Member where
  key : String
  value : Json
  raw : List Char

def Member.pair (m : Member) : String × Json := (m.key, m.value)

mutual

def readValue : ℕ → List Char → Option (Json × List Char)
  | 0, _ => none
  | fuel + 1, text =>
    match skipSpace text with
    | [] => none
    | c :: rest =>
      if c = 'n' then readWord ['u', 'l', 'l'] .null rest
      else if c = 't' then readWord ['r', 'u', 'e'] (.bool true) rest
      else if c = 'f' then readWord ['a', 'l', 's', 'e'] (.bool false) rest
      else if c = '"' then (readString (c :: rest)).map fun (s, rest) => (.str s, rest)
      else if c = '[' then
        match skipSpace rest with
        | ']' :: rest => some (.arr [], rest)
        | _ => (readItems fuel rest).map fun (vs, rest) => (.arr vs, rest)
      else if c = '{' then
        match skipSpace rest with
        | '}' :: rest => some (.obj [], rest)
        | _ => (readMembers fuel rest).map fun (ms, rest) => (.obj (ms.map Member.pair), rest)
      else (readInt (c :: rest)).map fun (n, rest) => (.int n, rest)

def readItems : ℕ → List Char → Option (List Json × List Char)
  | 0, _ => none
  | fuel + 1, text => do
    let (v, rest) ← readValue fuel text
    match skipSpace rest with
    | ',' :: rest => do
      let (vs, rest) ← readItems fuel rest
      return (v :: vs, rest)
    | ']' :: rest => return ([v], rest)
    | _ => none

def readMembers : ℕ → List Char → Option (List Member × List Char)
  | 0, _ => none
  | fuel + 1, text => do
    let (k, rest) ← readString text
    match skipSpace rest with
    | ':' :: rest => do
      let start := skipSpace rest
      let (v, rest) ← readValue fuel start
      let m : Member := ⟨k, v, consumed start rest⟩
      match skipSpace rest with
      | ',' :: rest => do
        let (ms, rest) ← readMembers fuel rest
        return (m :: ms, rest)
      | '}' :: rest => return ([m], rest)
      | _ => none
    | _ => none

end

def parse (text : List Char) : Option Json := do
  let (v, rest) ← readValue (text.length + 1) text
  if skipSpace rest = [] then return v else none

def parseObject (text : List Char) : Option (List Member) :=
  match skipSpace text with
  | '{' :: rest =>
    match skipSpace rest with
    | '}' :: rest => if skipSpace rest = [] then some [] else none
    | _ => do
      let (ms, rest) ← readMembers (text.length + 1) rest
      if skipSpace rest = [] then return ms else none
  | _ => none

theorem skipSpace_gap {gap : List Char} (space : ∀ c ∈ gap, isSpace c) (text : List Char) :
    skipSpace (gap ++ text) = skipSpace text := by
  rw [skipSpace, dropWhile_append_of_pos space, skipSpace]

theorem skipSpace_cons {c : Char} (solid : isSpace c = false) (text : List Char) :
    skipSpace (c :: text) = c :: text := by
  rw [skipSpace, dropWhile_cons_of_neg (by simp [solid])]

theorem consumed_append (text rest : List Char) : consumed (text ++ rest) rest = text := by
  rw [consumed, length_append, Nat.add_sub_cancel, take_left]

theorem hexValue_hex4 {u : ℕ} (lt : u < 0x10000) :
    hexValue (Nat.digitChar (u / 4096 % 16)) (Nat.digitChar (u / 256 % 16))
      (Nat.digitChar (u / 16 % 16)) (Nat.digitChar (u % 16)) = some u := by
  have digit : ∀ n, digitVal (Nat.digitChar (n % 16)) = some (n % 16) :=
    fun n => digitVal_digitChar (Nat.mod_lt _ (by decide))
  simp only [hexValue, digit, Option.bind_eq_bind, Option.bind_some, Option.pure_def,
    Option.some.injEq]
  omega

theorem readUnits_short {c e : Char} (short : (c, e) ∈ shortEscapes) (rest : List Char) :
    readUnits ('\\' :: e :: rest) =
      (readUnits rest).map fun (us, rest) => (c.toNat :: us, rest) := by
  have found : ∀ p ∈ shortEscapes, p.2 ≠ 'u' ∧ p.2 ≠ '/' ∧
      (shortEscapes.find? fun q => q.2 = p.2) = some p := by decide
  obtain ⟨notU, notSlash, finds⟩ := found _ short
  rw [readUnits.eq_def]
  simp only [Char.reduceEq, if_false, if_true, if_neg notU, if_neg notSlash, finds]

theorem readUnits_hex4 {u : ℕ} (lt : u < 0x10000) (rest : List Char) :
    readUnits ('\\' :: 'u' :: hex4 u ++ rest) =
      (readUnits rest).map fun (us, rest) => (u :: us, rest) := by
  simp only [hex4, cons_append, nil_append]
  rw [readUnits.eq_def]
  simp only [hexValue_hex4 lt]
  cases readUnits rest <;> rfl

theorem utf16Char_lt (c : Char) : ∀ u ∈ utf16Char c, u < 0x10000 := by
  have valid : c.toNat < 0xD800 ∨ (0xDFFF < c.toNat ∧ c.toNat < 0x110000) := c.valid
  intro u mem
  rw [utf16Char] at mem
  split_ifs at mem with small
  · rw [mem_singleton] at mem
    omega
  · simp only [mem_cons, not_mem_nil, or_false] at mem
    omega

theorem readUnits_flatMap {us : List ℕ} (small : ∀ u ∈ us, u < 0x10000) (rest : List Char) :
    readUnits ((us.flatMap fun u => '\\' :: 'u' :: hex4 u) ++ rest) =
      (readUnits rest).map fun (vs, rest) => (us ++ vs, rest) := by
  induction us with
  | nil => simp
  | cons u us ih =>
    rw [flatMap_cons, append_assoc, readUnits_hex4 (small u (by simp)),
      ih fun v mem => small v (by simp [mem]), Option.map_map]
    rfl

theorem readUnits_escapeChar (c : Char) (rest : List Char) :
    readUnits (escapeChar c ++ rest) =
      (readUnits rest).map fun (us, rest) => (utf16Char c ++ us, rest) := by
  rw [escapeChar]
  cases short : shortEscapes.lookup c with
  | some e =>
    have listed : (c, e) ∈ shortEscapes := by
      obtain ⟨before, after, split, -⟩ := lookup_eq_some_iff.mp short
      rw [split]
      simp
    have single : ∀ p ∈ shortEscapes, utf16Char p.1 = [p.1.toNat] := by decide
    rw [single _ listed]
    exact readUnits_short listed rest
  | none =>
    by_cases plain : 0x20 ≤ c.toNat ∧ c.toNat < 0x7F
    · have notQuote : c ≠ '"' := by
        rintro rfl
        cases short
      have notBackslash : c ≠ '\\' := by
        rintro rfl
        cases short
      have single : utf16Char c = [c.toNat] := if_pos (by omega)
      simp only [if_pos plain, single]
      rw [singleton_append, readUnits.eq_def]
      simp only [if_neg notQuote, if_neg notBackslash, if_neg (Nat.not_lt.mpr plain.1)]
      rfl
    · simp only [if_neg plain]
      exact readUnits_flatMap (utf16Char_lt c) rest

theorem readUnits_escaped (l : List Char) (rest : List Char) :
    readUnits (l.flatMap escapeChar ++ '"' :: rest) = some (l.flatMap utf16Char, rest) := by
  induction l with
  | nil =>
    rw [flatMap_nil, nil_append, readUnits.eq_def]
    rfl
  | cons c l ih =>
    rw [flatMap_cons, append_assoc, readUnits_escapeChar, ih, flatMap_cons]
    rfl

theorem joinUnits_utf16Char (c : Char) (us : List ℕ) :
    joinUnits (utf16Char c ++ us) = c :: joinUnits us := by
  have units := units_utf16Char c
  generalize utf16Char c = l at units
  cases units with
  | one plain =>
    have self : unitChar c.toNat = c := by simp [unitChar, plain]
    have high := (Bool.or_eq_false_iff.mp plain).1
    cases us with
    | nil => simp [joinUnits, self]
    | cons l us => simp [joinUnits, high, self]
  | pair high low point =>
    simp only [cons_append, nil_append, joinUnits, high, low, Bool.and_self, if_true, point,
      Char.ofNat_toNat]

theorem joinUnits_flatMap (l : List Char) : joinUnits (l.flatMap utf16Char) = l := by
  induction l with
  | nil => rfl
  | cons c l ih => rw [flatMap_cons, joinUnits_utf16Char, ih]

theorem readString_write (s : String) (rest : List Char) :
    readString (writeString s ++ rest) = some (s, rest) := by
  rw [readString, writeString, cons_append, skipSpace_cons (by decide), append_assoc]
  simp [readUnits_escaped, joinUnits_flatMap]

def Stops (rest : List Char) : Prop := ∀ c ∈ rest.head?, c.isDigit = false

theorem toDigits_head {n : ℕ} (positive : 0 < n) : (Nat.toDigits 10 n).head? ≠ some '0' := by
  induction n using Nat.strong_induction_on with
  | _ n ih =>
    rw [Nat.toDigits_eq_if (by decide)]
    by_cases small : n < 10
    · have digit : ∀ d, d < 10 → 0 < d → Nat.digitChar d ≠ '0' := by decide
      simpa [small] using digit n small positive
    · rw [if_neg small, List.head?_append_of_ne_nil _ Nat.toDigits_ne_nil]
      exact ih (n / 10) (by omega) (by omega)

variable {rest : List Char}

theorem readDigits_toDigits (n : ℕ) (stops : Stops rest) :
    readDigits (Nat.toDigits 10 n ++ rest) = some (n, rest) := by
  have digits : ∀ c ∈ Nat.toDigits 10 n, c.isDigit :=
    fun c mem => Nat.isDigit_of_mem_toDigits (by decide) (by decide) mem
  have after : rest.takeWhile Char.isDigit = [] ∧ rest.dropWhile Char.isDigit = rest := by
    cases rest with
    | nil => exact ⟨rfl, rfl⟩
    | cons c rest =>
      have := stops c rfl
      simp [this]
  have noZero : ¬ ((Nat.toDigits 10 n).head? = some '0' ∧ Nat.toDigits 10 n ≠ ['0']) := by
    rintro ⟨zero, more⟩
    by_cases positive : 0 < n
    · exact toDigits_head positive zero
    · rw [Nat.eq_zero_of_not_pos positive] at more
      exact more rfl
  rw [readDigits, takeWhile_append_of_pos digits, dropWhile_append_of_pos digits, after.1,
    after.2, append_nil]
  simp only [Nat.toDigits_ne_nil, false_or, if_neg noZero, Nat.ofDigitChars_ten_toDigits]

theorem toDigits_cons (n : ℕ) : ∃ c rest, Nat.toDigits 10 n = c :: rest ∧ c.isDigit := by
  cases digits : Nat.toDigits 10 n with
  | nil => exact absurd digits Nat.toDigits_ne_nil
  | cons c rest =>
    have mem : c ∈ Nat.toDigits 10 n := by simp [digits]
    exact ⟨c, rest, rfl, Nat.isDigit_of_mem_toDigits (by decide) (by decide) mem⟩

theorem readInt_write (n : ℤ) (stops : Stops rest) :
    readInt (writeInt n ++ rest) = some (n, rest) := by
  cases n with
  | negSucc n =>
    rw [writeInt, cons_append, readInt, readDigits_toDigits _ stops]
    simp [Int.negSucc_eq]
  | ofNat n =>
    have unsigned : ∀ l, writeInt (Int.ofNat n) ++ rest ≠ '-' :: l := by
      obtain ⟨c, digits, eq, digit⟩ := toDigits_cons n
      intro l minus
      rw [writeInt, eq, cons_append, List.cons.injEq] at minus
      rw [minus.1] at digit
      cases digit
    rw [readInt, writeInt, readDigits_toDigits _ stops]
    · rfl
    · exact unsigned

def StartsInt (c : Char) : Prop := c = '-' ∨ c.isDigit

theorem StartsInt.ne {c d : Char} (starts : StartsInt c)
    (other : d ≠ '-' ∧ d.isDigit = false) : c ≠ d := by
  rintro rfl
  rcases starts with rfl | digit
  · exact other.1 rfl
  · rw [other.2] at digit
    cases digit

theorem StartsInt.solid {c : Char} (starts : StartsInt c) : isSpace c = false := by
  simp only [isSpace, Bool.or_eq_false_iff, decide_eq_false_iff_not]
  exact ⟨⟨⟨starts.ne (by decide), starts.ne (by decide)⟩, starts.ne (by decide)⟩,
    starts.ne (by decide)⟩

theorem writeInt_cons (n : ℤ) : ∃ c rest, writeInt n = c :: rest ∧ StartsInt c := by
  cases n with
  | ofNat n =>
    obtain ⟨c, rest, eq, digit⟩ := toDigits_cons n
    exact ⟨c, rest, eq, .inr digit⟩
  | negSucc n => exact ⟨'-', _, rfl, .inl rfl⟩

theorem write_cons (lay : Layout) (v : Json) :
    ∃ c rest, write lay v = c :: rest ∧ isSpace c = false ∧ c ≠ ']' := by
  cases v with
  | int n =>
    obtain ⟨c, rest, eq, starts⟩ := writeInt_cons n
    exact ⟨c, rest, by rw [write, eq], starts.solid, starts.ne (by decide)⟩
  | bool b => cases b <;> exact ⟨_, _, by rw [write], by decide, by decide⟩
  | null => exact ⟨_, _, by rw [write], by decide, by decide⟩
  | arr items =>
    exact ⟨'[', writeItems lay items ++ [']'], by rw [write]; rfl, by decide, by decide⟩
  | obj members =>
    exact ⟨'{', writeMembers lay members ++ ['}'], by rw [write]; rfl, by decide, by decide⟩
  | str => exact ⟨_, _, by rw [write, writeString], by decide, by decide⟩

theorem writeItems_cons (lay : Layout) (v : Json) (vs : List Json) :
    ∃ c rest, writeItems lay (v :: vs) = c :: rest ∧ isSpace c = false ∧ c ≠ ']' := by
  obtain ⟨c, rest, eq, solid, other⟩ := write_cons lay v
  cases vs with
  | nil => exact ⟨c, rest, by rw [writeItems, eq], solid, other⟩
  | cons w vs => exact ⟨c, _, by rw [writeItems_two, eq, cons_append], solid, other⟩

section

variable {gap : List Char} (space : ∀ c ∈ gap, isSpace c) (fuel : ℕ) (text : List Char)

include space fuel text

theorem readValue_gap : readValue fuel (gap ++ text) = readValue fuel text := by
  cases fuel with
  | zero => rw [readValue, readValue]
  | succ fuel => rw [readValue, readValue, skipSpace_gap space]

theorem readItems_gap : readItems fuel (gap ++ text) = readItems fuel text := by
  cases fuel with
  | zero => rw [readItems, readItems]
  | succ fuel => rw [readItems, readItems, readValue_gap space]

theorem readMembers_gap : readMembers fuel (gap ++ text) = readMembers fuel text := by
  cases fuel with
  | zero => rw [readMembers, readMembers]
  | succ fuel => rw [readMembers, readMembers, readString, readString, skipSpace_gap space]

end

theorem stops_cons {c : Char} (other : c.isDigit = false) (rest : List Char) :
    Stops (c :: rest) := by
  intro d mem
  cases mem
  exact other

def Member.written (lay : Layout) (m : String × Json) : Member := ⟨m.1, m.2, write lay m.2⟩

theorem readValue_int (n : ℤ) (fuel : ℕ) (stops : Stops rest) :
    readValue (fuel + 1) (writeInt n ++ rest) = some (.int n, rest) := by
  obtain ⟨c, digits, eq, starts⟩ := writeInt_cons n
  have back := readInt_write n stops
  rw [eq, cons_append] at back ⊢
  rw [readValue, skipSpace_cons starts.solid]
  simp only [starts.ne (d := 'n') (by decide), starts.ne (d := 't') (by decide),
    starts.ne (d := 'f') (by decide), starts.ne (d := '"') (by decide),
    starts.ne (d := '[') (by decide), starts.ne (d := '{') (by decide), if_false, back,
    Option.map_some]

theorem readValue_str (s : String) (fuel : ℕ) (rest : List Char) :
    readValue (fuel + 1) (writeString s ++ rest) = some (.str s, rest) := by
  have back := readString_write s rest
  rw [writeString, cons_append] at back ⊢
  rw [readValue, skipSpace_cons (by decide)]
  simp only [Char.reduceEq, if_false, if_true, back, Option.map_some]

theorem readValue_arr {fuel : ℕ} {text rest : List Char} {vs : List Json}
    (starts : ∃ c tail, text = c :: tail ∧ isSpace c = false ∧ c ≠ ']')
    (items : readItems fuel text = some (vs, rest)) :
    readValue (fuel + 1) ('[' :: text) = some (.arr vs, rest) := by
  obtain ⟨c, tail, rfl, solid, other⟩ := starts
  rw [readValue, skipSpace_cons (by decide)]
  simp only [Char.reduceEq, if_false, if_true, skipSpace_cons solid]
  split
  · next closed =>
    cases closed
    exact absurd rfl other
  · rw [items]
    rfl

theorem readValue_obj {fuel : ℕ} {text rest : List Char} {ms : List Member}
    (members : readMembers fuel ('"' :: text) = some (ms, rest)) :
    readValue (fuel + 1) ('{' :: '"' :: text) = some (.obj (ms.map Member.pair), rest) := by
  rw [readValue, skipSpace_cons (by decide)]
  simp only [members]
  rfl

section

variable {lay : Layout} {fuel : ℕ} {k : String} {v : Json} {rest : List Char}

theorem skipSpace_value (lay : Layout) (v : Json) (rest : List Char) :
    skipSpace (lay.colon ++ (write lay v ++ rest)) = write lay v ++ rest := by
  obtain ⟨c, tail, eq, solid, -⟩ := write_cons lay v
  rw [skipSpace_gap lay.colon_space, eq, cons_append, skipSpace_cons solid]

end

section

variable (lay : Layout)

theorem writeMembers_cons (k : String) (v : Json) (ms : List (String × Json)) :
    ∃ text, writeMembers lay ((k, v) :: ms) = '"' :: text := by
  cases ms with
  | nil => exact ⟨_, by rw [writeMembers, writeString, cons_append]⟩
  | cons m ms => exact ⟨_, by rw [writeMembers_two, writeString, cons_append, cons_append]⟩

theorem pair_written (ms : List (String × Json)) :
    (ms.map (Member.written lay)).map Member.pair = ms := by
  rw [map_map]
  exact map_id ms

mutual

theorem readValue_write : ∀ (v : Json) (fuel : ℕ) (rest : List Char),
    (write lay v).length < fuel → Stops rest → readValue fuel (write lay v ++ rest) = some (v, rest)
  | .null, fuel + 1, rest, _, _ => by
    rw [readValue, write]
    rfl
  | .bool true, fuel + 1, rest, _, _ => by
    rw [readValue, write]
    rfl
  | .bool false, fuel + 1, rest, _, _ => by
    rw [readValue, write]
    rfl
  | .int n, fuel + 1, rest, _, stops => by
    rw [write]
    exact readValue_int n fuel stops
  | .str s, fuel + 1, rest, _, _ => by
    rw [write]
    exact readValue_str ..
  | .arr [], fuel + 1, rest, _, _ => by
    rw [readValue, write, writeItems]
    rfl
  | .arr (v :: vs), fuel + 1, rest, bound, _ => by
    rw [write, length_append, length_cons, length_singleton] at bound
    have items := readItems_write v vs fuel rest (by omega)
    obtain ⟨c, tail, eq, solid, other⟩ := writeItems_cons lay v vs
    rw [write, cons_append, cons_append, append_assoc, singleton_append]
    exact readValue_arr ⟨c, tail ++ ']' :: rest, by rw [eq, cons_append], solid, other⟩ items
  | .obj [], fuel + 1, rest, _, _ => by
    rw [readValue, write, writeMembers]
    rfl
  | .obj ((k, v) :: ms), fuel + 1, rest, bound, _ => by
    rw [write, length_append, length_cons, length_singleton] at bound
    have members := readMembers_write k v ms fuel rest (by omega)
    obtain ⟨text, eq⟩ := writeMembers_cons lay k v ms
    rw [eq, cons_append] at members
    simp only [write, eq, cons_append, append_assoc, nil_append]
    rw [readValue_obj members, pair_written]

theorem readItems_write : ∀ (v : Json) (vs : List Json) (fuel : ℕ) (rest : List Char),
    (writeItems lay (v :: vs)).length + 1 < fuel →
      readItems fuel (writeItems lay (v :: vs) ++ ']' :: rest) = some (v :: vs, rest)
  | v, [], fuel + 1, rest, bound => by
    rw [writeItems] at bound ⊢
    have stops : Stops (']' :: rest) := stops_cons rfl rest
    rw [readItems, readValue_write v fuel _ (by omega) stops]
    rfl
  | v, w :: vs, fuel + 1, rest, bound => by
    rw [writeItems_two] at bound ⊢
    rw [length_append, length_cons, length_append] at bound
    have tail := readItems_write w vs fuel rest (by omega)
    rw [append_assoc, cons_append, append_assoc]
    rw [readItems, readValue_write v fuel _ (by omega) (stops_cons rfl _)]
    simp only [Option.bind_eq_bind, Option.bind_some,
      skipSpace_cons (by decide : isSpace ',' = false), readItems_gap lay.comma_space, tail]
    rfl

theorem readMembers_write : ∀ (k : String) (v : Json) (ms : List (String × Json)) (fuel : ℕ)
    (rest : List Char), (writeMembers lay ((k, v) :: ms)).length + 1 < fuel →
      readMembers fuel (writeMembers lay ((k, v) :: ms) ++ '}' :: rest) =
        some (((k, v) :: ms).map (Member.written lay), rest)
  | k, v, [], fuel + 1, rest, bound => by
    rw [writeMembers] at bound ⊢
    rw [length_append, length_cons, length_append] at bound
    have value := readValue_write v fuel ('}' :: rest) (by omega) (stops_cons rfl _)
    rw [readMembers, append_assoc, readString_write]
    simp only [Option.bind_eq_bind, Option.bind_some, cons_append, append_assoc,
      skipSpace_cons (by decide : isSpace ':' = false), skipSpace_value, value, consumed_append]
    rfl
  | k, v, (k', w) :: ms, fuel + 1, rest, bound => by
    rw [writeMembers_two] at bound ⊢
    rw [length_append, length_append, length_cons, length_append,
      length_cons, length_append] at bound
    have tail := readMembers_write k' w ms fuel rest (by omega)
    rw [append_assoc _ _ ('}' :: rest), cons_append, append_assoc lay.comma]
    have value := fun more => readValue_write v fuel (',' :: more) (by omega) (stops_cons rfl _)
    rw [readMembers, append_assoc, readString_write]
    simp only [Option.bind_eq_bind, Option.bind_some, cons_append, append_assoc,
      skipSpace_cons (by decide : isSpace ':' = false), skipSpace_value, value, consumed_append,
      skipSpace_cons (by decide : isSpace ',' = false), readMembers_gap lay.comma_space, tail]
    rfl

end

theorem parse_write (v : Json) : parse (write lay v) = some v := by
  have stops : Stops [] := fun _ none => absurd none (Option.not_mem_none _)
  have back := readValue_write lay v ((write lay v).length + 1) [] (Nat.lt_succ_self _) stops
  rw [append_nil] at back
  rw [parse, back]
  rfl

theorem parseObject_write (ms : List (String × Json)) :
    parseObject (write lay (.obj ms)) = some (ms.map (Member.written lay)) := by
  cases ms with
  | nil => rfl
  | cons m ms =>
    obtain ⟨k, v⟩ := m
    have size : (write lay (.obj ((k, v) :: ms))).length =
        (writeMembers lay ((k, v) :: ms)).length + 2 := by
      rw [write, length_append, length_cons, length_singleton]
    have members := readMembers_write lay k v ms ((write lay (.obj ((k, v) :: ms))).length + 1) []
      (by omega)
    obtain ⟨text, eq⟩ := writeMembers_cons lay k v ms
    rw [eq, cons_append] at members
    rw [parseObject]
    have written : write lay (.obj ((k, v) :: ms)) = '{' :: '"' :: (text ++ ['}']) := by
      rw [write, eq, cons_append, cons_append]
    rw [written] at members ⊢
    simp only [skipSpace_cons (by decide : isSpace '{' = false),
      skipSpace_cons (by decide : isSpace '"' = false), members]
    rfl

end

mutual

def separators : Json → ℕ
  | .null | .bool _ | .int _ | .str _ => 0
  | .arr items => itemSeparators items
  | .obj members => memberSeparators members

def itemSeparators : List Json → ℕ
  | [] => 0
  | [v] => separators v
  | v :: vs => separators v + 1 + itemSeparators vs

def memberSeparators : List (String × Json) → ℕ
  | [] => 0
  | [(_, v)] => 1 + separators v
  | (_, v) :: ms => 1 + separators v + 1 + memberSeparators ms

end

theorem itemSeparators_two (v w : Json) (vs : List Json) :
    itemSeparators (v :: w :: vs) = separators v + 1 + itemSeparators (w :: vs) := by
  rw [itemSeparators]
  exact cons_ne_nil w vs

theorem memberSeparators_two (k : String) (v : Json) (m : String × Json)
    (ms : List (String × Json)) :
    memberSeparators ((k, v) :: m :: ms) = 1 + separators v + 1 + memberSeparators (m :: ms) := by
  rw [memberSeparators]
  exact cons_ne_nil m ms

mutual

theorem length_write_spaced : ∀ v : Json,
    (write spaced v).length = (write compact v).length + separators v
  | .null | .bool true | .bool false | .int _ | .str _ => by simp [write, separators]
  | .arr items => by
    simp only [write, separators, length_append, length_cons,
      length_writeItems_spaced]
    omega
  | .obj members => by
    simp only [write, separators, length_append, length_cons,
      length_writeMembers_spaced]
    omega

theorem length_writeItems_spaced : ∀ vs : List Json,
    (writeItems spaced vs).length = (writeItems compact vs).length + itemSeparators vs
  | [] => by simp [writeItems, itemSeparators]
  | [v] => by simp only [writeItems, itemSeparators, length_write_spaced]
  | v :: w :: vs => by
    simp only [writeItems_two, itemSeparators_two, length_append, length_cons,
      length_write_spaced, length_writeItems_spaced, spaced_comma, compact_comma]
    omega

theorem length_writeMembers_spaced : ∀ ms : List (String × Json),
    (writeMembers spaced ms).length = (writeMembers compact ms).length + memberSeparators ms
  | [] => by simp [writeMembers, memberSeparators]
  | [(k, v)] => by
    simp only [writeMembers, memberSeparators, length_append, length_cons,
      length_write_spaced, spaced_colon, compact_colon]
    omega
  | (k, v) :: m :: ms => by
    simp only [writeMembers_two, memberSeparators_two, length_append, length_cons,
      length_write_spaced, length_writeMembers_spaced, spaced_comma, spaced_colon,
      compact_comma, compact_colon]
    omega

end

mutual

theorem write_unseparated (lay lay' : Layout) : ∀ v : Json, separators v = 0 →
    write lay v = write lay' v
  | .null, _ | .bool true, _ | .bool false, _ | .int _, _ | .str _, _ => by simp only [write]
  | .arr items, zero => by
    rw [separators] at zero
    rw [write, write, writeItems_unseparated lay lay' items zero]
  | .obj [], _ => by simp only [write, writeMembers]
  | .obj [(k, v)], positive => by
    rw [separators, memberSeparators] at positive
    omega
  | .obj ((k, v) :: m :: ms), positive => by
    rw [separators, memberSeparators_two] at positive
    omega

theorem writeItems_unseparated (lay lay' : Layout) : ∀ vs : List Json, itemSeparators vs = 0 →
    writeItems lay vs = writeItems lay' vs
  | [], _ => by simp only [writeItems]
  | [v], zero => by
    rw [itemSeparators] at zero
    rw [writeItems, writeItems, write_unseparated lay lay' v zero]
  | v :: w :: vs, positive => by
    rw [itemSeparators_two] at positive
    omega

end

theorem write_spaced_iff (v : Json) : write spaced v = write compact v ↔ separators v = 0 := by
  constructor
  · intro eq
    have lengths := length_write_spaced v
    rw [eq] at lengths
    omega
  · exact write_unseparated spaced compact v

mutual

def sortKeys : Json → Json
  | .null => .null
  | .bool b => .bool b
  | .int n => .int n
  | .str s => .str s
  | .arr items => .arr (sortItems items)
  | .obj members => .obj ((sortMembers members).mergeSort fun a b => decide (a.1 ≤ b.1))

def sortItems : List Json → List Json
  | [] => []
  | v :: vs => sortKeys v :: sortItems vs

def sortMembers : List (String × Json) → List (String × Json)
  | [] => []
  | (k, v) :: ms => (k, sortKeys v) :: sortMembers ms

end

theorem memberSeparators_eq (ms : List (String × Json)) :
    memberSeparators ms = (ms.map fun m => 2 + separators m.2).sum - 1 := by
  induction ms with
  | nil => simp [memberSeparators]
  | cons m ms ih =>
    cases ms with
    | nil =>
      simp only [memberSeparators, map_cons, map_nil, sum_cons, sum_nil]
      omega
    | cons m' ms =>
      rw [memberSeparators_two, ih]
      simp only [map_cons, sum_cons]
      omega

mutual

theorem separators_sortKeys : ∀ v : Json, separators (sortKeys v) = separators v
  | .null | .bool _ | .int _ | .str _ => by rw [sortKeys]
  | .arr items => by rw [sortKeys, separators, separators, itemSeparators_sort]
  | .obj members => by
    rw [sortKeys, separators, separators, memberSeparators_eq,
      ((mergeSort_perm ..).map _).sum_eq, ← memberSeparators_eq, memberSeparators_sort]

theorem itemSeparators_sort : ∀ vs : List Json, itemSeparators (sortItems vs) = itemSeparators vs
  | [] => by rw [sortItems]
  | [v] => by simp only [sortItems, itemSeparators, separators_sortKeys]
  | v :: w :: vs => by
    have tail := itemSeparators_sort (w :: vs)
    rw [sortItems] at tail
    rw [sortItems, sortItems, itemSeparators_two, itemSeparators_two, separators_sortKeys, tail]

theorem memberSeparators_sort : ∀ ms : List (String × Json),
    memberSeparators (sortMembers ms) = memberSeparators ms
  | [] => by rw [sortMembers]
  | [(k, v)] => by simp only [sortMembers, memberSeparators, separators_sortKeys]
  | (k, v) :: (k', w) :: ms => by
    have tail := memberSeparators_sort ((k', w) :: ms)
    rw [sortMembers] at tail
    rw [sortMembers, sortMembers, memberSeparators_two, memberSeparators_two,
      separators_sortKeys, tail]

end

end JsonTexts
