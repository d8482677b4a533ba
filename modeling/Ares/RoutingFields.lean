import Ares.JsonTexts

/-! The Kotlin client finds the routing fields of a frame with regular expressions over its whole
text, the Swift client in the decoded object. -/

namespace RoutingFields

open JsonTexts List

abbrev Text := List Char

/-- A member's value; `raw` is JSON text that is copied, a payload or a lineage node. -/
inductive Value where
  | str (s : String)
  | num (n : ℤ)
  | raw (text : Text)

structure WSMessage where
  version : String
  type : String
  sessionID : String
  seq : ℤ
  payload : Option Text
  timestamp : String
  lineage : Option Text

def WSMessage.members (m : WSMessage) : List (String × Value) :=
  (if m.version = "" then [] else [("version", .str m.version)]) ++
  [("type", .str m.type)] ++
  (if m.sessionID = "" then [] else [("session_id", .str m.sessionID)]) ++
  (if m.seq = 0 then [] else [("seq", .num m.seq)]) ++
  m.payload.toList.map (fun text => ("payload", Value.raw text)) ++
  [("timestamp", .str m.timestamp)] ++
  m.lineage.toList.map fun text => ("lineage", Value.raw text)

/-- What `json.Marshal` writes as it is, in a string. -/
def isPlain (c : Char) : Bool :=
  ' ' ≤ c && c ∉ ['"', '\\', '<', '>', '&'] && c.toNat ≠ 0x2028 && c.toNat ≠ 0x2029

def escape (c : Char) : Text :=
  if isPlain c then [c]
  else match shortEscapes.lookup c with
  | some short => ['\\', short]
  | none => ['\\', 'u'] ++ hex4 c.toNat

def quote (s : String) : Text := '"' :: s.toList.flatMap escape ++ ['"']

def Value.text : Value → Text
  | .str s => quote s
  | .num n => writeInt n
  | .raw text => text

def memberText (m : String × Value) : Text := quote m.1 ++ ':' :: m.2.text

/-- The whitespace `\s` stands for. -/
def isBlank (c : Char) : Bool := c ∈ [' ', '\t', '\n', '\r', Char.ofNat 11, Char.ofNat 12]

def digits (text : Text) : Option ℕ :=
  let run := text.takeWhile Char.isDigit
  if run = [] then none else some (Nat.ofDigitChars 10 run 0)

def toLongOrNull (n : ℤ) : Option ℤ := if -2 ^ 63 ≤ n ∧ n < 2 ^ 63 then some n else none

/-- `(-?\d+)`, and what `toLongOrNull` makes of it. -/
def number : Text → Option (Option ℤ)
  | '-' :: rest => (digits rest).map fun n => toLongOrNull (-(n : ℤ))
  | text => (digits text).map fun n => toLongOrNull (n : ℤ)

/-- A name or value without characters that JSON escapes. -/
def Plain (s : String) : Prop := s.toList.all isPlain = true

instance (s : String) : Decidable (Plain s) := inferInstanceAs (Decidable (_ = true))

section Scan

variable {key k s : String} {α : Type} {value : Text → Option α} {l tail rest : Text}

end Scan

def WSMessage.others (m : WSMessage) : List (String × Value) :=
  m.payload.toList.map (fun text => ("payload", Value.raw text)) ++
    [("timestamp", .str m.timestamp)] ++
    m.lineage.toList.map fun text => ("lineage", Value.raw text)

/-- The text behind the routing fields. -/
def WSMessage.trailer (m : WSMessage) : Text :=
  [','].intercalate (m.others.map memberText) ++ ['}']

def WSMessage.header (m : WSMessage) : Text :=
  (if m.sessionID = "" then [] else memberText ("session_id", .str m.sessionID) ++ [',']) ++
    ((if m.seq = 0 then [] else memberText ("seq", .num m.seq) ++ [',']) ++ m.trailer)

section Fields

variable {key : String} {α : Type} {value : Text → Option α} (m : WSMessage)

end Fields

def offer (sessionID : String) (seq : ℤ) (payload : String) : WSMessage where
  version := ""
  type := "offer"
  sessionID := sessionID
  seq := seq
  payload := some payload.toList
  timestamp := "now"
  lineage := none

end RoutingFields
