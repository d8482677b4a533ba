import Mathlib.Data.List.TakeWhile
import Ares.LineageNodes

/-! `swiftmanifest.go` blanks out the comments of a Swift manifest, looks for the calls of a method,
and searches their arguments with regular expressions. A manifest is the bytes of its file. -/

namespace SwiftScanner

open LineageNodes List

abbrev Text := List UInt8

abbrev quote : UInt8 := 0x22
abbrev hash : UInt8 := 0x23
abbrev star : UInt8 := 0x2A
abbrev slash : UInt8 := 0x2F
abbrev backslash : UInt8 := 0x5C
abbrev feed : UInt8 := 0x0A
abbrev space : UInt8 := 0x20

inductive ScanError where
  | multilineString
  | unterminatedString
  | unterminatedRawString
  | unterminatedComment
  | unbalancedParentheses
  deriving DecidableEq

def ScanError.text : ScanError → String
  | .multilineString => "multiline string literal is not permitted"
  | .unterminatedString => "unterminated string literal"
  | .unterminatedRawString => "unterminated raw string literal"
  | .unterminatedComment => "unterminated block comment"
  | .unbalancedParentheses => "unbalanced parentheses"

def ordinaryEnd : Text → Option (Text × Text)
  | [] => none
  | c :: rest =>
    if c = backslash then
      match rest with
      | [] => none
      | escaped :: rest => (ordinaryEnd rest).map fun (lit, after) => (c :: escaped :: lit, after)
    else if c = quote then some ([c], rest)
    else (ordinaryEnd rest).map fun (lit, after) => (c :: lit, after)

def rawEnd (hashes : Text) : Text → Option (Text × Text)
  | [] => none
  | c :: rest =>
    if c = quote ∧ hashes.isPrefixOf rest then some (c :: hashes, rest.drop hashes.length)
    else (rawEnd hashes rest).map fun (lit, after) => (c :: lit, after)

def swiftStringEnd (text : Text) : Except ScanError (Option (Text × Text)) :=
  let hashes := text.takeWhile (· = hash)
  match text.dropWhile (· = hash) with
  | [] => .ok none
  | c :: rest =>
    if c ≠ quote then .ok none
    else if [quote, quote].isPrefixOf rest then .error .multilineString
    else if hashes = [] then
      match ordinaryEnd rest with
      | none => .error .unterminatedString
      | some (lit, after) => .ok (some (c :: lit, after))
    else
      match rawEnd hashes rest with
      | none => .error .unterminatedRawString
      | some (lit, after) => .ok (some (hashes ++ c :: lit, after))

def blankOut (c : UInt8) : UInt8 := if c = feed then feed else space

def prepend (out : Text) : Except ScanError Text → Except ScanError Text := Except.map (out ++ ·)

/-- The loop of `stripSwiftComments` inside `depth` block comments. Every turn reads a character, so
the length of the text is fuel enough. -/
def stripFrom : ℕ → ℕ → Text → Except ScanError Text
  | _, 0, [] => .ok []
  | _, _ + 1, [] => .error .unterminatedComment
  | 0, _, _ :: _ => .ok []
  | fuel + 1, depth + 1, c :: rest =>
    if [slash, star].isPrefixOf (c :: rest) then
      prepend [space, space] (stripFrom fuel (depth + 2) (rest.drop 1))
    else if [star, slash].isPrefixOf (c :: rest) then
      prepend [space, space] (stripFrom fuel depth (rest.drop 1))
    else prepend [blankOut c] (stripFrom fuel (depth + 1) rest)
  | fuel + 1, 0, c :: rest =>
    match swiftStringEnd (c :: rest) with
    | .error e => .error e
    | .ok (some (lit, after)) => prepend lit (stripFrom fuel 0 after)
    | .ok none =>
      if [slash, slash].isPrefixOf (c :: rest) then
        prepend (((c :: rest).takeWhile (· ≠ feed)).map fun _ => space)
          (stripFrom fuel 0 ((c :: rest).dropWhile (· ≠ feed)))
      else if [slash, star].isPrefixOf (c :: rest) then
        prepend [space, space] (stripFrom fuel 1 (rest.drop 1))
      else prepend [c] (stripFrom fuel 0 rest)

def stripSwiftComments (raw : Text) : Except ScanError Text := stripFrom raw.length 0 raw

def swiftBalancedCallEnd : ℕ → ℕ → Text → Except ScanError (Text × Text)
  | _, _, [] => .error .unbalancedParentheses
  | 0, _, _ :: _ => .error .unbalancedParentheses
  | fuel + 1, depth, c :: rest =>
    match swiftStringEnd (c :: rest) with
    | .error e => .error e
    | .ok (some (lit, after)) =>
      (swiftBalancedCallEnd fuel depth after).map fun (args, behind) => (lit ++ args, behind)
    | .ok none =>
      if c = 0x29 ∧ depth = 1 then .ok ([], rest)
      else
        (swiftBalancedCallEnd fuel
          (if c = 0x28 then depth + 1 else if c = 0x29 then depth - 1 else depth) rest).map
            fun (args, behind) => (c :: args, behind)

def isBlank (c : UInt8) : Bool := c = space || c = 0x09 || c = feed || c = 0x0D

def callOpen (token : String) (text : Text) : Option Text :=
  if (utf8 token).isPrefixOf text then
    match (text.drop (utf8 token).length).dropWhile isBlank with
    | c :: args => if c = 0x28 then some args else none
    | [] => none
  else none

inductive CallError where
  | scan (e : ScanError)
  | unterminatedCall (token : String) (e : ScanError)
  deriving DecidableEq

def swiftCallsFrom (token : String) : ℕ → Text → Except CallError (List Text)
  | _, [] => .ok []
  | 0, _ :: _ => .ok []
  | fuel + 1, c :: rest =>
    match swiftStringEnd (c :: rest) with
    | .error e => .error (.scan e)
    | .ok (some (_, after)) => swiftCallsFrom token fuel after
    | .ok none =>
      match callOpen token (c :: rest) with
      | none => swiftCallsFrom token fuel rest
      | some start =>
        match swiftBalancedCallEnd start.length 1 start with
        | .error e => .error (.unterminatedCall token e)
        | .ok (args, behind) => (swiftCallsFrom token fuel behind).map (args :: ·)

def swiftCalls (raw : Text) (token : String) : Except CallError (List Text) :=
  swiftCallsFrom token raw.length raw

def isSpace (c : UInt8) : Bool := c = 0x09 || c = feed || c = 0x0C || c = 0x0D || c = space

def isDigit (c : UInt8) : Bool := 0x30 ≤ c && c ≤ 0x39

def isWord (c : UInt8) : Bool :=
  (0x41 ≤ c && c ≤ 0x5A) || (0x61 ≤ c && c ≤ 0x7A) || isDigit c || c = 0x5F

def isLabel : Text → Bool
  | [] => false
  | c :: _ => !isDigit c

def after? (c : UInt8) : Text → Option Text
  | [] => none
  | d :: rest => if d = c then some rest else none

/-- The part of `literalNamedArgument` behind `(?:^|,)`: label, value and what follows. No two
neighbouring classes of the expression share a byte, so each repetition is as long as it can be. -/
def namedArgument (text : Text) : Option (Text × Text × Text) := do
  let text := text.dropWhile isSpace
  let label := text.takeWhile isWord
  let text ← after? 0x3A ((text.dropWhile isWord).dropWhile isSpace)
  let text ← after? quote (text.dropWhile isSpace)
  let rest ← after? quote (text.dropWhile fun c => c ≠ quote ∧ c ≠ backslash)
  if isLabel label then some (label, text.takeWhile (fun c => c ≠ quote ∧ c ≠ backslash), rest)
  else none

def matchAt (start : Bool) (text : Text) : Option (Text × Text × Text) :=
  (if start then namedArgument text else none).or ((after? 0x2C text).bind namedArgument)

/-- `FindAllStringSubmatch` of `literalNamedArgument`. A match ends `skip` bytes further on; the
next one is searched behind it. -/
def findArguments : ℕ → Bool → Text → List (Text × Text)
  | _, _, [] => []
  | skip + 1, _, _ :: rest => findArguments skip false rest
  | 0, start, c :: rest =>
    match matchAt start (c :: rest) with
    | some (label, value, behind) =>
      (label, value) :: findArguments (rest.length - behind.length) false rest
    | none => findArguments 0 false rest

def localPathAt (text : Text) : Bool :=
  let text := text.dropWhile isSpace
  (utf8 "path").isPrefixOf text && ((text.drop 4).dropWhile isSpace).head? = some 0x3A

def localPathArgument (text : Text) : Bool :=
  localPathAt text || text.tails.any fun behind => ((after? 0x2C behind).map localPathAt).getD false

def requiredBridgeTargetName : String := "COpenFHEBridge"

def requiredBridgeTargetPath : String := "Artifacts/AresPrivacyCore.xcframework"

def forbiddenSwiftManifestSubstrings : List String :=
  ["ProcessInfo.processInfo.environment", "getenv(", "file://", "/usr/local", "/opt/homebrew",
    "ARES_OPENFHE", "ARES_CORE_SWIFT_PATH"]

def contains (text : Text) (part : String) : Bool := text.tails.any ((utf8 part).isPrefixOf ·)

inductive GateError where
  | cannotBeInspected (e : ScanError)
  | forbidden (part : String)
  | calls (e : CallError)
  | localPath (call : Text)
  | fileURL (call : Text)
  | missing
  | declared (n : ℕ)
  | wrongPath (got : Text)
  deriving DecidableEq

def swiftLiteralArgument (call : Text) (want : String) : Text :=
  ((findArguments 0 true call).lookup (utf8 want)).getD []

def checkPackageCalls : List Text → Except GateError Unit
  | [] => .ok ()
  | call :: calls =>
    if localPathArgument call then .error (.localPath call)
    else if contains call "file://" then .error (.fileURL call)
    else checkPackageCalls calls

def rejectLocalPackagePathDependencies (raw : Text) : Except GateError Unit :=
  match swiftCalls raw ".package" with
  | .error e => .error (.calls e)
  | .ok calls => checkPackageCalls calls

def requireStagedBridgeTarget (raw : Text) : Except GateError Unit :=
  match swiftCalls raw ".binaryTarget" with
  | .error e => .error (.calls e)
  | .ok calls =>
    match calls.filter (swiftLiteralArgument · "name" = utf8 requiredBridgeTargetName) with
    | [] => .error .missing
    | [call] =>
      let got := swiftLiteralArgument call "path"
      if got ≠ utf8 requiredBridgeTargetPath then .error (.wrongPath got) else .ok ()
    | bridgeCalls => .error (.declared bridgeCalls.length)

def checkSwiftReleaseManifest (raw : Text) : Except GateError Unit :=
  match stripSwiftComments raw with
  | .error e => .error (.cannotBeInspected e)
  | .ok active =>
    match forbiddenSwiftManifestSubstrings.find? (contains active) with
    | some part => .error (.forbidden part)
    | none =>
      match rejectLocalPackagePathDependencies active with
      | .error e => .error e
      | .ok () => requireStagedBridgeTarget active

variable {text lit after : Text}

theorem ordinaryEnd_append (found : ordinaryEnd text = some (lit, after)) :
    text = lit ++ after ∧ ∀ after', ordinaryEnd (lit ++ after') = some (lit, after') := by
  fun_induction ordinaryEnd text generalizing lit with
  | case1 | case2 => cases found
  | case3 escaped rest ih =>
    obtain ⟨⟨lit', _⟩, tail, eq⟩ := Option.map_eq_some_iff.mp found
    cases eq
    obtain ⟨rfl, stable⟩ := ih tail
    refine ⟨rfl, fun after' => ?_⟩
    rw [cons_append, cons_append, ordinaryEnd, if_pos rfl]
    simp [stable]
  | case4 rest =>
    cases found
    refine ⟨rfl, fun after' => ?_⟩
    rw [singleton_append, ordinaryEnd.eq_def]
    rfl
  | case5 c rest escapes quoted ih =>
    obtain ⟨⟨lit', _⟩, tail, eq⟩ := Option.map_eq_some_iff.mp found
    cases eq
    obtain ⟨rfl, stable⟩ := ih tail
    refine ⟨rfl, fun after' => ?_⟩
    rw [cons_append, ordinaryEnd.eq_def]
    simp only [if_neg escapes, if_neg quoted, stable, Option.map_some]

theorem rawEnd_append {hashes : Text} (found : rawEnd hashes text = some (lit, after)) :
    text = lit ++ after ∧ hashes.length < lit.length ∧
      ∀ after', rawEnd hashes (lit ++ after') = some (lit, after') := by
  induction text generalizing lit with
  | nil => cases found
  | cons c rest ih =>
    rw [rawEnd] at found
    by_cases closing : c = quote ∧ hashes.isPrefixOf rest
    · rw [if_pos closing] at found
      cases found
      obtain ⟨rfl, starts⟩ := closing
      obtain ⟨rest, rfl⟩ := isPrefixOf_iff_prefix.mp starts
      rw [drop_left]
      refine ⟨rfl, Nat.lt_succ_self _, fun after' => ?_⟩
      have starts : hashes.isPrefixOf (hashes ++ after') :=
        isPrefixOf_iff_prefix.mpr (prefix_append _ _)
      rw [cons_append, rawEnd, if_pos ⟨rfl, starts⟩, drop_left]
    · rw [if_neg closing] at found
      obtain ⟨⟨lit', _⟩, tail, eq⟩ := Option.map_eq_some_iff.mp found
      cases eq
      obtain ⟨rfl, long, stable⟩ := ih tail
      refine ⟨rfl, Nat.lt_succ_of_lt long, fun after' => ?_⟩
      have open' : ¬ (c = quote ∧ hashes.isPrefixOf (lit' ++ after')) := by
        rintro ⟨quoted, starts⟩
        refine closing ⟨quoted, isPrefixOf_iff_prefix.mpr ?_⟩
        have inside := prefix_of_prefix_length_le ( isPrefixOf_iff_prefix.mp starts)
            (prefix_append _ _) long.le
        exact inside.trans (prefix_append _ _)
      rw [cons_append, rawEnd, if_neg open', stable]
      rfl

def closing (n : ℕ) (text : Text) : Option (Text × Text) :=
  if n = 0 then ordinaryEnd text else rawEnd (List.replicate n hash) text

theorem closing_append {n : ℕ} (found : closing n text = some (lit, after)) :
    text = lit ++ after ∧ ∀ after', closing n (lit ++ after') = some (lit, after') := by
  by_cases ordinary : n = 0
  · simp only [closing, if_pos ordinary] at found ⊢
    exact ordinaryEnd_append found
  · simp only [closing, if_neg ordinary] at found ⊢
    exact ⟨(rawEnd_append found).1, (rawEnd_append found).2.2⟩

theorem exists_hashes (text : Text) :
    ∃ n rest, text = List.replicate n hash ++ rest ∧ rest.head? ≠ some hash := by
  induction text with
  | nil => exact ⟨0, [], rfl, by simp⟩
  | cons c text ih =>
    by_cases hashed : c = hash
    · obtain ⟨n, rest, rfl, other⟩ := ih
      exact ⟨n + 1, rest, by rw [hashed]; rfl, other⟩
    · exact ⟨0, c :: text, rfl, by simpa using hashed⟩

variable {rest : Text}

theorem takeWhile_hashes {n : ℕ} (other : rest.head? ≠ some hash) :
    (List.replicate n hash ++ rest).takeWhile (· = hash) = List.replicate n hash ∧
      (List.replicate n hash ++ rest).dropWhile (· = hash) = rest := by
  cases rest with
  | nil => simp
  | cons c rest =>
    have hashed : c ≠ hash := by simpa using other
    simp [hashed]

theorem swiftStringEnd_other {n : ℕ} (hashed : rest.head? ≠ some hash)
    (quoted : rest.head? ≠ some quote) : swiftStringEnd (List.replicate n hash ++ rest) =
      .ok none := by
  obtain ⟨taken, dropped⟩ := takeWhile_hashes (n := n) hashed
  simp only [swiftStringEnd, dropped]
  cases rest with
  | nil => rfl
  | cons c rest =>
    have other : c ≠ quote := by simpa using quoted
    exact if_pos other

theorem swiftStringEnd_quote (n : ℕ) (rest : Text) :
    swiftStringEnd (List.replicate n hash ++ quote :: rest) =
      if [quote, quote].isPrefixOf rest then .error .multilineString
      else match closing n rest with
        | none => .error (if n = 0 then .unterminatedString else .unterminatedRawString)
        | some (lit, after) => .ok (some (List.replicate n hash ++ quote :: lit, after)) := by
  have other : (quote :: rest).head? ≠ some hash := by simp [quote, hash]
  obtain ⟨taken, dropped⟩ := takeWhile_hashes (n := n) other
  simp only [swiftStringEnd, dropped, taken, ne_eq, not_true, if_false, closing,
    replicate_eq_nil_iff]
  by_cases multiline : [quote, quote].isPrefixOf rest
  · rw [if_pos multiline, if_pos multiline]
  · by_cases ordinary : n = 0
    · simp only [ordinary]
      cases ordinaryEnd rest with
      | none | some end' => rfl
    · cases rawEnd (List.replicate n hash) rest with
      | none | some end' => simp only [if_neg ordinary]

theorem swiftStringEnd_eq_none :
    swiftStringEnd text = .ok none ↔ (text.dropWhile (· = hash)).head? ≠ some quote := by
  obtain ⟨n, rest, rfl, hashed⟩ := exists_hashes text
  rw [(takeWhile_hashes hashed).2]
  by_cases quoted : rest.head? = some quote
  · obtain ⟨rest, rfl⟩ := List.head?_eq_some_iff.mp quoted
    rw [swiftStringEnd_quote]
    refine iff_of_false (fun eq => ?_) (fun ne => ne rfl)
    by_cases multiline : [quote, quote].isPrefixOf rest
    · rw [if_pos multiline] at eq
      cases eq
    · rw [if_neg multiline] at eq
      cases ended : closing n rest with
      | none | some found =>
        rw [ended] at eq
        cases eq
  · exact iff_of_true (swiftStringEnd_other hashed quoted) quoted

theorem twoQuotes_append {body after' : Text} (nonempty : body ≠ [])
    (head : after'.head? = some quote → after.head? = some quote)
    (two : [quote, quote].isPrefixOf (body ++ after')) :
    [quote, quote].isPrefixOf (body ++ after) := by
  match body with
  | [] => exact absurd rfl nonempty
  | [c] =>
    match after' with
    | [] => simp at two
    | d :: after' =>
      have quotes : quote = c ∧ quote = d := by simpa using two
      obtain ⟨behind, rfl⟩ := List.head?_eq_some_iff.mp (head (by rw [← quotes.2]; rfl))
      simp [← quotes.1]
  | c :: d :: body => simpa using two

theorem closing_nil (n : ℕ) : closing n [] = none := by
  by_cases ordinary : n = 0
  · rw [closing, if_pos ordinary, ordinaryEnd]
  · rw [closing, if_neg ordinary, rawEnd]

theorem swiftStringEnd_append (found : swiftStringEnd text = .ok (some (lit, after))) :
    text = lit ++ after ∧ (lit.head? = some quote ∨ lit.head? = some hash) ∧
      ∀ after', (after'.head? = some quote → after.head? = some quote) →
        swiftStringEnd (lit ++ after') = .ok (some (lit, after')) := by
  obtain ⟨n, rest, rfl, hashed⟩ := exists_hashes text
  by_cases quoted : rest.head? = some quote
  · obtain ⟨rest, rfl⟩ := List.head?_eq_some_iff.mp quoted
    rw [swiftStringEnd_quote] at found
    by_cases multiline : [quote, quote].isPrefixOf rest
    · rw [if_pos multiline] at found
      cases found
    · rw [if_neg multiline] at found
      cases ended : closing n rest with
      | none =>
        rw [ended] at found
        cases found
      | some pair =>
        obtain ⟨body, behind⟩ := pair
        rw [ended] at found
        cases found
        obtain ⟨rfl, stable⟩ := closing_append ended
        refine ⟨by simp, ?_, fun after' head => ?_⟩
        · cases n with
          | zero => exact .inl rfl
          | succ n => exact .inr rfl
        · have nonempty : body ≠ [] := by
            rintro rfl
            have none := closing_nil n
            rw [← nil_append [], stable] at none
            cases none
          have single := fun two => multiline (twoQuotes_append nonempty head two)
          rw [append_assoc, cons_append, swiftStringEnd_quote, if_neg single, stable]
  · rw [swiftStringEnd_other hashed quoted] at found
    cases found

variable {c : UInt8}

theorem swiftStringEnd_chr (quoted : c ≠ quote) (hashed : c ≠ hash) (rest : Text) :
    swiftStringEnd (c :: rest) = .ok none := by
  rw [swiftStringEnd_eq_none, dropWhile_cons_of_neg (by simpa using hashed)]
  simpa using quoted

theorem swiftStringEnd_hash (rest : Text) :
    swiftStringEnd (hash :: rest) = .ok none ↔ swiftStringEnd rest = .ok none := by
  rw [swiftStringEnd_eq_none, swiftStringEnd_eq_none, dropWhile_cons_of_pos rfl]

theorem ne_quote_of_none (free : swiftStringEnd (c :: rest) = .ok none) : c ≠ quote := by
  rintro rfl
  exact swiftStringEnd_eq_none.mp free rfl

variable {active : Text} {fuel : ℕ}

theorem prepend_eq_ok {out : Text} {rest : Except ScanError Text} :
    prepend out rest = .ok active ↔ ∃ tail, rest = .ok tail ∧ active = out ++ tail := by
  cases rest with
  | error e => simp [prepend, Except.map]
  | ok tail => simp [prepend, Except.map, eq_comm]

theorem stripFrom_nil (fuel : ℕ) : stripFrom fuel 0 [] = .ok [] := by
  cases fuel with
  | zero | succ fuel => rfl

theorem length_of_literal (found : swiftStringEnd text = .ok (some (lit, after))) :
    after.length < text.length := by
  obtain ⟨rfl, head, -⟩ := swiftStringEnd_append found
  cases lit with
  | nil => simp at head
  | cons c lit =>
    rw [length_append, length_cons]
    omega

theorem head_of_slash {c d : UInt8} (starts : [c, d].isPrefixOf text) :
    ∃ rest, text = c :: d :: rest := by
  obtain ⟨rest, rfl⟩ := isPrefixOf_iff_prefix.mp starts
  exact ⟨rest, rfl⟩

theorem blankOut_cases (c : UInt8) : blankOut c = space ∨ blankOut c = feed := by
  by_cases ends : c = feed
  · exact .inr (if_pos ends)
  · exact .inl (if_neg ends)

theorem swiftStringEnd_blankOut (c : UInt8) (rest : Text) :
    swiftStringEnd (blankOut c :: rest) = .ok none := by
  rcases blankOut_cases c with eq | eq
  · exact eq ▸ swiftStringEnd_chr (c := space) (by decide) (by decide) _
  · exact eq ▸ swiftStringEnd_chr (c := feed) (by decide) (by decide) _

theorem length_of_line (slashes : [slash, slash].isPrefixOf text) :
    (text.dropWhile (· ≠ feed)).length < text.length := by
  obtain ⟨rest, rfl⟩ := head_of_slash slashes
  have shorter := (dropWhile_suffix (l := rest) (· ≠ feed)).length_le
  rw [dropWhile_cons_of_pos rfl, dropWhile_cons_of_pos rfl, length_cons,
    length_cons]
  omega

end SwiftScanner
