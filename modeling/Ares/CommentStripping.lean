import Mathlib.Data.List.Forall2
import Ares.SwiftScanner

/-! What `stripSwiftComments` leaves of a text, piece by piece. -/

namespace CommentStripping

open LineageNodes SwiftScanner List

inductive Piece where
  | literal (text : Text)
  | comment (text : Text)
  | code (c : UInt8)

def Piece.source : Piece → Text
  | .literal text | .comment text => text
  | .code c => [c]

def Piece.printed : Piece → Text
  | .literal text => text
  | .comment text => text.map blankOut
  | .code c => [c]

/-- The pieces the scanner sees in a text that begins inside `depth` block comments. -/
inductive Reads : ℕ → Text → List Piece → Prop where
  | done : Reads 0 [] []
  | opening {d rest ps} (more : Reads (d + 2) rest ps) :
      Reads (d + 1) (slash :: star :: rest) (.comment [slash, star] :: ps)
  | closing {d rest ps} (more : Reads d rest ps) :
      Reads (d + 1) (star :: slash :: rest) (.comment [star, slash] :: ps)
  | inside {d c rest ps} (opening : ¬ [slash, star].isPrefixOf (c :: rest))
      (closing : ¬ [star, slash].isPrefixOf (c :: rest)) (more : Reads (d + 1) rest ps) :
      Reads (d + 1) (c :: rest) (.comment [c] :: ps)
  | literal {text lit after ps} (found : swiftStringEnd text = .ok (some (lit, after)))
      (more : Reads 0 after ps) : Reads 0 text (.literal lit :: ps)
  | line {text ps} (free : swiftStringEnd text = .ok none)
      (slashes : [slash, slash].isPrefixOf text)
      (more : Reads 0 (text.dropWhile (· ≠ feed)) ps) :
      Reads 0 text (.comment (text.takeWhile (· ≠ feed)) :: ps)
  | block {rest ps} (more : Reads 1 rest ps) :
      Reads 0 (slash :: star :: rest) (.comment [slash, star] :: ps)
  | code {c rest ps} (free : swiftStringEnd (c :: rest) = .ok none)
      (line : ¬ [slash, slash].isPrefixOf (c :: rest))
      (block : ¬ [slash, star].isPrefixOf (c :: rest))
      (more : Reads 0 rest ps) : Reads 0 (c :: rest) (.code c :: ps)

variable {depth fuel : ℕ} {text active out : Text} {c : UInt8} {ps : List Piece}

theorem Reads.source (reads : Reads depth text ps) : ps.flatMap Piece.source = text := by
  induction reads with
  | done => rfl
  | literal found more ih =>
    rw [(swiftStringEnd_append found).1, flatMap_cons, ih]
    rfl
  | line free slashes more ih =>
    rw [flatMap_cons, ih]
    exact takeWhile_append_dropWhile
  | opening more ih | closing more ih | inside _ _ more ih | block more ih | code _ _ _ more ih =>
    rw [flatMap_cons, ih]
    rfl

def Again (text : Text) : Prop := ∀ fuel, text.length ≤ fuel → stripFrom fuel 0 text = .ok text

theorem Again.cons (again : Again out) (free : swiftStringEnd (c :: out) = .ok none)
    (line : ¬ [slash, slash].isPrefixOf (c :: out))
    (block : ¬ [slash, star].isPrefixOf (c :: out)) :
    Again (c :: out) := by
  intro fuel short
  cases fuel with
  | zero => cases short
  | succ fuel =>
    simp only [stripFrom, free, if_neg line, if_neg block,
      again fuel (Nat.le_of_succ_le_succ short)]
    rfl

theorem Again.blanks (again : Again out) (text : Text) : Again (text.map blankOut ++ out) := by
  induction text with
  | nil => exact again
  | cons c text ih =>
    rw [map_cons, cons_append]
    rcases blankOut_cases c with eq | eq
    · exact ih.cons (swiftStringEnd_blankOut c _) (by simp [eq, slash, space])
        (by simp [eq, slash, space])
    · exact ih.cons (swiftStringEnd_blankOut c _) (by simp [eq, slash, feed])
        (by simp [eq, slash, feed])

theorem Again.literal {lit : Text} (again : Again out)
    (found : swiftStringEnd (lit ++ out) = .ok (some (lit, out))) : Again (lit ++ out) := by
  intro fuel short
  have shorter := length_of_literal found
  cases whole : lit ++ out with
  | nil => simp [whole] at shorter
  | cons c rest =>
    rw [whole] at found short shorter
    cases fuel with
    | zero => cases short
    | succ fuel =>
      simp only [stripFrom, found, again fuel (Nat.le_of_lt_succ (shorter.trans_le short))]
      exact congrArg Except.ok whole

theorem reads_of_strip (short : text.length ≤ fuel)
    (stripped : stripFrom fuel depth text = .ok active) :
    ∃ ps, Reads depth text ps ∧ ps.flatMap Piece.printed = active := by
  fun_induction stripFrom fuel depth text generalizing active with
  | case1 fuel =>
    cases stripped
    exact ⟨[], .done, rfl⟩
  | case2 | case7 => cases stripped
  | case3 => cases short
  | case4 fuel depth c rest opening ih =>
    obtain ⟨rest, shape⟩ := head_of_slash opening
    cases shape
    obtain ⟨out, tail, rfl⟩ := prepend_eq_ok.mp stripped
    obtain ⟨ps, reads, rfl⟩ := ih (Nat.le_of_succ_le (Nat.le_of_succ_le_succ short)) tail
    exact ⟨_, .opening reads, rfl⟩
  | case5 fuel depth c rest _ closing ih =>
    obtain ⟨rest, shape⟩ := head_of_slash closing
    cases shape
    obtain ⟨out, tail, rfl⟩ := prepend_eq_ok.mp stripped
    obtain ⟨ps, reads, rfl⟩ := ih (Nat.le_of_succ_le (Nat.le_of_succ_le_succ short)) tail
    exact ⟨_, .closing reads, rfl⟩
  | case6 fuel depth c rest opening closing ih =>
    obtain ⟨out, tail, rfl⟩ := prepend_eq_ok.mp stripped
    obtain ⟨ps, reads, rfl⟩ := ih (Nat.le_of_succ_le_succ short) tail
    exact ⟨_, .inside opening closing reads, rfl⟩
  | case8 fuel c rest lit after found ih =>
    obtain ⟨out, tail, rfl⟩ := prepend_eq_ok.mp stripped
    have bound := Nat.le_of_lt_succ ((length_of_literal found).trans_le short)
    obtain ⟨ps, reads, rfl⟩ := ih bound tail
    exact ⟨_, .literal found reads, rfl⟩
  | case9 fuel c rest free slashes ih =>
    obtain ⟨out, tail, rfl⟩ := prepend_eq_ok.mp stripped
    obtain ⟨ps, reads, rfl⟩ := ih (Nat.le_of_lt_succ ((length_of_line slashes).trans_le short)) tail
    have blank : ((c :: rest).takeWhile (· ≠ feed)).map blankOut =
        ((c :: rest).takeWhile (· ≠ feed)).map fun _ => space :=
      map_congr_left fun d mem => if_neg (by simpa using mem_takeWhile_imp mem)
    exact ⟨_, .line free slashes reads, congrArg (· ++ _) blank⟩
  | case10 fuel c rest free _ block ih =>
    obtain ⟨rest, shape⟩ := head_of_slash block
    cases shape
    obtain ⟨out, tail, rfl⟩ := prepend_eq_ok.mp stripped
    obtain ⟨ps, reads, rfl⟩ := ih (Nat.le_of_succ_le (Nat.le_of_succ_le_succ short)) tail
    exact ⟨_, .block reads, rfl⟩
  | case11 fuel c rest free line block ih =>
    obtain ⟨out, tail, rfl⟩ := prepend_eq_ok.mp stripped
    obtain ⟨ps, reads, rfl⟩ := ih (Nat.le_of_succ_le_succ short) tail
    exact ⟨_, .code free line block reads, rfl⟩

/-- What is left begins as the text did, or with a blank. -/
theorem Reads.head {d : UInt8} (reads : Reads 0 text ps) (solid : d ≠ space)
    (first : (ps.flatMap Piece.printed).head? = some d) : text.head? = some d := by
  cases reads with
  | done | code => exact first
  | literal found more =>
    obtain ⟨split, head, -⟩ := swiftStringEnd_append found
    rw [flatMap_cons, Piece.printed, head?_append] at first
    rw [split, head?_append]
    rcases head with head | head
    · rwa [head] at first ⊢
    · rwa [head] at first ⊢
  | line free slashes more =>
    obtain ⟨rest, rfl⟩ := head_of_slash slashes
    exact absurd (Option.some.inj first).symm solid
  | block more => exact absurd (Option.some.inj first).symm solid

/-- A character that begins no comment in the text begins none in what is left of it. -/
theorem Reads.starts {d : UInt8} (reads : Reads 0 text ps) (solid : d ≠ space)
    (starts : [slash, d].isPrefixOf (c :: ps.flatMap Piece.printed)) :
    [slash, d].isPrefixOf (c :: text) := by
  obtain ⟨tail, shape⟩ := head_of_slash starts
  obtain ⟨rfl, eq⟩ := List.cons.inj shape
  obtain ⟨rest, rfl⟩ := head?_eq_some_iff.mp (reads.head solid (by rw [eq]; rfl))
  simp

theorem Reads.unquoted (reads : Reads depth text ps)
    (free : depth = 0 → swiftStringEnd text = .ok none) :
    swiftStringEnd (ps.flatMap Piece.printed) = .ok none := by
  induction reads with
  | done => exact free rfl
  | literal found => cases found.symm.trans (free rfl)
  | line _ slashes =>
    obtain ⟨rest, rfl⟩ := head_of_slash slashes
    exact swiftStringEnd_blankOut slash _
  | @code c rest ps free' line block more ih =>
    by_cases hashed : c = hash
    · rw [hashed, swiftStringEnd_hash] at free'
      subst hashed
      exact (swiftStringEnd_hash _).mpr (ih fun _ => free')
    · exact swiftStringEnd_chr (ne_quote_of_none free') hashed _
  | opening | closing | inside | block => exact swiftStringEnd_blankOut _ _

theorem Reads.again (reads : Reads depth text ps) : Again (ps.flatMap Piece.printed) := by
  induction reads with
  | done => exact fun fuel _ => stripFrom_nil fuel
  | literal found more ih =>
    exact ih.literal ((swiftStringEnd_append found).2.2 _ (more.head (by decide)))
  | code free line block more ih =>
    have none := (Reads.code free line block more).unquoted fun _ => free
    exact ih.cons none (mt (more.starts (by decide)) line) (mt (more.starts (by decide)) block)
  | opening more ih | closing more ih | inside _ _ more ih | line _ _ more ih | block more ih =>
    exact ih.blanks _

/-- An output byte is the input byte, or a space for a byte that does not end a line. -/
theorem printed_source (ps : List Piece) :
    Forall₂ (fun c d => d = c ∨ c ≠ feed ∧ d = space) (ps.flatMap Piece.source)
      (ps.flatMap Piece.printed) := by
  induction ps with
  | nil => exact .nil
  | cons p ps ih =>
    refine rel_append ?_ ih
    cases p with
    | literal text | code c => exact forall₂_same.mpr fun _ _ => .inl rfl
    | comment text =>
      refine forall₂_map_right_iff.mpr (forall₂_same.mpr fun c _ => ?_)
      by_cases ends : c = feed
      · exact .inl ((if_pos ends).trans ends.symm)
      · exact .inr ⟨ends, if_neg ends⟩

/-- Stripping keeps the length and the lines: literals and code are copied, comments are blanked,
and doing it again changes nothing. -/
theorem strip_preserves {raw active : Text} (stripped : stripSwiftComments raw = .ok active) :
    active.length = raw.length ∧
    (∃ ps, Reads 0 raw ps ∧ ps.flatMap Piece.source = raw ∧ ps.flatMap Piece.printed = active) ∧
    Forall₂ (fun c d => d = c ∨ c ≠ feed ∧ d = space) raw active ∧
    stripSwiftComments active = .ok active := by
  obtain ⟨ps, reads, rfl⟩ := reads_of_strip le_rfl stripped
  have aligned := printed_source ps
  rw [reads.source] at aligned
  exact ⟨aligned.length_eq.symm, ⟨ps, reads, reads.source, rfl⟩, aligned,
    reads.again _ le_rfl⟩

theorem strip_preserves_sample :
    let raw := utf8 "a/*b\n*/\"//\"//c\n"
    let active := utf8 "a   \n  \"//\"   \n"
    stripSwiftComments raw = .ok active ∧ active.length = raw.length ∧
      stripSwiftComments active = .ok active :=
  have stripped := by decide +kernel
  ⟨stripped, (strip_preserves stripped).1, (strip_preserves stripped).2.2.2⟩

end CommentStripping
