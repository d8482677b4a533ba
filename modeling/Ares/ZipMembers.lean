import Ares.ReleaseBundle

/-! Where the members of an archive that `validateZIPMemberNames` accepts are extracted to. -/

namespace ZipMembers

open FallibleLists LineageNodes ReleaseBundle List

def components (name : Bytes) : List Bytes := (trimSlash name).splitOn 47

/-- The components that `path.Clean` leaves of a path, in order. -/
def resolved (path : Bytes) : List Bytes :=
  ((path.splitOn 47).foldl (cleanStep 46 (path.head? = some 47)) []).reverse

/-- The path a member denotes where case does not count. -/
def folded (name : Bytes) : Bytes := (trimSlash name).map lowerByte

/-- A name that unpacks to the place it names, below the directory. -/
structure Safe (name : Bytes) : Prop where
  relative : name.head? ≠ some 47
  named : ∀ part ∈ components name, part ≠ [] ∧ part ≠ [46] ∧ part ≠ [46, 46]
  inside : components name ≠ [] ∧
    ∀ dest ≠ [], resolved (dest ++ 47 :: name) = resolved dest ++ components name

variable {name : Bytes}

theorem foldl_cleanStep {rooted : Bool} {parts : List Bytes}
    (plain : ∀ part ∈ parts, part ≠ [46] ∧ part ≠ [46, 46]) (out : List Bytes) :
    parts.foldl (cleanStep 46 rooted) out = (parts.filter (· ≠ [])).reverse ++ out := by
  induction parts generalizing out with
  | nil => rfl
  | cons part parts ih =>
    obtain ⟨⟨dot, dots⟩, plain⟩ := forall_mem_cons.mp plain
    by_cases empty : part = []
    · simp [cleanStep, empty, ih plain]
    · simp [cleanStep, empty, dot, dots, ih plain]

/-- What the check of one name lets through. -/
structure Checked (name : Bytes) : Prop where
  backslash : 92 ∉ name
  relative : name.head? ≠ some 47
  nonempty : trimSlash name ≠ []
  canonical : clean 47 46 (trimSlash name) = trimSlash name
  plain : ∀ part ∈ components name, part ≠ [46] ∧ part ≠ [46, 46]

theorem checked_of_ok {u : Unit} (ok : validateZIPMemberName name = .ok u) : Checked name := by
  obtain ⟨-, -, ok⟩ := bind_eq_ok.mp ok
  split at ok
  · cases ok
  simp only [bind_eq_ok, refuse_eq_ok, not_or, not_not] at ok
  obtain ⟨-, -, -, backslash, -, absolute, -, canonical, dots⟩ := ok
  refine ⟨backslash, absolute.1, canonical.1, canonical.2, fun part mem => ⟨?_, ?_⟩⟩
  · rintro rfl
    exact dots.1 mem
  · rintro rfl
    exact dots.2 mem

theorem trimSlash_cases (name : Bytes) : name = trimSlash name ∨ name = trimSlash name ++ [47] := by
  unfold trimSlash
  split_ifs with slash
  · exact .inr (dropLast_append_getLast? 47 slash).symm
  · exact .inl rfl

namespace Checked

variable (checked : Checked name)

include checked

theorem head_trimSlash : (trimSlash name).head? ≠ some 47 := by
  intro slash
  refine checked.relative ?_
  rcases trimSlash_cases name with whole | whole
  · rwa [whole]
  · rw [whole, head?_append, slash]
    rfl

theorem filter_components : (components name).filter (· ≠ []) = components name := by
  have canonical := checked.canonical
  simp only [clean, checked.head_trimSlash, decide_false, if_false] at canonical
  rw [← components, foldl_cleanStep checked.plain, append_nil, reverse_reverse] at canonical
  split_ifs at canonical with none
  · have dot : [46] ∈ components name := by rw [components, ← canonical]; decide
    exact absurd rfl (checked.plain _ dot).1
  · have kept : (components name).filter (· ≠ []) ≠ [] := by
      intro empty
      rw [empty] at none
      exact none rfl
    have whole : ∀ part ∈ components name, 47 ∉ part := ByteStrings.not_mem_of_mem_splitOn _
    have split := splitOn_intercalate 47 (fun part mem => whole part (mem_filter.mp mem).1) kept
    rw [canonical] at split
    exact split.symm

theorem filter_splitOn : (name.splitOn 47).filter (· ≠ []) = components name := by
  rcases trimSlash_cases name with whole | whole
  · have split : name.splitOn 47 = components name := congrArg (splitOn 47) whole
    rw [split, checked.filter_components]
  · have split : name.splitOn 47 = components name ++ [[]] :=
      (congrArg (splitOn 47) whole).trans (splitOn_append_cons_self _ [])
    rw [split, filter_append, checked.filter_components]
    exact append_nil _

theorem safe : Safe name := by
  refine ⟨checked.relative, fun part mem => ?_, splitOn_ne_nil _ _, fun dest nonempty => ?_⟩
  · rw [← checked.filter_components, mem_filter, decide_eq_true_eq] at mem
    exact ⟨mem.2, checked.plain part mem.1⟩
  · have head : (dest ++ 47 :: name).head? = dest.head? := by
      obtain ⟨b, dest, rfl⟩ := exists_cons_of_ne_nil nonempty
      rfl
    have plain : ∀ part ∈ name.splitOn 47, part ≠ [46] ∧ part ≠ [46, 46] := by
      intro part mem
      by_cases empty : part = []
      · simp [empty]
      · refine checked.plain part ?_
        rw [← checked.filter_splitOn]
        exact mem_filter.mpr ⟨mem, decide_eq_true empty⟩
    rw [resolved, splitOn_append_cons_self, foldl_append, foldl_cleanStep plain,
      checked.filter_splitOn, reverse_append, reverse_reverse, head]
    rfl

theorem normalizedZIPMemberName_eq : normalizedZIPMemberName name = trimSlash name := by
  have slashes : (name.map fun b => if b = 92 then 47 else b) = name := by
    refine (map_congr_left fun b mem => if_neg ?_).trans (map_id _)
    rintro rfl
    exact checked.backslash mem
  have first : name.dropWhile (· = 47) = name := by
    cases name with
    | nil => rfl
    | cons b rest => exact dropWhile_cons_of_neg (by simpa using checked.relative)
  rw [normalizedZIPMemberName, slashes, first, checked.canonical]

end Checked

theorem validateZIPMembersFrom_ok {files : List ZipFile} {seen : List (Bytes × Bytes)} {u : Unit}
    (ok : validateZIPMembersFrom seen files = .ok u) :
    (∀ f ∈ files, Checked f.name ∧ folded f.name ∉ seen.map Prod.fst) ∧
      files.Pairwise fun f g => folded f.name ≠ folded g.name := by
  induction files generalizing seen with
  | nil => simp
  | cons file files ih =>
    simp only [validateZIPMembersFrom, bind_eq_ok, refuse_eq_ok] at ok
    obtain ⟨_, -, _, valid, _, -, ok⟩ := ok
    have checked := checked_of_ok valid
    rw [checked.normalizedZIPMemberName_eq, ← folded] at ok
    split at ok
    · cases ok
    · next unseen =>
      obtain ⟨rest, distinct⟩ := ih ok
      simp only [map_cons, mem_cons, not_or] at rest
      have new : folded file.name ∉ seen.map Prod.fst := by
        rintro mem
        obtain ⟨entry, held, eq⟩ := mem_map.mp mem
        exact absurd eq.symm (by simpa using lookup_eq_none_iff.mp unseen entry held)
      exact ⟨forall_mem_cons.mpr ⟨⟨checked, new⟩, fun f mem => ⟨(rest f mem).1, (rest f mem).2.2⟩⟩,
        pairwise_cons.mpr ⟨fun f mem => Ne.symm (rest f mem).2.1, distinct⟩⟩

/-- Every member is extracted strictly inside the destination, and no two to one path. -/
theorem accepted_archives_safe {files : List ZipFile} (ok : validateZIPMemberNames files = .ok ()) :
    (∀ f ∈ files, Safe f.name) ∧ files.Pairwise fun f g => folded f.name ≠ folded g.name := by
  obtain ⟨checked, distinct⟩ := validateZIPMembersFrom_ok ok
  exact ⟨fun f mem => (checked f mem).1.safe, distinct⟩

theorem accepted_archives_safe_two :
    let files := zipOf [utf8 "Lib/", utf8 "Lib/a.h"]
    validateZIPMemberNames files = .ok () ∧ ∀ f ∈ files, Safe f.name :=
  have ok := by decide +kernel
  ⟨ok, (accepted_archives_safe ok).1⟩

end ZipMembers
