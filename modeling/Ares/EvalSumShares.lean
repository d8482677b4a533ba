import Ares.FallibleLists

/-! The two validators of per-index eval-sum shares. A key map is the list of its entries; the error
texts follow the order in which the loops look. -/

namespace EvalSumShares

open FallibleLists List

structure IndexedEvalSumKey where
  index : ℤ
  key : List UInt8
  deriving DecidableEq

structure IndexedEvalSumKeyRef where
  index : ℤ
  ref : String
  aRef : String
  bRef : String
  deriving DecidableEq

def validIndexedEvalSumKeyRef (ref : IndexedEvalSumKeyRef) : Bool :=
  (ref.ref ≠ "" && ref.aRef = "" && ref.bRef = "") ||
    (ref.ref = "" && ref.aRef ≠ "" && ref.bRef ≠ "")

/-- What the two validators differ in. -/
structure ShareKind (S V : Type) where
  index : S → ℤ
  value : S → V
  valid : S → Bool
  noneText : String
  invalidText : String

section

variable {S V : Type} (kind : ShareKind S V)

def partyText (party : ℕ) (text : String) : String :=
  "eval-sum party " ++ toString party ++ " " ++ text

/-- One turn of the loop over the shares of a party. -/
def keyShare (party : ℕ) (keyed : List (ℤ × V)) (share : S) : Except String (List (ℤ × V)) :=
  if kind.valid share = false then
    .error (partyText party ("index " ++ toString (kind.index share) ++ " " ++ kind.invalidText))
  else if (keyed.lookup (kind.index share)).isSome then
    .error (partyText party ("duplicated index " ++ toString (kind.index share)))
  else .ok (keyed ++ [(kind.index share, kind.value share)])

def keyShares (party : ℕ) (shares : List S) : Except String (List (ℤ × V)) :=
  if shares = [] then .error (partyText party kind.noneText)
  else shares.foldlM (keyShare kind party) []

def checkIndices (party : ℕ) (required : List ℤ) (keyed : List (ℤ × V)) : Except String Unit :=
  if keyed.length ≠ required.length then
    .error (partyText party ("submitted " ++ toString keyed.length ++ " indices, want " ++
      toString required.length))
  else match required.find? fun idx => (keyed.lookup idx).isNone with
    | some idx => .error (partyText party ("missing index " ++ toString idx))
    | none => match keyed.find? fun entry => decide (entry.1 ∉ required) with
      | some entry => .error (partyText party ("submitted unexpected index " ++ toString entry.1))
      | none => .ok ()

/-- The loop over the parties behind the lead, whose indices are required. -/
def validateFrom (required : List ℤ) : ℕ → List (List S) → Except String (List (List (ℤ × V)))
  | _, [] => .ok []
  | party, shares :: byParty => do
    let keyed ← keyShares kind party shares
    checkIndices party required keyed
    let rest ← validateFrom required (party + 1) byParty
    .ok (keyed :: rest)

def validate : List (List S) → Except String (List ℤ × List (List (ℤ × V)))
  | [] => .error "at least one eval-sum party is required"
  | lead :: others => do
    let keyed ← keyShares kind 0 lead
    let rest ← validateFrom kind (keyed.map Prod.fst) 1 others
    .ok (lead.map kind.index, keyed :: rest)

end

def fullKeys : ShareKind IndexedEvalSumKey (List UInt8) where
  index := (·.index)
  value := (·.key)
  valid share := share.key.length ≠ 0
  noneText := "submitted no per-index keys"
  invalidText := "has empty key"

def keyRefs : ShareKind IndexedEvalSumKeyRef IndexedEvalSumKeyRef where
  index := (·.index)
  value := id
  valid := validIndexedEvalSumKeyRef
  noneText := "submitted no per-index key refs"
  invalidText := "must contain either full ref or a/b refs"

def validateIndexedEvalSumShares (byParty : List (List IndexedEvalSumKey)) :
    Except String (List ℤ × List (List (ℤ × List UInt8))) :=
  validate fullKeys byParty

def validateIndexedEvalSumShareRefs (byParty : List (List IndexedEvalSumKeyRef)) :
    Except String (List ℤ × List (List (ℤ × IndexedEvalSumKeyRef))) :=
  validate keyRefs byParty

section

variable {S V : Type} {kind : ShareKind S V} {party : ℕ} {shares : List S} {required : List ℤ}

def entries (kind : ShareKind S V) (shares : List S) : List (ℤ × V) :=
  shares.map fun share => (kind.index share, kind.value share)

/-- Some shares, all valid, and no two of one index. -/
structure Submitted (kind : ShareKind S V) (shares : List S) : Prop where
  nonempty : shares ≠ []
  valid : ∀ share ∈ shares, kind.valid share = true
  distinct : (shares.map kind.index).Nodup

structure Sound (kind : ShareKind S V) (byParty : List (List S)) : Prop where
  parties : byParty ≠ []
  submitted : ∀ shares ∈ byParty, Submitted kind shares
  same : ∀ shares ∈ byParty, ∀ idx,
    idx ∈ shares.map kind.index ↔ idx ∈ (byParty.headD []).map kind.index

structure Exact (kind : ShareKind S V)
    (validator : List (List S) → Except String (List ℤ × List (List (ℤ × V)))) : Prop where
  accepts_iff : ∀ byParty, (∃ out, validator byParty = .ok out) ↔ Sound kind byParty
  indices : ∀ lead others out, validator (lead :: others) = .ok out →
    out.1 = lead.map kind.index
  keyed : ∀ byParty out, validator byParty = .ok out → out.2.length = byParty.length ∧
    ∀ (party : ℕ) shares, byParty[party]? = some shares →
      ∃ map : List (ℤ × V), out.2[party]? = some map ∧ ∀ idx ∈ out.1, ∃ share ∈ shares,
        kind.index share = idx ∧ map.lookup idx = some (kind.value share)

@[simp] theorem map_fst_entries : (entries kind shares).map Prod.fst = shares.map kind.index := by
  simp [entries]

theorem lookup_isSome {keyed : List (ℤ × V)} {idx : ℤ} :
    (keyed.lookup idx).isSome = true ↔ idx ∈ keyed.map Prod.fst := by
  rw [← not_iff_not, Bool.not_eq_true, Option.isSome_eq_false_iff, Option.isNone_iff_eq_none,
    lookup_eq_none_iff]
  simp only [mem_map, bne_iff_ne]
  exact ⟨fun h ⟨e, mem, eq⟩ => h e mem eq.symm, fun h e mem eq => h ⟨e, mem, eq.symm⟩⟩

theorem keyShare_eq_ok {keyed out : List (ℤ × V)} {share : S} :
    keyShare kind party keyed share = .ok out ↔ kind.valid share = true ∧
      kind.index share ∉ keyed.map Prod.fst ∧ out = keyed ++ entries kind [share] := by
  rw [← lookup_isSome, keyShare]
  split_ifs with invalid dup
  · simp [invalid]
  · simp [dup]
  · simp [dup, Bool.not_eq_false _ ▸ invalid, entries, eq_comm]

theorem foldlM_keyShare_eq_ok {keyed out : List (ℤ × V)} :
    shares.foldlM (keyShare kind party) keyed = .ok out ↔
      (∀ share ∈ shares, kind.valid share = true) ∧ (shares.map kind.index).Nodup ∧
        (∀ share ∈ shares, kind.index share ∉ keyed.map Prod.fst) ∧
        out = keyed ++ entries kind shares := by
  induction shares generalizing keyed with
  | nil =>
    change Except.ok keyed = Except.ok out ↔ _
    rw [Except.ok.injEq, eq_comm]
    simp [entries]
  | cons share shares ih =>
    rw [foldlM_cons, bind_eq_ok]
    constructor
    · rintro ⟨next, first, rest⟩
      obtain ⟨valid, fresh, rfl⟩ := keyShare_eq_ok.mp first
      obtain ⟨valids, nodup, others, rfl⟩ := ih.mp rest
      simp only [map_append, mem_append, map_fst_entries, map_cons, map_nil, mem_singleton,
        not_or] at others
      refine ⟨forall_mem_cons.mpr ⟨valid, valids⟩, nodup_cons.mpr ⟨fun mem => ?_, nodup⟩,
        forall_mem_cons.mpr ⟨fresh, fun s mem => (others s mem).1⟩, by simp [entries]⟩
      obtain ⟨s, inside, same⟩ := mem_map.mp mem
      exact (others s inside).2 same
    · rintro ⟨valids, nodup, fresh, rfl⟩
      rw [forall_mem_cons] at valids fresh
      rw [map_cons, nodup_cons] at nodup
      refine ⟨_, keyShare_eq_ok.mpr ⟨valids.1, fresh.1, rfl⟩, ih.mpr ⟨valids.2, nodup.2, ?_, ?_⟩⟩
      · intro s mem
        simp only [map_append, mem_append, map_fst_entries, map_cons, map_nil,
          mem_singleton, not_or]
        exact ⟨fresh.2 s mem, fun same => nodup.1 (mem_map.mpr ⟨s, mem, same⟩)⟩
      · simp [entries]

theorem keyShares_eq_ok {out : List (ℤ × V)} :
    keyShares kind party shares = .ok out ↔ Submitted kind shares ∧ out = entries kind shares := by
  unfold keyShares
  split_ifs with empty
  · simp only [false_iff]
    exact fun h => h.1.nonempty empty
  · rw [foldlM_keyShare_eq_ok]
    constructor
    · rintro ⟨valid, distinct, _, eq⟩
      exact ⟨⟨empty, valid, distinct⟩, eq⟩
    · rintro ⟨h, eq⟩
      exact ⟨h.valid, h.distinct, by simp, eq⟩

theorem checkIndices_eq_ok {keyed : List (ℤ × V)} (distinct : (keyed.map Prod.fst).Nodup)
    (once : required.Nodup) :
    checkIndices party required keyed = .ok () ↔
      ∀ idx, idx ∈ keyed.map Prod.fst ↔ idx ∈ required := by
  have missing : required.find? (fun idx => (keyed.lookup idx).isNone) = none ↔
      ∀ idx ∈ required, idx ∈ keyed.map Prod.fst := by
    simp only [find?_eq_none, ← lookup_isSome, Option.isNone_iff_eq_none,
      Option.ne_none_iff_isSome]
  have unexpected : keyed.find? (fun entry => decide (entry.1 ∉ required)) = none ↔
      ∀ idx ∈ keyed.map Prod.fst, idx ∈ required := by
    simp only [find?_eq_none, decide_eq_true_eq, not_not, forall_mem_map]
  constructor
  · intro passed idx
    unfold checkIndices at passed
    split_ifs at passed
    split at passed
    · cases passed
    split at passed
    · cases passed
    · exact ⟨unexpected.mp ‹_› idx, missing.mp ‹_› idx⟩
  · intro same
    have count : keyed.length = required.length := by
      simpa using ((perm_ext_iff_of_nodup distinct once).mpr same).length_eq
    rw [checkIndices, if_neg (not_not.mpr count), missing.mpr fun idx => (same idx).mpr,
      unexpected.mpr fun idx => (same idx).mp]

theorem validateFrom_eq_ok (once : required.Nodup) {byParty : List (List S)}
    {out : List (List (ℤ × V))} :
    validateFrom kind required party byParty = .ok out ↔
      (∀ shares ∈ byParty, Submitted kind shares ∧
        ∀ idx, idx ∈ shares.map kind.index ↔ idx ∈ required) ∧
      out = byParty.map (entries kind) := by
  induction byParty generalizing party out with
  | nil => simp [validateFrom]
  | cons shares byParty ih =>
    rw [validateFrom, forall_mem_cons, bind_eq_ok]
    constructor
    · rintro ⟨keyed, first, rest⟩
      obtain ⟨submitted, rfl⟩ := keyShares_eq_ok.mp first
      obtain ⟨_, checked, rest⟩ := bind_eq_ok.mp rest
      obtain ⟨tail, rest, last⟩ := bind_eq_ok.mp rest
      obtain ⟨goods, rfl⟩ := ih.mp rest
      have same := (checkIndices_eq_ok (by simpa using submitted.distinct) once).mp checked
      rw [map_fst_entries] at same
      exact ⟨⟨⟨submitted, same⟩, goods⟩, (Except.ok.inj last).symm⟩
    · rintro ⟨⟨⟨submitted, same⟩, goods⟩, rfl⟩
      have checked : checkIndices party required (entries kind shares) = .ok () :=
        (checkIndices_eq_ok (by simpa using submitted.distinct) once).mpr (by simpa using same)
      exact ⟨_, keyShares_eq_ok.mpr ⟨submitted, rfl⟩, bind_eq_ok.mpr ⟨(), checked,
        bind_eq_ok.mpr ⟨_, ih.mpr ⟨goods, rfl⟩, rfl⟩⟩⟩

theorem validate_eq_ok {byParty : List (List S)} {out : List ℤ × List (List (ℤ × V))} :
    validate kind byParty = .ok out ↔ Sound kind byParty ∧
      out = ((byParty.headD []).map kind.index, byParty.map (entries kind)) := by
  cases byParty with
  | nil =>
    simp only [validate, reduceCtorEq, false_iff]
    exact fun h => h.1.parties rfl
  | cons lead others =>
    rw [validate, bind_eq_ok]
    constructor
    · rintro ⟨keyed, first, rest⟩
      obtain ⟨submitted, rfl⟩ := keyShares_eq_ok.mp first
      obtain ⟨tail, rest, last⟩ := bind_eq_ok.mp rest
      rw [map_fst_entries, validateFrom_eq_ok submitted.distinct] at rest
      obtain ⟨goods, rfl⟩ := rest
      refine ⟨⟨by simp, forall_mem_cons.mpr ⟨submitted, fun s mem => (goods s mem).1⟩,
        forall_mem_cons.mpr ⟨fun _ => Iff.rfl, fun s mem => (goods s mem).2⟩⟩, ?_⟩
      exact (Except.ok.inj last).symm
    · rintro ⟨sound, rfl⟩
      have submitted := sound.submitted lead mem_cons_self
      refine ⟨_, keyShares_eq_ok.mpr ⟨submitted, rfl⟩, bind_eq_ok.mpr ⟨_, ?_, rfl⟩⟩
      rw [map_fst_entries, validateFrom_eq_ok submitted.distinct]
      exact ⟨fun s mem => ⟨sound.submitted s (mem_cons_of_mem _ mem),
        sound.same s (mem_cons_of_mem _ mem)⟩, rfl⟩

theorem lookup_entries (distinct : (shares.map kind.index).Nodup) {share : S}
    (mem : share ∈ shares) :
    (entries kind shares).lookup (kind.index share) = some (kind.value share) := by
  induction shares with
  | nil => cases mem
  | cons first shares ih =>
    rw [map_cons, nodup_cons] at distinct
    rw [entries, map_cons, lookup_cons]
    obtain rfl | later := mem_cons.mp mem
    · simp
    · have other : kind.index share ≠ kind.index first :=
        fun same => distinct.1 (same ▸ mem_map_of_mem later)
      rw [beq_eq_false_iff_ne.mpr other]
      exact ih distinct.2 later

theorem exact_validate (kind : ShareKind S V) : Exact kind (validate kind) where
  accepts_iff byParty := ⟨fun ok => (validate_eq_ok.mp ok.choose_spec).1,
    fun sound => ⟨_, validate_eq_ok.mpr ⟨sound, rfl⟩⟩⟩
  indices lead others out ok := by
    rw [(validate_eq_ok.mp ok).2]
    rfl
  keyed byParty out ok := by
    obtain ⟨sound, rfl⟩ := validate_eq_ok.mp ok
    refine ⟨length_map _, fun party shares at_party => ⟨entries kind shares, ?_, fun idx mem => ?_⟩⟩
    · rw [getElem?_map, at_party]
      rfl
    · have inside := mem_of_getElem? at_party
      obtain ⟨share, found, rfl⟩ := mem_map.mp ((sound.same shares inside idx).mpr mem)
      exact ⟨share, found, rfl, lookup_entries (sound.submitted shares inside).distinct found⟩

end

/-- Both validators accept exactly the sound families of shares. -/
theorem share_validation_exact :
    Exact fullKeys validateIndexedEvalSumShares ∧ Exact keyRefs validateIndexedEvalSumShareRefs :=
  ⟨exact_validate fullKeys, exact_validate keyRefs⟩

end EvalSumShares
