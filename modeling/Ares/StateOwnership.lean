import Ares.PipelineShapes

/-! `PhaseForState` looks a state up among the entry states first and among the internal states
second. -/
namespace StateOwnership

open PhasePipelines PipelineShapes SessionRunnerDiscipline

variable {α L S : Type}

def Claims (p : Phase α L) (s : SessionState) : Prop := s = p.entryState ∨ s ∈ p.internalStates

instance (p : Phase α L) (s : SessionState) : Decidable (Claims p s) :=
  inferInstanceAs (Decidable (_ ∨ _))

structure UniquelyOwned (r : SessionRunner α L S) : Prop where
  once : (inlinePhases r.phases).Pairwise fun p q => ∀ s, Claims p s → ¬ Claims q s
  unambiguous : ∀ s p, phaseForState r s = some p ↔ p ∈ inlinePhases r.phases ∧ Claims p s

def EnteredApart (ps : List (Phase α L)) : Prop :=
  ps.Pairwise fun p q => q.entryState ∉ p.internalStates

instance (ps : List (Phase α L)) : Decidable (EnteredApart ps) :=
  inferInstanceAs (Decidable (ps.Pairwise _))

section

variable {r : SessionRunner α L S} {s : SessionState} {p : Phase α L}

theorem phaseForState_of_entry (entered : r.byEntryState s = some p) :
    phaseForState r s = some p := by
  simp [phaseForState, entered]

theorem phaseForState_of_internal (free : r.byEntryState s = none)
    (listed : r.byInternalState s = some p) : phaseForState r s = some p := by
  simp [phaseForState, free, listed]

section

variable (hr : Pipeline r) (indexed : Indexed r)

include hr indexed

theorem phaseForState_claims (found : phaseForState r s = some p) :
    p ∈ inlinePhases r.phases ∧ Claims p s := by
  cases entered : r.byEntryState s with
  | some q =>
    rw [phaseForState_of_entry entered] at found
    cases found
    obtain ⟨member, entry⟩ := (hr.byEntry s p).mp entered
    exact ⟨member, .inl entry.symm⟩
  | none =>
    have listed : r.byInternalState s = some p := by simpa [phaseForState, entered] using found
    obtain ⟨member, internal⟩ := (indexed.byInternal s p).mp listed
    exact ⟨member, .inr internal⟩

theorem phaseForState_ne_none (member : p ∈ inlinePhases r.phases) (claims : Claims p s) :
    phaseForState r s ≠ none := by
  cases entered : r.byEntryState s with
  | some q => simp [phaseForState_of_entry entered]
  | none =>
    rcases claims with rfl | internal
    · rw [(hr.byEntry p.entryState p).mpr ⟨member, rfl⟩] at entered
      cases entered
    · have listed := (indexed.byInternal s p).mpr ⟨member, internal⟩
      simp [phaseForState_of_internal entered listed]

theorem not_claims_stateNone (member : p ∈ inlinePhases r.phases) : ¬ Claims p stateNone := by
  rintro (entry | internal)
  · exact hr.chained.entered p member entry.symm
  · exact (indexed.internal p member stateNone internal).1 rfl

theorem phaseForState_stateNone : phaseForState r stateNone = none := by
  cases found : phaseForState r stateNone with
  | none => rfl
  | some p =>
    obtain ⟨member, claims⟩ := phaseForState_claims hr indexed found
    exact absurd claims (not_claims_stateNone hr indexed member)

end

end

theorem claimed_once {r : SessionRunner α L S} (hr : Pipeline r) (indexed : Indexed r)
    (apart : EnteredApart (inlinePhases r.phases)) :
    (inlinePhases r.phases).Pairwise fun p q => ∀ s, Claims p s → ¬ Claims q s := by
  have entries := List.pairwise_map.mp hr.chained.entries
  refine ((entries.and indexed.apart).and apart).imp ?_
  rintro p q ⟨⟨different, internal⟩, entry⟩ s claims claims'
  rcases claims with rfl | listed
  · rcases claims' with same | listed'
    · exact different same
    · exact (internal _ listed').1 rfl
  · rcases claims' with rfl | listed'
    · exact entry listed
    · exact (internal s listed').2 listed

/-- Exactly one thing is left for a pipeline to see to that `Compose` does not check. -/
theorem uniquely_owned_iff {phases : List (Phase α L)} {r : SessionRunner α L S}
    (accepted : compose phases = .ok r) : UniquelyOwned r ↔ EnteredApart (inlinePhases phases) := by
  obtain ⟨rfl, -, hr⟩ := compose_pipeline accepted
  have indexed := compose_indexed accepted
  constructor
  · intro owned
    exact owned.once.imp fun disjoint shared => disjoint _ (.inr shared) (.inl rfl)
  · intro apart
    have once := claimed_once hr indexed apart
    refine ⟨once, fun s p => ⟨phaseForState_claims hr indexed, ?_⟩⟩
    rintro ⟨member, claims⟩
    cases found : phaseForState r s with
    | none => exact absurd found (phaseForState_ne_none hr indexed member claims)
    | some q =>
      obtain ⟨member', claims'⟩ := phaseForState_claims hr indexed found
      -- two different claimants would stand in one order or the other
      have : Std.Symm fun p q : Phase α L => ∀ s, Claims p s → ¬ Claims q s :=
        ⟨fun _ _ disjoint s claims claims' => disjoint s claims' claims⟩
      by_cases same : q = p
      · rw [same]
      · exact absurd claims (once.forall member' member same s claims')

def lockPhase : Phase Unit Unit :=
  { quorumPhase "lock" "locked" "keygen" "share" "shares" 1 with internalStates := ["keygen"] }

def keygenPhase : Phase Unit Unit := quorumPhase "keygen" "keygen" stateNone "key" "keys" 1

theorem uniquely_owned_iff_auction :
    EnteredApart (inlinePhases auctionPhases) ∧ compose auctionPhases = .ok auctionRunner ∧
      UniquelyOwned auctionRunner :=
  have apart : EnteredApart (inlinePhases auctionPhases) := by decide
  have accepted : compose auctionPhases = .ok auctionRunner := rfl
  ⟨apart, accepted, (uniquely_owned_iff accepted).mpr apart⟩

def overlappingRunner : SessionRunner Unit Unit Unit :=
  (compose [lockPhase, keygenPhase]).toOption.get (by decide)

/-- Both phases claim the state `keygen`, and it leads to the second. -/
theorem overlapping_accepted : compose [lockPhase, keygenPhase] = .ok overlappingRunner ∧
    Claims lockPhase "keygen" ∧ Claims keygenPhase "keygen" ∧
    phaseForState overlappingRunner "keygen" = some keygenPhase ∧
    ¬ UniquelyOwned overlappingRunner := by
  have claims : Claims lockPhase "keygen" ∧ Claims keygenPhase "keygen" := by decide
  refine ⟨rfl, claims.1, claims.2, rfl, fun owned => ?_⟩
  have once : [lockPhase, keygenPhase].Pairwise fun p q => ∀ s, Claims p s → ¬ Claims q s :=
    owned.once
  exact (List.pairwise_cons.mp once).1 keygenPhase (by simp) "keygen" claims.1 claims.2

end StateOwnership
