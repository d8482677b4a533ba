import Ares.BoundCheck
import Ares.CommittedNodes

/-! `Enter` publishes `H(enc_check ‖ H(enc_x) ‖ session_id)` beside every check. -/

namespace CheckCommitments

open BoundCheck FallibleLists LineageNodes List

section

variable (sha256 : Bytes → NodeRef)

def preimage (encCheck encInput sessionID : Bytes) : Bytes :=
  encCheck ++ (sha256 encInput).bytes ++ sessionID

def checkCommitment (encCheck encInput sessionID : Bytes) : NodeRef :=
  sha256 (preimage sha256 encCheck encInput sessionID)

def commitChecks (eval : Bytes → Except String Bytes) (sessionID : Bytes)
    (encInputs : List (String × Bytes)) : Except PhaseError (List (String × Bytes × NodeRef)) :=
  encInputs.mapM fun (party, encInput) =>
    match eval encInput with
    | .error e => .error (.transient, "boundcheck: eval circuit for party " ++ party ++ ": " ++ e)
    | .ok encCheck => .ok (party, encCheck, checkCommitment sha256 encCheck encInput sessionID)

def Shifted (encCheck encInput sessionID encCheck' encInput' sessionID' : Bytes) : Prop :=
  ∃ more, more ≠ [] ∧ encCheck' = encCheck ++ more ∧
    (sha256 encInput).bytes ++ sessionID = more ++ ((sha256 encInput').bytes ++ sessionID')

/-- None of the strings hashed for the two commitments collide. -/
structure CollisionFree (encCheck encInput sessionID encCheck' encInput' sessionID' : Bytes) :
    Prop where
  inputs : sha256 encInput = sha256 encInput' → encInput = encInput'
  preimages : checkCommitment sha256 encCheck encInput sessionID =
      checkCommitment sha256 encCheck' encInput' sessionID' →
    preimage sha256 encCheck encInput sessionID = preimage sha256 encCheck' encInput' sessionID'

variable {sha256} {c x s c' x' s' : Bytes}

theorem preimage_of_shifted (shifted : Shifted sha256 c x s c' x' s') :
    preimage sha256 c x s = preimage sha256 c' x' s' := by
  obtain ⟨more, -, rfl, rest⟩ := shifted
  rw [preimage, preimage, append_assoc, rest]
  simp

theorem preimage_cut (same : preimage sha256 c x s = preimage sha256 c' x' s') :
    Shifted sha256 c x s c' x' s' ∨ Shifted sha256 c' x' s' c x s ∨
      c = c' ∧ sha256 x = sha256 x' ∧ s = s' := by
  rw [preimage, preimage, append_assoc, append_assoc,
    append_eq_append_iff] at same
  -- without a shift the two cuts after the check ciphertext are one
  have aligned : (sha256 x).bytes ++ s = (sha256 x').bytes ++ s' →
      sha256 x = sha256 x' ∧ s = s' := by
    intro rest
    have cut := append_inj rest (by simp [NodeRef.bytes])
    exact ⟨Vector.toList_inj.mp cut.1, cut.2⟩
  rcases same with ⟨more, rfl, rest⟩ | ⟨more, rfl, rest⟩
  · by_cases none : more = []
    · subst none
      exact .inr (.inr ⟨by simp, aligned rest⟩)
    · exact .inl ⟨more, none, rfl, rest⟩
  · by_cases none : more = []
    · subst none
      obtain ⟨digest, id⟩ := aligned rest.symm
      exact .inr (.inr ⟨by simp, digest, id⟩)
    · exact .inr (.inl ⟨more, none, rfl, rest⟩)

theorem Shifted.length (shifted : Shifted sha256 c x s c' x' s') :
    c.length < c'.length ∧ s'.length < s.length := by
  obtain ⟨more, nonempty, rfl, rest⟩ := shifted
  have pos := length_pos_iff.mpr nonempty
  have total := congrArg List.length rest
  simp only [length_append, NodeRef.bytes, Vector.length_toList] at total ⊢
  omega

end

/-- A commitment determines what it was computed from exactly when neither check ciphertext runs on
into the digest and the session identifier of the other; no two check ciphertexts of one length and
no two session identifiers of one length do. -/
theorem commitment_binds_iff {sha256 : Bytes → NodeRef} {c x s c' x' s' : Bytes}
    (free : CollisionFree sha256 c x s c' x' s') :
    ((checkCommitment sha256 c x s = checkCommitment sha256 c' x' s' →
        c = c' ∧ x = x' ∧ s = s') ↔
      ¬ Shifted sha256 c x s c' x' s' ∧ ¬ Shifted sha256 c' x' s' c x s) ∧
    (c.length = c'.length ∨ s.length = s'.length →
      ¬ Shifted sha256 c x s c' x' s' ∧ ¬ Shifted sha256 c' x' s' c x s) := by
  have apart : c.length = c'.length ∨ s.length = s'.length →
      ¬ Shifted sha256 c x s c' x' s' ∧ ¬ Shifted sha256 c' x' s' c x s := by
    intro lengths
    constructor
    · intro shifted
      have := shifted.length
      omega
    · intro shifted
      have := shifted.length
      omega
  refine ⟨⟨?_, ?_⟩, apart⟩
  · intro binds
    constructor
    · intro shifted
      have same := binds (congrArg sha256 (preimage_of_shifted shifted))
      exact absurd (congrArg List.length same.1) shifted.length.1.ne
    · intro shifted
      have same := binds (congrArg sha256 (preimage_of_shifted shifted).symm)
      exact absurd (congrArg List.length same.1) shifted.length.1.ne'
  · rintro ⟨before, behind⟩ equal
    rcases preimage_cut (free.preimages equal) with shifted | shifted | ⟨check, digest, id⟩
    · exact absurd shifted before
    · exact absurd shifted behind
    · exact ⟨check, free.inputs digest, id⟩

open CommittedNodes in
theorem commitment_binds_iff_longer :
    CollisionFree lengthHash [1] [2] [3] [1, 1] [2, 2] [3] ∧
      (checkCommitment lengthHash [1] [2] [3] = checkCommitment lengthHash [1, 1] [2, 2] [3] →
        [1] = ([1, 1] : Bytes) ∧ [2] = ([2, 2] : Bytes) ∧ [3] = ([3] : Bytes)) := by
  have free : CollisionFree lengthHash [1] [2] [3] [1, 1] [2, 2] [3] :=
    ⟨by decide +kernel, by decide +kernel⟩
  have binds := commitment_binds_iff free
  exact ⟨free, binds.1.mpr (binds.2 (.inr rfl))⟩

open CommittedNodes in
/-- A session named by the digest of the other's input, and a check that ends in the digest of the
first's: two sessions publish one commitment. -/
theorem one_commitment_two_sessions :
    let named := (lengthHash [7]).bytes
    let long := 5 :: (lengthHash []).bytes
    let k := checkCommitment lengthHash [5] [] named
    CollisionFree lengthHash [5] [] named long [7] [] ∧
      commitChecks lengthHash (fun _ => .ok [5]) named [("p", [])] = .ok [("p", [5], k)] ∧
      commitChecks lengthHash (fun _ => .ok long) [] [("p", [7])] = .ok [("p", long, k)] ∧
      [5] ≠ long ∧ ([] : Bytes) ≠ [7] ∧ named ≠ [] := by
  refine ⟨⟨by decide +kernel, by decide +kernel⟩, ?_⟩
  decide +kernel

end CheckCommitments
