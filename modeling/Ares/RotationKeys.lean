import Ares.CyclicSlots
import Ares.MachineIntegers

/-! The two loops of the scorer that rotate a ciphertext, with the shifts they ask for, beside the
two functions that list the shifts keys are made for. -/

namespace RotationKeys

open CyclicSlots MachineIntegers List

section

variable {R : Type} [CommRing R] {B : ℕ}

structure Evaluation (R : Type) (B : ℕ) where
  ct : ZMod B → R
  rotations : List ℤ

def rotateAdd (x : Evaluation R B) (shift : ℤ) : Evaluation R B :=
  ⟨x.ct + rotate shift x.ct, x.rotations ++ [shift]⟩

def foldDotToFirstSlot (ct : ZMod B → R) (profileDim : ℕ) : Evaluation R B :=
  (shifts profileDim).foldl (fun acc (s : ℕ) => rotateAdd acc s) ⟨ct, []⟩

def broadcastFirstSlot (ct : ZMod B → R) (slotCount : ℕ) : Evaluation R B :=
  (shifts slotCount).foldl (fun out (shift : ℕ) => rotateAdd out (-shift))
    ⟨ct * fun s => if s = 0 then 1 else 0, []⟩

def minimalRotationIndicesNative (profileDim payloadSlotCount : ℕ) : List ℤ :=
  let indices := (shifts profileDim).foldl (fun indices (s : ℕ) => indices ++ [int32 s]) []
  (shifts payloadSlotCount).foldl (fun indices (s : ℕ) => indices ++ [-int32 s]) indices

def minimalRotationIndices (profileDim payloadSlots : ℕ) : List ℤ :=
  let idx := (shifts profileDim).foldl (fun idx (s : ℕ) => idx ++ [(s : ℤ)]) []
  (shifts payloadSlots).foldl (fun idx (s : ℕ) => idx ++ [-(s : ℤ)]) idx

theorem rotateAdd_loop (direction : ℤ) (bound : ℕ) (ct : ZMod B → R) :
    (shifts bound).foldl (fun x (s : ℕ) => rotateAdd x (direction * s)) ⟨ct, []⟩ =
      ⟨foldDoubling direction bound ct, (shifts bound).map fun s : ℕ => direction * s⟩ := by
  have loop : ∀ (l : List ℕ) (x : Evaluation R B),
      l.foldl (fun x (s : ℕ) => rotateAdd x (direction * s)) x =
        ⟨l.foldl (fun acc (s : ℕ) => acc + rotate (direction * s) acc) x.ct,
          x.rotations ++ l.map fun s : ℕ => direction * s⟩ := by
    intro l
    induction l with
    | nil => simp
    | cons s l ih =>
      intro x
      rw [foldl_cons, ih, foldl_cons]
      simp [rotateAdd]
  exact loop _ _

/-- The rotations that keys are made for are those of the fold and of the broadcast, which bring the
sum of the profile into every payload slot. -/
theorem minimal_rotations_suffice {b profileDim payloadSlotCount : ℕ} (small : b ≤ 30)
    (dim : profileDim ≤ 2 ^ b) (slots : payloadSlotCount ≤ 2 ^ b) (ct : ZMod (2 ^ b) → R)
    (zero : ∀ t : ℕ, profileDim ≤ t → t < 2 ^ b → ct t = 0) :
    let folded := foldDotToFirstSlot ct profileDim
    let out := broadcastFirstSlot folded.ct payloadSlotCount
    folded.ct 0 = ∑ t ∈ Finset.range profileDim, ct t ∧
      (∀ q < payloadSlotCount, out.ct q = ∑ t ∈ Finset.range profileDim, ct t) ∧
      folded.rotations ++ out.rotations =
        minimalRotationIndicesNative profileDim payloadSlotCount ∧
      minimalRotationIndicesNative profileDim payloadSlotCount =
        minimalRotationIndices profileDim payloadSlotCount := by
  have rounded : ∀ {n : ℕ}, n ≤ 2 ^ b → 2 ^ Nat.clog 2 n ≤ 2 ^ b := fun fits =>
    Nat.pow_le_pow_right (by omega) ((Nat.clog_le_iff_le_pow (by omega)).mpr fits)
  have folded : foldDotToFirstSlot ct profileDim =
      ⟨foldDoubling 1 profileDim ct, (shifts profileDim).map fun s : ℕ => (s : ℤ)⟩ := by
    simpa [foldDotToFirstSlot] using rotateAdd_loop 1 profileDim ct
  have spread : ∀ v : ZMod (2 ^ b) → R, broadcastFirstSlot v payloadSlotCount =
      ⟨foldDoubling (-1) payloadSlotCount (firstOnly v),
        (shifts payloadSlotCount).map fun s : ℕ => -(s : ℤ)⟩ := by
    intro v
    simpa [broadcastFirstSlot, mul_first] using rotateAdd_loop (-1) payloadSlotCount (firstOnly v)
  have words : ∀ n ≤ 2 ^ b, ∀ s ∈ shifts n, int32 s = s := by
    intro n fits s mem
    rw [shifts_eq] at mem
    obtain ⟨i, below, rfl⟩ := mem_map.mp mem
    have exponent := (Nat.clog_le_iff_le_pow (by omega)).mpr fits
    have size : 2 ^ i ≤ 2 ^ 30 :=
      Nat.pow_le_pow_right (by omega) (by have := mem_range.mp below; omega)
    generalize 2 ^ i = s at size ⊢
    exact int32_of_inInt32 ⟨by omega, by omega⟩
  have sum := foldDoubling_first fun t low high => zero t low (high.trans_le (rounded dim))
  have native : minimalRotationIndicesNative profileDim payloadSlotCount =
      minimalRotationIndices profileDim payloadSlotCount := by
    simp only [minimalRotationIndicesNative, minimalRotationIndices, foldl_append_eq_append,
      ← flatMap_def, ← map_eq_flatMap]
    rw [map_congr_left (words profileDim dim),
      map_congr_left fun s mem => congrArg Neg.neg (words payloadSlotCount slots s mem)]
  dsimp only
  rw [native, folded, spread]
  refine ⟨sum, fun q below => ?_, ?_, rfl⟩
  · exact (foldDoubling_firstOnly (rounded slots) _ below).trans sum
  · simp only [minimalRotationIndices, foldl_append_eq_append, ← flatMap_def, ← map_eq_flatMap,
      nil_append]

theorem minimal_rotations_suffice_three :
    let ct : ZMod (2 ^ 2) → ℤ := ![4, 5, 6, 0]
    let folded := foldDotToFirstSlot ct 3
    let out := broadcastFirstSlot folded.ct 2
    folded.ct 0 = 15 ∧ out.ct (1 : ℕ) = 15 ∧ folded.rotations ++ out.rotations = [1, 2, -1] := by
  intro ct folded out
  obtain ⟨sum, reached, used, -⟩ := minimal_rotations_suffice (show 2 ≤ 30 by decide)
    (show 3 ≤ 2 ^ 2 by decide) (show 2 ≤ 2 ^ 2 by decide) ct (by decide)
  exact ⟨sum.trans (by decide), (reached 1 (by decide)).trans (by decide), used.trans (by decide)⟩

end

end RotationKeys
