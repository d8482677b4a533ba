import Ares.ChunkedFusionBounds
import Ares.CyclicSlots
import Ares.BalancedProducts

/-! The arithmetic of the native scorer over exact slot vectors: replicated scores, the
antisymmetric matrix of selectors, the masks as products of selectors, and one fused ciphertext for
each chunk of the payload. -/

namespace ChunkedSelection

open BalancedProducts ChunkedFusion CyclicSlots MachineIntegers List Finset

variable {K : Type} {B : ℕ}

def exactLibrary : Library where
  throws _ := none
  chunk _ := .ok 1
  malloc _ := true

/-- The library's two approximations, with the interval and the degree they are asked for. -/
structure Approximations (K : Type) where
  tanhStep : (gain lo hi : K) → (degree : ℤ) → K → K
  logistic : (lo hi : K) → (degree : ℤ) → K → K

structure ComparatorParams (K : Type) where
  degree : ℤ
  gain : K
  inputScale : K
  bound : K

section

variable [Field K] [LinearOrder K]

def ComparatorParams.filled (p : ComparatorParams K) : ComparatorParams K where
  degree := if p.degree ≤ 0 then 27 else p.degree
  gain := if p.gain = 0 then 100 else p.gain
  inputScale := if p.inputScale = 0 then 1 / 2 else p.inputScale
  bound := if p.bound = 0 then 1 / 2 else p.bound

def scaleInput (inputScale diff : K) : K :=
  if 1 / 10 ^ 12 < |inputScale - 1| then diff * inputScale else diff

def comparatorStep (approx : Approximations K) (name : List Char) (p : ComparatorParams K)
    (diff : K) : K :=
  let x := scaleInput p.inputScale diff
  if name = "logistic".toList then
    approx.logistic (-(p.gain * p.bound)) (p.gain * p.bound) p.degree (x * p.gain)
  else if name = "selector".toList then (x * x * (-(27 / 32000)) + 9 / 80) * x + 1 / 2
  else approx.tanhStep p.gain (-p.bound) p.bound p.degree x

end

section

variable [CommRing K]

def smoothstep5 (x : K) : K := x * x * x * (x * (x * 6 + -15) + 10)

def smoothstep7 (x : K) : K :=
  x * x * (x * x) * (x * (x * (x * -20 + 70) + -84) + 35)

def scheduleStage (x : K) (mode : List Char) : K :=
  if mode = "smoothstep5".toList then smoothstep5 x
  else if mode = "smoothstep7".toList then smoothstep7 x
  else x

def applySelectorSchedule (schedule : List (List Char)) (selector : K) : K :=
  schedule.foldl scheduleStage selector

theorem scheduleStage_zero (mode : List Char) : scheduleStage (0 : K) mode = 0 := by
  rw [scheduleStage, smoothstep5, smoothstep7]
  split_ifs <;> ring

theorem scheduleStage_one (mode : List Char) : scheduleStage (1 : K) mode = 1 := by
  rw [scheduleStage, smoothstep5, smoothstep7]
  split_ifs <;> ring

theorem applySelectorSchedule_zero (schedule : List (List Char)) :
    applySelectorSchedule schedule (0 : K) = 0 := by
  induction schedule with
  | nil => rfl
  | cons mode schedule ih =>
    rw [applySelectorSchedule, foldl_cons, scheduleStage_zero]
    exact ih

theorem applySelectorSchedule_one (schedule : List (List Char)) :
    applySelectorSchedule schedule (1 : K) = 1 := by
  induction schedule with
  | nil => rfl
  | cons mode schedule ih =>
    rw [applySelectorSchedule, foldl_cons, scheduleStage_one]
    exact ih

end

inductive Distances (K : Type) (B : ℕ) where
  | raw (initiatorLatQ initiatorLonQ : ℤ) (candidateLatQ candidateLonQ : ℕ → ℤ)
  | encrypted (distance : ℕ → ZMod B → K)

/-- What the buffers of a call hold, read by index: slot vectors for ciphertexts, and the packages
of all candidates one after the other. -/
structure Inputs (K : Type) (B : ℕ) where
  args : NativeArgs
  initiator : ZMod B → K
  candidate : ℕ → ZMod B → K
  distances : Distances K B
  brownies : ℕ → ℤ
  alpha : K
  beta : K
  gamma : K
  comparatorParams : ComparatorParams K
  packages : ℕ → ℤ
  payload : ℕ → ZMod B → K

namespace Inputs

variable [Field K] [LinearOrder K] (x : Inputs K B)

def n : ℕ := x.args.nCandidates.toNat

def evalSum (ct : ZMod B → K) (n : ℤ) : ZMod B → K := window (2 ^ Nat.clog 2 n.toNat) ct

def similarity (i : ℕ) : ZMod B → K :=
  evalSum (x.initiator * x.candidate i) x.args.profileDim

def score (i : ℕ) : ZMod B → K :=
  let score := fun s => x.similarity i s * (x.beta / 2)
  match x.distances with
  | .encrypted distance => fun s =>
    score s + distance i s * (-x.alpha) + (x.beta / 2 + x.gamma * x.brownies i)
  | .raw lat lon lats lons =>
    let dlat : K := int32 (lat - lats i)
    let dlon : K := int32 (lon - lons i)
    fun s => score s +
      (x.beta / 2 - x.alpha * (dlat * dlat + dlon * dlon) + x.gamma * x.brownies i)

variable (approx : Approximations K)

def decided (i j : ℕ) : ZMod B → K := fun s =>
  applySelectorSchedule (splitSchedule x.args.selectorSchedule)
    (comparatorStep approx x.args.comparatorValue x.comparatorParams.filled
      (x.score i s - x.score j s))

def selector (i j : ℕ) : ZMod B → K :=
  if i < j then x.decided approx i j
  else if j < i then fun s => x.score j s - x.score j s + 1 - x.decided approx j i s
  else fun s => x.score i s - x.score i s + 1

def factors (i : ℕ) : List (ZMod B → K) :=
  ((List.range x.n).filter fun j => i ≠ j).map (x.selector approx i)

def mask (i : ℕ) : ZMod B → K := (reduce (· * ·) (x.factors approx i)).headD 0

/-- Bit indices only grow, so the loop's break leaves zero in every later slot. -/
def packageChunkBits (packageBytes : ℤ) (i c : ℕ) : ZMod B → K := fun s =>
  let bitIdx := int32 (int32 (c * x.args.chunkSize) + s.val)
  if int32 (packageBytes * 8) ≤ bitIdx then 0
  else
    let value := x.packages (i * packageBytes.toNat + (bitIdx / 8).toNat)
    if value / 2 ^ (7 - bitIdx % 8).toNat % 2 = 1 then 1 else 0

def weighted (c i : ℕ) : ZMod B → K :=
  match x.args.packageBytes with
  | some packageBytes => x.mask approx i * x.packageChunkBits packageBytes i c
  | none => x.mask approx i * x.payload (int32 (int32 (i * x.args.nChunks) + c)).toNat

def fusedChunk (c : ℕ) : ZMod B → K :=
  (gather (· + ·) ((List.range x.n).map (x.weighted approx c))).getD 0

def chunkedFuse : Except String (List (ZMod B → K)) :=
  match x.args.refusal exactLibrary with
  | some e => .error e
  | none => .ok ((List.range x.args.nChunks.toNat).map (x.fusedChunk approx))

def distance (i : ℕ) : K :=
  match x.distances with
  | .encrypted distance => distance i 0
  | .raw lat lon lats lons => (int32 (lat - lats i) : K) ^ 2 + (int32 (lon - lons i) : K) ^ 2

def totalScore [NeZero B] (i : ℕ) : K :=
  x.beta / 2 * ∑ p, x.initiator p * x.candidate i p + x.beta / 2 - x.alpha * x.distance i +
    x.gamma * x.brownies i

/-- An encrypted distance stands in every slot. -/
def Replicated : Prop :=
  match x.distances with
  | .encrypted distance => ∀ i s, distance i s = distance i 0
  | .raw .. => True

def packageBit (packageBytes i b : ℕ) : K :=
  if 8 * packageBytes ≤ b then 0
  else if x.packages (i * packageBytes + b / 8) / 2 ^ (7 - b % 8) % 2 = 1 then 1 else 0

def ownChunk (i c : ℕ) : ZMod B → K :=
  match x.args.packageBytes with
  | some packageBytes => fun s => x.packageBit packageBytes.toNat i (c * B + s.val)
  | none => x.payload (i * x.args.nChunks.toNat + c)

def ReturnsWinner [NeZero B] : Prop :=
  ∃ win < x.n, (∀ i < x.n, i ≠ win → x.totalScore i < x.totalScore win) ∧
    ∃ chunks, x.chunkedFuse approx = .ok chunks ∧
      chunks.length = x.args.payloadSlotCount.toNat ⌈/⌉ B ∧
      ∀ c < chunks.length, chunks[c]? = some (x.ownChunk win c)

end Inputs

/-- What the checks ask of a call, the number of candidates apart from being positive. -/
structure Admitted (a : NativeArgs) : Prop where
  modes : a.modeChecks.refusal = none
  payloads : a.payloadRefusal = none
  distances : a.distanceRefusal = none
  candidates : ∀ len ∈ a.candidateCtLens.take a.nCandidates.toNat, len ≠ 0
  comparator : a.comparatorSupported = true
  schedule : a.unsupportedStage = none

/-- No sum or product of the sizes leaves its word of thirty-two bits. -/
structure Sized (a : NativeArgs) : Prop where
  dim : a.profileDim ≤ 2 ^ 30
  slots : a.payloadSlotCount + a.chunkSize ≤ 2 ^ 31
  bits : ∀ packageBytes ∈ a.packageBytes, packageBytes * 8 < 2 ^ 31
  chunks : a.packageBytes = none → a.nCandidates * a.nChunks < 2 ^ 31

section

variable {a : NativeArgs}

theorem Admitted.dimensions (admitted : Admitted a) :
    0 < a.nCandidates ∧ 0 < a.profileDim ∧ 0 < a.payloadSlotCount ∧
      ∀ packageBytes ∈ a.packageBytes, 0 < packageBytes := by
  have passes := Checks.refusal_eq_none.mp admitted.modes
  simp only [NativeArgs.modeChecks, List.forall_mem_cons] at passes
  obtain ⟨-, shape, -⟩ := passes
  simp only [Bool.or_eq_false_iff, decide_eq_false_iff_not, not_le] at shape
  refine ⟨shape.1.1.1, shape.1.1.2, shape.1.2, ?_⟩
  intro packageBytes given
  rw [Option.mem_def] at given
  have bytes := shape.2
  simp only [given, Option.any_some, Bool.or_eq_false_iff, decide_eq_false_iff_not, not_le]
    at bytes
  exact bytes.1

theorem candidateRefusal_none {lens : List ℕ} (positive : ∀ len ∈ lens, len ≠ 0) (i : ℕ) :
    NativeArgs.candidateRefusal exactLibrary i lens = none := by
  induction lens generalizing i with
  | nil => rfl
  | cons len lens ih =>
    rw [NativeArgs.candidateRefusal, if_neg (positive len (by simp))]
    exact ih (fun len' mem => positive len' (by simp [mem])) (i + 1)

theorem Admitted.refusal_eq (admitted : Admitted a) :
    a.refusal exactLibrary =
      if a.nCandidates = 1 then some "product tree requires at least one factor" else none := by
  have candidates := candidateRefusal_none admitted.candidates 0
  rw [NativeArgs.refusal, admitted.modes, admitted.payloads, admitted.distances, candidates,
    NativeArgs.scoringRefusal, admitted.comparator, admitted.schedule]
  simp [exactLibrary]

theorem Admitted.refusal_none_iff (admitted : Admitted a) :
    a.refusal exactLibrary = none ↔ 2 ≤ a.nCandidates := by
  have positive := admitted.dimensions.1
  rw [admitted.refusal_eq]
  constructor
  · intro accepted
    by_contra few
    rw [if_pos (by omega)] at accepted
    cases accepted
  · intro two
    rw [if_neg (by omega)]

end

section

variable [Field K] [LinearOrder K] [NeZero B] {x : Inputs K B} {approx : Approximations K}

def Inputs.Decides (x : Inputs K B) (approx : Approximations K) : Prop :=
  ∀ i < x.n, ∀ j < x.n,
    let step := comparatorStep approx x.args.comparatorValue x.comparatorParams.filled
      (x.totalScore i - x.totalScore j)
    (x.totalScore j < x.totalScore i → step = 1) ∧ (x.totalScore i < x.totalScore j → step = 0)

/-- The call passes the native checks, no size leaves its word, and a vector is one chunk long. -/
structure Fits (x : Inputs K B) : Prop where
  admitted : Admitted x.args
  sized : Sized x.args
  batch : (B : ℤ) = x.args.chunkSize

omit [Field K] [LinearOrder K] [NeZero B] in
theorem Fits.window_eq (fits : Fits x) : 2 ^ Nat.clog 2 x.args.profileDim.toNat = B := by
  have dim := fits.admitted.dimensions.2.1
  have size := (chunkSize_small dim fits.sized.dim).1
  have small := fits.sized.dim
  rw [nextPowerOfTwo_eq (by omega)] at size
  have := fits.batch
  exact_mod_cast (size.symm.trans this.symm)

omit [LinearOrder K] in
theorem Fits.score_eq (fits : Fits x) (replicated : x.Replicated) (i : ℕ) (s : ZMod B) :
    x.score i s = x.totalScore i := by
  have sum : x.similarity i s = ∑ p, x.initiator p * x.candidate i p := by
    rw [Inputs.similarity, Inputs.evalSum, fits.window_eq, window_all]
    rfl
  rw [Inputs.Replicated] at replicated
  rw [Inputs.score, Inputs.totalScore, Inputs.distance]
  cases given : x.distances with
  | raw lat lon lats lons =>
    simp only [sum]
    ring
  | encrypted distance =>
    rw [given] at replicated
    simp only [sum, replicated]
    ring

theorem Fits.decided_eq (fits : Fits x) (replicated : x.Replicated) (decides : x.Decides approx)
    {i j : ℕ} (hi : i < x.n) (hj : j < x.n) (ne : x.totalScore i ≠ x.totalScore j) :
    x.decided approx i j = fun _ => if x.totalScore j < x.totalScore i then 1 else 0 := by
  funext s
  obtain ⟨up, down⟩ := decides i hi j hj
  rw [Inputs.decided, fits.score_eq replicated, fits.score_eq replicated]
  by_cases above : x.totalScore j < x.totalScore i
  · rw [if_pos above, up above, applySelectorSchedule_one]
  · rw [if_neg above, down (lt_of_le_of_ne (not_lt.mp above) ne), applySelectorSchedule_zero]

theorem Fits.selector_eq (fits : Fits x) (replicated : x.Replicated) (decides : x.Decides approx)
    {i j : ℕ} (hi : i < x.n) (hj : j < x.n) (other : i ≠ j) (ne : x.totalScore i ≠ x.totalScore j) :
    x.selector approx i j = fun _ => if x.totalScore j < x.totalScore i then 1 else 0 := by
  rcases lt_or_gt_of_ne other with lt | gt
  · rw [Inputs.selector, if_pos lt, fits.decided_eq replicated decides hi hj ne]
  · rw [Inputs.selector, if_neg gt.not_gt, if_pos gt,
      fits.decided_eq replicated decides hj hi ne.symm]
    funext s
    rw [sub_self, zero_add]
    by_cases above : x.totalScore j < x.totalScore i
    · rw [if_pos above, if_neg above.not_gt, sub_zero]
    · rw [if_neg above, if_pos (lt_of_le_of_ne (not_lt.mp above) ne), sub_self]

omit [NeZero B] in
theorem mask_eq (two : 2 ≤ x.n) (i : ℕ) : x.mask approx i = (x.factors approx i).prod := by
  have nonempty : x.factors approx i ≠ [] := by
    have other : ∃ j < x.n, i ≠ j := by
      by_cases zero : i = 0
      · exact ⟨1, by omega, by omega⟩
      · exact ⟨0, by omega, zero⟩
    obtain ⟨j, small, ne⟩ := other
    have mem : x.selector approx i j ∈ x.factors approx i :=
      List.mem_map.mpr ⟨j, List.mem_filter.mpr ⟨List.mem_range.mpr small, decide_eq_true ne⟩, rfl⟩
    exact ne_nil_of_mem mem
  rw [Inputs.mask, reduce_mul nonempty, headD_cons]

end

section

variable [Field K] [LinearOrder K] [NeZero B] {x : Inputs K B} {approx : Approximations K}

omit [Field K] [LinearOrder K] [NeZero B] in
theorem Fits.nChunks_eq (fits : Fits x) :
    x.args.nChunks = ((x.args.payloadSlotCount.toNat ⌈/⌉ B : ℕ) : ℤ) := by
  obtain ⟨-, dim, slots, -⟩ := fits.admitted.dimensions
  obtain ⟨-, positive, -⟩ := chunkSize_small dim fits.sized.dim
  have batch := fits.batch
  rw [nChunks_exact positive slots fits.sized.slots, Nat.ceilDiv_eq_add_pred_div, ← batch]
  have sum : ((x.args.payloadSlotCount.toNat + B - 1 : ℕ) : ℤ) =
      x.args.payloadSlotCount + B - 1 := by
    omega
  rw [Int.natCast_div, sum]

omit [Field K] [LinearOrder K] [NeZero B] in
theorem Fits.slot_lt (fits : Fits x) {c : ℕ} (small : (c : ℤ) < x.args.nChunks) {k : ℕ}
    (below : k < B) : (c : ℤ) * B + k < 2 ^ 31 := by
  obtain ⟨-, dim, slots, -⟩ := fits.admitted.dimensions
  obtain ⟨-, positive, -⟩ := chunkSize_small dim fits.sized.dim
  have count := nChunks_exact positive slots fits.sized.slots
  have top := fits.sized.slots
  rw [← fits.batch] at count top positive
  have rounded : x.args.nChunks * B ≤ x.args.payloadSlotCount + B - 1 := by
    rw [count]
    exact Int.ediv_mul_le _ positive.ne'
  have step : ((c : ℤ) + 1) * B ≤ x.args.nChunks * B :=
    mul_le_mul_of_nonneg_right (by omega) positive.le
  rw [add_mul, one_mul] at step
  omega

omit [LinearOrder K] [NeZero B] in
theorem Inputs.packageChunkBits_apply (batch : (B : ℤ) = x.args.chunkSize) {packageBytes : ℤ}
    (positive : 0 < packageBytes) (bits : packageBytes * 8 < 2 ^ 31) {c : ℕ} {s : ZMod B}
    (last : (c : ℤ) * B + s.val < 2 ^ 31) (i : ℕ) :
    x.packageChunkBits packageBytes i c s = x.packageBit packageBytes.toNat i (c * B + s.val) := by
  have nonneg := mul_nonneg (Int.natCast_nonneg c) (Int.natCast_nonneg B)
  have start : int32 (c * x.args.chunkSize) = ((c * B : ℕ) : ℤ) := by
    rw [← batch, int32_of_inInt32]
    · push_cast
      rfl
    · unfold InInt32
      omega
  have index : int32 (int32 (c * x.args.chunkSize) + s.val) = ((c * B + s.val : ℕ) : ℤ) := by
    rw [start, int32_of_inInt32]
    · push_cast
      rfl
    · unfold InInt32
      push_cast
      omega
  have total := int32_of_inInt32 ⟨by omega, bits⟩
  rw [Inputs.packageChunkBits, Inputs.packageBit, index, total]
  obtain ⟨b, eq⟩ : ∃ b, b = c * B + s.val := ⟨_, rfl⟩
  rw [← eq]
  by_cases past : 8 * packageBytes.toNat ≤ b
  · rw [if_pos past, if_pos (by omega)]
  · rw [if_neg past, if_neg (by omega)]
    simp only [show (((b : ℤ) / 8).toNat) = b / 8 by omega,
      show (7 - (b : ℤ) % 8).toNat = 7 - b % 8 by omega]

omit [LinearOrder K] in
theorem Fits.packageChunkBits_eq (fits : Fits x) {packageBytes : ℤ}
    (given : x.args.packageBytes = some packageBytes) {c : ℕ} (small : (c : ℤ) < x.args.nChunks)
    (i : ℕ) :
    x.packageChunkBits packageBytes i c =
      fun s => x.packageBit packageBytes.toNat i (c * B + s.val) :=
  funext fun s => x.packageChunkBits_apply fits.batch
    (fits.admitted.dimensions.2.2.2 packageBytes given) (fits.sized.bits packageBytes given)
    (fits.slot_lt small (ZMod.val_lt s)) i

omit [Field K] [LinearOrder K] [NeZero B] in
theorem Fits.payloadIndex_eq (fits : Fits x) (encrypted : x.args.packageBytes = none) {c i : ℕ}
    (small : (c : ℤ) < x.args.nChunks) (hi : i < x.n) :
    (int32 (int32 (i * x.args.nChunks) + c)).toNat = i * x.args.nChunks.toNat + c := by
  obtain ⟨count, eq⟩ : ∃ count : ℕ, x.args.nChunks = count := ⟨_, fits.nChunks_eq⟩
  have top := fits.sized.chunks encrypted
  have candidates : (i : ℤ) + 1 ≤ x.args.nCandidates := by
    rw [Inputs.n] at hi
    omega
  have step : ((i : ℤ) + 1) * x.args.nChunks ≤ x.args.nCandidates * x.args.nChunks :=
    mul_le_mul_of_nonneg_right candidates (by omega)
  have low : 0 ≤ (i : ℤ) * x.args.nChunks := mul_nonneg (by omega) (by omega)
  rw [add_mul, one_mul] at step
  rw [int32_of_inInt32 (x := (i : ℤ) * x.args.nChunks) ⟨by omega, by omega⟩,
    int32_of_inInt32 ⟨by omega, by omega⟩, eq, Int.toNat_natCast]
  rw [← Nat.cast_mul, ← Nat.cast_add, Int.toNat_natCast]

theorem Fits.weighted_eq (fits : Fits x) {c i : ℕ} (small : (c : ℤ) < x.args.nChunks)
    (hi : i < x.n) : x.weighted approx c i = x.mask approx i * x.ownChunk i c := by
  rw [Inputs.weighted, Inputs.ownChunk]
  cases given : x.args.packageBytes with
  | some packageBytes => simp only [fits.packageChunkBits_eq given small]
  | none => simp only [fits.payloadIndex_eq given small hi]

theorem Fits.fusedChunk_eq (fits : Fits x) (replicated : x.Replicated)
    (decides : x.Decides approx) (two : 2 ≤ x.n) {win : ℕ} (inside : win < x.n)
    (highest : ∀ i < x.n, i ≠ win → x.totalScore i < x.totalScore win) {c : ℕ}
    (small : (c : ℤ) < x.args.nChunks) : x.fusedChunk approx c = x.ownChunk win c := by
  have terms : (List.range x.n).map (x.weighted approx c) = (List.range x.n).map fun i =>
      (((List.range x.n).filter fun j => i ≠ j).map (x.selector approx i)).prod *
        x.ownChunk i c := by
    apply map_congr_left
    intro i mem
    rw [fits.weighted_eq small (List.mem_range.mp mem), mask_eq two, Inputs.factors]
  rw [Inputs.fusedChunk, gather_getD, terms]
  apply sum_masks List.nodup_range (List.mem_range.mpr inside)
  · intro j mem ne
    have below := highest j (List.mem_range.mp mem) ne
    rw [fits.selector_eq replicated decides inside (List.mem_range.mp mem) ne.symm below.ne']
    funext s
    exact if_pos below
  · intro i mem ne
    have below := highest i (List.mem_range.mp mem) ne
    rw [fits.selector_eq replicated decides (List.mem_range.mp mem) inside ne below.ne]
    funext s
    exact if_neg below.not_gt

theorem exists_highest (some_candidate : 0 < x.n)
    (distinct : ∀ i < x.n, ∀ j < x.n, i ≠ j → x.totalScore i ≠ x.totalScore j) :
    ∃ win < x.n, ∀ i < x.n, i ≠ win → x.totalScore i < x.totalScore win := by
  obtain ⟨win, mem, top⟩ := Finset.exists_max_image (Finset.range x.n) x.totalScore
    ⟨0, Finset.mem_range.mpr some_candidate⟩
  rw [Finset.mem_range] at mem
  refine ⟨win, mem, ?_⟩
  intro i hi ne
  exact lt_of_le_of_ne (top i (Finset.mem_range.mpr hi)) (distinct i hi win mem ne)

/-- Chunked blind fusion returns the winner's package exactly when there is someone to compare
it with. -/
theorem chunked_fuse_returns_winner (fits : Fits x) (replicated : x.Replicated)
    (decides : x.Decides approx)
    (distinct : ∀ i < x.n, ∀ j < x.n, i ≠ j → x.totalScore i ≠ x.totalScore j) :
    x.ReturnsWinner approx ↔ 2 ≤ x.args.nCandidates := by
  have checks := fits.admitted.refusal_none_iff
  constructor
  · intro returned
    obtain ⟨win, -, -, chunks, ok, -⟩ := returned
    rw [← checks]
    rw [Inputs.chunkedFuse] at ok
    cases refused : x.args.refusal exactLibrary with
    | none => rfl
    | some e =>
      rw [refused] at ok
      cases ok
  · intro two
    have several : 2 ≤ x.n := by
      rw [Inputs.n]
      omega
    obtain ⟨win, inside, highest⟩ := exists_highest (by omega) distinct
    refine ⟨win, inside, highest, (List.range x.args.nChunks.toNat).map (x.fusedChunk approx),
      ?_, ?_, ?_⟩
    · rw [Inputs.chunkedFuse, checks.mpr two]
    · rw [length_map, length_range, fits.nChunks_eq, Int.toNat_natCast]
    · intro c small
      rw [length_map, length_range] at small
      rw [List.getElem?_map, List.getElem?_range small, Option.map_some,
        fits.fusedChunk_eq replicated decides several inside highest (by omega)]

end

def call (n : ℕ) : Inputs ℚ 2 where
  args :=
    { ctxHandle := false, initiatorCtLen := 1, candidateCtLens := List.replicate n 1
      rawDistance := true, distanceCts := none, nCandidates := n, profileDim := 2
      comparator := [], selectorSchedule := "smoothstep5".toList, evalMultKeyLen := 1
      evalSumKeyLen := 1, packageBytes := some 1, payloadCts := none, payloadSlotCount := 8 }
  initiator := fun _ => 1
  candidate := fun i _ => i
  distances := .raw 0 0 (fun _ => 0) fun _ => 0
  brownies := fun _ => 0
  alpha := 0
  beta := 2
  gamma := 0
  comparatorParams := ⟨0, 0, 0, 0⟩
  packages := fun k => 171 + k
  payload := fun _ _ => 0

def sharpStep : Approximations ℚ where
  tanhStep _ _ _ _ x := if 0 < x then 1 else 0
  logistic _ _ _ x := if 0 < x then 1 else 0

theorem call_fits {n : ℕ} (some_candidate : 0 < n) (few : n ≤ 2) : Fits (call n) := by
  interval_cases n
  · exact ⟨⟨by decide, by decide, by decide, by decide, by decide, by decide⟩,
      ⟨by decide, by decide +kernel, by decide, by decide +kernel⟩, by decide +kernel⟩
  · exact ⟨⟨by decide, by decide, by decide, by decide, by decide, by decide⟩,
      ⟨by decide, by decide +kernel, by decide, by decide +kernel⟩, by decide +kernel⟩

theorem chunked_fuse_returns_winner_two :
    Fits (call 2) ∧ (call 2).Replicated ∧ (call 2).Decides sharpStep ∧
      (call 2).ReturnsWinner sharpStep := by
  have fits : Fits (call 2) := call_fits (by decide) (by decide)
  have decides : (call 2).Decides sharpStep := by
    unfold Inputs.Decides
    decide +kernel
  exact ⟨fits, trivial, decides,
    (chunked_fuse_returns_winner fits trivial decides (by decide +kernel)).mpr (by decide)⟩

/-- The checks admit one candidate, and the call fails. -/
theorem lone_candidate_refused :
    Fits (call 1) ∧ (call 1).Replicated ∧ (call 1).Decides sharpStep ∧
      ¬ (call 1).ReturnsWinner sharpStep ∧ (call 1).chunkedFuse sharpStep =
        .error "product tree requires at least one factor" := by
  have fits : Fits (call 1) := call_fits (by decide) (by decide)
  have decides : (call 1).Decides sharpStep := by
    unfold Inputs.Decides
    decide +kernel
  have refused : (call 1).args.refusal exactLibrary =
      some "product tree requires at least one factor" := fits.admitted.refusal_eq
  have failed : (call 1).chunkedFuse sharpStep =
      .error "product tree requires at least one factor" := by
    rw [Inputs.chunkedFuse, refused]
  refine ⟨fits, trivial, decides, ?_, failed⟩
  intro returned
  obtain ⟨win, -, -, chunks, ok, -⟩ := returned
  rw [failed] at ok
  cases ok

end ChunkedSelection
