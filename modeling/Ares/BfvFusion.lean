import Ares.BalancedProducts
import Ares.CyclicSlots
import Ares.FallibleLists
import Ares.MachineIntegers
import Ares.PowerTables

/-! `ARESBlindFusePayloadBFV` in exact arithmetic: the folded and broadcast dot product, integer
weights, a step polynomial evaluated in blocks on every difference of scores, the product tree of
the comparisons and the masked sum of the payloads. -/

namespace BfvFusion

open BalancedProducts CyclicSlots FallibleLists MachineIntegers PowerTables List Finset

/-- `ARES_BFV_PS_LOW_RSS` and `ARES_BFV_PS_BABY_STEPS`; a text that is no number is `none`. -/
structure Environment where
  lowRss : Bool
  babySteps : Option ℤ

def bfvPsBabySteps (env : Environment) (degree : ℕ) : ℕ :=
  let fallback := max 2 (degree.sqrt + 1)
  match env.babySteps with
  | none => fallback
  | some parsed => if parsed < 2 ∨ (degree : ℤ) + 1 < parsed then fallback else parsed.toNat

section

variable {C : Type} [CommRing C]

def productTree (factors : List C) : Except String C :=
  match reduce (· * ·) factors with
  | [] => .error "product tree requires at least one factor"
  | product :: _ => .ok product

def bfvEncryptedConstant (reference : C) (value : ℤ) : C := reference - reference + value

def bfvPowerFromBinary (powers : List C) (exponent : ℕ) (one : C) : Except String C :=
  if exponent = 0 then .ok one
  else
    match binaryFactors powers exponent exponent 0 with
    | none => .error "BFV power cache is too small"
    | some factors => productTree factors

def psTerm (coefficients : List ℤ) (baby : List C) (k b i : ℕ) : Option C := do
  let coefficient ← coefficients[b * k + i]?
  if coefficient = 0 then none else some (baby.getD i 0 * coefficient)

def psTerms (coefficients : List ℤ) (baby : List C) (k b : ℕ) : List C :=
  (List.range k).filterMap (psTerm coefficients baby k b)

def psBlock (coefficients : List ℤ) (baby : List C) (giant : ℕ → Except String C) (k b : ℕ) :
    Except String (Option C) :=
  match gather (· + ·) (psTerms coefficients baby k b) with
  | none => .ok none
  | some block =>
    if b = 0 then .ok (some block)
    else do
      let factor ← giant b
      return some (factor * block)

def bfvPsEval (env : Environment) (x : C) (coefficients : List ℤ) : Except String C :=
  let degree := coefficients.length - 1
  if coefficients.length = 0 then .error "BFV step polynomial is empty"
  else if degree = 0 then .ok (bfvEncryptedConstant x (coefficients.getD 0 0))
  else
    let k := bfvPsBabySteps env degree
    let blocks := (degree + k) / k
    let one := bfvEncryptedConstant x 1
    let baby := table one x k
    let xk := baby.getD (k / 2) 0 * baby.getD (k - k / 2) 0
    let giant := fun b =>
      if env.lowRss then bfvPowerFromBinary (powerOfTwoCache xk (blocks - 1)) b one
      else .ok ((table one xk blocks).getD b 0)
    do
      let weighted ← (List.range blocks).mapM (psBlock coefficients baby giant k)
      return (gather (· + ·) weighted.reduceOption).getD (bfvEncryptedConstant x 0)

def stepValue (coefficients : List ℤ) (y : C) : C :=
  ∑ j ∈ Finset.range coefficients.length, (coefficients.getD j 0 : ℤ) * y ^ j

theorem two_le_bfvPsBabySteps (env : Environment) (degree : ℕ) : 2 ≤ bfvPsBabySteps env degree := by
  rw [bfvPsBabySteps]
  split
  · exact le_max_left ..
  · split_ifs <;> omega

@[simp] theorem bfvEncryptedConstant_eq (reference : C) (value : ℤ) :
    bfvEncryptedConstant reference value = value := by
  rw [bfvEncryptedConstant, sub_self, zero_add]

theorem productTree_eq {factors : List C} (nonempty : factors ≠ []) :
    productTree factors = .ok factors.prod := by
  rw [productTree, reduce_mul nonempty]

theorem table_getD (x : C) {count i : ℕ} (small : i < count) :
    (table 1 x count).getD i 0 = x ^ i := by
  rw [getD_eq_getElem?_getD, table_getElem? x small, Option.getD_some]

theorem bfvPowerFromBinary_eq (y one : C) {maxExp exponent : ℕ} (positive : 0 < exponent)
    (inside : exponent ≤ maxExp) :
    bfvPowerFromBinary (powerOfTwoCache y maxExp) exponent one = .ok (y ^ exponent) := by
  obtain ⟨factors, found, product, nonempty⟩ := binaryFactors_prod
    (fun b below => powerOfTwoCache_getElem? y below) le_rfl
    (show exponent * 2 ^ 0 ≤ maxExp by omega)
  rw [bfvPowerFromBinary, if_neg positive.ne', found]
  simp [productTree_eq (nonempty positive), product]

section

variable (coefficients : List ℤ) (x : C)

include coefficients x

theorem psTerm_getD {k i : ℕ} (b : ℕ) (small : i < k) :
    (psTerm coefficients (table 1 x k) k b i).getD 0 =
      (coefficients.getD (b * k + i) 0 : ℤ) * x ^ i := by
  rw [psTerm, table_getD x small, getD_eq_getElem?_getD]
  cases coefficients[b * k + i]? with
  | none => simp
  | some coefficient =>
    by_cases zero : coefficient = 0
    · simp [zero]
    · simp [zero, mul_comm]

theorem sum_psTerms (k b : ℕ) :
    (psTerms coefficients (table 1 x k) k b).sum =
      ∑ i ∈ Finset.range k, (coefficients.getD (b * k + i) 0 : ℤ) * x ^ i := by
  have terms : ((List.range k).map fun i => (psTerm coefficients (table 1 x k) k b i).getD 0) =
      (List.range k).map fun i => (coefficients.getD (b * k + i) 0 : ℤ) * x ^ i := by
    apply map_congr_left
    intro i mem
    exact psTerm_getD coefficients x b (List.mem_range.mp mem)
  rw [psTerms, sum_filterMap, terms]
  rfl

theorem psBlock_eq {giant : ℕ → Except String C} {k b : ℕ}
    (power : 0 < b → giant b = .ok (x ^ (b * k))) :
    psBlock coefficients (table 1 x k) giant k b =
      .ok ((gather (· + ·) (psTerms coefficients (table 1 x k) k b)).map (x ^ (b * k) * ·)) := by
  rw [psBlock]
  cases gather (· + ·) (psTerms coefficients (table 1 x k) k b) with
  | none => rfl
  | some block =>
    by_cases first : b = 0
    · simp [first]
    · simp only [if_neg first, power (by omega), bind, Except.bind, pure, Except.pure,
        Option.map_some]

theorem sum_blocks {k blocks : ℕ} (covered : coefficients.length ≤ blocks * k) :
    ((List.range blocks).map fun b => ((gather (· + ·)
        (psTerms coefficients (table 1 x k) k b)).map (x ^ (b * k) * ·)).getD 0).sum =
      stepValue coefficients x := by
  have block : ∀ b, ((gather (· + ·) (psTerms coefficients (table 1 x k) k b)).map
      (x ^ (b * k) * ·)).getD 0 =
        ∑ i ∈ Finset.range k, (coefficients.getD (b * k + i) 0 : ℤ) * x ^ (b * k + i) := by
    intro b
    have value := gather_getD (psTerms coefficients (table 1 x k) k b)
    rw [sum_psTerms] at value
    have scaled : ((gather (· + ·) (psTerms coefficients (table 1 x k) k b)).map
        (x ^ (b * k) * ·)).getD 0 =
          x ^ (b * k) * (gather (· + ·) (psTerms coefficients (table 1 x k) k b)).getD 0 := by
      cases gather (· + ·) (psTerms coefficients (table 1 x k) k b) with
      | none => simp
      | some block => rfl
    rw [scaled, value, mul_sum]
    apply sum_congr rfl
    intro i _
    ring
  have beyond : ∀ j, coefficients.length ≤ j → (coefficients.getD j 0 : ℤ) * x ^ j = 0 := by
    intro j past
    rw [getD_eq_default _ _ past, Int.cast_zero, zero_mul]
  calc _ = ∑ b ∈ Finset.range blocks, ∑ i ∈ Finset.range k,
        (coefficients.getD (b * k + i) 0 : ℤ) * x ^ (b * k + i) := by
        simp only [block]
        rfl
    _ = ∑ j ∈ Finset.range (blocks * k), (coefficients.getD j 0 : ℤ) * x ^ j := by
        rw [sum_range_blocks]
    _ = stepValue coefficients x := by
        rw [stepValue, ← sum_range_add_sum_Ico _ covered,
          sum_eq_zero fun j mem => beyond j (mem_Ico.mp mem).1, add_zero]

end

theorem bfvPsEval_eq (env : Environment) (x : C) {coefficients : List ℤ}
    (nonempty : coefficients ≠ []) :
    bfvPsEval env x coefficients = .ok (stepValue coefficients x) := by
  have positive := length_pos_iff.mpr nonempty
  simp only [bfvPsEval, bfvEncryptedConstant_eq, Int.cast_one, Int.cast_zero]
  rw [if_neg positive.ne']
  by_cases constant : coefficients.length - 1 = 0
  · have one : coefficients.length = 1 := by omega
    rw [if_pos constant, stepValue, one]
    simp
  · have two := two_le_bfvPsBabySteps env (coefficients.length - 1)
    rw [if_neg constant]
    obtain ⟨k, steps⟩ : ∃ k, k = bfvPsBabySteps env (coefficients.length - 1) := ⟨_, rfl⟩
    obtain ⟨blocks, count⟩ : ∃ n, n = (coefficients.length - 1 + k) / k := ⟨_, rfl⟩
    rw [← steps] at two ⊢
    rw [← count]
    have covered : coefficients.length ≤ blocks * k := by
      have := Nat.lt_div_mul_add (a := coefficients.length - 1 + k) (show 0 < k by omega)
      rw [← count] at this
      omega
    have xk : (table 1 x k).getD (k / 2) 0 * (table 1 x k).getD (k - k / 2) 0 = x ^ k := by
      rw [table_getD x (by omega), table_getD x (by omega), ← pow_add]
      congr 1
      omega
    rw [xk]
    have power : ∀ b < blocks, 0 < b → (if env.lowRss then
        bfvPowerFromBinary (powerOfTwoCache (x ^ k) (blocks - 1)) b 1
        else .ok ((table 1 (x ^ k) blocks).getD b 0)) = .ok (x ^ (b * k)) := by
      intro b small first
      rw [mul_comm, pow_mul]
      split_ifs
      · exact bfvPowerFromBinary_eq (x ^ k) 1 first (by omega)
      · rw [table_getD (x ^ k) small]
    rw [mapM_of_forall fun b mem => psBlock_eq coefficients x (power b (List.mem_range.mp mem))]
    simp only [bind, Except.bind]
    rw [gather_getD, List.reduceOption, sum_filterMap, List.map_map]
    exact congrArg _ (sum_blocks coefficients x covered)

/-- However the memory mode and the block length are set, the evaluation in blocks is that of the
polynomial, slot by slot. -/
theorem ps_eval_exact {σ R : Type} [CommRing R] (env : Environment) (x : σ → R) (c : ℤ)
    (cs : List ℤ) :
    bfvPsEval env x (c :: cs) =
      .ok fun s => ∑ i ∈ Finset.range (cs.length + 1), ((c :: cs).getD i 0 : ℤ) * x s ^ i := by
  rw [bfvPsEval_eq env x (List.cons_ne_nil c cs)]
  congr 1
  funext s
  simp only [stepValue, Finset.sum_apply, Pi.mul_apply, Pi.pow_apply, Pi.intCast_apply,
    List.length_cons]

end

/-- What a call is given; ciphertexts and their lengths are read by the candidate's index. A
`Matches` field tells whether what was deserialized belongs to the context and, the initiator's
apart, carries its key tag. -/
structure Request (R : Type) (B : ℕ) where
  evalMultKeyLen : ℕ
  evalSumKeyLen : ℕ
  initiatorCtLen : ℕ
  nCandidates : ℤ
  profileDim : ℤ
  packageBytes : ℤ
  profileCtLen : ℕ → ℕ
  distanceCtLen : ℕ → ℕ
  payloadCtLen : ℕ → ℕ
  initiatorMatches : Bool
  candidateMatches : ℕ → Bool
  payloadMatches : ℕ → Bool
  initiator : ZMod B → R
  profile : ℕ → ZMod B → R
  distance : ℕ → ZMod B → R
  payload : ℕ → ZMod B → R
  brownies : ℕ → ℤ
  profileWeight : ℤ
  distanceWeight : ℤ
  brownieWeight : ℤ
  stepCoeffs : List ℤ

section

variable {R : Type} [CommRing R] {B : ℕ}

def foldDotToFirstSlot (ct : ZMod B → R) (profileDim : ℤ) : ZMod B → R :=
  foldDoubling 1 profileDim.toNat ct

def broadcastFirstSlotBfv (ct : ZMod B → R) (slotCount : ℤ) : ZMod B → R :=
  foldDoubling (-1) slotCount.toNat (ct * fun s => if s = 0 then 1 else 0)

namespace Request

variable (req : Request R B)

def n : ℕ := req.nCandidates.toNat

def brownieOffset (i : ℕ) : ℤ := int64 (req.brownieWeight * req.brownies i)

def score (i : ℕ) : ZMod B → R :=
  let product := req.initiator * req.profile i
  let folded := foldDotToFirstSlot product req.profileDim
  let score := broadcastFirstSlotBfv folded req.packageBytes
  let score := if req.profileWeight ≠ 1 then score * (req.profileWeight : ZMod B → R) else score
  let score := if req.distanceWeight ≠ 0 then
    score + req.distance i * (req.distanceWeight : ZMod B → R) else score
  if req.brownieOffset i ≠ 0 then score + (req.brownieOffset i : ZMod B → R) else score

def candidateRefusal (i : ℕ) : Option String :=
  if req.profileCtLen i = 0 ∨ req.distanceCtLen i = 0 ∨ req.payloadCtLen i = 0 then
    some "empty BFV candidate ciphertext"
  else if req.candidateMatches i then none
  else some "BFV candidate ciphertext context or key tag mismatch"

def refusal : Option String :=
  if req.evalMultKeyLen = 0 ∨ req.evalSumKeyLen = 0 ∨ req.initiatorCtLen = 0 ∨
      req.nCandidates < 2 ∨ req.profileDim ≤ 0 ∨ req.packageBytes ≤ 0 ∨
      req.stepCoeffs.length = 0 ∨ int32 B < req.packageBytes then
    some "invalid BFV blind fusion shape"
  else if req.initiatorMatches then (List.range req.n).findSome? req.candidateRefusal
  else some "initiator ciphertext context does not match BFV scorer context"

def mask (env : Environment) (i : ℕ) : Except String (ZMod B → R) := do
  let factors ← ((List.range req.n).filter fun j => i ≠ j).mapM fun j =>
    bfvPsEval env (req.score i - req.score j) req.stepCoeffs
  productTree factors

def weightedPayload (env : Environment) (i : ℕ) : Except String (ZMod B → R) := do
  let mask ← req.mask env i
  if req.payloadMatches i then return mask * req.payload i
  else .error "BFV payload ciphertext context or key tag mismatch"

def blindFusePayload (env : Environment) : Except String (ZMod B → R) :=
  match req.refusal with
  | some e => .error e
  | none => do
    let weighted ← (List.range req.n).mapM (req.weightedPayload env)
    match gather (· + ·) weighted with
    | none => .error "BFV blind fusion produced no payload"
    | some fused => return fused

def totalScore (i : ℕ) : R :=
  req.profileWeight * ∑ t ∈ Finset.range req.profileDim.toNat, req.initiator t * req.profile i t +
    req.distanceWeight * req.distance i 0 + req.brownieOffset i

/-- The call passes its checks, and the vectors have the form that callers encode: profiles end at
their dimension (the initiator's is enough), and a distance stands in every slot of the package. -/
structure WellFormed : Prop where
  accepted : req.refusal = none
  payloads : ∀ i < req.n, req.payloadMatches i = true
  batch : ∃ k, B = 2 ^ k
  dim : req.profileDim ≤ B
  package : req.packageBytes ≤ B
  initiator : ∀ t : ℕ, req.profileDim ≤ t → t < B → req.initiator t = 0
  distance : ∀ i < req.n, ∀ q : ℕ, q < req.packageBytes → req.distance i q = req.distance i 0

/-- The step polynomial is one on positive and zero on other differences of scores, when the
residues are read as the integers `value`. -/
structure Decides (value : ℕ → ℤ) : Prop where
  reads : ∀ i < req.n, (value i : R) = req.totalScore i
  positive : ∀ i < req.n, ∀ j < req.n, i ≠ j → 0 < value i - value j →
    stepValue req.stepCoeffs ((value i - value j : ℤ) : R) = 1
  other : ∀ i < req.n, ∀ j < req.n, i ≠ j → value i - value j ≤ 0 →
    stepValue req.stepCoeffs ((value i - value j : ℤ) : R) = 0

end Request

variable {req : Request R B}

section

variable (formed : req.WellFormed)

include formed

theorem Request.WellFormed.shape :
    2 ≤ req.n ∧ 0 < req.profileDim ∧ 0 < req.packageBytes ∧ req.stepCoeffs ≠ [] := by
  have accepted := formed.accepted
  rw [Request.refusal] at accepted
  split at accepted
  · cases accepted
  · next shape =>
    simp only [not_or] at shape
    obtain ⟨-, -, -, candidates, dim, package, coeffs, -⟩ := shape
    refine ⟨?_, by omega, by omega, ?_⟩
    · rw [Request.n]
      omega
    · intro empty
      exact coeffs (by rw [empty]; rfl)

theorem Request.WellFormed.rounded_le {n : ℕ} (fits : n ≤ B) : 2 ^ Nat.clog 2 n ≤ B := by
  obtain ⟨k, rfl⟩ := formed.batch
  exact Nat.pow_le_pow_right (by omega) ((Nat.clog_le_iff_le_pow (by omega)).mpr fits)

theorem Request.WellFormed.folded_eq (i : ℕ) :
    foldDotToFirstSlot (req.initiator * req.profile i) req.profileDim 0 =
      ∑ t ∈ Finset.range req.profileDim.toNat, req.initiator t * req.profile i t := by
  have dim := formed.dim
  have inside := formed.rounded_le (n := req.profileDim.toNat) (by omega)
  rw [foldDotToFirstSlot, foldDoubling_first]
  · rfl
  · intro t low high
    rw [Pi.mul_apply, formed.initiator t (by omega) (by omega), zero_mul]

theorem Request.WellFormed.broadcast_eq (ct : ZMod B → R) {q : ℕ} (small : q < req.packageBytes) :
    broadcastFirstSlotBfv ct req.packageBytes q = ct 0 := by
  have package := formed.package
  rw [broadcastFirstSlotBfv, mul_first,
    foldDoubling_firstOnly (formed.rounded_le (by omega)) ct (by omega)]

theorem Request.WellFormed.score_eq {i : ℕ} (hi : i < req.n) {q : ℕ}
    (small : q < req.packageBytes) : req.score i q = req.totalScore i := by
  have dot := formed.broadcast_eq
    (foldDotToFirstSlot (req.initiator * req.profile i) req.profileDim) small
  rw [formed.folded_eq] at dot
  have distance := formed.distance i hi q small
  have profile : ∀ ct : ZMod B → R, (if req.profileWeight ≠ 1 then
      ct * (req.profileWeight : ZMod B → R) else ct) = ct * (req.profileWeight : ZMod B → R) := by
    intro ct
    split_ifs with one
    · rfl
    · rw [not_not.mp one, Int.cast_one, mul_one]
  have distanced : ∀ ct : ZMod B → R, (if req.distanceWeight ≠ 0 then
      ct + req.distance i * (req.distanceWeight : ZMod B → R) else ct) =
        ct + req.distance i * (req.distanceWeight : ZMod B → R) := by
    intro ct
    split_ifs with zero
    · rfl
    · rw [not_not.mp zero, Int.cast_zero, mul_zero, add_zero]
  have offset : ∀ ct : ZMod B → R, (if req.brownieOffset i ≠ 0 then
      ct + (req.brownieOffset i : ZMod B → R) else ct) =
        ct + (req.brownieOffset i : ZMod B → R) := by
    intro ct
    split_ifs with zero
    · rfl
    · rw [not_not.mp zero, Int.cast_zero, add_zero]
  simp only [Request.score, profile, distanced, offset]
  rw [Request.totalScore, ← dot, ← distance]
  simp only [Pi.add_apply, Pi.mul_apply, Pi.intCast_apply]
  ring

end

theorem stepValue_apply (coefficients : List ℤ) (ct : ZMod B → R) (s : ZMod B) :
    stepValue coefficients ct s = stepValue coefficients (ct s) := by
  simp only [stepValue, Finset.sum_apply, Pi.mul_apply, Pi.pow_apply, Pi.intCast_apply]

theorem masked_sum_apply (n : ℕ) (sel : ℕ → ℕ → ZMod B → R) (payload : ℕ → ZMod B → R)
    (s : ZMod B) :
    ((List.range n).map fun i =>
        (((List.range n).filter fun j => i ≠ j).map (sel i)).prod * payload i).sum s =
      ((List.range n).map fun i =>
        (((List.range n).filter fun j => i ≠ j).map fun j => sel i j s).prod *
          payload i s).sum := by
  have summed := map_list_sum (Pi.evalRingHom (fun _ : ZMod B => R) s) ((List.range n).map fun i =>
    (((List.range n).filter fun j => i ≠ j).map (sel i)).prod * payload i)
  rw [Pi.evalRingHom_apply, List.map_map] at summed
  rw [summed]
  congr 1
  apply List.map_congr_left
  intro i _
  rw [Function.comp_apply, map_mul, map_list_prod, List.map_map]
  rfl

theorem Request.WellFormed.mask_eq (formed : req.WellFormed) (env : Environment) (i : ℕ) :
    req.mask env i = .ok (((List.range req.n).filter fun j => i ≠ j).map fun j =>
      stepValue req.stepCoeffs (req.score i - req.score j)).prod := by
  obtain ⟨two, -, -, coeffs⟩ := formed.shape
  have nonempty : (((List.range req.n).filter fun j => i ≠ j).map fun j =>
      stepValue req.stepCoeffs (req.score i - req.score j)) ≠ [] := by
    have other : ∃ j < req.n, i ≠ j := by
      by_cases zero : i = 0
      · exact ⟨1, by omega, by omega⟩
      · exact ⟨0, by omega, zero⟩
    obtain ⟨j, small, ne⟩ := other
    rw [Ne, map_eq_nil_iff]
    exact ne_nil_of_mem
      (List.mem_filter.mpr ⟨List.mem_range.mpr small, decide_eq_true ne⟩)
  rw [Request.mask, mapM_of_forall fun j _ => bfvPsEval_eq env _ coeffs]
  exact productTree_eq nonempty

theorem Request.WellFormed.fuse_eq (formed : req.WellFormed) (env : Environment) :
    req.blindFusePayload env = .ok ((List.range req.n).map fun i =>
      (((List.range req.n).filter fun j => i ≠ j).map fun j =>
        stepValue req.stepCoeffs (req.score i - req.score j)).prod * req.payload i).sum := by
  obtain ⟨two, -, -, -⟩ := formed.shape
  have weighted : ∀ i ∈ List.range req.n, req.weightedPayload env i =
      .ok ((((List.range req.n).filter fun j => i ≠ j).map fun j =>
        stepValue req.stepCoeffs (req.score i - req.score j)).prod * req.payload i) := by
    intro i mem
    rw [Request.weightedPayload, formed.mask_eq, formed.payloads i (List.mem_range.mp mem)]
    rfl
  rw [Request.blindFusePayload, formed.accepted, mapM_of_forall weighted]
  simp only [bind, Except.bind, pure, Except.pure]
  obtain ⟨first, rest, eq⟩ := List.exists_cons_of_length_pos
    (show 0 < (List.range req.n).length by rw [List.length_range]; omega)
  rw [← gather_getD, eq, List.map_cons, gather, Option.getD_some]

/-- Blind fusion over BFV returns the winner's package: whatever the memory mode and the block
length, if one score is above all others then the package slots of the result hold what the winner's
payload has there. -/
theorem bfv_fuse_returns_winner {p B : ℕ} {req : Request (ZMod p) B} (formed : req.WellFormed)
    (env : Environment) {value : ℕ → ℤ} (decides : req.Decides value) {win : ℕ}
    (inside : win < req.n) (highest : ∀ i < req.n, i ≠ win → value i < value win) :
    ∃ fused, req.blindFusePayload env = .ok fused ∧
      ∀ q : ℕ, q < req.packageBytes → fused q = req.payload win q := by
  refine ⟨_, formed.fuse_eq env, ?_⟩
  intro q small
  have difference : ∀ i < req.n, ∀ j < req.n,
      stepValue req.stepCoeffs (req.score i - req.score j) q =
        stepValue req.stepCoeffs ((value i - value j : ℤ) : ZMod p) := by
    intro i hi j hj
    rw [stepValue_apply, Pi.sub_apply, formed.score_eq hi small, formed.score_eq hj small,
      ← decides.reads i hi, ← decides.reads j hj, Int.cast_sub]
  rw [masked_sum_apply]
  apply sum_masks List.nodup_range (List.mem_range.mpr inside)
  · intro j mem ne
    have hj := List.mem_range.mp mem
    have below := highest j hj ne
    rw [difference win inside j hj]
    exact decides.positive win inside j hj ne.symm (by omega)
  · intro i mem ne
    have hi := List.mem_range.mp mem
    have below := highest i hi ne
    rw [difference i hi win inside]
    exact decides.other i hi win inside ne (by omega)

end

def duel : Request (ZMod 7) 2 where
  evalMultKeyLen := 1
  evalSumKeyLen := 1
  initiatorCtLen := 1
  nCandidates := 2
  profileDim := 1
  packageBytes := 2
  profileCtLen _ := 1
  distanceCtLen _ := 1
  payloadCtLen _ := 1
  initiatorMatches := true
  candidateMatches _ := true
  payloadMatches _ := true
  initiator := fun s => if s = 0 then 1 else 0
  profile := fun i _ => i
  distance := fun _ _ => 5
  payload := fun i s => if s = 0 then 3 else i
  brownies := fun _ => 0
  profileWeight := 1
  distanceWeight := 0
  brownieWeight := 1
  stepCoeffs := [4, 4]

theorem bfv_fuse_returns_winner_duel :
    duel.WellFormed ∧ duel.Decides (fun i => i) ∧
      ∃ fused, duel.blindFusePayload ⟨true, none⟩ = .ok fused ∧ fused 0 = 3 ∧ fused 1 = 1 := by
  have formed : duel.WellFormed := by
    refine ⟨by decide, fun _ _ => rfl, ⟨1, rfl⟩, by decide, by decide, ?_, fun _ _ _ _ => rfl⟩
    intro t low high
    obtain rfl : t = 1 := by
      have : duel.profileDim = 1 := rfl
      omega
    decide
  have decides : duel.Decides (fun i => i) := ⟨by decide, by decide, by decide⟩
  obtain ⟨fused, ok, package⟩ := bfv_fuse_returns_winner formed ⟨true, none⟩ decides
    (show 1 < duel.n by decide) (by decide)
  exact ⟨formed, decides, fused, ok, package 0 (by decide), package 1 (by decide)⟩

end BfvFusion
