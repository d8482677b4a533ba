import Ares.PoolClearing

/-! `EvalClearing` and its readouts, over an arbitrary implementation of the homomorphic operations.
-/

namespace ClearingCircuit

open PoolClearing List Finset

structure ContextHandle (ε C : Type) where
  evalMult : C → C → Except ε C
  evalSub : C → C → Except ε C
  evalPoly : C → List ℚ → Except ε C
  evalMultConst : C → ℚ → Except ε C
  evalAtIndex : C → ℤ → Except ε C
  encrypt : List ℚ → Except ε C

structure ClearingInputs (C : Type) where
  supply : Option C
  demand : Option C

structure ClearingOutputs (C : Type) where
  step : C
  oneHot : C
  supplyAt : C
  supplyPrevAt : C
  demandAt : C

/-- A check of the package, or a failed operation under the label of its stage. -/
inductive CircuitErr (ε : Type) where
  | pool (e : PoolErr)
  | stage (label : String) (cause : ε)

section

variable {ε C : Type}

def check (x : Except PoolErr Unit) : Except (CircuitErr ε) Unit := x.mapError .pool

def stage (label : String) (x : Except ε C) : Except (CircuitErr ε) C :=
  x.mapError (.stage label)

def slotBoundaryMask (g : GridSpec) : List ℚ :=
  (List.range g.numSlots.toNat).foldl (fun out (slot : ℕ) => out.set (g.index slot 0).toNat 0)
    (List.replicate g.len.toNat 1)

def evalClearing (h : ContextHandle ε C) (g : GridSpec) (inputs : ClearingInputs C)
    (coeffs : List ℚ) (scale : ℚ) : Except (CircuitErr ε) (ClearingOutputs C) := do
  check g.validate
  match inputs with
  | ⟨some supply, some demand⟩ =>
    check (refuse (coeffs.length = 0) .coefficientsRequired)
    check (refuse (¬ 0 < scale) (.scale scale))
    let excess ← stage "pool: excess supply" (h.evalSub supply demand)
    let normalized ← stage "pool: range control" (h.evalMultConst excess (1 / scale))
    let step ← stage "pool: comparator" (h.evalPoly normalized coeffs)
    let prev ← stage "pool: price-axis shift" (h.evalAtIndex step (-1))
    let diff ← stage "pool: one-hot" (h.evalSub step prev)
    let ctMask ← stage "pool: encrypt boundary mask" (h.encrypt (slotBoundaryMask g))
    let oneHot ← stage "pool: apply boundary mask" (h.evalMult diff ctMask)
    let supplyPrev ← stage "pool: shift supply" (h.evalAtIndex supply (-1))
    let supplyAt ← stage "pool: mask supply" (h.evalMult oneHot supply)
    let supplyPrevAt ← stage "pool: mask supply-prev" (h.evalMult oneHot supplyPrev)
    let demandAt ← stage "pool: mask demand" (h.evalMult oneHot demand)
    return { step, oneHot, supplyAt, supplyPrevAt, demandAt }
  | _ => throw (.pool .curvesRequired)

end

def oneHotThreshold : ℚ := 1 / 100
def crossingTolerance : ℚ := 1 / 1000

def crossingOf (g : GridSpec) (step : List ℚ) (slot : ℤ) : ℤ :=
  ((Int.range 1 g.numBuckets).find? fun k =>
    1 / 2 - crossingTolerance ≤ entry step (g.index slot k)).getD noClearing

def decodeCrossing (g : GridSpec) (step : List ℚ) : List ℤ :=
  (List.range g.numSlots.toNat).map fun (slot : ℕ) => crossingOf g step slot

def decodeSlot (g : GridSpec) (oneHot supplyAt supplyPrevAt demandAt : List ℚ) (slot k : ℤ) :
    SlotResult :=
  if k = noClearing then { bucket := noClearing }
  else
    let idx := g.index slot k
    let m := entry oneHot idx
    if m < oneHotThreshold then { bucket := k, priceCt := g.price k }
    else
      let res := deriveAllocation {
        bucket := k
        priceCt := g.price k
        supply := entry supplyAt idx / m
        supplyPrev := entry supplyPrevAt idx / m
        demand := entry demandAt idx / m }
      if res.bucket ≠ noClearing then { res with bucket := k, priceCt := g.price k } else res

def decodeClearing (g : GridSpec) (step oneHot supplyAt supplyPrevAt demandAt : List ℚ) :
    List SlotResult :=
  (decodeCrossing g step).mapIdx fun slot k =>
    decodeSlot g oneHot supplyAt supplyPrevAt demandAt slot k

section

abbrev Slots (n : ℕ) := Fin n → ℚ

def evalPolyAt (coeffs : List ℚ) (x : ℚ) : ℚ := coeffs.foldr (fun c acc => acc * x + c) 0

def rotate {n : ℕ} (index : ℤ) (v : Slots n) : Slots n := fun i =>
  v ⟨((i + index : ℤ) % n).toNat, by
    have n_pos : 0 < n := i.pos
    have upper := Int.emod_lt_of_pos (i + index : ℤ) (Int.natCast_pos.mpr n_pos)
    have lower := Int.emod_nonneg (i + index : ℤ) (Int.natCast_ne_zero.mpr n_pos.ne')
    omega⟩

def pack {n : ℕ} (vals : List ℚ) : Slots n := fun i => vals.getD i 0

def exactHandle (ε : Type) (n : ℕ) : ContextHandle ε (Slots n) where
  evalMult a b := .ok (a * b)
  evalSub a b := .ok (a - b)
  evalPoly a coeffs := .ok fun i => evalPolyAt coeffs (a i)
  evalMultConst a scalar := .ok fun i => a i * scalar
  evalAtIndex a index := .ok (rotate index a)
  encrypt vals := .ok (pack vals)

def decrypt {n : ℕ} (v : Slots n) : List ℚ := List.ofFn v

def decodeOutputs {n : ℕ} (g : GridSpec) (out : ClearingOutputs (Slots n)) : List SlotResult :=
  decodeClearing g (decrypt out.step) (decrypt out.oneHot) (decrypt out.supplyAt)
    (decrypt out.supplyPrevAt) (decrypt out.demandAt)

variable {g : GridSpec} {n : ℕ} {slot k : ℤ}

theorem entry_decrypt (v : Slots n) {i : ℤ} (lt : i.toNat < n) :
    entry (decrypt v) i = v ⟨i.toNat, lt⟩ := by
  simp [entry, decrypt, lt]

theorem rotate_back (v : Slots n) {i : ℤ} (pos : 0 < i) (lt : i.toNat < n) :
    rotate (-1) v ⟨i.toNat, lt⟩ = v ⟨(i - 1).toNat, by omega⟩ := by
  have inside : (i - 1) % (n : ℤ) = i - 1 := Int.emod_eq_of_lt (by omega) (by omega)
  have back : (i.toNat : ℤ) + -1 = i - 1 := by omega
  simp only [rotate, back, inside]

theorem entry_writes {writes : List (ℕ × ℚ)} {out : List ℚ} {i : ℤ} {x : ℚ}
    (inside : i.toNat < out.length) (agree : ∀ w ∈ writes, w.1 = i.toNat → w.2 = x)
    (start : (∃ w ∈ writes, w.1 = i.toNat) ∨ entry out i = x) :
    entry (writes.foldl (fun out w => out.set w.1 w.2) out) i = x := by
  induction writes generalizing out with
  | nil =>
    rcases start with ⟨w, mem, -⟩ | before
    · cases mem
    · exact before
  | cons w writes ih =>
    rw [foldl_cons]
    apply ih (by rwa [length_set]) fun w' mem => agree w' (mem_cons_of_mem _ mem)
    by_cases here : w.1 = i.toNat
    · rw [← agree w mem_cons_self here, here]
      simp [entry, inside]
    · rcases start with ⟨w', mem, hit⟩ | before
      · rcases mem_cons.mp mem with rfl | mem
        · exact absurd hit here
        · exact .inl ⟨w', mem, hit⟩
      · rw [← before]
        simp [entry, List.getElem?_set_ne here]

theorem length_writes (writes : List (ℕ × ℚ)) (out : List ℚ) :
    (writes.foldl (fun out w => out.set w.1 w.2) out).length = out.length := by
  induction writes generalizing out with
  | nil => rfl
  | cons w writes ih => rw [foldl_cons, ih, length_set]

theorem entry_mask (hslot : 0 ≤ slot ∧ slot < g.numSlots) (hk : 0 ≤ k ∧ k < g.numBuckets) :
    entry (slotBoundaryMask g) (g.index slot k) = if k = 0 then 0 else 1 := by
  have inside := GridSpec.index_mem hslot hk
  have writes : slotBoundaryMask g = ((List.range g.numSlots.toNat).map fun (t : ℕ) =>
      ((g.index t 0).toNat, (0 : ℚ))).foldl (fun out w => out.set w.1 w.2)
        (List.replicate g.len.toNat 1) := by
    rw [slotBoundaryMask, foldl_map]
  rw [writes]
  apply entry_writes (by rw [length_replicate]; omega)
  · intro w mem hit
    obtain ⟨t, bound, rfl⟩ := mem_map.mp mem
    have range : (0 : ℤ) ≤ t ∧ (t : ℤ) < g.numSlots := by
      have lt := List.mem_range.mp bound
      omega
    have first := (GridSpec.index_inj range hslot ⟨le_rfl, by omega⟩ hk).mp hit
    rw [if_pos first.2.symm]
  · split
    · rename_i first
      refine .inl ⟨((g.index slot 0).toNat, 0), mem_map.mpr ⟨slot.toNat, ?_, ?_⟩, by rw [first]⟩
      · rw [List.mem_range]
        omega
      · rw [Int.toNat_of_nonneg hslot.1]
    · simp [entry, inside.2, inside.1.trans_lt]

end

section

variable (n : ℕ) (g : GridSpec) (supply demand coeffs : List ℚ) (scale : ℚ)

def normalized (slot k : ℤ) : ℚ :=
  (entry supply (g.index slot k) - entry demand (g.index slot k)) * (1 / scale)

def stepAt (slot k : ℤ) : ℚ := evalPolyAt coeffs (normalized g supply demand scale slot k)

def amplitude (slot k : ℤ) : ℚ :=
  stepAt g supply demand coeffs scale slot k - stepAt g supply demand coeffs scale slot (k - 1)

def exactStep : Slots n := fun i =>
  evalPolyAt coeffs ((pack supply i - pack demand i) * (1 / scale))

def exactOneHot : Slots n :=
  (exactStep n supply demand coeffs scale - rotate (-1) (exactStep n supply demand coeffs scale)) *
    pack (slotBoundaryMask g)

def exactOutputs : ClearingOutputs (Slots n) where
  step := exactStep n supply demand coeffs scale
  oneHot := exactOneHot n g supply demand coeffs scale
  supplyAt := exactOneHot n g supply demand coeffs scale * pack supply
  supplyPrevAt := exactOneHot n g supply demand coeffs scale * rotate (-1) (pack supply)
  demandAt := exactOneHot n g supply demand coeffs scale * pack demand

variable {n g supply demand coeffs scale} {ε : Type} {slot k : ℤ}

theorem evalClearing_exact (valid : g.Valid) (given : coeffs ≠ []) (pos : 0 < scale) :
    evalClearing (exactHandle ε n) g ⟨some (pack supply), some (pack demand)⟩ coeffs scale =
      .ok (exactOutputs n g supply demand coeffs scale) := by
  have length : ¬ coeffs.length = 0 := by simpa using given
  simp only [evalClearing, GridSpec.validate_eq_ok_iff.mpr valid, refuse_eq_ok_iff.mpr length,
    refuse_eq_ok_iff.mpr (not_not.mpr pos)]
  rfl

section

variable (room : g.len ≤ n) (hslot : 0 ≤ slot ∧ slot < g.numSlots)
include room hslot

theorem place_lt (hk : 0 ≤ k ∧ k < g.numBuckets) : (g.index slot k).toNat < n := by
  have inside := GridSpec.index_mem hslot hk
  omega

theorem entry_step (hk : 0 ≤ k ∧ k < g.numBuckets) :
    entry (decrypt (exactStep n supply demand coeffs scale)) (g.index slot k) =
      stepAt g supply demand coeffs scale slot k := by
  rw [entry_decrypt _ (place_lt room hslot hk)]
  rfl

theorem entry_rotate (v : Slots n) (hk : 1 ≤ k ∧ k < g.numBuckets) :
    rotate (-1) v ⟨(g.index slot k).toNat, place_lt room hslot ⟨by omega, hk.2⟩⟩ =
      v ⟨(g.index slot (k - 1)).toNat, place_lt room hslot ⟨by omega, by omega⟩⟩ := by
  have first := GridSpec.index_mem hslot (k := k - 1) ⟨by omega, by omega⟩
  have down : g.index slot k - 1 = g.index slot (k - 1) := by
    unfold GridSpec.index
    omega
  rw [rotate_back v (by omega)]
  simp only [down]

theorem entry_oneHot (hk : 1 ≤ k ∧ k < g.numBuckets) :
    entry (decrypt (exactOneHot n g supply demand coeffs scale)) (g.index slot k) =
      amplitude g supply demand coeffs scale slot k := by
  have one : pack (slotBoundaryMask g) ⟨(g.index slot k).toNat,
      place_lt room hslot ⟨by omega, hk.2⟩⟩ = 1 := by
    refine (entry_mask hslot ⟨by omega, hk.2⟩).trans (if_neg ?_)
    omega
  rw [entry_decrypt _ (place_lt room hslot ⟨by omega, hk.2⟩), exactOneHot, Pi.mul_apply,
    Pi.sub_apply, entry_rotate room hslot _ hk, one, mul_one]
  rfl

theorem entry_masked (v : Slots n) (hk : 1 ≤ k ∧ k < g.numBuckets) :
    entry (decrypt (exactOneHot n g supply demand coeffs scale * v)) (g.index slot k) =
      amplitude g supply demand coeffs scale slot k *
        v ⟨(g.index slot k).toNat, place_lt room hslot ⟨by omega, hk.2⟩⟩ := by
  rw [← entry_oneHot room hslot hk, entry_decrypt,
    entry_decrypt, Pi.mul_apply]

end

variable (g supply demand coeffs scale) in
/-- The comparator tells the sign of every excess of the grid: at least a half on the nonnegative
ones, and below the readout's tolerance on the negative ones. -/
structure Comparator : Prop where
  given : coeffs ≠ []
  high : ∀ slot k, (0 ≤ slot ∧ slot < g.numSlots) → (0 ≤ k ∧ k < g.numBuckets) →
    0 ≤ normalized g supply demand scale slot k →
      1 / 2 ≤ evalPolyAt coeffs (normalized g supply demand scale slot k)
  low : ∀ slot k, (0 ≤ slot ∧ slot < g.numSlots) → (0 ≤ k ∧ k < g.numBuckets) →
    normalized g supply demand scale slot k < 0 →
      evalPolyAt coeffs (normalized g supply demand scale slot k) < 1 / 2 - crossingTolerance

theorem normalized_neg_iff (pos : 0 < scale) : normalized g supply demand scale slot k < 0 ↔
    entry supply (g.index slot k) - entry demand (g.index slot k) < 0 := by
  have inv := one_div_pos.mpr pos
  unfold normalized
  rw [mul_neg_iff]
  constructor
  · rintro (⟨-, neg⟩ | ⟨neg, -⟩)
    · exact absurd neg inv.not_gt
    · exact neg
  · intro neg
    exact .inr ⟨neg, inv⟩

theorem crossingOf_exact (room : g.len ≤ n) (hslot : 0 ≤ slot ∧ slot < g.numSlots)
    (comparator : Comparator g supply demand coeffs scale) (pos : 0 < scale) :
    crossingOf g (decrypt (exactStep n supply demand coeffs scale)) slot =
      (crossing g supply demand slot).getD noClearing := by
  have agree : ∀ k ∈ Int.range 1 g.numBuckets,
      (1 / 2 - crossingTolerance ≤
        entry (decrypt (exactStep n supply demand coeffs scale)) (g.index slot k) ↔
      ¬ entry supply (g.index slot k) - entry demand (g.index slot k) < 0) := by
    intro k mem
    obtain ⟨lower, upper⟩ := Int.mem_range_iff.mp mem
    have hk : 0 ≤ k ∧ k < g.numBuckets := ⟨by omega, upper⟩
    rw [entry_step room hslot hk, ← normalized_neg_iff pos]
    constructor
    · intro reads neg
      exact (comparator.low slot k hslot hk neg).not_ge reads
    · intro nonneg
      have high := comparator.high slot k hslot hk (not_lt.mp nonneg)
      unfold crossingTolerance stepAt
      linarith
  unfold crossingOf crossing
  congr 1
  apply List.find?_congr
  intro k mem
  simp only [agree k mem]

theorem deriveAllocation_keeps {res : SlotResult}
    (clears : (deriveAllocation res).bucket ≠ noClearing) :
    { deriveAllocation res with bucket := res.bucket, priceCt := res.priceCt } =
      deriveAllocation res := by
  by_cases idle : (if res.demand < res.supply then res.demand else res.supply) ≤ 0
  · exact absurd (by simp only [deriveAllocation, if_pos idle]) clears
  · simp only [deriveAllocation, if_neg idle]

section

variable (room : g.len ≤ n) (hslot : 0 ≤ slot ∧ slot < g.numSlots) (hk : 1 ≤ k ∧ k < g.numBuckets)

include room hslot hk

theorem decodeSlot_of_amplitude
    (enough : oneHotThreshold ≤ amplitude g supply demand coeffs scale slot k) :
    decodeSlot g (decrypt (exactOutputs n g supply demand coeffs scale).oneHot)
      (decrypt (exactOutputs n g supply demand coeffs scale).supplyAt)
      (decrypt (exactOutputs n g supply demand coeffs scale).supplyPrevAt)
      (decrypt (exactOutputs n g supply demand coeffs scale).demandAt) slot k =
    deriveAllocation (crossingAt g supply demand slot k) := by
  have some_bucket : k ≠ noClearing := by
    unfold noClearing
    omega
  have pos : 0 < amplitude g supply demand coeffs scale slot k := by
    unfold oneHotThreshold at enough
    linarith
  have bucket_pos : 0 < k := by omega
  have quotients : (⟨k, g.price k, entry supply (g.index slot k),
      entry supply (g.index slot (k - 1)), entry demand (g.index slot k), 0, 0, 0⟩ : SlotResult) =
        crossingAt g supply demand slot k := by
    simp only [crossingAt, if_pos bucket_pos]
  have packed : ∀ (curve : List ℚ) {j : ℤ} (lt : (g.index slot j).toNat < n),
      pack curve ⟨(g.index slot j).toNat, lt⟩ = entry curve (g.index slot j) := by
    intro curve j lt
    rfl
  simp only [decodeSlot, exactOutputs, if_neg some_bucket, entry_oneHot room hslot hk,
    if_neg enough.not_gt, entry_masked room hslot _ hk, entry_rotate room hslot _ hk, packed,
    mul_div_cancel_left₀ _ pos.ne', quotients]
  split
  · rename_i clears
    exact deriveAllocation_keeps clears
  · rfl

theorem decodeSlot_of_small
    (small : amplitude g supply demand coeffs scale slot k < oneHotThreshold)
    (supplyAt supplyPrevAt demandAt : List ℚ) :
    decodeSlot g (decrypt (exactOutputs n g supply demand coeffs scale).oneHot) supplyAt
      supplyPrevAt demandAt slot k = { bucket := k, priceCt := g.price k } := by
  have some_bucket : k ≠ noClearing := by
    unfold noClearing
    omega
  simp only [decodeSlot, exactOutputs, if_neg some_bucket, entry_oneHot room hslot hk,
    if_pos small]

end

variable (n g supply demand coeffs scale) in
def decodedSlot (slot : ℤ) : SlotResult :=
  decodeSlot g (decrypt (exactOutputs n g supply demand coeffs scale).oneHot)
    (decrypt (exactOutputs n g supply demand coeffs scale).supplyAt)
    (decrypt (exactOutputs n g supply demand coeffs scale).supplyPrevAt)
    (decrypt (exactOutputs n g supply demand coeffs scale).demandAt) slot
    (crossingOf g (decrypt (exactOutputs n g supply demand coeffs scale).step) slot)

theorem decodeOutputs_exact : decodeOutputs g (exactOutputs n g supply demand coeffs scale) =
    (List.range g.numSlots.toNat).map fun (slot : ℕ) =>
      decodedSlot n g supply demand coeffs scale slot := by
  apply ext_getElem?
  intro i
  simp only [decodeOutputs, decodeClearing, decodeCrossing, List.getElem?_mapIdx,
    List.getElem?_map]
  rcases lt_or_ge i g.numSlots.toNat with lt | ge
  · rw [List.getElem?_range lt]
    rfl
  · have outside : (List.range g.numSlots.toNat)[i]? = none := by
      rw [List.getElem?_eq_none_iff, length_range]
      exact ge
    rw [outside]
    rfl

/-- The agreement of a decoded slot `d` with the oracle's `r`: bucket and price, and everything
else where the bump `m` at the bucket is high enough to divide by. -/
def Agrees (d r : SlotResult) (m : ℚ) : Prop :=
  d.bucket = r.bucket ∧ d.priceCt = r.priceCt ∧
    (r.bucket = noClearing ∨ oneHotThreshold ≤ m → d = r)

variable (g supply demand coeffs scale) in
def Settled (slot : ℤ) : Prop :=
  ∀ k, IsLeast (meets g supply demand slot) k →
    0 < entry demand (g.index slot k) ∨
      oneHotThreshold ≤ amplitude g supply demand coeffs scale slot k

theorem slot_agrees_iff (room : g.len ≤ n) (hslot : 0 ≤ slot ∧ slot < g.numSlots)
    (comparator : Comparator g supply demand coeffs scale) (pos : 0 < scale) :
    Agrees (decodedSlot n g supply demand coeffs scale slot) (clearSlot g supply demand slot)
        (entry (decrypt (exactOutputs n g supply demand coeffs scale).oneHot)
          (g.index slot (clearSlot g supply demand slot).bucket)) ↔
      Settled g supply demand coeffs scale slot := by
  have reads := crossingOf_exact room hslot comparator pos
  cases found : crossing g supply demand slot with
  | none =>
    have empty := crossing_eq_none_iff.mp found
    have idle : decodedSlot n g supply demand coeffs scale slot = { bucket := noClearing } := by
      rw [decodedSlot, exactOutputs, reads, found]
      simp [decodeSlot]
    rw [idle, clearSlot_of_empty empty]
    constructor
    · intro _ k least
      exact absurd least.1 (by simp [empty])
    · intro _
      exact ⟨rfl, rfl, fun _ => rfl⟩
  | some k =>
    have least := crossing_eq_some_iff.mp found
    have hk := least.1.1
    have decoded : decodedSlot n g supply demand coeffs scale slot =
        decodeSlot g (decrypt (exactOutputs n g supply demand coeffs scale).oneHot)
          (decrypt (exactOutputs n g supply demand coeffs scale).supplyAt)
          (decrypt (exactOutputs n g supply demand coeffs scale).supplyPrevAt)
          (decrypt (exactOutputs n g supply demand coeffs scale).demandAt) slot k := by
      rw [decodedSlot, exactOutputs, reads, found]
      rfl
    have only : Settled g supply demand coeffs scale slot ↔
        0 < entry demand (g.index slot k) ∨
          oneHotThreshold ≤ amplitude g supply demand coeffs scale slot k := by
      constructor
      · intro settled
        exact settled k least
      · intro settled j least'
        rwa [least'.unique least]
    have some_bucket : k ≠ noClearing := by
      unfold noClearing
      omega
    rw [only, decoded]
    rcases le_or_gt oneHotThreshold (amplitude g supply demand coeffs scale slot k) with
      enough | small
    · have same : clearSlot g supply demand slot =
          deriveAllocation (crossingAt g supply demand slot k) := by
        rw [clearSlot, found]
      rw [decodeSlot_of_amplitude room hslot hk enough, same]
      constructor
      · intro _
        exact .inr enough
      · intro _
        exact ⟨rfl, rfl, fun _ => rfl⟩
    · rw [decodeSlot_of_small room hslot hk small]
      rcases lt_or_ge 0 (entry demand (g.index slot k)) with trades | idle
      · rw [clearSlot_of_pos least trades]
        constructor
        · intro _
          exact .inl trades
        · intro _
          refine ⟨rfl, rfl, ?_⟩
          rintro (none | enough)
          · exact absurd none some_bucket
          · simp only [crossingAt, exactOutputs, entry_oneHot room hslot hk] at enough
            exact absurd enough small.not_ge
      · rw [clearSlot_of_nonpos least idle]
        constructor
        · rintro ⟨bucket, -⟩
          exact absurd bucket some_bucket
        · rintro (trades | enough)
          · exact absurd trades idle.not_gt
          · exact absurd enough small.not_ge

def Refines (n : ℕ) (g : GridSpec) (supply demand coeffs : List ℚ) (scale : ℚ) : Prop :=
  ∃ (out : ClearingOutputs (Slots n)) (results : List SlotResult),
    evalClearing (exactHandle Empty n) g ⟨some (pack supply), some (pack demand)⟩ coeffs scale =
      .ok out ∧
    clearPlaintext g supply demand = .ok results ∧
    (decodeOutputs g out).length = results.length ∧
    ∀ (slot : ℕ) (d r : SlotResult), (decodeOutputs g out)[slot]? = some d →
      results[slot]? = some r →
        Agrees d r (entry (decrypt out.oneHot) (g.index slot r.bucket))

/-- The circuit refines the oracle exactly when every crossing trades or has enough amplitude to be
divided by. Neither curve has to be monotone for this. -/
theorem circuit_refines_iff {n : ℕ} {g : GridSpec} {supply demand coeffs : List ℚ} {scale : ℚ}
    (valid : g.Valid) (room : g.len ≤ n) (supply_len : (supply.length : ℤ) = g.len)
    (demand_len : (demand.length : ℤ) = g.len) (pos : 0 < scale)
    (comparator : Comparator g supply demand coeffs scale) :
    Refines n g supply demand coeffs scale ↔
      ∀ slot : ℕ, (slot : ℤ) < g.numSlots → Settled g supply demand coeffs scale slot := by
  have evaluated : evalClearing (exactHandle Empty n) g ⟨some (pack supply), some (pack demand)⟩
      coeffs scale = .ok (exactOutputs n g supply demand coeffs scale) :=
    evalClearing_exact valid comparator.given pos
  have cleared := clearPlaintext_ok valid supply_len demand_len
  constructor
  · rintro ⟨out, results, eval, clear, -, agrees⟩ slot lt
    cases evaluated.symm.trans eval
    cases cleared.symm.trans clear
    have bound : slot < g.numSlots.toNat := by omega
    have agree := agrees slot (decodedSlot n g supply demand coeffs scale slot)
      (clearSlot g supply demand slot) (by simp [decodeOutputs_exact, bound]) (by simp [bound])
    exact (slot_agrees_iff room ⟨by omega, lt⟩ comparator pos).mp agree
  · intro settled
    refine ⟨_, _, evaluated, cleared, by simp [decodeOutputs_exact], ?_⟩
    intro slot d r decoded oracle
    rw [decodeOutputs_exact, List.getElem?_map, Option.map_eq_some_iff] at decoded
    obtain ⟨t, at_slot, rfl⟩ := decoded
    obtain ⟨bound, rfl⟩ := List.getElem?_eq_some_iff.mp at_slot
    rw [length_range] at bound
    rw [getElem_range]
    simp only [List.getElem?_map, List.getElem?_range bound, Option.map_some,
      Option.some.injEq] at oracle
    rw [← oracle]
    exact (slot_agrees_iff room ⟨by omega, by omega⟩ comparator pos).mpr (settled slot (by omega))

end

section

def tanhSeries : List ℚ :=
  [1, -1 / 3, 2 / 15, -17 / 315, 62 / 2835, -1382 / 155925, 21844 / 6081075]

def logisticCoeff (gain : ℚ) (d : ℕ) : ℚ :=
  if d = 0 then 1 / 2
  else if d % 2 = 1 then 1 / 2 * tanhSeries.getD (d / 2) 0 * (gain / 2) ^ d
  else 0

def logisticCoeffs (degree : ℤ) (gain : ℚ) : List ℚ :=
  let degree := if degree < 1 then 1 else degree
  (List.range (degree.toNat + 1)).map (logisticCoeff gain)

theorem evalPolyAt_map_range (c : ℕ → ℚ) (m : ℕ) (x : ℚ) :
    evalPolyAt ((List.range m).map c) x = ∑ i ∈ Finset.range m, c i * x ^ i := by
  induction m generalizing c with
  | zero => rfl
  | succ m ih =>
    rw [List.range_succ_eq_map, List.map_cons, List.map_map]
    have tail := ih (c ∘ Nat.succ)
    rw [evalPolyAt] at tail ⊢
    rw [List.foldr_cons, tail, Finset.sum_range_succ', Finset.sum_mul]
    simp [pow_succ, mul_assoc]

theorem logistic_odd (degree : ℤ) (gain x : ℚ) :
    evalPolyAt (logisticCoeffs degree gain) (-x) =
      1 - evalPolyAt (logisticCoeffs degree gain) x := by
  have mirror : ∀ i, logisticCoeff gain (i + 1) * (-x) ^ (i + 1) =
      -(logisticCoeff gain (i + 1) * x ^ (i + 1)) := by
    intro i
    rcases Nat.even_or_odd (i + 1) with even | odd
    · have zero : logisticCoeff gain (i + 1) = 0 := by
        have parity := Nat.even_iff.mp even
        simp [logisticCoeff, parity]
      simp [zero]
    · rw [odd.neg_pow, mul_neg]
  simp only [logisticCoeffs, evalPolyAt_map_range, Finset.sum_range_succ', mirror,
    Finset.sum_neg_distrib]
  have half : logisticCoeff gain 0 = 1 / 2 := rfl
  rw [half]
  ring

end

section

/-- Packed curves as the circuit is meant to receive them. -/
structure Curves (g : GridSpec) (supply demand : List ℚ) : Prop where
  supply_len : (supply.length : ℤ) = g.len
  demand_len : (demand.length : ℤ) = g.len
  rising : ∀ slot j k, (0 ≤ slot ∧ slot < g.numSlots) → 0 ≤ j → j ≤ k → k < g.numBuckets →
    entry supply (g.index slot j) ≤ entry supply (g.index slot k)
  falling : ∀ slot j k, (0 ≤ slot ∧ slot < g.numSlots) → 0 ≤ j → j ≤ k → k < g.numBuckets →
    entry demand (g.index slot k) ≤ entry demand (g.index slot j)
  supply_nonneg : ∀ q ∈ supply, 0 ≤ q
  demand_nonneg : ∀ q ∈ demand, 0 ≤ q

def idleGrid : GridSpec := ⟨1, 3, 1⟩
def idleCurve : List ℚ := [0, 0, 0]

theorem entry_idle (i : ℤ) : entry idleCurve i = 0 := by
  have zeros : idleCurve = List.replicate 3 0 := rfl
  rw [zeros, entry, getD_eq_getElem?_getD, List.getElem?_replicate]
  split <;> rfl

theorem idle_curves : Curves idleGrid idleCurve idleCurve where
  supply_len := by decide
  demand_len := by decide
  rising := by simp [entry_idle]
  falling := by simp [entry_idle]
  supply_nonneg := by decide +kernel
  demand_nonneg := by decide +kernel

theorem idle_comparator : Comparator idleGrid idleCurve idleCurve (logisticCoeffs 1 2) 1 where
  given := by decide +kernel
  high slot k _ _ _ := by
    simp only [normalized, entry_idle]
    decide +kernel
  low slot k _ _ neg := by
    simp [normalized] at neg

/-- A slot without an offer: the circuit reports its first bucket and a price, the oracle that
nothing clears. -/
theorem idle_slot_reported :
    (idleGrid.Valid ∧ Curves idleGrid idleCurve idleCurve ∧
      Comparator idleGrid idleCurve idleCurve (logisticCoeffs 1 2) 1) ∧
    decodeOutputs idleGrid (exactOutputs 4 idleGrid idleCurve idleCurve (logisticCoeffs 1 2) 1) =
      [{ bucket := 1, priceCt := 1 }] ∧
    clearPlaintext idleGrid idleCurve idleCurve = .ok [{ bucket := noClearing }] ∧
    ¬ Refines 4 idleGrid idleCurve idleCurve (logisticCoeffs 1 2) 1 := by
  have valid : idleGrid.Valid := ⟨by decide +kernel, by decide, by decide⟩
  have decoded : decodeOutputs idleGrid
      (exactOutputs 4 idleGrid idleCurve idleCurve (logisticCoeffs 1 2) 1) =
        [{ bucket := 1, priceCt := 1 }] := by decide +kernel
  have oracle : clearPlaintext idleGrid idleCurve idleCurve = .ok [{ bucket := noClearing }] := by
    decide +kernel
  refine ⟨⟨valid, idle_curves, idle_comparator⟩, decoded, oracle, ?_⟩
  rintro ⟨out, results, eval, clear, -, agrees⟩
  cases (evalClearing_exact valid idle_comparator.given one_pos).symm.trans eval
  cases oracle.symm.trans clear
  have agree := agrees 0 { bucket := 1, priceCt := 1 } { bucket := noClearing }
    (by rw [decoded]; rfl) rfl
  exact absurd agree.1 (by decide)

def tradingSupply : List ℚ := [0, 0, 4]
def tradingDemand : List ℚ := [4, 4, 4]

theorem trading_comparator :
    Comparator idleGrid tradingSupply tradingDemand (logisticCoeffs 1 2) 4 := by
  have signs : ∀ k ∈ Int.range 0 3,
      (0 ≤ normalized idleGrid tradingSupply tradingDemand 4 0 k →
        1 / 2 ≤ stepAt idleGrid tradingSupply tradingDemand (logisticCoeffs 1 2) 4 0 k) ∧
      (normalized idleGrid tradingSupply tradingDemand 4 0 k < 0 →
        stepAt idleGrid tradingSupply tradingDemand (logisticCoeffs 1 2) 4 0 k <
          1 / 2 - crossingTolerance) := by
    decide +kernel
  constructor
  · decide +kernel
  · intro slot k hslot hk
    obtain rfl : slot = 0 := le_antisymm (Int.lt_add_one_iff.mp hslot.2) hslot.1
    exact (signs k (Int.mem_range_iff.mpr hk)).1
  · intro slot k hslot hk
    obtain rfl : slot = 0 := le_antisymm (Int.lt_add_one_iff.mp hslot.2) hslot.1
    exact (signs k (Int.mem_range_iff.mpr hk)).2

theorem circuit_refines_trading :
    (∀ slot : ℕ, (slot : ℤ) < idleGrid.numSlots →
      Settled idleGrid tradingSupply tradingDemand (logisticCoeffs 1 2) 4 slot) ∧
    Refines 4 idleGrid tradingSupply tradingDemand (logisticCoeffs 1 2) 4 := by
  have settled : ∀ slot : ℕ, (slot : ℤ) < idleGrid.numSlots →
      Settled idleGrid tradingSupply tradingDemand (logisticCoeffs 1 2) 4 slot := by
    intro slot lt k least
    have first : slot = 0 := by
      have one : idleGrid.numSlots = 1 := rfl
      omega
    subst first
    have trades : ∀ j ∈ Int.range 1 3, 0 < entry tradingDemand (idleGrid.index (0 : ℕ) j) := by
      decide +kernel
    exact .inl (trades k (Int.mem_range_iff.mpr least.1.1))
  exact ⟨settled, (circuit_refines_iff ⟨by decide +kernel, by decide, by decide⟩ (by decide)
    (by decide) (by decide) (by decide +kernel) trading_comparator).mpr settled⟩

end

end ClearingCircuit
