import Ares.ClearingCircuit

/-! `ClearingCircuit` as the circuit under test of the depth calibration: `Eval` runs the encrypted
circuit, `Expected` computes the same vector in the plain. -/

namespace CalibratedClearing

open ClearingCircuit PoolClearing List

structure ClearingCircuit where
  grid : GridSpec
  supply : List ℚ
  demand : List ℚ
  coeffs : List ℚ
  scale : ℚ

inductive EvalErr (ε : Type) where
  | encryptedInputs (got : ℕ)
  | circuit (e : CircuitErr ε)

namespace ClearingCircuit

variable (c : ClearingCircuit)

def inputs : List (List ℚ) := [c.supply, c.demand]

def eval {ε C : Type} (h : ContextHandle ε C) (encInputs : List (Option C)) :
    Except (EvalErr ε) C :=
  match encInputs with
  | [supply, demand] =>
    match evalClearing h c.grid ⟨supply, demand⟩ c.coeffs c.scale with
    | .error e => .error (.circuit e)
    | .ok out => .ok out.supplyAt
  | other => .error (.encryptedInputs other.length)

def expectedStep (supply demand : List ℚ) : List ℚ :=
  (List.range c.grid.len.toNat).map fun (i : ℕ) =>
    evalPolyAt c.coeffs ((entry supply i - entry demand i) / c.scale)

def expectedAt (supply demand : List ℚ) (slot k : ℤ) : ℚ :=
  let idx := c.grid.index slot k
  let step := c.expectedStep supply demand
  let prev := if 0 < k then entry step (idx - 1) else 0
  (entry step idx - prev) * entry (slotBoundaryMask c.grid) idx * entry supply idx

def expected (supply demand : List ℚ) : List ℚ :=
  (List.range c.grid.numSlots.toNat).foldl (fun out (slot : ℕ) =>
    (List.range c.grid.numBuckets.toNat).foldl (fun out (k : ℕ) =>
      out.set (c.grid.index slot k).toNat (c.expectedAt supply demand slot k)) out)
    (List.replicate c.grid.len.toNat 0)

end ClearingCircuit

theorem ext_entries {l l' : List ℚ} (length : l.length = l'.length)
    (same : ∀ i : ℕ, i < l.length → entry l i = entry l' i) : l = l' := by
  apply ext_getElem length
  intro i lt lt'
  have here := same i lt
  simpa [entry, lt, lt'] using here

theorem exists_index {g : GridSpec} (valid : g.Valid) {i : ℤ} (lower : 0 ≤ i) (upper : i < g.len) :
    ∃ slot k, (0 ≤ slot ∧ slot < g.numSlots) ∧ (0 ≤ k ∧ k < g.numBuckets) ∧ g.index slot k = i := by
  have buckets := valid.buckets_pos
  refine ⟨i / g.numBuckets, i % g.numBuckets, ⟨Int.ediv_nonneg lower buckets.le, ?_⟩,
    ⟨Int.emod_nonneg i buckets.ne', Int.emod_lt_of_pos i buckets⟩, Int.ediv_mul_add_emod i _⟩
  exact Int.ediv_lt_of_lt_mul buckets upper

section

variable {c : ClearingCircuit} {supply demand : List ℚ} {slot k : ℤ}

theorem expected_writes : c.expected supply demand =
    ((List.range c.grid.numSlots.toNat).flatMap fun (slot : ℕ) =>
      (List.range c.grid.numBuckets.toNat).map fun (k : ℕ) =>
        ((c.grid.index slot k).toNat, c.expectedAt supply demand slot k)).foldl
      (fun out w => out.set w.1 w.2) (List.replicate c.grid.len.toNat 0) := by
  simp only [ClearingCircuit.expected, foldl_flatMap, foldl_map]

theorem length_expected : (c.expected supply demand).length = c.grid.len.toNat := by
  rw [expected_writes, length_writes, length_replicate]

section

variable (hslot : 0 ≤ slot ∧ slot < c.grid.numSlots) (hk : 0 ≤ k ∧ k < c.grid.numBuckets)

include hslot hk

theorem entry_expected :
    entry (c.expected supply demand) (c.grid.index slot k) = c.expectedAt supply demand slot k := by
  have inside := GridSpec.index_mem hslot hk
  rw [expected_writes]
  apply entry_writes (by rw [length_replicate]; omega)
  · intro w mem hit
    obtain ⟨t, ht, mem⟩ := mem_flatMap.mp mem
    obtain ⟨j, hj, rfl⟩ := mem_map.mp mem
    rw [mem_range] at ht hj
    obtain ⟨rfl, rfl⟩ := (GridSpec.index_inj ⟨by omega, by omega⟩ hslot ⟨by omega, by omega⟩
      hk).mp hit
    rfl
  · refine .inl ⟨((c.grid.index slot k).toNat, c.expectedAt supply demand slot k), ?_, rfl⟩
    refine mem_flatMap.mpr ⟨slot.toNat, mem_range.mpr (by omega),
      mem_map.mpr ⟨k.toNat, mem_range.mpr (by omega), ?_⟩⟩
    rw [Int.toNat_of_nonneg hslot.1, Int.toNat_of_nonneg hk.1]

theorem entry_expectedStep :
    entry (c.expectedStep supply demand) (c.grid.index slot k) =
      stepAt c.grid supply demand c.coeffs c.scale slot k := by
  have inside := GridSpec.index_mem hslot hk
  have place : (c.grid.index slot k).toNat < c.grid.len.toNat := by omega
  rw [entry, ClearingCircuit.expectedStep, getD_eq_getElem?_getD, List.getElem?_map,
    List.getElem?_range place, Option.map_some, Option.getD_some, stepAt, normalized,
    div_eq_mul_one_div, Int.toNat_of_nonneg inside.1]

theorem expectedAt_eq :
    c.expectedAt supply demand slot k = if k = 0 then 0 else
      amplitude c.grid supply demand c.coeffs c.scale slot k *
        entry supply (c.grid.index slot k) := by
  simp only [ClearingCircuit.expectedAt, entry_mask hslot hk]
  by_cases guard : k = 0
  · rw [if_pos guard, if_pos guard, mul_zero, zero_mul]
  · have down : c.grid.index slot k - 1 = c.grid.index slot (k - 1) := by
      unfold GridSpec.index
      omega
    rw [if_neg guard, if_neg guard, if_pos (by omega), down, entry_expectedStep hslot hk,
      entry_expectedStep hslot ⟨by omega, by omega⟩, mul_one, amplitude]

end

end

section

variable {n : ℕ} {g : GridSpec} {supply demand coeffs : List ℚ} {scale : ℚ} {slot k : ℤ}

theorem entry_masked_eq (room : g.len ≤ n) (hslot : 0 ≤ slot ∧ slot < g.numSlots)
    (hk : 0 ≤ k ∧ k < g.numBuckets) (v : Slots n) :
    entry (decrypt (exactOneHot n g supply demand coeffs scale * v)) (g.index slot k) =
      if k = 0 then 0 else amplitude g supply demand coeffs scale slot k *
        v ⟨(g.index slot k).toNat, place_lt room hslot hk⟩ := by
  split
  · have zero : pack (slotBoundaryMask g) ⟨(g.index slot k).toNat, place_lt room hslot hk⟩ = 0 := by
      refine (entry_mask hslot hk).trans (if_pos ?_)
      assumption
    rw [entry_decrypt _ (place_lt room hslot hk), Pi.mul_apply, exactOneHot, Pi.mul_apply, zero,
      mul_zero, zero_mul]
  · exact entry_masked room hslot v ⟨by omega, hk.2⟩

theorem crossingOf_mem {step : List ℚ} (crosses : crossingOf g step slot ≠ noClearing) :
    1 ≤ crossingOf g step slot ∧ crossingOf g step slot < g.numBuckets := by
  unfold crossingOf at crosses ⊢
  cases found : (Int.range 1 g.numBuckets).find? fun k =>
      decide (1 / 2 - crossingTolerance ≤ entry step (g.index slot k)) with
  | none =>
    rw [found] at crosses
    exact absurd rfl crosses
  | some k => exact (find?_range_eq_some_iff.mp found).1

theorem decodeSlot_congr {oneHot oneHot' supplyAt supplyAt' prevAt prevAt' demandAt demandAt' :
      List ℚ}
    (same : k ≠ noClearing → entry oneHot (g.index slot k) = entry oneHot' (g.index slot k) ∧
      entry supplyAt (g.index slot k) = entry supplyAt' (g.index slot k) ∧
      entry prevAt (g.index slot k) = entry prevAt' (g.index slot k) ∧
      entry demandAt (g.index slot k) = entry demandAt' (g.index slot k)) :
    decodeSlot g oneHot supplyAt prevAt demandAt slot k =
      decodeSlot g oneHot' supplyAt' prevAt' demandAt' slot k := by
  unfold decodeSlot
  by_cases idle : k = noClearing
  · rw [if_pos idle, if_pos idle]
  · obtain ⟨hot, here, before, wanted⟩ := same idle
    simp only [hot, here, before, wanted]

variable (g) in
def SameIn (slot : ℤ) (curve curve' : List ℚ) : Prop :=
  ∀ k, 0 ≤ k → k < g.numBuckets → entry curve (g.index slot k) = entry curve' (g.index slot k)

theorem supplyAt_take {c : ClearingCircuit} (valid : c.grid.Valid) (room : c.grid.len ≤ n) :
    (decrypt (exactOutputs n c.grid supply demand c.coeffs c.scale).supplyAt).take
      c.grid.len.toNat = c.expected supply demand := by
  have long : c.grid.len.toNat ≤ n := by omega
  apply ext_entries
  · rw [length_take, decrypt, length_ofFn, length_expected, min_eq_left long]
  · intro i lt
    rw [length_take, decrypt, length_ofFn, min_eq_left long] at lt
    obtain ⟨slot, k, hslot, hk, place⟩ := exists_index valid (i := i) (by omega) (by omega)
    have head : ∀ l : List ℚ, entry (l.take c.grid.len.toNat) i = entry l i := by
      simp [entry, List.getElem?_take_of_lt lt]
    rw [head, ← place, entry_expected hslot hk, expectedAt_eq hslot hk]
    exact entry_masked_eq room hslot hk (pack supply)

variable {supply' demand' : List ℚ}

section

variable (same : SameIn g slot supply supply') (same' : SameIn g slot demand demand')

include same same'

theorem stepAt_congr (hk : 0 ≤ k ∧ k < g.numBuckets) :
    stepAt g supply demand coeffs scale slot k = stepAt g supply' demand' coeffs scale slot k := by
  rw [stepAt, stepAt, normalized, normalized, same k hk.1 hk.2, same' k hk.1 hk.2]

theorem amplitude_congr (hk : 1 ≤ k ∧ k < g.numBuckets) :
    amplitude g supply demand coeffs scale slot k =
      amplitude g supply' demand' coeffs scale slot k := by
  rw [amplitude, amplitude, stepAt_congr same same' ⟨by omega, hk.2⟩,
    stepAt_congr same same' ⟨by omega, by omega⟩]

section

variable (room : g.len ≤ n) (hslot : 0 ≤ slot ∧ slot < g.numSlots)

include room hslot

theorem entry_masked_congr (hk : 0 ≤ k ∧ k < g.numBuckets) {v v' : Slots n}
    (masked : 1 ≤ k → v ⟨(g.index slot k).toNat, place_lt room hslot hk⟩ =
      v' ⟨(g.index slot k).toNat, place_lt room hslot hk⟩) :
    entry (decrypt (exactOneHot n g supply demand coeffs scale * v)) (g.index slot k) =
      entry (decrypt (exactOneHot n g supply' demand' coeffs scale * v')) (g.index slot k) := by
  rw [entry_masked_eq room hslot hk, entry_masked_eq room hslot hk]
  split
  · rfl
  · rw [amplitude_congr same same' ⟨by omega, hk.2⟩, masked (by omega)]

theorem crossingOf_congr :
    crossingOf g (decrypt (exactStep n supply demand coeffs scale)) slot =
      crossingOf g (decrypt (exactStep n supply' demand' coeffs scale)) slot := by
  unfold crossingOf
  congr 1
  apply List.find?_congr
  intro k mem
  obtain ⟨lower, upper⟩ := Int.mem_range_iff.mp mem
  have hk : 0 ≤ k ∧ k < g.numBuckets := ⟨by omega, upper⟩
  rw [entry_step room hslot hk, entry_step room hslot hk, stepAt_congr same same' hk]

theorem decodedSlot_congr :
    decodedSlot n g supply demand coeffs scale slot =
      decodedSlot n g supply' demand' coeffs scale slot := by
  rw [decodedSlot, decodedSlot]
  simp only [exactOutputs]
  rw [crossingOf_congr same same' room hslot]
  apply decodeSlot_congr
  intro crosses
  have hk := crossingOf_mem crosses
  have hk' : 0 ≤ crossingOf g (decrypt (exactStep n supply' demand' coeffs scale)) slot ∧
      crossingOf g (decrypt (exactStep n supply' demand' coeffs scale)) slot < g.numBuckets :=
    ⟨by omega, hk.2⟩
  refine ⟨?_, ?_, ?_, ?_⟩
  · rw [entry_oneHot room hslot hk, entry_oneHot room hslot hk, amplitude_congr same same' hk]
  · apply entry_masked_congr same same' room hslot hk'
    intro _
    exact same _ hk'.1 hk'.2
  · apply entry_masked_congr same same' room hslot hk'
    intro _
    rw [entry_rotate room hslot _ hk, entry_rotate room hslot _ hk]
    exact same _ (by omega) (by omega)
  · apply entry_masked_congr same same' room hslot hk'
    intro _
    exact same' _ hk'.1 hk'.2

end

end

end

/-- `Expected` is what `Eval` decrypts to on the places of the grid, for every comparator that
`Eval` does not refuse, and neither the output nor the decoded result of a delivery slot depends on
the inputs of the others. -/
theorem expected_eq_eval {c : ClearingCircuit} (valid : c.grid.Valid) (pos : 0 < c.scale) {n : ℕ}
    (room : c.grid.len ≤ n) (supply demand : List ℚ) :
    (c.coeffs = [] → c.eval (exactHandle Empty n) [some (pack supply), some (pack demand)] =
      .error (.circuit (.pool .coefficientsRequired))) ∧
    (c.coeffs ≠ [] → ∃ out,
      c.eval (exactHandle Empty n) [some (pack supply), some (pack demand)] = .ok out ∧
        (decrypt out).take c.grid.len.toNat = c.expected supply demand) ∧
    (c.coeffs ≠ [] → ∀ (supply' demand' : List ℚ) (slot : ℕ), (slot : ℤ) < c.grid.numSlots →
      SameIn c.grid slot supply supply' → SameIn c.grid slot demand demand' → ∃ out out',
        evalClearing (exactHandle Empty n) c.grid ⟨some (pack supply), some (pack demand)⟩
          c.coeffs c.scale = .ok out ∧
        evalClearing (exactHandle Empty n) c.grid ⟨some (pack supply'), some (pack demand')⟩
          c.coeffs c.scale = .ok out' ∧
        SameIn c.grid slot (decrypt out.supplyAt) (decrypt out'.supplyAt) ∧
        (decodeOutputs c.grid out)[slot]? = (decodeOutputs c.grid out')[slot]?) := by
  refine ⟨?_, ?_, ?_⟩
  · intro empty
    simp only [ClearingCircuit.eval, evalClearing, GridSpec.validate_eq_ok_iff.mpr valid, empty]
    rfl
  · intro given
    have evaluated : evalClearing (exactHandle Empty n) c.grid
        ⟨some (pack supply), some (pack demand)⟩ c.coeffs c.scale =
          .ok (exactOutputs n c.grid supply demand c.coeffs c.scale) :=
      evalClearing_exact valid given pos
    refine ⟨(exactOutputs n c.grid supply demand c.coeffs c.scale).supplyAt, ?_, ?_⟩
    · simp only [ClearingCircuit.eval, evaluated]
    · exact supplyAt_take valid room
  · intro given supply' demand' slot bound same same'
    have hslot : (0 : ℤ) ≤ slot ∧ (slot : ℤ) < c.grid.numSlots := ⟨by omega, bound⟩
    refine ⟨_, _, evalClearing_exact valid given pos, evalClearing_exact valid given pos, ?_, ?_⟩
    · intro k lower upper
      apply entry_masked_congr same same' room hslot ⟨lower, upper⟩
      intro _
      exact same k lower upper
    · rw [decodeOutputs_exact, decodeOutputs_exact, List.getElem?_map, List.getElem?_map,
        List.getElem?_range (by omega), Option.map_some, Option.map_some,
        decodedSlot_congr same same' room hslot]

def twoSlots : ClearingCircuit :=
  ⟨⟨1, 3, 2⟩, [0, 2, 4, 1, 1, 3], [3, 3, 1, 2, 1, 0], logisticCoeffs 3 1, 4⟩

theorem expected_eq_eval_twoSlots :
    ∃ out, twoSlots.eval (exactHandle Empty 8) (twoSlots.inputs.map fun v => some (pack v)) =
        .ok out ∧ (decrypt out).take 6 = twoSlots.expected twoSlots.supply twoSlots.demand ∧
      (decrypt out)[1]? = some (179 / 768) ∧ (decrypt out)[3]? = some 0 := by
  obtain ⟨out, evaluated, expected⟩ := (expected_eq_eval (c := twoSlots) (n := 8)
    ⟨by decide +kernel, by decide, by decide⟩ (by decide +kernel) (by decide) twoSlots.supply
    twoSlots.demand).2.1 (by decide +kernel)
  have head : ∀ i : ℕ, i < 6 → (decrypt out)[i]? = ((decrypt out).take 6)[i]? := by
    intro i lt
    rw [List.getElem?_take_of_lt lt]
  refine ⟨out, evaluated, expected, ?_, ?_⟩
  · rw [head 1 (by decide), show (decrypt out).take 6 = _ from expected]
    decide +kernel
  · rw [head 3 (by decide), show (decrypt out).take 6 = _ from expected]
    decide +kernel

end CalibratedClearing
