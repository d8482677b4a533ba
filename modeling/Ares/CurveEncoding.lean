import Ares.PoolClearing

/-! What the two encoded curves hold: an offer is counted at the buckets its price reaches, unless
the price is not a word of ticks. -/

namespace CurveEncoding

open PoolClearing List

section

variable (g : GridSpec)

def relPrice (o : Offer) : ℚ := o.priceCt / g.tickCt

def total (p : Offer → Prop) [DecidablePred p] (slot : ℤ) (offers : List Offer) : ℚ :=
  ((inSlot slot offers).map fun o => if p o then o.quantity else 0).sum

structure Exact (offers : List Offer) (supply demand : List ℚ) : Prop where
  supplied : ∀ slot k, 0 ≤ slot ∧ slot < g.numSlots → 0 ≤ k ∧ k < g.numBuckets →
    entry supply (g.index slot k) = total (fun o => relPrice g o - tickEpsilon ≤ k) slot offers
  demanded : ∀ slot k, 0 ≤ slot ∧ slot < g.numSlots → 0 ≤ k ∧ k < g.numBuckets →
    entry demand (g.index slot k) = total (fun o => k ≤ relPrice g o + tickEpsilon) slot offers
  monotone : ∀ slot j k, 0 ≤ slot ∧ slot < g.numSlots → 0 ≤ j → j ≤ k → k < g.numBuckets →
    entry supply (g.index slot j) ≤ entry supply (g.index slot k) ∧
      entry demand (g.index slot k) ≤ entry demand (g.index slot j)

end

variable {g : GridSpec} {o : Offer} {k : ℤ}

theorem mem_supplyBuckets_iff (hk : 0 ≤ k ∧ k < g.numBuckets) :
    k ∈ g.supplyBuckets o ↔
      relPrice g o - tickEpsilon ≤ k ∨ 2 ^ 63 ≤ ⌈relPrice g o - tickEpsilon⌉ := by
  rw [mem_supplyBuckets, ← Int.ceil_le, GridSpec.firstBucket, relPrice, toInt64]
  split_ifs <;> omega

theorem mem_demandBuckets_iff (wide : g.numBuckets < 2 ^ 63) (hk : 0 ≤ k ∧ k < g.numBuckets) :
    k ∈ g.demandBuckets o ↔
      k ≤ relPrice g o + tickEpsilon ∧ ⌊relPrice g o + tickEpsilon⌋ < 2 ^ 63 := by
  rw [mem_demandBuckets, ← Int.le_floor, GridSpec.lastBucket, relPrice, toInt64]
  split_ifs <;> omega

theorem floor_lt_of_ceil_lt (small : ⌈relPrice g o - tickEpsilon⌉ < 2 ^ 63) :
    ⌊relPrice g o + tickEpsilon⌋ < 2 ^ 63 := by
  rw [← Int.le_sub_one_iff, Int.ceil_le] at small
  rw [Int.floor_lt]
  unfold tickEpsilon at *
  linarith

theorem counted_le {p q : Prop} [Decidable p] [Decidable q] (admits : g.Admits o) (imp : p → q) :
    (if p then o.quantity else 0) ≤ if q then o.quantity else 0 := by
  have nonneg := admits.quantity_nonneg
  split_ifs with hp hq
  · exact le_rfl
  · exact absurd (imp hp) hq
  · exact nonneg
  · exact le_rfl

section

variable {offers : List Offer} {slot : ℤ} (admits : ∀ o ∈ offers, g.Admits o)

include admits

theorem admits_inSlot (mem : o ∈ inSlot slot offers) : g.Admits o :=
  admits o (mem_of_mem_filter mem)

theorem supply_exact (small : ∀ o ∈ offers, 0 < o.quantity →
      ⌈relPrice g o - tickEpsilon⌉ < 2 ^ 63) (hslot : 0 ≤ slot ∧ slot < g.numSlots)
    (hk : 0 ≤ k ∧ k < g.numBuckets) :
    entry (g.layOut g.supplyBuckets offers) (g.index slot k) =
      total (fun o => relPrice g o - tickEpsilon ≤ k) slot offers := by
  rw [entry_layOut supplyBuckets_ranges hslot hk admits, total]
  congr 1
  apply map_congr_left
  intro o mem
  rcases (admits_inSlot admits mem).quantity_nonneg.eq_or_lt with zero | pos
  · simp [← zero]
  · have word := small o (mem_of_mem_filter mem) pos
    simp only [mem_supplyBuckets_iff hk, not_le.mpr word, or_false]

theorem demand_exact (wide : g.numBuckets < 2 ^ 63) (small : ∀ o ∈ offers, 0 < o.quantity →
      ⌈relPrice g o - tickEpsilon⌉ < 2 ^ 63) (hslot : 0 ≤ slot ∧ slot < g.numSlots)
    (hk : 0 ≤ k ∧ k < g.numBuckets) :
    entry (g.layOut g.demandBuckets offers) (g.index slot k) =
      total (fun o => k ≤ relPrice g o + tickEpsilon) slot offers := by
  rw [entry_layOut demandBuckets_ranges hslot hk admits, total]
  congr 1
  apply map_congr_left
  intro o mem
  rcases (admits_inSlot admits mem).quantity_nonneg.eq_or_lt with zero | pos
  · simp [← zero]
  · have word := floor_lt_of_ceil_lt (small o (mem_of_mem_filter mem) pos)
    simp only [mem_demandBuckets_iff wide hk, word, and_true]

theorem total_lt_supply (buckets : 0 < g.numBuckets) (mem : o ∈ offers) (pos : 0 < o.quantity)
    (big : 2 ^ 63 ≤ ⌈relPrice g o - tickEpsilon⌉) :
    total (fun o => relPrice g o - tickEpsilon ≤ (0 : ℤ)) o.slot offers <
      entry (g.layOut g.supplyBuckets offers) (g.index o.slot 0) := by
  have first : (0 : ℤ) ≤ 0 ∧ 0 < g.numBuckets := ⟨le_rfl, buckets⟩
  have admitted := admits o mem
  rw [entry_layOut supplyBuckets_ranges ⟨admitted.slot_nonneg, admitted.slot_lt⟩ first admits,
    total]
  apply sum_lt_sum
  · intro o' mem'
    apply counted_le (admits_inSlot admits mem')
    intro low
    exact (mem_supplyBuckets_iff first).mpr (.inl low)
  · refine ⟨o, mem_filter.mpr ⟨mem, by simp⟩, ?_⟩
    have high : ¬ relPrice g o - tickEpsilon ≤ (0 : ℤ) := by
      rw [← Int.ceil_le]
      omega
    rw [if_neg high, if_pos ((mem_supplyBuckets_iff first).mpr (.inr big))]
    exact pos

end

/-- The two curves hold what the offers say exactly if each offer with a quantity has a price whose
count of ticks is a word. -/
theorem curves_exact_iff (room : g.len < 2 ^ 63) {offers : List Offer}
    (accepted : g.validateOffers offers = .ok ()) :
    ∃ supply demand, encodeSupply g offers = .ok supply ∧ encodeDemand g offers = .ok demand ∧
      (Exact g offers supply demand ↔
        ∀ o ∈ offers, 0 < o.quantity → ⌈relPrice g o - tickEpsilon⌉ < 2 ^ 63) := by
  obtain ⟨valid, admits⟩ := (GridSpec.validateOffers_eq_ok_iff offers).mp accepted
  refine ⟨_, _, by rw [encodeSupply, accepted]; rfl, by rw [encodeDemand, accepted]; rfl, ?_⟩
  constructor
  · intro exact o mem pos
    by_contra big
    have differ := total_lt_supply admits valid.buckets_pos mem pos (not_lt.mp big)
    have admitted := admits o mem
    rw [exact.supplied o.slot 0 ⟨admitted.slot_nonneg, admitted.slot_lt⟩
      ⟨le_rfl, valid.buckets_pos⟩] at differ
    exact lt_irrefl _ differ
  · intro small
    refine ⟨fun slot k => supply_exact admits small,
      fun slot k => demand_exact admits (valid.numBuckets_lt room) small, ?_⟩
    intro slot j k hslot lower le upper
    have curves := curves_encoded hslot admits admits
    exact ⟨curves.rising j k lower le upper, curves.falling j k lower le upper⟩

def oneBucket : GridSpec := ⟨1, 1, 1⟩

def dear : Offer := ⟨0, 2 ^ 63, 1⟩

theorem curves_exact_iff_dear : ∃ supply demand,
    encodeSupply oneBucket [dear] = .ok supply ∧ encodeDemand oneBucket [dear] = .ok demand ∧
      (Exact oneBucket [dear] supply demand ↔
        ∀ o ∈ [dear], 0 < o.quantity → ⌈relPrice oneBucket o - tickEpsilon⌉ < 2 ^ 63) :=
  curves_exact_iff (by decide) (by decide +kernel)

/-- An offer at a price that is no word of ticks is counted as supply at the only bucket, and not as
demand. -/
theorem dear_supplied : ∃ supply demand,
    encodeSupply oneBucket [dear] = .ok supply ∧ encodeDemand oneBucket [dear] = .ok demand ∧
      entry supply (oneBucket.index 0 0) = 1 ∧ entry demand (oneBucket.index 0 0) = 0 ∧
      ¬ Exact oneBucket [dear] supply demand := by
  refine ⟨[1], [0], by decide +kernel, by decide +kernel, by decide +kernel, by decide +kernel, ?_⟩
  intro exact
  have supplied := exact.supplied 0 0 (by decide) (by decide)
  revert supplied
  decide +kernel

end CurveEncoding
