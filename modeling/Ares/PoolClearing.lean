import Ares.StepCurves

/-! The price grid, the packed supply and demand curves and the plaintext clearing of
`pkg/ares/pool`, over exact rationals. A bucket is a 64-bit word, and converting a float out of its
range gives the least word. -/

namespace PoolClearing

open StepCurves List

def tickEpsilon : ℚ := 1 / 1000000000

structure GridSpec where
  tickCt : ℚ
  numBuckets : ℤ
  numSlots : ℤ
  deriving DecidableEq

structure Offer where
  slot : ℤ
  priceCt : ℚ
  quantity : ℚ
  deriving DecidableEq

inductive PoolErr where
  | tickCt (got : ℚ)
  | numBuckets (got : ℤ)
  | numSlots (got : ℤ)
  | slotOutOfRange (offer : ℕ) (slot numSlots : ℤ)
  | negativeQuantity (offer : ℕ) (quantity : ℚ)
  | supplyLength (got want : ℤ)
  | demandLength (got want : ℤ)
  | curvesRequired
  | coefficientsRequired
  | scale (got : ℚ)
  deriving DecidableEq

def refuse (bad : Prop) [Decidable bad] (e : PoolErr) : Except PoolErr Unit :=
  if bad then .error e else .ok ()

def toInt64 (x : ℤ) : ℤ := if -2 ^ 63 ≤ x ∧ x < 2 ^ 63 then x else -2 ^ 63

namespace GridSpec

variable (g : GridSpec)

def validate : Except PoolErr Unit := do
  refuse (¬ 0 < g.tickCt) (.tickCt g.tickCt)
  refuse (g.numBuckets ≤ 0) (.numBuckets g.numBuckets)
  refuse (g.numSlots ≤ 0) (.numSlots g.numSlots)

def price (bucket : ℤ) : ℚ := g.tickCt * bucket
def len : ℤ := g.numSlots * g.numBuckets
def index (slot bucket : ℤ) : ℤ := slot * g.numBuckets + bucket

def validateOffer (i : ℕ) (o : Offer) : Except PoolErr Unit := do
  refuse (o.slot < 0 ∨ g.numSlots ≤ o.slot) (.slotOutOfRange i o.slot g.numSlots)
  refuse (o.quantity < 0) (.negativeQuantity i o.quantity)

def validateOffers (offers : List Offer) : Except PoolErr Unit := do
  g.validate
  forM offers.zipIdx fun (o, i) => g.validateOffer i o

def firstBucket (o : Offer) : ℤ :=
  let first := toInt64 ⌈o.priceCt / g.tickCt - tickEpsilon⌉
  if first < 0 then 0 else first

def lastBucket (o : Offer) : ℤ :=
  let last := toInt64 ⌊o.priceCt / g.tickCt + tickEpsilon⌋
  if g.numBuckets ≤ last then g.numBuckets - 1 else last

def layOut (buckets : Offer → List ℤ) (offers : List Offer) : List ℚ :=
  offers.foldl (fun out o =>
    (buckets o).foldl (fun out k => out.modify (g.index o.slot k).toNat (· + o.quantity)) out)
    (List.replicate g.len.toNat 0)

def supplyBuckets (o : Offer) : List ℤ := Int.range (g.firstBucket o) g.numBuckets
def demandBuckets (o : Offer) : List ℤ := Int.range 0 (g.lastBucket o + 1)

end GridSpec

def encodeSupply (g : GridSpec) (offers : List Offer) : Except PoolErr (List ℚ) := do
  g.validateOffers offers
  return g.layOut g.supplyBuckets offers

def encodeDemand (g : GridSpec) (offers : List Offer) : Except PoolErr (List ℚ) := do
  g.validateOffers offers
  return g.layOut g.demandBuckets offers

def noClearing : ℤ := -1

/-- The outcome of one delivery slot. The defaults are the zero values of the source. -/
structure SlotResult where
  bucket : ℤ
  priceCt : ℚ := 0
  supply : ℚ := 0
  supplyPrev : ℚ := 0
  demand : ℚ := 0
  cleared : ℚ := 0
  marginalRatio : ℚ := 0
  inframarginalRatio : ℚ := 0
  deriving DecidableEq

def deriveAllocation (res : SlotResult) : SlotResult :=
  let cleared := if res.demand < res.supply then res.demand else res.supply
  if cleared ≤ 0 then { bucket := noClearing }
  else
    let tranche := res.supply - res.supplyPrev
    { res with
      cleared := cleared
      inframarginalRatio :=
        if cleared < res.supplyPrev ∧ 0 < res.supplyPrev then cleared / res.supplyPrev else 1
      marginalRatio :=
        if 0 < tranche then clamp ((cleared - res.supplyPrev) / tranche)
        else res.marginalRatio }

def entry (curve : List ℚ) (i : ℤ) : ℚ := curve.getD i.toNat 0

def crossingAt (g : GridSpec) (supply demand : List ℚ) (slot k : ℤ) : SlotResult where
  bucket := k
  priceCt := g.price k
  supply := entry supply (g.index slot k)
  demand := entry demand (g.index slot k)
  supplyPrev := if 0 < k then entry supply (g.index slot (k - 1)) else 0

def crossing (g : GridSpec) (supply demand : List ℚ) (slot : ℤ) : Option ℤ :=
  (Int.range 1 g.numBuckets).find? fun k =>
    ¬ entry supply (g.index slot k) - entry demand (g.index slot k) < 0

def clearSlot (g : GridSpec) (supply demand : List ℚ) (slot : ℤ) : SlotResult :=
  match crossing g supply demand slot with
  | none => { bucket := noClearing }
  | some k => deriveAllocation (crossingAt g supply demand slot k)

def clearPlaintext (g : GridSpec) (supply demand : List ℚ) : Except PoolErr (List SlotResult) := do
  g.validate
  refuse ((supply.length : ℤ) ≠ g.len) (.supplyLength supply.length g.len)
  refuse ((demand.length : ℤ) ≠ g.len) (.demandLength demand.length g.len)
  return (List.range g.numSlots.toNat).map fun (slot : ℕ) => clearSlot g supply demand slot

theorem refuse_eq_ok_iff {bad : Prop} [Decidable bad] {e : PoolErr} :
    refuse bad e = .ok () ↔ ¬ bad := by
  by_cases h : bad <;> simp [refuse]

theorem bind_eq_ok_iff {α : Type} {check : Except PoolErr Unit} {rest : Except PoolErr α}
    {r : α} : (check >>= fun _ => rest) = .ok r ↔ check = .ok () ∧ rest = .ok r := by
  cases check with
  | error e | ok u => simp [bind, Except.bind]

namespace GridSpec

structure Valid (g : GridSpec) : Prop where
  tick_pos : 0 < g.tickCt
  buckets_pos : 0 < g.numBuckets
  slots_pos : 0 < g.numSlots

/-- What `validateOffers` asks of one offer. -/
structure Admits (g : GridSpec) (o : Offer) : Prop where
  slot_nonneg : 0 ≤ o.slot
  slot_lt : o.slot < g.numSlots
  quantity_nonneg : 0 ≤ o.quantity

instance (g : GridSpec) (o : Offer) : Decidable (g.Admits o) :=
  decidable_of_iff (0 ≤ o.slot ∧ o.slot < g.numSlots ∧ 0 ≤ o.quantity)
    ⟨fun h => ⟨h.1, h.2.1, h.2.2⟩, fun h => ⟨h.slot_nonneg, h.slot_lt, h.quantity_nonneg⟩⟩

variable {g : GridSpec}

theorem validate_eq_ok_iff : g.validate = .ok () ↔ g.Valid := by
  simp only [validate, bind_eq_ok_iff, refuse_eq_ok_iff, not_not, not_le]
  constructor
  · rintro ⟨tick, buckets, slots⟩
    exact ⟨tick, buckets, slots⟩
  · intro valid
    exact ⟨valid.tick_pos, valid.buckets_pos, valid.slots_pos⟩

theorem Valid.len_nonneg (valid : g.Valid) : 0 ≤ g.len :=
  mul_nonneg valid.slots_pos.le valid.buckets_pos.le

theorem Valid.numBuckets_lt (valid : g.Valid) (room : g.len < 2 ^ 63) : g.numBuckets < 2 ^ 63 :=
  (le_mul_of_one_le_left valid.buckets_pos.le valid.slots_pos).trans_lt room

theorem validateOffer_eq_ok_iff (i : ℕ) (o : Offer) :
    g.validateOffer i o = .ok () ↔ g.Admits o := by
  simp only [validateOffer, bind_eq_ok_iff, refuse_eq_ok_iff, not_or, not_lt, not_le]
  constructor
  · rintro ⟨⟨lower, upper⟩, quantity⟩
    exact ⟨lower, upper, quantity⟩
  · intro admits
    exact ⟨⟨admits.slot_nonneg, admits.slot_lt⟩, admits.quantity_nonneg⟩

theorem validateFrom_eq_ok_iff (offers : List Offer) (i : ℕ) :
    (forM (offers.zipIdx i) fun (o, i) => g.validateOffer i o) = .ok () ↔
      ∀ o ∈ offers, g.Admits o := by
  induction offers generalizing i with
  | nil =>
    simp
    rfl
  | cons o offers ih =>
    rw [zipIdx_cons, forM_cons, bind_eq_ok_iff, validateOffer_eq_ok_iff, ih]
    simp

theorem validateOffers_eq_ok_iff (offers : List Offer) :
    g.validateOffers offers = .ok () ↔ g.Valid ∧ ∀ o ∈ offers, g.Admits o := by
  rw [validateOffers, bind_eq_ok_iff, validate_eq_ok_iff, validateFrom_eq_ok_iff]

theorem index_ediv {s k : ℤ} (lower : 0 ≤ k) (upper : k < g.numBuckets) :
    g.index s k / g.numBuckets = s := by
  rw [index, add_comm, Int.add_mul_ediv_right _ _ (by omega), Int.ediv_eq_zero_of_lt lower upper,
    zero_add]

theorem index_emod {s k : ℤ} (lower : 0 ≤ k) (upper : k < g.numBuckets) :
    g.index s k % g.numBuckets = k := by
  rw [index, add_comm, Int.add_mul_emod_self_right, Int.emod_eq_of_lt lower upper]

theorem index_mem {s k : ℤ} (slot : 0 ≤ s ∧ s < g.numSlots) (bucket : 0 ≤ k ∧ k < g.numBuckets) :
    0 ≤ g.index s k ∧ g.index s k < g.len := by
  unfold index len
  have start : 0 ≤ s * g.numBuckets := mul_nonneg slot.1 (by omega)
  have stop : (s + 1) * g.numBuckets ≤ g.numSlots * g.numBuckets :=
    mul_le_mul_of_nonneg_right (by omega) (by omega)
  rw [add_one_mul] at stop
  omega

theorem index_inj {s t j k : ℤ} (hs : 0 ≤ s ∧ s < g.numSlots) (ht : 0 ≤ t ∧ t < g.numSlots)
    (hj : 0 ≤ j ∧ j < g.numBuckets) (hk : 0 ≤ k ∧ k < g.numBuckets) :
    (g.index s j).toNat = (g.index t k).toNat ↔ s = t ∧ j = k := by
  constructor
  · intro eq
    have left := index_mem hs hj
    have right := index_mem ht hk
    have same : g.index s j = g.index t k := by omega
    constructor
    · rw [← index_ediv (s := s) hj.1 hj.2, same, index_ediv hk.1 hk.2]
    · rw [← index_emod hj.1 hj.2, same, index_emod hk.1 hk.2]
  · rintro ⟨rfl, rfl⟩
    rfl

end GridSpec

variable {g : GridSpec} {slot k : ℤ} {supply demand : List ℚ}

section

theorem getD_foldl_modify {ps : List ℕ} (nodup : ps.Nodup) (q : ℚ) (i : ℕ) (out : List ℚ)
    (bound : i < out.length) :
    (ps.foldl (fun out p => out.modify p (· + q)) out).getD i 0 =
      out.getD i 0 + if i ∈ ps then q else 0 := by
  induction ps generalizing out with
  | nil => simp
  | cons p ps ih =>
    rw [nodup_cons] at nodup
    rw [foldl_cons, ih nodup.2 _ (by simpa using bound)]
    by_cases hit : p = i
    · subst hit
      simp [nodup.1, bound]
    · have other : i ≠ p := fun eq => hit eq.symm
      simp [other, hit]

@[simp] theorem length_foldl_modify (ps : List ℕ) (q : ℚ) (out : List ℚ) :
    (ps.foldl (fun out p => out.modify p (· + q)) out).length = out.length := by
  induction ps generalizing out with
  | nil => rfl
  | cons p ps ih => rw [foldl_cons, ih, length_modify]

theorem nodup_range (a b : ℤ) : (Int.range a b).Nodup := by
  apply List.Nodup.map _ List.nodup_range
  intro m n eq
  simpa using eq

def inSlot (slot : ℤ) (offers : List Offer) : List Offer := offers.filter (·.slot = slot)

/-- The buckets of an encoder: distinct buckets of the grid for every offer. -/
structure Ranges (g : GridSpec) (buckets : Offer → List ℤ) : Prop where
  nodup : ∀ o, (buckets o).Nodup
  mem : ∀ o, ∀ k ∈ buckets o, 0 ≤ k ∧ k < g.numBuckets

def positions (g : GridSpec) (buckets : Offer → List ℤ) (o : Offer) : List ℕ :=
  (buckets o).map fun k => (g.index o.slot k).toNat

variable {buckets : Offer → List ℤ}

theorem layOut_eq (offers : List Offer) : g.layOut buckets offers =
    offers.foldl (fun out o =>
      (positions g buckets o).foldl (fun out p => out.modify p (· + o.quantity)) out)
      (List.replicate g.len.toNat 0) := by
  simp only [GridSpec.layOut, positions, foldl_map]

theorem positions_nodup (ranges : Ranges g buckets) {o : Offer} (admits : g.Admits o) :
    (positions g buckets o).Nodup := by
  have range : 0 ≤ o.slot ∧ o.slot < g.numSlots := ⟨admits.slot_nonneg, admits.slot_lt⟩
  apply Nodup.map_on _ (ranges.nodup o)
  intro j hj k hk eq
  exact ((GridSpec.index_inj range range (ranges.mem o j hj) (ranges.mem o k hk)).mp eq).2

theorem mem_positions (ranges : Ranges g buckets) {o : Offer} (admits : g.Admits o)
    (hslot : 0 ≤ slot ∧ slot < g.numSlots) (hk : 0 ≤ k ∧ k < g.numBuckets) :
    (g.index slot k).toNat ∈ positions g buckets o ↔ o.slot = slot ∧ k ∈ buckets o := by
  have range : 0 ≤ o.slot ∧ o.slot < g.numSlots := ⟨admits.slot_nonneg, admits.slot_lt⟩
  rw [positions, mem_map]
  constructor
  · rintro ⟨j, mem, eq⟩
    obtain ⟨same, rfl⟩ := (GridSpec.index_inj range hslot (ranges.mem o j mem) hk).mp eq
    exact ⟨same, mem⟩
  · rintro ⟨rfl, mem⟩
    exact ⟨k, mem, rfl⟩

section

variable (ranges : Ranges g buckets) (hslot : 0 ≤ slot ∧ slot < g.numSlots)
  (hk : 0 ≤ k ∧ k < g.numBuckets) {offers : List Offer} (admits : ∀ o ∈ offers, g.Admits o)

include ranges hslot hk admits

theorem entry_foldl (out : List ℚ) (bound : (g.index slot k).toNat < out.length) :
    entry (offers.foldl (fun out o =>
        (positions g buckets o).foldl (fun out p => out.modify p (· + o.quantity)) out) out)
        (g.index slot k) = entry out (g.index slot k) +
        ((inSlot slot offers).map fun o => if k ∈ buckets o then o.quantity else 0).sum := by
  induction offers generalizing out with
  | nil => simp [inSlot]
  | cons o offers ih =>
    have admitted := admits o mem_cons_self
    rw [foldl_cons, ih (fun o' mem => admits o' (mem_cons_of_mem _ mem)) _
      (by simpa using bound), entry,
      getD_foldl_modify (positions_nodup ranges admitted) _ _ _ bound]
    simp only [mem_positions ranges admitted hslot hk]
    by_cases same : o.slot = slot
    · simp [inSlot, same, entry, add_assoc]
    · simp [inSlot, same, entry]

theorem entry_layOut :
    entry (g.layOut buckets offers) (g.index slot k) =
      ((inSlot slot offers).map fun o => if k ∈ buckets o then o.quantity else 0).sum := by
  have inside := GridSpec.index_mem hslot hk
  have blank : entry (List.replicate g.len.toNat 0) (g.index slot k) = 0 := by
    simp [entry]
  rw [layOut_eq, entry_foldl ranges hslot hk admits _ (by rw [length_replicate]; omega),
    blank, zero_add]

end

theorem length_layOut (offers : List Offer) : (g.layOut buckets offers).length = g.len.toNat := by
  rw [layOut_eq]
  generalize start : List.replicate g.len.toNat (0 : ℚ) = out
  have length : out.length = g.len.toNat := by rw [← start, length_replicate]
  clear start
  induction offers generalizing out with
  | nil => exact length
  | cons o offers ih =>
    apply ih
    rw [length_foldl_modify, length]

end

section

variable {offers : List Offer}

theorem firstBucket_nonneg (o : Offer) : 0 ≤ g.firstBucket o := by
  simp only [GridSpec.firstBucket]
  split
  · exact le_rfl
  · exact not_lt.mp ‹_›

theorem lastBucket_lt (o : Offer) : g.lastBucket o < g.numBuckets := by
  simp only [GridSpec.lastBucket]
  split
  · exact sub_one_lt _
  · exact not_le.mp ‹_›

theorem mem_supplyBuckets {o : Offer} :
    k ∈ g.supplyBuckets o ↔ g.firstBucket o ≤ k ∧ k < g.numBuckets := Int.mem_range_iff

theorem mem_demandBuckets {o : Offer} : k ∈ g.demandBuckets o ↔ 0 ≤ k ∧ k ≤ g.lastBucket o := by
  rw [GridSpec.demandBuckets, Int.mem_range_iff, Int.lt_add_one_iff]

theorem supplyBuckets_ranges : Ranges g g.supplyBuckets where
  nodup o := nodup_range _ _
  mem o k mem := by
    have bounds := mem_supplyBuckets.mp mem
    exact ⟨(firstBucket_nonneg o).trans bounds.1, bounds.2⟩

theorem demandBuckets_ranges : Ranges g g.demandBuckets where
  nodup o := nodup_range _ _
  mem o k mem := by
    have bounds := mem_demandBuckets.mp mem
    exact ⟨bounds.1, bounds.2.trans_lt (lastBucket_lt o)⟩

section

variable (hslot : 0 ≤ slot ∧ slot < g.numSlots) (hk : 0 ≤ k ∧ k < g.numBuckets)
  (admits : ∀ o ∈ offers, g.Admits o)

include hslot hk admits

theorem supply_entry :
    entry (g.layOut g.supplyBuckets offers) (g.index slot k) =
      weigh g.firstBucket Offer.quantity (upTo k) (inSlot slot offers) := by
  rw [entry_layOut supplyBuckets_ranges hslot hk admits, weigh]
  simp [mem_supplyBuckets, hk.2, upTo]

theorem demand_entry :
    entry (g.layOut g.demandBuckets offers) (g.index slot k) =
      weigh g.lastBucket Offer.quantity (atLeast k) (inSlot slot offers) := by
  rw [entry_layOut demandBuckets_ranges hslot hk admits, weigh]
  simp [mem_demandBuckets, hk.1, atLeast]

end

theorem quantities_nonneg (admits : ∀ o ∈ offers, g.Admits o) :
    ∀ o ∈ inSlot slot offers, 0 ≤ o.quantity := by
  intro o mem
  exact (admits o (mem_of_mem_filter mem)).quantity_nonneg

theorem demand_antitone (hslot : 0 ≤ slot ∧ slot < g.numSlots)
    (admits : ∀ o ∈ offers, g.Admits o) {j : ℤ} (hj : 0 ≤ j) (le : j ≤ k) (hk : k < g.numBuckets) :
    entry (g.layOut g.demandBuckets offers) (g.index slot k) ≤
      entry (g.layOut g.demandBuckets offers) (g.index slot j) := by
  rw [demand_entry hslot ⟨hj.trans le, hk⟩ admits, demand_entry hslot ⟨hj, le.trans_lt hk⟩ admits]
  exact weigh_mono (quantities_nonneg admits) fun _ => taken_le le.trans

end

section

theorem find?_range_eq_some_iff {p : ℤ → Bool} {a b k : ℤ} :
    (Int.range a b).find? p = some k ↔ (a ≤ k ∧ k < b) ∧ p k ∧ ∀ j, a ≤ j → j < k → ¬ p j := by
  rw [Int.range, List.find?_map]
  constructor
  · intro found
    obtain ⟨n, found', rfl⟩ := Option.map_eq_some_iff.mp found
    obtain ⟨hit, mem, first⟩ := List.find?_range_eq_some.mp found'
    rw [mem_range] at mem
    refine ⟨⟨by omega, by omega⟩, hit, ?_⟩
    intro j lower upper
    have miss := first (j - a).toNat (by omega)
    have back : a + ((j - a).toNat : ℤ) = j := by omega
    rw [Function.comp_apply, back] at miss
    simpa using miss
  · rintro ⟨⟨lower, upper⟩, hit, first⟩
    have back : a + ((k - a).toNat : ℤ) = k := by omega
    refine Option.map_eq_some_iff.mpr ⟨(k - a).toNat, ?_, back⟩
    rw [List.find?_range_eq_some]
    refine ⟨by rwa [Function.comp_apply, back], mem_range.mpr (by omega), ?_⟩
    intro n lt
    simpa using first (a + n) (by omega) (by omega)

theorem find?_range_eq_none_iff {p : ℤ → Bool} {a b : ℤ} :
    (Int.range a b).find? p = none ↔ ∀ k, a ≤ k → k < b → ¬ p k := by
  simp [Int.mem_range_iff]

def meets (g : GridSpec) (supply demand : List ℚ) (slot : ℤ) : Set ℤ :=
  {k | (1 ≤ k ∧ k < g.numBuckets) ∧
    entry demand (g.index slot k) ≤ entry supply (g.index slot k)}

theorem crossing_eq_some_iff :
    crossing g supply demand slot = some k ↔ IsLeast (meets g supply demand slot) k := by
  rw [crossing, find?_range_eq_some_iff]
  simp only [decide_eq_true_eq, not_lt, sub_nonneg, not_le]
  constructor
  · rintro ⟨range, hit, first⟩
    refine ⟨⟨range, hit⟩, ?_⟩
    rintro j ⟨bounds, meet⟩
    by_contra lt
    exact (first j bounds.1 (not_le.mp lt)).not_ge meet
  · rintro ⟨⟨range, hit⟩, least⟩
    refine ⟨range, hit, ?_⟩
    intro j lower lt
    by_contra meet
    exact lt.not_ge (least ⟨⟨lower, lt.trans range.2⟩, not_lt.mp meet⟩)

theorem crossing_eq_none_iff :
    crossing g supply demand slot = none ↔ meets g supply demand slot = ∅ := by
  rw [crossing, find?_range_eq_none_iff, Set.eq_empty_iff_forall_notMem]
  simp only [decide_eq_true_eq, not_not, meets, Set.mem_ofPred_eq, not_and, not_le, sub_neg]
  constructor
  · intro none k range
    exact none k range.1 range.2
  · intro none k lower upper
    exact none k ⟨lower, upper⟩

end

section

theorem deriveAllocation_of_nonpos (res : SlotResult) (none : res.demand ≤ 0) :
    deriveAllocation res = { bucket := noClearing } := by
  have cleared : (if res.demand < res.supply then res.demand else res.supply) ≤ 0 := by
    split
    · exact none
    · exact (not_lt.mp ‹_›).trans none
  simp only [deriveAllocation, if_pos cleared]

theorem deriveAllocation_of_pos (res : SlotResult) (le : res.demand ≤ res.supply)
    (pos : 0 < res.demand) (fresh : res.marginalRatio = 0) :
    deriveAllocation res = { res with
      cleared := res.demand
      inframarginalRatio := infraRatio res.supplyPrev res.demand
      marginalRatio := margRatio res.supplyPrev res.supply res.demand } := by
  have cleared : (if res.demand < res.supply then res.demand else res.supply) = res.demand := by
    split
    · rfl
    · exact le_antisymm (not_lt.mp ‹_›) le
  simp only [deriveAllocation, cleared, if_neg pos.not_ge, fresh, infraRatio, margRatio]

theorem clearSlot_of_pos (least : IsLeast (meets g supply demand slot) k)
    (pos : 0 < entry demand (g.index slot k)) :
    clearSlot g supply demand slot = { crossingAt g supply demand slot k with
      cleared := entry demand (g.index slot k)
      inframarginalRatio := infraRatio (entry supply (g.index slot (k - 1)))
        (entry demand (g.index slot k))
      marginalRatio := margRatio (entry supply (g.index slot (k - 1)))
        (entry supply (g.index slot k)) (entry demand (g.index slot k)) } := by
  have bucket_pos : 0 < k := least.1.1.1
  rw [clearSlot, crossing_eq_some_iff.mpr least]
  dsimp only
  rw [deriveAllocation_of_pos (crossingAt g supply demand slot k) least.1.2 pos rfl]
  simp only [crossingAt, if_pos bucket_pos]

theorem clearSlot_of_nonpos (least : IsLeast (meets g supply demand slot) k)
    (none : entry demand (g.index slot k) ≤ 0) :
    clearSlot g supply demand slot = { bucket := noClearing } := by
  rw [clearSlot, crossing_eq_some_iff.mpr least]
  exact deriveAllocation_of_nonpos (crossingAt g supply demand slot k) none

theorem clearSlot_of_empty (none : meets g supply demand slot = ∅) :
    clearSlot g supply demand slot = { bucket := noClearing } := by
  rw [clearSlot, crossing_eq_none_iff.mpr none]

theorem clears_iff : (clearSlot g supply demand slot).bucket ≠ noClearing ↔
    ∃ k, IsLeast (meets g supply demand slot) k ∧ 0 < entry demand (g.index slot k) := by
  constructor
  · intro clears
    cases found : crossing g supply demand slot with
    | none => exact absurd (by rw [clearSlot_of_empty (crossing_eq_none_iff.mp found)]) clears
    | some k =>
      have least := crossing_eq_some_iff.mp found
      refine ⟨k, least, ?_⟩
      by_contra none
      exact clears (by rw [clearSlot_of_nonpos least (not_lt.mp none)])
  · rintro ⟨k, least, pos⟩
    rw [clearSlot_of_pos least pos]
    have lower := least.1.1.1
    simp only [crossingAt, noClearing]
    omega

theorem clearPlaintext_ok (valid : g.Valid) (hs : (supply.length : ℤ) = g.len)
    (hd : (demand.length : ℤ) = g.len) : clearPlaintext g supply demand =
      .ok ((List.range g.numSlots.toNat).map fun (slot : ℕ) => clearSlot g supply demand slot) := by
  simp only [clearPlaintext, bind_eq_ok_iff, GridSpec.validate_eq_ok_iff, refuse_eq_ok_iff]
  exact ⟨valid, not_not.mpr hs, not_not.mpr hd, rfl⟩

end

section

def GridSpec.OnGrid (g : GridSpec) (o : Offer) : Prop := ∃ j : ℤ, o.priceCt = g.price j

variable {o : Offer}

theorem firstBucket_of_price (valid : g.Valid) {j : ℤ} (eq : o.priceCt = g.price j) :
    g.firstBucket o = if 2 ^ 63 ≤ j then 0 else max 0 j := by
  have ticks : o.priceCt / g.tickCt = j := by
    rw [eq, GridSpec.price, mul_div_cancel_left₀ _ valid.tick_pos.ne']
  have ceil : ⌈(j : ℚ) - tickEpsilon⌉ = j := by
    rw [Int.ceil_eq_iff]
    unfold tickEpsilon
    constructor <;> linarith
  simp only [GridSpec.firstBucket, ticks, ceil, toInt64]
  split_ifs <;> omega

theorem lastBucket_of_price (valid : g.Valid) (room : g.numBuckets < 2 ^ 63) {j : ℤ}
    (eq : o.priceCt = g.price j) :
    g.lastBucket o = if 2 ^ 63 ≤ j then -2 ^ 63 else max (-2 ^ 63) (min (g.numBuckets - 1) j) := by
  have ticks : o.priceCt / g.tickCt = j := by
    rw [eq, GridSpec.price, mul_div_cancel_left₀ _ valid.tick_pos.ne']
  have floor : ⌊(j : ℚ) + tickEpsilon⌋ = j := by
    rw [Int.floor_eq_iff]
    unfold tickEpsilon
    constructor <;> linarith
  have some := valid.buckets_pos
  simp only [GridSpec.lastBucket, ticks, floor, toInt64]
  split_ifs <;> omega

theorem price_lt_iff (valid : g.Valid) {j k : ℤ} : g.price j < g.price k ↔ j < k := by
  rw [GridSpec.price, GridSpec.price, mul_lt_mul_iff_right₀ valid.tick_pos, Int.cast_lt]

theorem price_le_iff (valid : g.Valid) {j k : ℤ} : g.price j ≤ g.price k ↔ j ≤ k := by
  rw [← not_lt, price_lt_iff valid, not_lt]

theorem price_inj (valid : g.Valid) {j k : ℤ} : g.price j = g.price k ↔ j = k := by
  rw [GridSpec.price, GridSpec.price, mul_right_inj' valid.tick_pos.ne', Int.cast_inj]

def sellerAllocation (r : SlotResult) (o : Offer) : ℚ :=
  if o.priceCt < r.priceCt then r.inframarginalRatio * o.quantity
  else if o.priceCt = r.priceCt then r.marginalRatio * o.quantity
  else 0

def buyerAllocation (r : SlotResult) (o : Offer) : ℚ :=
  if r.priceCt ≤ o.priceCt then o.quantity else 0

/-- A price so high that it is not a word of ticks. -/
def GridSpec.Dear (g : GridSpec) (o : Offer) : Prop := g.price (2 ^ 63) ≤ o.priceCt

instance (g : GridSpec) : DecidablePred g.Dear := fun _ => inferInstanceAs (Decidable (_ ≤ _))

/-- What a slot lists of dear offers. The encoder takes a dear seller for a cheap one and a dear
buyer for one that pays nothing. -/
def GridSpec.dearQuantity (g : GridSpec) (offers : List Offer) : ℚ :=
  (offers.map fun o => if g.Dear o then o.quantity else 0).sum

theorem dear_iff (valid : g.Valid) {j : ℤ} (eq : o.priceCt = g.price j) :
    g.Dear o ↔ 2 ^ 63 ≤ j := by
  rw [GridSpec.Dear, eq, price_le_iff valid]

theorem sellerAllocation_eq (valid : g.Valid) {r : SlotResult} (grid : g.OnGrid o)
    {k : ℤ} (lower : 1 ≤ k) (upper : k < 2 ^ 63) (price : r.priceCt = g.price k) :
    sellerAllocation r o + r.inframarginalRatio * (if g.Dear o then o.quantity else 0) =
      share r.inframarginalRatio r.marginalRatio k (g.firstBucket o) * o.quantity := by
  obtain ⟨j, eq⟩ := grid
  rw [sellerAllocation, share, firstBucket_of_price valid eq, eq, price]
  simp only [price_lt_iff valid, price_inj valid, dear_iff valid eq]
  by_cases dear : 2 ^ 63 ≤ j
  · simp only [if_pos dear, if_pos (show (0 : ℤ) < k by omega), if_neg (show ¬ j < k by omega),
      if_neg (show j ≠ k by omega), zero_add]
  · have below : max 0 j < k ↔ j < k := by omega
    have same : max 0 j = k ↔ j = k := by omega
    simp only [if_neg dear, below, same, mul_zero, add_zero, ite_mul, zero_mul]

theorem buyerAllocation_eq (valid : g.Valid) (room : g.numBuckets < 2 ^ 63) {r : SlotResult}
    (grid : g.OnGrid o) {k : ℤ} (lower : 1 ≤ k) (upper : k < g.numBuckets)
    (price : r.priceCt = g.price k) :
    buyerAllocation r o = atLeast k (g.lastBucket o) * o.quantity +
      if g.Dear o then o.quantity else 0 := by
  obtain ⟨j, eq⟩ := grid
  rw [buyerAllocation, atLeast, lastBucket_of_price valid room eq, eq, price]
  simp only [price_le_iff valid, dear_iff valid eq]
  by_cases dear : 2 ^ 63 ≤ j
  · simp only [if_pos dear, if_pos (show k ≤ j by omega), if_neg (show ¬ k ≤ -2 ^ 63 by omega),
      zero_mul, zero_add]
  · have reach : k ≤ max (-2 ^ 63) (min (g.numBuckets - 1) j) ↔ k ≤ j := by omega
    simp only [if_neg dear, reach, ite_mul, one_mul, zero_mul, add_zero]

/-- A cleared slot: where it clears, at which ratios, and that both sides trade what is cleared. -/
structure Balanced (g : GridSpec) (sellers buyers : List Offer) (supply demand : List ℚ)
    (slot : ℤ) (r : SlotResult) : Prop where
  bucket_least : IsLeast {k | (1 ≤ k ∧ k < g.numBuckets) ∧
    entry demand (g.index slot k) ≤ entry supply (g.index slot k)} r.bucket
  price_eq : r.priceCt = g.price r.bucket
  infra_mem : 0 ≤ r.inframarginalRatio ∧ r.inframarginalRatio ≤ 1
  marg_mem : 0 ≤ r.marginalRatio ∧ r.marginalRatio ≤ 1
  sellers_total : ((inSlot slot sellers).map (sellerAllocation r)).sum = r.cleared
  buyers_total : ((inSlot slot buyers).map (buyerAllocation r)).sum = r.cleared

variable {sellers buyers : List Offer} {r : SlotResult}

theorem sellers_total_eq (slot : ℤ) (valid : g.Valid) (grid : ∀ o ∈ sellers, g.OnGrid o)
    (lower : 1 ≤ k) (upper : k < 2 ^ 63) (price : r.priceCt = g.price k) :
    ((inSlot slot sellers).map (sellerAllocation r)).sum +
        r.inframarginalRatio * g.dearQuantity (inSlot slot sellers) =
      weigh g.firstBucket Offer.quantity (share r.inframarginalRatio r.marginalRatio k)
        (inSlot slot sellers) := by
  rw [GridSpec.dearQuantity, ← sum_map_mul_left, weigh, ← sum_map_add]
  congr 1
  apply map_congr_left
  intro o mem
  exact sellerAllocation_eq valid (grid o (mem_of_mem_filter mem)) lower upper price

theorem buyers_total_eq (slot : ℤ) (valid : g.Valid) (room : g.numBuckets < 2 ^ 63)
    (grid : ∀ o ∈ buyers, g.OnGrid o) (lower : 1 ≤ k) (upper : k < g.numBuckets)
    (price : r.priceCt = g.price k) :
    ((inSlot slot buyers).map (buyerAllocation r)).sum =
      weigh g.lastBucket Offer.quantity (atLeast k) (inSlot slot buyers) +
        g.dearQuantity (inSlot slot buyers) := by
  rw [GridSpec.dearQuantity, weigh, ← sum_map_add]
  congr 1
  apply map_congr_left
  intro o mem
  exact buyerAllocation_eq valid room (grid o (mem_of_mem_filter mem)) lower upper price

theorem dearQuantity_eq_zero_iff {offers : List Offer} (nonneg : ∀ o ∈ offers, 0 ≤ o.quantity) :
    g.dearQuantity offers = 0 ↔ ∀ o ∈ offers, 0 < o.quantity → ¬ g.Dear o := by
  have counted : ∀ x ∈ offers.map fun o => if g.Dear o then o.quantity else 0, 0 ≤ x := by
    intro x mem
    obtain ⟨o, listed, rfl⟩ := mem_map.mp mem
    split_ifs
    · exact nonneg o listed
    · exact le_rfl
  rw [GridSpec.dearQuantity]
  constructor
  · intro zero o listed pos dear
    have le := single_le_sum counted _ (mem_map_of_mem listed)
    rw [zero] at le
    simp only [if_pos dear] at le
    exact pos.not_ge le
  · intro none
    apply sum_eq_zero
    intro x mem
    obtain ⟨o, listed, rfl⟩ := mem_map.mp mem
    split_ifs with dear
    · exact (nonneg o listed).antisymm' (not_lt.mp fun pos => none o listed pos dear)
    · rfl

theorem supplyPrev_entry (hslot : 0 ≤ slot ∧ slot < g.numSlots) (hk : 1 ≤ k ∧ k < g.numBuckets)
    (admits : ∀ o ∈ sellers, g.Admits o) :
    entry (g.layOut g.supplyBuckets sellers) (g.index slot (k - 1)) =
      weigh g.firstBucket Offer.quantity (below k) (inSlot slot sellers) := by
  have step : (upTo (k - 1) : ℤ → ℚ) = below k := by
    funext x
    simp only [upTo, below, Int.le_sub_one_iff]
  rw [supply_entry hslot ⟨by omega, by omega⟩ admits, step]

/-- No offer of the slot with a quantity has a price that is not a word of ticks. -/
def Worded (g : GridSpec) (sellers buyers : List Offer) (slot : ℤ) : Prop :=
  (∀ o ∈ inSlot slot sellers, 0 < o.quantity → ¬ g.Dear o) ∧
    ∀ o ∈ inSlot slot buyers, 0 < o.quantity → ¬ g.Dear o

theorem clearSlot_balanced_iff (valid : g.Valid) (room : g.numBuckets < 2 ^ 63)
    (hslot : 0 ≤ slot ∧ slot < g.numSlots)
    (sellers_admitted : ∀ o ∈ sellers, g.Admits o) (sellers_grid : ∀ o ∈ sellers, g.OnGrid o)
    (buyers_admitted : ∀ o ∈ buyers, g.Admits o) (buyers_grid : ∀ o ∈ buyers, g.OnGrid o)
    (clears : (clearSlot g (g.layOut g.supplyBuckets sellers) (g.layOut g.demandBuckets buyers)
      slot).bucket ≠ noClearing) :
    Balanced g sellers buyers (g.layOut g.supplyBuckets sellers) (g.layOut g.demandBuckets buyers)
      slot (clearSlot g (g.layOut g.supplyBuckets sellers) (g.layOut g.demandBuckets buyers)
        slot) ↔ Worded g sellers buyers slot := by
  obtain ⟨k, least, pos⟩ := clears_iff.mp clears
  obtain ⟨lower, upper⟩ := least.1.1
  have meet := least.1.2
  have bucket : 0 ≤ k ∧ k < g.numBuckets := ⟨by omega, upper⟩
  have shape := clearSlot_of_pos least pos
  generalize clearSlot g _ _ slot = r at shape ⊢
  have price : r.priceCt = g.price k := by rw [shape]; rfl
  have sold := sellers_total_eq slot valid sellers_grid lower (by omega) price
  have bought := buyers_total_eq slot valid room buyers_grid lower upper price
  have infra : 0 < r.inframarginalRatio := by
    rw [shape]
    exact infraRatio_pos pos
  have filled : weigh g.firstBucket Offer.quantity
      (share r.inframarginalRatio r.marginalRatio k) (inSlot slot sellers) = r.cleared := by
    rw [weigh_share, ← supplyPrev_entry hslot ⟨lower, upper⟩ sellers_admitted,
      ← supply_entry hslot bucket sellers_admitted, shape]
    apply ratios_fill pos meet
    rw [supplyPrev_entry hslot ⟨lower, upper⟩ sellers_admitted,
      supply_entry hslot bucket sellers_admitted]
    exact weigh_mono (quantities_nonneg sellers_admitted) (below_le_upTo k)
  have wanted : weigh g.lastBucket Offer.quantity (atLeast k) (inSlot slot buyers) = r.cleared := by
    rw [← demand_entry hslot bucket buyers_admitted, shape]
  rw [filled] at sold
  rw [wanted] at bought
  rw [Worded, ← dearQuantity_eq_zero_iff (quantities_nonneg sellers_admitted),
    ← dearQuantity_eq_zero_iff (quantities_nonneg buyers_admitted)]
  constructor
  · intro balanced
    rw [balanced.sellers_total] at sold
    rw [balanced.buyers_total] at bought
    exact ⟨(mul_eq_zero_iff_left infra.ne').mp (by linarith), by linarith⟩
  · rintro ⟨none, none'⟩
    rw [none, mul_zero, add_zero] at sold
    rw [none', add_zero] at bought
    refine ⟨?_, ?_, ?_, ?_, sold, bought⟩ <;> rw [shape]
    · exact least
    · rfl
    · exact infraRatio_mem pos.le
    · exact margRatio_mem ..

/-- The clearing balances exactly if no slot that clears holds an offer, with a quantity, at a price
that is not a word of ticks. -/
theorem clearing_balances_iff {g : GridSpec} {sellers buyers : List Offer} (valid : g.Valid)
    (room : g.len < 2 ^ 63)
    (sellers_admitted : ∀ o ∈ sellers, g.Admits o) (sellers_grid : ∀ o ∈ sellers, g.OnGrid o)
    (buyers_admitted : ∀ o ∈ buyers, g.Admits o) (buyers_grid : ∀ o ∈ buyers, g.OnGrid o) :
    ∃ supply demand results, encodeSupply g sellers = .ok supply ∧
      encodeDemand g buyers = .ok demand ∧ clearPlaintext g supply demand = .ok results ∧
      (results.length : ℤ) = g.numSlots ∧
      ∀ (slot : ℕ) (r : SlotResult), results[slot]? = some r → r.bucket ≠ noClearing →
        (Balanced g sellers buyers supply demand slot r ↔ Worded g sellers buyers slot) := by
  refine ⟨g.layOut g.supplyBuckets sellers, g.layOut g.demandBuckets buyers, _, ?_, ?_,
    clearPlaintext_ok valid ?_ ?_, ?_, ?_⟩
  · simp only [encodeSupply, bind_eq_ok_iff, GridSpec.validateOffers_eq_ok_iff]
    exact ⟨⟨valid, sellers_admitted⟩, rfl⟩
  · simp only [encodeDemand, bind_eq_ok_iff, GridSpec.validateOffers_eq_ok_iff]
    exact ⟨⟨valid, buyers_admitted⟩, rfl⟩
  · rw [length_layOut, Int.toNat_of_nonneg valid.len_nonneg]
  · rw [length_layOut, Int.toNat_of_nonneg valid.len_nonneg]
  · rw [length_map, length_range, Int.toNat_of_nonneg valid.slots_pos.le]
  · intro slot r found clears
    rw [List.getElem?_map, Option.map_eq_some_iff] at found
    obtain ⟨n, hit, rfl⟩ := found
    obtain ⟨bound, rfl⟩ := List.getElem?_eq_some_iff.mp hit
    rw [length_range] at bound
    rw [getElem_range] at clears ⊢
    exact clearSlot_balanced_iff valid (valid.numBuckets_lt room) ⟨by omega, by omega⟩
      sellers_admitted sellers_grid buyers_admitted buyers_grid clears

def rationingGrid : GridSpec := ⟨1 / 4, 8, 2⟩
def rationingSellers : List Offer := [⟨0, 1 / 4, 4⟩, ⟨0, 3 / 4, 6⟩]
def rationingBuyers : List Offer := [⟨0, 2, 5⟩]

theorem clearing_balances_rationing :
    (∃ supply demand results, encodeSupply rationingGrid rationingSellers = .ok supply ∧
      encodeDemand rationingGrid rationingBuyers = .ok demand ∧
      clearPlaintext rationingGrid supply demand = .ok results ∧ (results.length : ℤ) = 2 ∧
      ∀ (slot : ℕ) (r : SlotResult), results[slot]? = some r → r.bucket ≠ noClearing →
        (Balanced rationingGrid rationingSellers rationingBuyers supply demand slot r ↔
          Worded rationingGrid rationingSellers rationingBuyers slot)) ∧
    Worded rationingGrid rationingSellers rationingBuyers 0 ∧
    (do clearPlaintext rationingGrid (← encodeSupply rationingGrid rationingSellers)
          (← encodeDemand rationingGrid rationingBuyers)) =
      .ok [⟨3, 3 / 4, 10, 4, 5, 5, 1 / 6, 1⟩, { bucket := noClearing }] := by
  refine ⟨clearing_balances_iff ⟨by decide +kernel, by decide, by decide⟩ (by decide) ?_ ?_ ?_ ?_,
    ?_, by decide +kernel⟩
  · decide +kernel
  · intro o mem
    simp only [rationingSellers, mem_cons, not_mem_nil, or_false] at mem
    rcases mem with rfl | rfl
    · exact ⟨1, by decide +kernel⟩
    · exact ⟨3, by decide +kernel⟩
  · decide +kernel
  · intro o mem
    rw [rationingBuyers, mem_singleton] at mem
    rw [mem]
    exact ⟨8, by decide +kernel⟩
  · unfold Worded
    decide +kernel

/-- A seller whose price is one tick more than a word is counted at every bucket, so the slot clears
and the seller is given nothing. -/
theorem dear_seller_unserved :
    let g : GridSpec := ⟨1, 2, 1⟩
    let seller : Offer := ⟨0, 2 ^ 63, 1⟩
    let buyer : Offer := ⟨0, 1, 1⟩
    ∃ supply demand r, g.OnGrid seller ∧ g.OnGrid buyer ∧ encodeSupply g [seller] = .ok supply ∧
      encodeDemand g [buyer] = .ok demand ∧ clearPlaintext g supply demand = .ok [r] ∧
      r.cleared = 1 ∧ ((inSlot 0 [seller]).map (sellerAllocation r)).sum = 0 ∧
      ¬ Balanced g [seller] [buyer] supply demand 0 r := by
  refine ⟨[1, 1], [1, 1], ⟨1, 1, 1, 1, 1, 1, 0, 1⟩, ⟨2 ^ 63, by decide +kernel⟩,
    ⟨1, by decide +kernel⟩, by decide +kernel, by decide +kernel, by decide +kernel, rfl,
    by decide +kernel, ?_⟩
  intro balanced
  exact absurd balanced.sellers_total (by decide +kernel)

end

section

variable (g : GridSpec) (supply demand : List ℚ) (slot : ℤ)

/-- The curves of a slot are not negative; supply rises and demand falls over the buckets. -/
structure Curves : Prop where
  supply_nonneg : ∀ k, 0 ≤ k → k < g.numBuckets → 0 ≤ entry supply (g.index slot k)
  demand_nonneg : ∀ k, 0 ≤ k → k < g.numBuckets → 0 ≤ entry demand (g.index slot k)
  rising : ∀ j k, 0 ≤ j → j ≤ k → k < g.numBuckets →
    entry supply (g.index slot j) ≤ entry supply (g.index slot k)
  falling : ∀ j k, 0 ≤ j → j ≤ k → k < g.numBuckets →
    entry demand (g.index slot k) ≤ entry demand (g.index slot j)

def NoTrade : Prop :=
  (∀ k, 1 ≤ k → k < g.numBuckets → entry supply (g.index slot k) < entry demand (g.index slot k)) ∨
    ∀ k, 1 ≤ k → k < g.numBuckets →
      min (entry supply (g.index slot k)) (entry demand (g.index slot k)) = 0

def LostTrade : Prop :=
  ∃ j k, IsLeast (meets g supply demand slot) k ∧ entry demand (g.index slot k) = 0 ∧
    (1 ≤ j ∧ j < k) ∧ 0 < entry supply (g.index slot j)

variable {g supply demand slot}

theorem curves_encoded {sellers buyers : List Offer} (hslot : 0 ≤ slot ∧ slot < g.numSlots)
    (sellers_admitted : ∀ o ∈ sellers, g.Admits o) (buyers_admitted : ∀ o ∈ buyers, g.Admits o) :
    Curves g (g.layOut g.supplyBuckets sellers) (g.layOut g.demandBuckets buyers) slot where
  supply_nonneg k lower upper := by
    rw [supply_entry hslot ⟨lower, upper⟩ sellers_admitted]
    exact weigh_nonneg (quantities_nonneg sellers_admitted) (upTo_nonneg k)
  demand_nonneg k lower upper := by
    rw [demand_entry hslot ⟨lower, upper⟩ buyers_admitted]
    exact weigh_nonneg (quantities_nonneg buyers_admitted) (atLeast_nonneg k)
  rising j k lower le upper := by
    rw [supply_entry hslot ⟨lower, le.trans_lt upper⟩ sellers_admitted,
      supply_entry hslot ⟨lower.trans le, upper⟩ sellers_admitted]
    exact weigh_mono (quantities_nonneg sellers_admitted) (upTo_mono le)
  falling j k lower le upper := demand_antitone hslot buyers_admitted lower le upper

theorem noClearing_of_noTrade (none : NoTrade g supply demand slot) :
    (clearSlot g supply demand slot).bucket = noClearing := by
  by_contra clears
  obtain ⟨k, least, pos⟩ := clears_iff.mp clears
  obtain ⟨⟨lower, upper⟩, meet⟩ := least.1
  rcases none with below | empty
  · exact (below k lower upper).not_ge meet
  · have zero := empty k lower upper
    rw [min_eq_right meet] at zero
    exact pos.ne' zero

theorem not_noTrade_of_lostTrade (lost : LostTrade g supply demand slot) :
    (clearSlot g supply demand slot).bucket = noClearing ∧ ¬ NoTrade g supply demand slot := by
  obtain ⟨j, k, least, ended, ⟨lower, before⟩, offered⟩ := lost
  refine ⟨by rw [clearSlot_of_nonpos least ended.le], ?_⟩
  obtain ⟨⟨first, upper⟩, meet⟩ := least.1
  have within := before.trans upper
  -- below its first meeting bucket the slot has more demand than supply
  have wanted : entry supply (g.index slot j) < entry demand (g.index slot j) := by
    by_contra met
    exact before.not_ge (least.2 ⟨⟨lower, within⟩, not_lt.mp met⟩)
  rintro (below | empty)
  · exact (below k first upper).not_ge meet
  · have zero := empty j lower within
    rw [min_eq_left wanted.le] at zero
    exact offered.ne' zero

theorem noTrade_of_noClearing (curves : Curves g supply demand slot)
    (found : ¬ LostTrade g supply demand slot)
    (none : (clearSlot g supply demand slot).bucket = noClearing) :
    NoTrade g supply demand slot := by
  cases crossed : crossing g supply demand slot with
  | none =>
    apply Or.inl
    intro j lower upper
    by_contra met
    have member : j ∈ meets g supply demand slot := ⟨⟨lower, upper⟩, not_lt.mp met⟩
    rw [crossing_eq_none_iff.mp crossed] at member
    exact member
  | some k =>
    have least := crossing_eq_some_iff.mp crossed
    obtain ⟨⟨first, upper⟩, -⟩ := least.1
    have ended : entry demand (g.index slot k) = 0 := by
      apply le_antisymm _ (curves.demand_nonneg k (by omega) upper)
      by_contra pos
      exact clears_iff.mpr ⟨k, least, not_le.mp pos⟩ none
    apply Or.inr
    intro j lower within
    rcases lt_or_ge j k with before | behind
    · have unoffered : entry supply (g.index slot j) = 0 := by
        apply le_antisymm _ (curves.supply_nonneg j (by omega) within)
        by_contra pos
        exact found ⟨j, k, least, ended, ⟨lower, before⟩, not_le.mp pos⟩
      rw [unoffered]
      exact min_eq_left (curves.demand_nonneg j (by omega) within)
    · have unwanted := le_antisymm ((curves.falling k j (by omega) behind within).trans ended.le)
          (curves.demand_nonneg j (by omega) within)
      rw [unwanted]
      exact min_eq_right (curves.supply_nonneg j (by omega) within)

end

/-- `NoClearing` means that nothing can trade exactly where no trade is lost. -/
theorem noClearing_means_noTrade_iff {g : GridSpec} {supply demand : List ℚ} (valid : g.Valid)
    (hs : (supply.length : ℤ) = g.len) (hd : (demand.length : ℤ) = g.len) {slot : ℕ}
    (hslot : slot < g.numSlots) (curves : Curves g supply demand slot) :
    ∃ results r, clearPlaintext g supply demand = .ok results ∧ results[slot]? = some r ∧
      ((r.bucket = noClearing ↔ NoTrade g supply demand slot) ↔
        ¬ LostTrade g supply demand slot) := by
  refine ⟨_, clearSlot g supply demand slot, clearPlaintext_ok valid hs hd, ?_, ?_⟩
  · rw [List.getElem?_map, List.getElem?_range (by omega)]
    rfl
  · constructor
    · rintro means lost
      have unmeant := not_noTrade_of_lostTrade lost
      exact unmeant.2 (means.mp unmeant.1)
    · intro found
      exact ⟨noTrade_of_noClearing curves found, noClearing_of_noTrade⟩

theorem noClearing_means_noTrade_iff_rationing :
    let supply := rationingGrid.layOut rationingGrid.supplyBuckets rationingSellers
    let demand := rationingGrid.layOut rationingGrid.demandBuckets rationingBuyers
    ∃ results r, clearPlaintext rationingGrid supply demand = .ok results ∧
      results[0]? = some r ∧ (r.bucket = noClearing ↔ NoTrade rationingGrid supply demand 0) := by
  intro supply demand
  have curves : Curves rationingGrid supply demand (0 : ℕ) :=
    curves_encoded ⟨by decide, by decide⟩ (by decide +kernel) (by decide +kernel)
  obtain ⟨results, r, ok, here, means⟩ := noClearing_means_noTrade_iff
    ⟨by decide +kernel, by decide, by decide⟩ (by decide +kernel) (by decide +kernel) (by decide)
    curves
  refine ⟨results, r, ok, here, means.mpr ?_⟩
  rintro ⟨j, k, least, ended, -⟩
  have first : crossing rationingGrid supply demand (0 : ℕ) = some 3 := by decide +kernel
  rw [crossing_eq_some_iff.mpr least] at first
  cases first
  exact absurd ended (by decide +kernel)

/-- Three are on offer from half a cent on, and the buyer takes five up to a price of one cent.
Above one cent supply meets a demand of zero, and the slot is reported not to clear. -/
theorem trade_lost :
    let g : GridSpec := ⟨1 / 4, 8, 1⟩
    let supply := g.layOut g.supplyBuckets [⟨0, 1 / 2, 3⟩]
    let demand := g.layOut g.demandBuckets [⟨0, 1, 5⟩]
    encodeSupply g [⟨0, 1 / 2, 3⟩] = .ok supply ∧ encodeDemand g [⟨0, 1, 5⟩] = .ok demand ∧
      clearPlaintext g supply demand = .ok [{ bucket := noClearing }] ∧
      Curves g supply demand 0 ∧ ¬ NoTrade g supply demand 0 := by
  refine ⟨by decide +kernel, by decide +kernel, by decide +kernel,
    curves_encoded ⟨by decide, by decide⟩ (by decide +kernel) (by decide +kernel), ?_⟩
  rintro (below | empty)
  · exact absurd (below 5 (by decide) (by decide)) (by decide +kernel)
  · exact absurd (empty 4 (by decide) (by decide)) (by decide +kernel)

end PoolClearing
