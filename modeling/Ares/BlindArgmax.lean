import Ares.BalancedProducts

/-! `EvalArgmax` of the OpenFHE wrapper and the two handlers of the page around it, over exact
rationals. -/

namespace BlindArgmax

open BalancedProducts List Finset

/-- A ciphertext with the counts of what was spent on it: `depth` of the products of ciphertexts,
`levels k` of the levels if a product with a constant costs `k` of them. -/
structure Ciphertext (m : ℕ) where
  slots : Fin m → ℚ
  depth : ℕ
  levels : ℕ → ℕ

namespace Ciphertext

variable {m : ℕ}

instance : Inhabited (Ciphertext m) := ⟨⟨0, 0, fun _ => 0⟩⟩

def encrypt (v : Fin m → ℚ) : Ciphertext m := ⟨v, 0, fun _ => 0⟩

def evalSub (a b : Ciphertext m) : Ciphertext m :=
  ⟨a.slots - b.slots, max a.depth b.depth, fun k => max (a.levels k) (b.levels k)⟩

def evalMultConst (a : Ciphertext m) (c : ℚ) : Ciphertext m :=
  ⟨fun s => a.slots s * c, a.depth, fun k => a.levels k + k⟩

def evalAddConst (a : Ciphertext m) (c : ℚ) : Ciphertext m :=
  ⟨fun s => a.slots s + c, a.depth, a.levels⟩

def evalMult (a b : Ciphertext m) : Ciphertext m :=
  ⟨a.slots * b.slots, max a.depth b.depth + 1, fun k => max (a.levels k) (b.levels k) + 1⟩

end Ciphertext

open Ciphertext

section

variable {m n : ℕ} (evalPoly : Ciphertext m → List ℚ → Ciphertext m)

def sharp (coeffs : List ℚ) (diff : Ciphertext m) : Ciphertext m :=
  match coeffs with
  | [c₀, c₁] => (diff.evalMultConst c₁).evalAddConst c₀
  | _ => evalPoly diff coeffs

def pair (coeffs : List ℚ) (cts : Fin n → Ciphertext m) (i j : Fin n) : Ciphertext m :=
  sharp evalPoly coeffs ((cts i).evalSub (cts j))

def factors (coeffs : List ℚ) (cts : Fin n → Ciphertext m) (i : Fin n) : List (Ciphertext m) :=
  ((List.finRange n).filter fun j => i ≠ j).map (pair evalPoly coeffs cts i)

def evalArgmax (cts : Fin n → Ciphertext m) (coeffs : List ℚ) : Except ℤ (Fin n → Ciphertext m) :=
  if n < 2 then .error (-1)
  else if coeffs.length < 2 then .error (-2)
  else .ok fun i => (reduce evalMult (factors evalPoly coeffs cts i)).headD default

end

section

def batch : ℕ := 8
def maxDepth : ℕ := 3
def sharpen : List ℚ := [1 / 2, 1 / 2]
def span : ℚ := 16

def opened (ct : Ciphertext batch) : ℚ := ct.slots ⟨0, by decide⟩

def sealBid (bid : ℚ) : Ciphertext batch := encrypt fun _ => bid / span

def evaluate (evalPoly : Ciphertext batch → List ℚ → Ciphertext batch)
    (cts : List (Ciphertext batch)) : Except ℤ (List (Ciphertext batch)) :=
  if cts.length < 2 then .ok [encrypt fun _ => 1]
  else (evalArgmax evalPoly (fun i : Fin cts.length => cts.get i) sharpen).map List.ofFn

structure Offer where
  seat : ℕ
  priceCt : ℚ
  deriving DecidableEq

def openMasks (masks bids : List (Ciphertext batch)) (seats : List ℕ) : Option Offer := do
  let vals := masks.map opened
  let win := vals.idxOf (← vals.max?)
  let bid ← bids[win]?
  return { seat := seats.getD win win, priceCt := opened bid * span }

end

section

variable {m n : ℕ} {evalPoly : Ciphertext m → List ℚ → Ciphertext m}

theorem others_toFinset (i : Fin n) :
    ((List.finRange n).filter fun j => i ≠ j).toFinset = Finset.univ.erase i := by
  ext j
  simp only [mem_toFinset, mem_filter, mem_finRange, true_and, decide_eq_true_eq,
    mem_erase, mem_univ, and_true]
  exact ne_comm

theorem others_nodup (i : Fin n) : ((List.finRange n).filter fun j => i ≠ j).Nodup :=
  (nodup_finRange n).filter _

theorem length_factors (coeffs : List ℚ) (cts : Fin n → Ciphertext m) (i : Fin n) :
    (factors evalPoly coeffs cts i).length = n - 1 := by
  rw [factors, length_map, ← toFinset_card_of_nodup (others_nodup i), others_toFinset,
    card_erase_of_mem (mem_univ i), card_fin]

theorem evalArgmax_ok (two : 2 ≤ n) {coeffs : List ℚ} (line : 2 ≤ coeffs.length)
    (cts : Fin n → Ciphertext m) : evalArgmax evalPoly cts coeffs =
      .ok fun i => (reduce evalMult (factors evalPoly coeffs cts i)).headD default := by
  rw [evalArgmax, if_neg (by omega), if_neg (by omega)]

theorem reduce_factors (two : 2 ≤ n) (coeffs : List ℚ) (cts : Fin n → Ciphertext m) (i : Fin n) :
    reduce evalMult (factors evalPoly coeffs cts i) =
      [(reduce evalMult (factors evalPoly coeffs cts i)).headD default] := by
  have one : (reduce evalMult (factors evalPoly coeffs cts i)).length = 1 := by
    rw [length_reduce, length_factors]
    omega
  obtain ⟨x, eq⟩ := length_eq_one_iff.mp one
  rw [eq, headD_cons]

theorem mask_slots (two : 2 ≤ n) (coeffs : List ℚ) (cts : Fin n → Ciphertext m) (i : Fin n)
    (s : Fin m) : ((reduce evalMult (factors evalPoly coeffs cts i)).headD default).slots s =
      ∏ j ∈ Finset.univ.erase i, (pair evalPoly coeffs cts i j).slots s := by
  have product : ((reduce evalMult (factors evalPoly coeffs cts i)).map (·.slots s)).prod =
      ((factors evalPoly coeffs cts i).map (·.slots s)).prod := prod_reduce (fun _ _ => rfl) _
  rw [reduce_factors two, List.map_singleton, List.prod_singleton] at product
  rw [product, factors, List.map_map, ← others_toFinset i, List.prod_toFinset _ (others_nodup i)]
  rfl

theorem mask_spent (two : 2 ≤ n) {d : Ciphertext m → ℕ}
    (succ : ∀ a b, d (evalMult a b) = max (d a) (d b) + 1) {coeffs : List ℚ}
    {cts : Fin n → Ciphertext m} {i : Fin n} {r : ℕ}
    (leaves : ∀ j, d (pair evalPoly coeffs cts i j) = r) :
    d ((reduce evalMult (factors evalPoly coeffs cts i)).headD default) =
      r + Nat.clog 2 (n - 1) := by
  have all : ∀ ct ∈ factors evalPoly coeffs cts i, d ct = r := by
    intro ct mem
    obtain ⟨j, -, rfl⟩ := mem_map.mp mem
    exact leaves j
  have ranked : Ranked d r (factors evalPoly coeffs cts i) :=
    ⟨fun ct mem => (all ct mem).le, fun ct mem => all ct (mem_of_mem_head? mem)⟩
  have top := (ranked.reduce succ).head
  rw [reduce_factors two, length_factors] at top
  exact top _ rfl

theorem evaluate_ofFn (evalPoly : Ciphertext batch → List ℚ → Ciphertext batch) (two : 2 ≤ n)
    (cts : Fin n → Ciphertext batch) : evaluate evalPoly (List.ofFn cts) =
      .ok (List.ofFn fun i =>
        (reduce evalMult (factors evalPoly sharpen cts i)).headD default) := by
  have general : ∀ (l : List (Ciphertext batch)) (len : l.length = n),
      (∀ i : Fin n, l.get (i.cast len.symm) = cts i) → evaluate evalPoly l =
        .ok (List.ofFn fun i =>
          (reduce evalMult (factors evalPoly sharpen cts i)).headD default) := by
    intro l len same
    subst len
    have same : l.get = cts := funext same
    rw [evaluate, if_neg (by omega), evalArgmax_ok two (by decide), ← same]
    rfl
  apply general _ (length_ofFn ..)
  simp

end

section

variable {m n : ℕ} {evalPoly : Ciphertext m → List ℚ → Ciphertext m} {b : Fin n → ℚ}

def sealed (m : ℕ) (b : Fin n → ℚ) (i : Fin n) : Ciphertext m := encrypt fun _ => b i

def maskOf (evalPoly : Ciphertext m → List ℚ → Ciphertext m) (b : Fin n → ℚ) (i : Fin n) :
    Ciphertext m :=
  (reduce evalMult (factors evalPoly sharpen (sealed m b) i)).headD default

theorem pair_slots (i j : Fin n) (s : Fin m) :
    (pair evalPoly sharpen (sealed m b) i j).slots s = (1 + b i - b j) / 2 := by
  simp only [pair, sharp, sharpen, sealed, encrypt, evalSub, evalMultConst, evalAddConst,
    Pi.sub_apply]
  ring

theorem maskOf_slots (two : 2 ≤ n) (i : Fin n) (s : Fin m) :
    (maskOf evalPoly b i).slots s = ∏ j ∈ Finset.univ.erase i, (1 + b i - b j) / 2 := by
  rw [maskOf, mask_slots two]
  simp only [pair_slots]

theorem maskOf_depth (two : 2 ≤ n) (i : Fin n) :
    (maskOf (m := m) evalPoly b i).depth = Nat.clog 2 (n - 1) := by
  have spent : (maskOf evalPoly b i).depth = 0 + Nat.clog 2 (n - 1) :=
    mask_spent two (fun _ _ => rfl) fun _ => rfl
  rw [spent, zero_add]

theorem evalArgmax_sealed (two : 2 ≤ n) :
    evalArgmax evalPoly (sealed m b) sharpen = .ok (maskOf evalPoly b) :=
  evalArgmax_ok two (by decide) _

theorem maskOf_levels (two : 2 ≤ n) (cost : ℕ) (i : Fin n) :
    (maskOf (m := m) evalPoly b i).levels cost = cost + Nat.clog 2 (n - 1) := by
  apply mask_spent two (d := fun ct => ct.levels cost) fun _ _ => rfl
  intro j
  exact Nat.zero_add cost

/-- The depth of the page's parameters is enough for five bids and for no more, where a product with
a constant costs a level as one of ciphertexts does. -/
theorem masks_fit_iff (two : 2 ≤ n) (b : Fin n → ℚ)
    (evalPoly : Ciphertext m → List ℚ → Ciphertext m) {cost : ℕ} (constant_product : cost = 1) :
    ∃ masks : Fin n → Ciphertext m, evalArgmax evalPoly (sealed m b) sharpen = .ok masks ∧
      (∀ i, masks i = maskOf evalPoly b i ∧ (masks i).levels cost = 1 + Nat.clog 2 (n - 1)) ∧
      ((∀ i, (masks i).levels cost ≤ maxDepth) ↔ n ≤ 5) := by
  subst constant_product
  refine ⟨maskOf evalPoly b, evalArgmax_sealed two, fun i => ⟨rfl, maskOf_levels two 1 i⟩, ?_⟩
  have four : Nat.clog 2 (n - 1) ≤ 2 ↔ n - 1 ≤ 2 ^ 2 := Nat.clog_le_iff_le_pow (by decide)
  simp only [maskOf_levels two, maxDepth]
  constructor
  · intro fits
    have fits := fits ⟨0, by omega⟩
    omega
  · intro few i
    omega

theorem masks_fit_five : ∃ masks : Fin 5 → Ciphertext batch,
    evalArgmax (fun ct _ => ct) (sealed batch fun _ => 0) sharpen = .ok masks ∧
      ∀ i, (masks i).levels 1 ≤ maxDepth := by
  obtain ⟨masks, ok, -, fits⟩ := masks_fit_iff (by decide) (fun _ : Fin 5 => 0)
    (fun (ct : Ciphertext batch) _ => ct) rfl
  exact ⟨masks, ok, fits.mpr le_rfl⟩

theorem mask_lt (range : ∀ i, 0 ≤ b i ∧ b i < 1) {i k : Fin n} (lt : b k < b i) :
    ∏ j ∈ Finset.univ.erase k, (1 + b k - b j) / 2 <
      ∏ j ∈ Finset.univ.erase i, (1 + b i - b j) / 2 := by
  have ne : i ≠ k := by
    rintro rfl
    exact lt.false
  have pos : ∀ u v, 0 < (1 + b u - b v) / 2 := by
    intro u v
    have lower := (range u).1
    have upper := (range v).2
    linarith
  have split_k := mul_prod_erase (Finset.univ.erase k) (fun j => (1 + b k - b j) / 2)
    (mem_erase.mpr ⟨ne, mem_univ i⟩)
  have split_i := mul_prod_erase (Finset.univ.erase i) (fun j => (1 + b i - b j) / 2)
    (mem_erase.mpr ⟨ne.symm, mem_univ k⟩)
  rw [← split_k, ← split_i, erase_right_comm]
  apply mul_lt_mul
  · linarith
  · apply prod_le_prod
    · intro j _
      exact (pos k j).le
    · intro j _
      linarith
  · exact prod_pos fun j _ => pos k j
  · exact (pos i k).le

end

section

variable {n : ℕ} {b : Fin n → ℚ}

theorem idxOf_max {v : Fin n → ℚ} {top : ℚ} (largest : (List.ofFn v).max? = some top) :
    ∃ win : Fin n, (win : ℕ) = (List.ofFn v).idxOf top ∧ ∀ k, v k ≤ v win := by
  obtain ⟨mem, le⟩ := List.max?_eq_some_iff.mp largest
  have lt := idxOf_lt_length_of_mem mem
  rw [length_ofFn] at lt
  refine ⟨⟨_, lt⟩, rfl, ?_⟩
  have found : v ⟨_, lt⟩ = top := by
    have value := getElem_idxOf (idxOf_lt_length_of_mem mem)
    rwa [List.getElem_ofFn] at value
  intro k
  rw [found]
  exact le (v k) (mem_ofFn.mpr ⟨k, rfl⟩)

theorem openMasks_highest (evalPoly : Ciphertext batch → List ℚ → Ciphertext batch) (two : 2 ≤ n)
    (range : ∀ i, 0 ≤ b i ∧ b i < 1) (seats : List ℕ) :
    ∃ win : Fin n, (∀ k, b k ≤ b win) ∧
      openMasks (List.ofFn (maskOf evalPoly b)) (List.ofFn (sealed batch b)) seats =
        some ⟨seats.getD win win, b win * span⟩ := by
  have vals : (List.ofFn (maskOf evalPoly b)).map opened =
      List.ofFn fun i => opened (maskOf evalPoly b i) := by
    rw [map_ofFn]
    rfl
  have value : ∀ i, opened (maskOf evalPoly b i) =
      ∏ j ∈ Finset.univ.erase i, (1 + b i - b j) / 2 := fun i => maskOf_slots two i _
  cases largest : (List.ofFn fun i => opened (maskOf evalPoly b i)).max? with
  | none =>
    rw [List.max?_eq_none_iff, ofFn_eq_nil_iff] at largest
    omega
  | some top =>
    obtain ⟨win, index, highest⟩ := idxOf_max largest
    refine ⟨win, ?_, ?_⟩
    · intro k
      by_contra higher
      have above := mask_lt range (not_le.mp higher)
      rw [← value, ← value] at above
      exact above.not_ge (highest k)
    · simp only [openMasks, vals, largest, ← index, Option.bind_eq_bind, Option.bind_some,
        List.getElem?_ofFn, win.isLt]
      rfl

/-- Blind argmax picks a highest bidder: the masks are the products of the soft comparisons, they
order the bidders as their bids do, the seller opens a highest bid at its index, and each mask takes
as many rounds of products as the binary logarithm of the others, rounded up. -/
theorem argmax_picks_highest {n : ℕ} {b : Fin n → ℚ} (two : 2 ≤ n) (range : ∀ i, 0 ≤ b i ∧ b i < 1)
    (evalPoly : Ciphertext batch → List ℚ → Ciphertext batch) (seats : List ℕ) :
    ∃ masks : Fin n → Ciphertext batch,
      evalArgmax evalPoly (fun i => encrypt fun _ => b i) sharpen = .ok masks ∧
      (∀ i s, (masks i).slots s = ∏ j ∈ Finset.univ.erase i, (1 + b i - b j) / 2) ∧
      (∀ i k s, b k < b i → (masks k).slots s < (masks i).slots s) ∧
      (∃ win : Fin n, (∀ k, b k ≤ b win) ∧
        openMasks (List.ofFn masks) (List.ofFn fun i => encrypt fun _ => b i) seats =
          some ⟨seats.getD win win, b win * span⟩) ∧ ∀ i, (masks i).depth = Nat.clog 2 (n - 1) := by
  refine ⟨maskOf evalPoly b, evalArgmax_sealed two, maskOf_slots two, ?_,
    openMasks_highest evalPoly two range seats, maskOf_depth two⟩
  intro i k s lt
  rw [maskOf_slots two, maskOf_slots two]
  exact mask_lt range lt

theorem argmax_picks_highest_three :
    ∃ masks : Fin 3 → Ciphertext batch,
      evalArgmax (fun ct _ => ct) (fun i => encrypt fun _ => ![1 / 4, 1 / 2, 1 / 2] i) sharpen =
        .ok masks ∧
      (∃ win : Fin 3, (∀ k, (![1 / 4, 1 / 2, 1 / 2] : Fin 3 → ℚ) k ≤ ![1 / 4, 1 / 2, 1 / 2] win) ∧
        openMasks (List.ofFn masks)
          (List.ofFn fun i => encrypt fun _ => ![1 / 4, 1 / 2, 1 / 2] i) [0, 2, 3] =
          some ⟨[0, 2, 3].getD win win, ![1 / 4, 1 / 2, 1 / 2] win * span⟩) ∧
      ∀ i, (masks i).depth = 1 := by
  have range : ∀ i : Fin 3, 0 ≤ (![1 / 4, 1 / 2, 1 / 2] : Fin 3 → ℚ) i ∧
      (![1 / 4, 1 / 2, 1 / 2] : Fin 3 → ℚ) i < 1 := by
    decide +kernel
  obtain ⟨masks, ok, -, -, opens, depth⟩ :=
    argmax_picks_highest (by decide) range (fun ct _ => ct) [0, 2, 3]
  exact ⟨masks, ok, opens, fun i => (depth i).trans (by decide +kernel)⟩

end

section

def toFixed2 (x : ℚ) : ℚ := (⌊x * 100 + 1 / 2⌋ : ℚ) / 100

inductive BidKey where
  | down
  | up
  deriving DecidableEq

def press (bid : ℚ) : BidKey → ℚ
  | .down => max (1 / 4) (toFixed2 (bid - 1 / 4))
  | .up => min (63 / 4) (toFixed2 (bid + 1 / 4))

def bidAfter (keys : List BidKey) : ℚ := keys.foldl press 8

theorem toFixed2_quarter (q : ℤ) : toFixed2 (q / 4) = q / 4 := by
  have cents : ⌊(q : ℚ) / 4 * 100 + 1 / 2⌋ = 25 * q := by
    rw [Int.floor_eq_iff]
    push_cast
    constructor <;> linarith
  rw [toFixed2, cents]
  push_cast
  ring

def Quarters (bid : ℚ) : Prop := ∃ q : ℤ, bid = q / 4 ∧ 1 ≤ q ∧ q ≤ 63

theorem press_quarters {bid : ℚ} (quarters : Quarters bid) (key : BidKey) :
    Quarters (press bid key) := by
  obtain ⟨q, rfl, lower, upper⟩ := quarters
  cases key with
  | down =>
    have less : (q : ℚ) / 4 - 1 / 4 = ((q - 1 : ℤ) : ℚ) / 4 := by
      push_cast
      ring
    refine ⟨max 1 (q - 1), ?_, by omega, by omega⟩
    rw [press, less, toFixed2_quarter, Int.cast_max, max_div_div_right (by norm_num)]
    norm_num
  | up =>
    have more : (q : ℚ) / 4 + 1 / 4 = ((q + 1 : ℤ) : ℚ) / 4 := by
      push_cast
      ring
    refine ⟨min 63 (q + 1), ?_, by omega, by omega⟩
    rw [press, more, toFixed2_quarter, Int.cast_min, min_div_div_right (by norm_num)]
    norm_num

theorem bidAfter_quarters (keys : List BidKey) : Quarters (bidAfter keys) := by
  have run : ∀ (keys : List BidKey) (bid : ℚ), Quarters bid → Quarters (keys.foldl press bid) := by
    intro keys
    induction keys with
    | nil =>
      intro bid quarters
      exact quarters
    | cons key keys ih =>
      intro bid quarters
      exact ih _ (press_quarters quarters key)
  exact run keys 8 ⟨32, by norm_num, by decide, by decide⟩

theorem sealed_range (keys : List BidKey) :
    0 ≤ bidAfter keys / span ∧ bidAfter keys / span < 1 := by
  obtain ⟨q, eq, lower, upper⟩ := bidAfter_quarters keys
  have low : (1 : ℚ) ≤ q := by exact_mod_cast lower
  have high : (q : ℚ) ≤ 63 := by exact_mod_cast upper
  rw [eq, span]
  constructor
  · linarith
  · linarith

/-- A round of the page: whatever keys the buyers pressed before they sealed, and however many they
are, the evaluator's masks let the seller open a highest bid in full. -/
theorem round_opens_highest {keys : List (List BidKey)} (bidders : keys ≠ [])
    (evalPoly : Ciphertext batch → List ℚ → Ciphertext batch) (seats : List ℕ) :
    ∃ masks, evaluate evalPoly (keys.map fun ks => sealBid (bidAfter ks)) = .ok masks ∧
      ∃ win ks, keys[win]? = some ks ∧ (∀ ks' ∈ keys, bidAfter ks' ≤ bidAfter ks) ∧
        openMasks masks (keys.map fun ks => sealBid (bidAfter ks)) seats =
          some ⟨seats.getD win win, bidAfter ks⟩ := by
  have span_pos : (0 : ℚ) < span := by norm_num [span]
  rcases lt_or_ge keys.length 2 with few | two
  · obtain ⟨ks, rfl⟩ : ∃ ks, keys = [ks] := by
      rw [← length_eq_one_iff]
      have pos := length_pos_iff.mpr bidders
      omega
    refine ⟨_, rfl, 0, ks, rfl, by simp, ?_⟩
    have back : bidAfter ks / span * span = bidAfter ks := div_mul_cancel₀ _ span_pos.ne'
    simp [openMasks, sealBid, opened, encrypt, back]
  · obtain ⟨n, v, rfl⟩ : ∃ n, ∃ v : Fin n → List BidKey, keys = List.ofFn v :=
      ⟨keys.length, keys.get, (ofFn_get keys).symm⟩
    rw [length_ofFn] at two
    obtain ⟨win, highest, opens⟩ := openMasks_highest evalPoly two
      (fun i => sealed_range (v i)) seats
    rw [map_ofFn]
    refine ⟨_, evaluate_ofFn evalPoly two _, win, v win, ?_, ?_, ?_⟩
    · rw [List.getElem?_ofFn, dif_pos win.isLt]
    · intro ks' mem
      obtain ⟨k, rfl⟩ := mem_ofFn.mp mem
      exact (div_le_div_iff_of_pos_right span_pos).mp (highest k)
    · rw [div_mul_cancel₀ _ span_pos.ne'] at opens
      exact opens

theorem round_opens_two : ∃ masks o,
    evaluate (fun ct _ => ct) ([[.up], []].map fun ks => sealBid (bidAfter ks)) = .ok masks ∧
      openMasks masks ([[.up], []].map fun ks => sealBid (bidAfter ks)) [0, 2] = some o := by
  obtain ⟨masks, ok, win, ks, -, -, opens⟩ :=
    round_opens_highest (List.cons_ne_nil [.up] [[]]) (fun ct _ => ct) [0, 2]
  exact ⟨masks, _, ok, opens⟩

end

end BlindArgmax
