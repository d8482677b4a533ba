import Ares.ByteStrings

/-! `SlotPermutation` shuffles the slots with numbers drawn from a stream of bytes. -/
namespace SlotPermutations

open Finset

export ByteStrings (Bytes)

variable (bytes : ℕ → UInt8)

def word (pos : ℕ) : ℕ :=
  (bytes pos).toNat <<< 24 ||| (bytes (pos + 1)).toNat <<< 16 |||
    (bytes (pos + 2)).toNat <<< 8 ||| (bytes (pos + 3)).toNat

def uint32 (m : ℕ) : ℕ := m % 2 ^ 32

def limit (m : ℕ) : ℕ := (2 ^ 32 - 1) / uint32 m * uint32 m

def intn (m : ℕ) : ℕ → ℕ → Option (ℕ × ℕ)
  | 0, _ => none
  | fuel + 1, pos =>
    if m ≤ 1 then some (0, pos)
    else if word bytes pos < limit m then some (word bytes pos % uint32 m, pos + 4)
    else intn m fuel (pos + 4)

/-- An index outside the slice would be a panic in the source, here it is `none`. -/
def shuffle (fuel : ℕ) : ℕ → Array ℕ → ℕ → Option (Array ℕ)
  | 0, perm, _ => some perm
  | i + 1, perm, pos => do
    let (j, pos) ← intn bytes (i + 2) fuel pos
    if h : i + 1 < perm.size ∧ j < perm.size then shuffle fuel i (perm.swap (i + 1) j h.1 h.2) pos
    else none

def slotPermutation (n fuel : ℕ) : Option (Array ℕ) := shuffle bytes fuel (n - 1) (.range n) 0

structure Participant (K : Type) where
  slotIndex : ℕ
  slotPub : Bytes
  slotPriv : Bytes
  sigSigner : K

def newParticipant {K : Type} (slotKey : Except String (Bytes × Bytes)) (signer : Except String K)
    (perm : Array ℕ) (selfIndex : ℕ) : Except String (Option (Participant K)) :=
  match slotKey, signer with
  | .error e, _ => .error ("anon: slot keygen: " ++ e)
  | .ok _, .error e => .error ("anon: ephemeral signer: " ++ e)
  | .ok (priv, pub), .ok sig => .ok (perm[selfIndex]?.map fun slot => ⟨slot, pub, priv, sig⟩)

def LoopsEnd (n : ℕ) : Prop :=
  ∀ m, 2 ≤ m → m ≤ n → ∀ pos, ∃ t, word bytes (pos + 4 * t) < limit m

variable {bytes} {m n fuel pos : ℕ}

theorem intn_lt {r pos' : ℕ} (small : m ≤ 2 ^ 31) (drawn : intn bytes m fuel pos = some (r, pos'))
    (pos_m : 0 < m) : r < m := by
  have fits : uint32 m = m := Nat.mod_eq_of_lt (by omega)
  induction fuel generalizing pos with
  | zero => cases drawn
  | succ fuel ih =>
    rw [intn] at drawn
    split_ifs at drawn
    · cases drawn
      exact pos_m
    · cases drawn
      rw [fits]
      exact Nat.mod_lt _ pos_m
    · exact ih drawn

theorem intn_mono {fuel' : ℕ} (le : fuel ≤ fuel') {x : ℕ × ℕ}
    (drawn : intn bytes m fuel pos = some x) : intn bytes m fuel' pos = some x := by
  induction fuel generalizing fuel' pos with
  | zero => cases drawn
  | succ fuel ih =>
    obtain ⟨fuel', rfl⟩ := Nat.exists_eq_add_of_le' (show 1 ≤ fuel' by omega)
    rw [intn] at drawn ⊢
    split_ifs at drawn ⊢
    · exact drawn
    · exact drawn
    · exact ih (by omega) drawn

theorem shuffle_mono {fuel' : ℕ} (le : fuel ≤ fuel') {i : ℕ} {perm out : Array ℕ}
    (done : shuffle bytes fuel i perm pos = some out) :
    shuffle bytes fuel' i perm pos = some out := by
  induction i generalizing perm pos with
  | zero => exact done
  | succ i ih =>
    obtain ⟨⟨j, pos'⟩, drawn, rest⟩ := Option.bind_eq_some_iff.mp done
    refine Option.bind_eq_some_iff.mpr ⟨(j, pos'), intn_mono le drawn, ?_⟩
    dsimp only at rest ⊢
    split_ifs at rest ⊢
    exact ih rest

theorem exists_intn {t : ℕ} (ends : word bytes (pos + 4 * t) < limit m) :
    ∃ fuel x, intn bytes m fuel pos = some x := by
  induction t generalizing pos with
  | zero =>
    by_cases one : m ≤ 1
    · exact ⟨1, _, by rw [intn, if_pos one]⟩
    · exact ⟨1, _, by rw [intn, if_neg one, if_pos (by simpa using ends)]⟩
  | succ t ih =>
    by_cases now : m ≤ 1 ∨ word bytes pos < limit m
    · refine ⟨1, ?_⟩
      rw [intn]
      split_ifs <;> simp_all
    · rw [not_or] at now
      have later : word bytes (pos + 4 + 4 * t) < limit m := by
        convert ends using 2
        ring
      obtain ⟨fuel, x, drawn⟩ := ih later
      exact ⟨fuel + 1, x, by rw [intn, if_neg now.1, if_neg now.2, drawn]⟩

theorem exists_shuffle {i : ℕ} (ends : LoopsEnd bytes n) (small : n ≤ 2 ^ 31) (le : i + 1 ≤ n)
    {perm : Array ℕ} (size : perm.size = n) (pos : ℕ) :
    ∃ fuel out, shuffle bytes fuel i perm pos = some out ∧ out.Perm perm := by
  induction i generalizing perm pos with
  | zero => exact ⟨0, perm, rfl, .refl _⟩
  | succ i ih =>
    obtain ⟨t, ends'⟩ := ends (i + 2) (by omega) le pos
    obtain ⟨fuel, ⟨j, pos'⟩, drawn⟩ := exists_intn ends'
    have below := intn_lt (by omega) drawn (by omega)
    have inside : i + 1 < perm.size ∧ j < perm.size := by omega
    have size' : (perm.swap (i + 1) j inside.1 inside.2).size = n := by simpa using size
    obtain ⟨fuel', out, rest, same⟩ := ih (by omega) size' pos'
    refine ⟨max fuel fuel', out, ?_, same.trans (Array.swap_perm ..)⟩
    refine Option.bind_eq_some_iff.mpr ⟨_, intn_mono (le_max_left ..) drawn, ?_⟩
    dsimp only
    rw [dif_pos inside]
    exact shuffle_mono (le_max_right ..) rest

/-- Every 32-bit number is the next word of some stream. -/
theorem exists_word {v : ℕ} (lt : v < 2 ^ 32) : ∃ bytes, word bytes 0 = v := by
  refine ⟨fun k => .ofNat (v >>> (24 - 8 * k)), ?_⟩
  simp only [word, UInt8.toNat_ofNat', Nat.shiftRight_eq_div_pow]
  have join : ∀ a b i, b < 2 ^ i → a <<< i ||| b = a * 2 ^ i + b := fun a b i small => by
    rw [← Nat.shiftLeft_add_eq_or_of_lt small, Nat.shiftLeft_eq]
  rw [Nat.or_assoc, Nat.or_assoc, join _ _ 8 (by omega), join _ _ 16 (by omega),
    join _ _ 24 (by omega)]
  omega

/-- What `intn` makes of one word: it is taken if it lies below the limit and skipped if not. -/
theorem intn_word (two : 2 ≤ m) (small : m ≤ 2 ^ 31) (bytes : ℕ → UInt8) (fuel pos : ℕ) :
    intn bytes m (fuel + 1) pos =
      if word bytes pos < limit m then some (word bytes pos % m, pos + 4)
      else intn bytes m fuel (pos + 4) := by
  have fits : uint32 m = m := Nat.mod_eq_of_lt (by omega)
  rw [intn, if_neg (by omega), fits]

/-- The 32-bit words for which `intn m`, when it meets them, returns `r`. -/
def drawing (m r : ℕ) : Set ℕ :=
  {v | v < 2 ^ 32 ∧ ∀ bytes fuel pos, word bytes pos = v →
    intn bytes m (fuel + 1) pos = some (r, pos + 4)}

theorem drawing_eq (two : 2 ≤ m) (small : m ≤ 2 ^ 31) (r : ℕ) :
    drawing m r = {v | v < 2 ^ 32 ∧ v < limit m ∧ v % m = r} := by
  ext v
  constructor
  · rintro ⟨lt, draws⟩
    obtain ⟨bytes, rfl⟩ := exists_word lt
    have drawn := draws bytes 0 0 rfl
    rw [intn_word two small] at drawn
    split_ifs at drawn with under
    · cases drawn
      exact ⟨lt, under, rfl⟩
    · cases drawn
  · rintro ⟨lt, under, rfl⟩
    refine ⟨lt, ?_⟩
    rintro bytes fuel pos rfl
    rw [intn_word two small, if_pos under]

theorem ncard_drawing (two : 2 ≤ m) (small : m ≤ 2 ^ 31) {r : ℕ} (lt : r < m) :
    (drawing m r).ncard = limit m / m := by
  have fits : uint32 m = m := Nat.mod_eq_of_lt (by omega)
  have below : limit m < 2 ^ 32 := by
    have := Nat.div_mul_le_self (2 ^ 32 - 1) (uint32 m)
    rw [limit]
    omega
  have multiple : limit m = limit m / m * m := by
    rw [limit, fits, Nat.mul_div_cancel _ (by omega)]
  have image : drawing m r = ((Finset.range (limit m / m)).image fun k => k * m + r :
      Finset ℕ) := by
    rw [drawing_eq two small]
    ext v
    simp only [Set.mem_ofPred_eq, coe_image, coe_range, Set.mem_image, Set.mem_Iio]
    constructor
    · rintro ⟨-, under, rfl⟩
      exact ⟨v / m, Nat.div_lt_of_lt_mul (by rwa [mul_comm, ← multiple]), Nat.div_add_mod' v m⟩
    · rintro ⟨k, hk, rfl⟩
      have under : k * m + r < limit m := by
        nlinarith
      exact ⟨under.trans below, under, by rw [Nat.mul_add_mod', Nat.mod_eq_of_lt lt]⟩
  rw [image, Set.ncard_coe_finset, card_image_of_injective, card_range]
  intro k k' same
  exact Nat.eq_of_mul_eq_mul_right (by omega) (Nat.add_right_cancel same)

theorem slotIndex_of_newParticipant {K : Type} {slotKey : Except String (Bytes × Bytes)}
    {signer : Except String K} {perm : Array ℕ} {i : ℕ} {p : Participant K}
    (made : newParticipant slotKey signer perm i = .ok (some p)) : perm[i]? = some p.slotIndex := by
  unfold newParticipant at made
  split at made
  · cases made
  · cases made
  · obtain ⟨slot, there, rfl⟩ := Option.map_eq_some_iff.mp (Except.ok.inj made)
    exact there

/-- The slots are permuted, so participants have slots of their own. Every number `intn` returns has
the same count of words that draw it, and it skips the words that draw none. -/
theorem slots_permuted {K : Type} (bytes : ℕ → UInt8) {n : ℕ} (small : n ≤ 2 ^ 31)
    (ends : LoopsEnd bytes n) :
    (∃ fuel perm, slotPermutation bytes n fuel = some perm ∧ perm.toList.Perm (List.range n)) ∧
    (∀ fuel perm, slotPermutation bytes n fuel = some perm →
      (∀ fuel' perm', slotPermutation bytes n fuel' = some perm' → perm' = perm) ∧
      ∀ (slotKey slotKey' : Except String (Bytes × Bytes)) (signer signer' : Except String K)
        (i j : ℕ) (p q : Participant K), i ≠ j →
        newParticipant slotKey signer perm i = .ok (some p) →
        newParticipant slotKey' signer' perm j = .ok (some q) → p.slotIndex ≠ q.slotIndex) ∧
    ∀ m, 1 ≤ m → m ≤ n → (∀ fuel pos r pos', intn bytes m fuel pos = some (r, pos') → r < m) ∧
      (2 ≤ m → (∀ r < m, (drawing m r).ncard = limit m / m) ∧
        ∀ fuel pos, limit m ≤ word bytes pos →
          intn bytes m (fuel + 1) pos = intn bytes m fuel (pos + 4)) := by
  have total : ∃ fuel perm, slotPermutation bytes n fuel = some perm ∧
      perm.toList.Perm (List.range n) := by
    rcases Nat.eq_zero_or_pos n with rfl | some
    · exact ⟨0, #[], rfl, .refl _⟩
    · obtain ⟨fuel, perm, done, same⟩ := exists_shuffle ends small (by omega : n - 1 + 1 ≤ n)
        (Array.size_range) 0
      exact ⟨fuel, perm, done, by simpa using same.toList⟩
  have unique : ∀ {fuel fuel' : ℕ} {perm perm' : Array ℕ},
      slotPermutation bytes n fuel = some perm →
      slotPermutation bytes n fuel' = some perm' → perm' = perm := by
    intro fuel fuel' perm perm' done done'
    have more := shuffle_mono (le_max_left fuel fuel') done
    rw [shuffle_mono (le_max_right fuel fuel') done'] at more
    exact Option.some.inj more
  refine ⟨total, fun fuel perm done => ⟨fun fuel' perm' => unique done, ?_⟩, fun m one le => ?_⟩
  · intro slotKey slotKey' signer signer' i j p q other made made' eq
    obtain ⟨fuel', perm', done', perms⟩ := total
    obtain rfl := unique done done'
    have nodup := perms.nodup_iff.mpr List.nodup_range
    have at_i := slotIndex_of_newParticipant made
    have at_j := slotIndex_of_newParticipant made'
    rw [← eq, ← at_i, ← Array.getElem?_toList, ← Array.getElem?_toList] at at_j
    have bound : i < perm'.toList.length := by
      by_contra outside
      rw [← Array.getElem?_toList, List.getElem?_eq_none (not_lt.mp outside)] at at_i
      cases at_i
    exact other ((List.getElem?_inj bound nodup).mp at_j.symm)
  · refine ⟨fun fuel pos r pos' drawn => intn_lt (by omega) drawn one, fun two => ⟨?_, ?_⟩⟩
    · intro r lt
      exact ncard_drawing two (by omega) lt
    · intro fuel pos rejected
      rw [intn_word two (by omega), if_neg (not_lt.mpr rejected)]

theorem slots_permuted_zeros : ∃ perm, slotPermutation (fun _ => 0) 3 1 = some perm ∧
    perm.toList.Perm (List.range 3) := by
  have ends : LoopsEnd (fun _ => 0) 3 := by
    intro m two le pos
    refine ⟨0, ?_⟩
    have zero : word (fun _ => 0) (pos + 4 * 0) = 0 := by simp [word]
    rw [zero]
    interval_cases m <;> decide
  obtain ⟨⟨fuel, perm, done, perms⟩, unique, -⟩ :=
    slots_permuted (K := Unit) (fun _ => 0) (by decide) ends
  have here : slotPermutation (fun _ => 0) 3 1 = some #[1, 2, 0] := by decide
  exact ⟨_, here, (unique fuel perm done).1 1 _ here ▸ perms⟩

end SlotPermutations
