import Mathlib

/-! Sorting byte strings has one result, whatever order the list came in. Digits written by `%02x`
are read back as the bytes they stand for. -/
namespace ByteStrings

open List

abbrev Bytes := List UInt8

def sortBytes (l : List (List UInt8)) : List (List UInt8) :=
  l.mergeSort fun a b => decide (a ≤ b)

theorem sortBytes_perm (l : List (List UInt8)) : (sortBytes l).Perm l := mergeSort_perm ..

theorem pairwise_sortOn {α : Type} (key : α → List UInt8) (l : List α) :
    (l.mergeSort fun a b => decide (key a ≤ key b)).Pairwise fun a b => key a ≤ key b := by
  refine (pairwise_mergeSort ?_ ?_ l).imp of_decide_eq_true
  · intro a b c hab hbc
    exact decide_eq_true (List.le_trans (of_decide_eq_true hab) (of_decide_eq_true hbc))
  · intro a b
    rw [Bool.or_eq_true, decide_eq_true_iff, decide_eq_true_iff]
    exact List.le_total (key a) (key b)

theorem sortBytes_pairwise (l : List (List UInt8)) : (sortBytes l).Pairwise fun a b => a ≤ b :=
  pairwise_sortOn id l

theorem eq_sortBytes {l l' : List (List UInt8)} (perm : l'.Perm l)
    (sorted : l'.Pairwise fun a b => a ≤ b) : l' = sortBytes l :=
  List.Perm.eq_of_pairwise (fun _ _ _ _ hab hba => List.le_antisymm hab hba) sorted
    (sortBytes_pairwise l) (perm.trans (sortBytes_perm l).symm)

theorem sortBytes_congr {l l' : List (List UInt8)} (perm : l.Perm l') :
    sortBytes l = sortBytes l' :=
  eq_sortBytes ((sortBytes_perm l).trans perm) (sortBytes_pairwise l)

theorem not_mem_of_mem_splitOn {sep : UInt8} (l : List UInt8) :
    ∀ part ∈ l.splitOn sep, sep ∉ part := by
  induction l with
  | nil => simp
  | cons b l ih =>
    obtain ⟨first, others, split⟩ := exists_cons_of_ne_nil (splitOn_ne_nil sep l)
    rw [split, forall_mem_cons] at ih
    rw [splitOn_cons_eq_if_modifyHead, split]
    split_ifs with here
    · simpa using ih
    · refine forall_mem_cons.mpr ⟨?_, ih.2⟩
      rw [mem_cons, not_or]
      exact ⟨fun eq => here (beq_iff_eq.mpr eq.symm), ih.1⟩

def before : List UInt8 → List UInt8 → Bool
  | a :: as, b :: bs => decide (a < b) || (decide (a = b) && before as bs)
  | _, _ => false

theorem append_le_of_before {p q : List UInt8} (h : before p q = true) (x y : List UInt8) :
    p ++ x ≤ q ++ y := by
  induction p generalizing q with
  | nil => cases h
  | cons a p ih =>
    cases q with
    | nil => cases h
    | cons b q =>
      rw [before, Bool.or_eq_true, Bool.and_eq_true, decide_eq_true_iff, decide_eq_true_iff] at h
      rw [cons_append, cons_append, cons_le_cons_iff]
      rcases h with less | ⟨same, rest⟩
      · exact Or.inl less
      · exact Or.inr ⟨same, ih rest⟩

def digitVal (c : Char) : Option ℕ :=
  if '0' ≤ c ∧ c ≤ '9' then some (c.toNat - 48)
  else if 'a' ≤ c ∧ c ≤ 'f' then some (c.toNat - 87)
  else if 'A' ≤ c ∧ c ≤ 'F' then some (c.toNat - 55)
  else none

def hexPair (b : UInt8) : List Char := [Nat.digitChar (b.toNat / 16), Nat.digitChar (b.toNat % 16)]

def hexDigits (bs : List UInt8) : List Char := bs.flatMap hexPair

theorem digitVal_digitChar {v : ℕ} (h : v < 16) : digitVal (Nat.digitChar v) = some v := by
  revert v
  decide

theorem half_lt (b : UInt8) : b.toNat / 16 < 16 := by
  have := b.toNat_lt
  omega

theorem rest_lt (b : UInt8) : b.toNat % 16 < 16 := Nat.mod_lt _ (by decide)

theorem read_hexDigits {read : List Char → Option (List UInt8)} (nil : read [] = some [])
    (pair : ∀ hi lo rest, hi < 16 → lo < 16 → read (Nat.digitChar hi :: Nat.digitChar lo :: rest) =
        (read rest).map (UInt8.ofNat (16 * hi + lo) :: ·)) (bs : List UInt8) :
    read (hexDigits bs) = some bs := by
  induction bs with
  | nil => exact nil
  | cons b bs ih =>
    have step := pair _ _ (hexDigits bs) (half_lt b) (rest_lt b)
    rw [ih, Nat.div_add_mod, UInt8.ofNat_toNat] at step
    exact step

theorem append_nul_inj {a b x y : List UInt8} (ha : 0 ∉ a) (hb : 0 ∉ b)
    (h : a ++ 0 :: x = b ++ 0 :: y) : a = b ∧ x = y := by
  induction a generalizing b with
  | nil =>
    cases b with
    | nil => simpa using h
    | cons c b =>
      simp only [nil_append, cons_append, List.cons.injEq] at h
      exact absurd (h.1 ▸ mem_cons_self ..) hb
  | cons c a ih =>
    cases b with
    | nil =>
      simp only [nil_append, cons_append, List.cons.injEq] at h
      exact absurd (h.1 ▸ mem_cons_self ..) ha
    | cons d b =>
      simp only [cons_append, List.cons.injEq] at h
      obtain ⟨rest, tail⟩ := ih (not_mem_of_not_mem_cons ha)
        (not_mem_of_not_mem_cons hb) h.2
      exact ⟨by rw [h.1, rest], tail⟩

def decimal : ℤ → List UInt8
  | .ofNat n => (Nat.toDigits 10 n).map fun c => .ofNat c.toNat
  | .negSucc n => 45 :: (Nat.toDigits 10 (n + 1)).map fun c => .ofNat c.toNat

theorem digit_bounds {n : ℕ} {c : Char} (h : c ∈ Nat.toDigits 10 n) :
    48 ≤ c.toNat ∧ c.toNat ≤ 57 := by
  have digit := Nat.isDigit_of_mem_toDigits (by decide) (by decide) h
  simp only [Char.isDigit, Bool.and_eq_true, decide_eq_true_eq] at digit
  exact digit

theorem toNat_digit {n : ℕ} {c : Char} (h : c ∈ Nat.toDigits 10 n) :
    (UInt8.ofNat c.toNat).toNat = c.toNat := by
  have bounds := digit_bounds h
  rw [UInt8.toNat_ofNat']
  omega

theorem digitBytes_injective {n m : ℕ}
    (h : (Nat.toDigits 10 n).map (fun c => UInt8.ofNat c.toNat) =
      (Nat.toDigits 10 m).map fun c => .ofNat c.toNat) : n = m := by
  have back : ∀ k, ((Nat.toDigits 10 k).map fun c => UInt8.ofNat c.toNat).map
      (fun b => Char.ofNat b.toNat) = Nat.toDigits 10 k := by
    intro k
    rw [map_map]
    conv_rhs => rw [← map_id (Nat.toDigits 10 k)]
    refine map_congr_left fun c hc => ?_
    rw [Function.comp_apply, toNat_digit hc, Char.ofNat_toNat, id]
  have digits : Nat.toDigits 10 n = Nat.toDigits 10 m := by rw [← back, h, back]
  have values := congrArg (fun d => Nat.ofDigitChars 10 d 0) digits
  simpa using values

theorem sign_notMem_digits {n : ℕ} {l : List UInt8} :
    (Nat.toDigits 10 n).map (fun c => UInt8.ofNat c.toNat) ≠ 45 :: l := by
  intro h
  have sign := h ▸ mem_cons_self ..
  obtain ⟨c, hc, minus⟩ := mem_map.mp sign
  have value := toNat_digit hc
  have bounds := digit_bounds hc
  rw [minus] at value
  simp at value
  omega

theorem decimal_injective : Function.Injective decimal := by
  intro a b h
  cases a with
  | ofNat n =>
    cases b with
    | ofNat m => exact congrArg _ (digitBytes_injective h)
    | negSucc m => exact absurd h sign_notMem_digits
  | negSucc n =>
    cases b with
    | ofNat m => exact absurd h.symm sign_notMem_digits
    | negSucc m =>
      simp only [decimal, List.cons.injEq, true_and] at h
      exact congrArg _ (Nat.succ_injective (digitBytes_injective h))

theorem zero_notMem_decimal (n : ℤ) : 0 ∉ decimal n := by
  have digits : ∀ k : ℕ, 0 ∉ (Nat.toDigits 10 k).map fun c => UInt8.ofNat c.toNat := by
    intro k h
    obtain ⟨c, hc, zero⟩ := mem_map.mp h
    have value := toNat_digit hc
    rw [zero] at value
    have := digit_bounds hc
    simp at value
    omega
  cases n with
  | ofNat k => exact digits k
  | negSucc k =>
    simp only [decimal, mem_cons, not_or]
    exact ⟨by decide, digits (k + 1)⟩

def hexBytes (bs : List UInt8) : List UInt8 := (hexDigits bs).map fun c => .ofNat c.toNat

theorem zero_notMem_hexBytes (bs : List UInt8) : 0 ∉ hexBytes bs := by
  have digit : ∀ v, v < 16 → UInt8.ofNat (Nat.digitChar v).toNat ≠ 0 := by decide
  intro h
  obtain ⟨c, hc, zero⟩ := mem_map.mp h
  obtain ⟨b, -, hb⟩ := mem_flatMap.mp hc
  simp only [hexPair, mem_cons, not_mem_nil, or_false] at hb
  rcases hb with rfl | rfl
  · exact digit _ (half_lt b) zero
  · exact digit _ (rest_lt b) zero

def utf16Char (c : Char) : List ℕ :=
  if c.toNat < 0x10000 then [c.toNat]
  else [0xD800 + (c.toNat - 0x10000) / 0x400, 0xDC00 + (c.toNat - 0x10000) % 0x400]

def encodePoint (v : ℕ) : List UInt8 :=
  if v < 0x80 then [.ofNat v]
  else if v < 0x800 then [.ofNat (0xC0 + v / 0x40), .ofNat (0x80 + v % 0x40)]
  else if v < 0x10000 then
    [.ofNat (0xE0 + v / 0x1000), .ofNat (0x80 + v / 0x40 % 0x40), .ofNat (0x80 + v % 0x40)]
  else
    [.ofNat (0xF0 + v / 0x40000), .ofNat (0x80 + v / 0x1000 % 0x40),
      .ofNat (0x80 + v / 0x40 % 0x40), .ofNat (0x80 + v % 0x40)]

def isHigh (u : ℕ) : Bool := decide (0xD800 ≤ u ∧ u < 0xDC00)

def isLow (u : ℕ) : Bool := decide (0xDC00 ≤ u ∧ u < 0xE000)

def utf8OfUtf16 : List ℕ → List UInt8
  | [] => []
  | [u] => if isHigh u || isLow u then [0x3F] else encodePoint u
  | u :: l :: us =>
    if isHigh u && isLow l then
      encodePoint ((u - 0xD800) * 0x400 + (l - 0xDC00) + 0x10000) ++ utf8OfUtf16 us
    else if isHigh u || isLow u then 0x3F :: utf8OfUtf16 (l :: us)
    else encodePoint u ++ utf8OfUtf16 (l :: us)

theorem encodePoint_toNat (c : Char) : encodePoint c.toNat = String.utf8EncodeChar c := by
  have valid : c.toNat < 0xD800 ∨ (0xDFFF < c.toNat ∧ c.toNat < 0x110000) := c.valid
  simp only [encodePoint, String.utf8EncodeChar, Char.toNat] at valid ⊢
  generalize c.val.toNat = v at valid
  by_cases one : v < 0x80
  · rw [if_pos one, if_pos (by omega)]
  by_cases two : v < 0x800
  · have lead : 0xC0 + v / 0x40 = v / 64 % 32 + 192 := by omega
    have next : 0x80 + v % 0x40 = v % 64 + 128 := by omega
    rw [if_neg one, if_pos two, if_neg (by omega), if_pos (by omega), lead, next]
  by_cases three : v < 0x10000
  · have lead : 0xE0 + v / 0x1000 = v / 4096 % 16 + 224 := by omega
    rw [if_neg one, if_neg two, if_pos three, if_neg (by omega), if_neg (by omega),
      if_pos (by omega), lead, Nat.add_comm 0x80, Nat.add_comm 0x80]
  · have lead : 0xF0 + v / 0x40000 = v / 262144 % 8 + 240 := by omega
    rw [if_neg one, if_neg two, if_neg three, if_neg (by omega), if_neg (by omega),
      if_neg (by omega), lead, Nat.add_comm 0x80, Nat.add_comm 0x80, Nat.add_comm 0x80]

theorem utf8OfUtf16_plain {u : ℕ} (h : (isHigh u || isLow u) = false) (us : List ℕ) :
    utf8OfUtf16 (u :: us) = encodePoint u ++ utf8OfUtf16 us := by
  have high := (Bool.or_eq_false_iff.mp h).1
  cases us with
  | nil => simp [utf8OfUtf16, h]
  | cons l us => simp [utf8OfUtf16, high, (Bool.or_eq_false_iff.mp h).2]

/-- The code units of a character: itself, or a surrogate pair. -/
inductive Units (c : Char) : List ℕ → Prop where
  | one (plain : (isHigh c.toNat || isLow c.toNat) = false) : Units c [c.toNat]
  | pair {h l : ℕ} (high : isHigh h = true) (low : isLow l = true)
      (point : (h - 0xD800) * 0x400 + (l - 0xDC00) + 0x10000 = c.toNat) : Units c [h, l]

theorem units_utf16Char (c : Char) : Units c (utf16Char c) := by
  have valid : c.toNat < 0xD800 ∨ (0xDFFF < c.toNat ∧ c.toNat < 0x110000) := c.valid
  unfold utf16Char
  split_ifs with small
  · refine .one ?_
    simp only [isHigh, isLow, Bool.or_eq_false_iff, decide_eq_false_iff_not]
    omega
  · refine .pair ?_ ?_ (by omega)
    · simp only [isHigh, decide_eq_true_iff]
      omega
    · simp only [isLow, decide_eq_true_iff]
      omega

theorem utf8OfUtf16_char (c : Char) (us : List ℕ) :
    utf8OfUtf16 (utf16Char c ++ us) = String.utf8EncodeChar c ++ utf8OfUtf16 us := by
  rw [← encodePoint_toNat]
  have units := units_utf16Char c
  generalize utf16Char c = l at units
  cases units with
  | one plain => exact utf8OfUtf16_plain plain us
  | pair high low point =>
    simp only [cons_append, nil_append, utf8OfUtf16, high, low, Bool.and_self, if_true, point]

theorem utf8OfUtf16_flatMap (l : List Char) :
    utf8OfUtf16 (l.flatMap utf16Char) = l.flatMap String.utf8EncodeChar := by
  induction l with
  | nil => rfl
  | cons c l ih => rw [flatMap_cons, flatMap_cons, utf8OfUtf16_char, ih]

end ByteStrings
