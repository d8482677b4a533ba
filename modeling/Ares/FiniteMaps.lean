import Mathlib

/-! Finite maps as association lists with distinct keys: mapping over the values, and counting the
values with a property under insertion, removal and mapping. -/
namespace FiniteMaps

open List

universe u v

abbrev FinMap (κ : Type u) (ν : Type v) := AList fun _ : κ => ν

variable {κ : Type u} {ν : Type v}

def values (m : FinMap κ ν) : List ν := m.entries.map Sigma.snd

def size (m : FinMap κ ν) : ℕ := m.entries.length

def count (P : ν → Bool) (m : FinMap κ ν) : ℕ := (values m).countP P

def mapValues (f : κ → ν → ν) (m : FinMap κ ν) : FinMap κ ν where
  entries := m.entries.map fun e => ⟨e.1, f e.1 e.2⟩
  nodupKeys := by
    have h := m.nodupKeys
    rw [List.NodupKeys, List.keys] at h ⊢
    simpa [Function.comp_def] using h

@[simp] theorem mem_mapValues (f : κ → ν → ν) (m : FinMap κ ν) (k : κ) :
    k ∈ mapValues f m ↔ k ∈ m := by
  simp [AList.mem_keys, AList.keys, mapValues, List.keys]

variable {P : ν → Bool}

theorem count_mapValues {Q : ν → Bool} {f : κ → ν → ν} (h : ∀ k v, P (f k v) = Q v)
    (m : FinMap κ ν) : count P (mapValues f m) = count Q m := by
  simp only [count, values, mapValues, countP_map]
  refine countP_congr fun e _ => ?_
  simp [h]

variable [DecidableEq κ]

variable {m : FinMap κ ν} {k : κ} {v : ν}

theorem lookup_eq_some :
    m.lookup k = some v ↔ (⟨k, v⟩ : Sigma fun _ : κ => ν) ∈ m.entries := AList.mem_lookup_iff

theorem mem_values : v ∈ values m ↔ ∃ k, m.lookup k = some v := by
  simp only [values, mem_map, lookup_eq_some]
  constructor
  · rintro ⟨⟨k, w⟩, he, rfl⟩
    exact ⟨k, he⟩
  · rintro ⟨k, he⟩
    exact ⟨⟨k, v⟩, he, rfl⟩

theorem mem_of_lookup (h : m.lookup k = some v) : k ∈ m :=
  AList.lookup_isSome.mp (by rw [h]; rfl)

@[simp] theorem lookup_mapValues (f : κ → ν → ν) (m : FinMap κ ν) (k : κ) :
    (mapValues f m).lookup k = (m.lookup k).map (f k) := by
  cases h : m.lookup k with
  | none =>
    have hk : k ∉ m := AList.lookup_eq_none.mp h
    exact AList.lookup_eq_none.mpr fun hmem => hk ((mem_mapValues f m k).mp hmem)
  | some v => refine lookup_eq_some.mpr (mem_map.mpr ⟨⟨k, v⟩, lookup_eq_some.mp h, rfl⟩)

theorem count_insert_new (h : k ∉ m) (v : ν) :
    count P (m.insert k v) = count P m + if P v then 1 else 0 := by
  rw [count, values, AList.entries_insert_of_notMem h, map_cons, countP_cons]
  rfl

theorem count_pos : 0 < count P m ↔ ∃ k v, m.lookup k = some v ∧ P v = true := by
  rw [count, countP_pos_iff]
  constructor
  · rintro ⟨v, hv, hP⟩
    obtain ⟨k, hk⟩ := mem_values.mp hv
    exact ⟨k, v, hk, hP⟩
  · rintro ⟨k, v, hk, hP⟩
    exact ⟨v, mem_values.mpr ⟨k, hk⟩, hP⟩

theorem count_erase (h : m.lookup k = some v) :
    count P (m.erase k) + (if P v then 1 else 0) = count P m := by
  obtain ⟨w, l₁, l₂, -, hm, he⟩ := exists_of_kerase (AList.mem_keys.mp (mem_of_lookup h))
  have hw : w = v := by
    have hmem : (⟨k, w⟩ : Sigma fun _ : κ => ν) ∈ m.entries := by rw [hm]; simp
    rw [← lookup_eq_some, h] at hmem
    exact (Option.some.inj hmem).symm
  subst hw
  have herase : (m.erase k).entries = l₁ ++ l₂ := he
  simp [count, values, hm, herase, countP_cons]
  omega

theorem count_erase_le (P : ν → Bool) (m : FinMap κ ν) (k : κ) : count P
    (m.erase k) ≤ count P m := by
  cases h : m.lookup k with
  | none =>
    have hk : k ∉ m := AList.lookup_eq_none.mp h
    have herase : (m.erase k).entries = m.entries := kerase_of_notMem_keys hk
    simp [count, values, herase]
  | some v =>
    have := count_erase (P := P) h
    omega

theorem nodup_map_filter {δ : Type*} {f : ν → δ} :
    (((values m).filter P).map f).Nodup ↔ ∀ k l v w, m.lookup k = some v →
      m.lookup l = some w → P v = true → P w = true → f v = f w → k = l := by
  have hsymm : Std.Symm fun e e' : Sigma fun _ : κ => ν =>
      P e.2 = true → P e'.2 = true → f e.2 ≠ f e'.2 := ⟨fun _ _ h he he' => (h he' he).symm⟩
  rw [List.Nodup, pairwise_map, pairwise_filter, values, pairwise_map,
    ← Nodup.pairwise_coe (List.NodupKeys.nodup m.nodupKeys)]
  constructor
  · intro h k l v w hk hl hv hw hf
    by_contra hne
    exact h (lookup_eq_some.mp hk) (lookup_eq_some.mp hl) (by simp [hne]) hv hw hf
  · rintro h ⟨k, v⟩ hk ⟨l, w⟩ hl hne hv hw hf
    have hkl := h k l v w (lookup_eq_some.mpr hk) (lookup_eq_some.mpr hl) hv hw hf
    subst hkl
    have hvw := (lookup_eq_some.mpr hk).symm.trans (lookup_eq_some.mpr hl)
    exact hne (by rw [Option.some.inj hvw])

section

variable {l : List κ} (h : ∀ k, k ∈ m ↔ k ∈ l)

include h

theorem size_eq_dedup : size m = l.dedup.length := by
  have hperm := (perm_ext_iff_of_nodup m.keys_nodup (nodup_dedup l)).mpr fun k => by
      rw [mem_dedup, ← h, AList.mem_keys]
  have hlen := hperm.length_eq
  rw [← hlen, size, AList.keys, List.keys, length_map]

theorem size_eq_length_iff : size m = l.length ↔ l.Nodup := by
  rw [size_eq_dedup h]
  constructor
  · intro hlen
    exact dedup_eq_self.mp ((dedup_sublist l).eq_of_length hlen)
  · intro hl
    rw [dedup_eq_self.mpr hl]

theorem size_le_length : size m ≤ l.length := by
  rw [size_eq_dedup h]
  exact (dedup_sublist l).length_le

end

theorem forall₂_filterMap {α β : Type*} {f : α → Option β} {l : List α}
    (h : ∀ x ∈ l, (f x).isSome = true) :
    List.Forall₂ (fun x y => f x = some y) l (l.filterMap f) := by
  induction l with
  | nil => exact .nil
  | cons x l ih =>
    obtain ⟨y, hy⟩ := Option.isSome_iff_exists.mp (h x (mem_cons_self ..))
    rw [filterMap_cons_some hy]
    exact .cons hy (ih fun z hz => h z (mem_cons_of_mem x hz))

end FiniteMaps
