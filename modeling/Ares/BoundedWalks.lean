import Mathlib.Data.List.Basic

/-! From a place there is at most one next place. `Meets` says that a walk of a bounded number of
places comes to one with a property. -/
namespace BoundedWalks

open List

variable {X : Type*} {next : X → Option X} {P : X → Prop} {n m k : ℕ} {x y : X}

def Meets (next : X → Option X) (P : X → Prop) : ℕ → X → Prop
  | 0, _ => False
  | n + 1, x => P x ∨ ∃ y ∈ next x, Meets next P n y

theorem Meets.mono (meets : Meets next P n x) (more : n ≤ m) : Meets next P m x := by
  induction n generalizing m x with
  | zero => cases meets
  | succ n ih =>
    obtain ⟨m, rfl⟩ : ∃ m', m = m' + 1 := ⟨m - 1, by omega⟩
    rcases meets with here | ⟨y, step, rest⟩
    · exact .inl here
    · exact .inr ⟨y, step, ih rest (by omega)⟩

def Leads (next : X → Option X) (xs : List X) : Prop :=
  ∀ k x y, xs[k]? = some x → xs[k + 1]? = some y → next x = some y

theorem Meets.later {xs : List X} (leads : Leads next xs) {d : ℕ} (later : xs[k + d]? = some y)
    (meets : Meets next P n y) (earlier : xs[k]? = some x) : Meets next P (d + n) x := by
  induction d generalizing k x with
  | zero =>
    obtain rfl : y = x := Option.some.inj (later.symm.trans earlier)
    simpa using meets
  | succ d ih =>
    have inside : k + 1 < xs.length := by
      have := (List.getElem?_eq_some_iff.mp later).1
      omega
    have following := List.getElem?_eq_getElem inside
    rw [Nat.succ_add]
    exact .inr ⟨_, leads k x _ earlier following, ih (by rw [← later]; congr 1; omega) following⟩

theorem not_meets {C : X → Prop} (apart : ∀ x, C x → ¬ P x)
    (closed : ∀ x, C x → ∀ y ∈ next x, C y) (inside : C x) : ¬ Meets next P n x := by
  induction n generalizing x with
  | zero => exact id
  | succ n ih =>
    rintro (here | ⟨y, step, rest⟩)
    · exact apart x inside here
    · exact ih (closed x inside y step) rest

theorem mem_dropWhile {f : X → Bool} {xs : List X} :
    x ∈ xs.dropWhile f ↔ ∃ (j : ℕ) (b : X), xs[j]? = some b ∧ f b = false ∧
      ∃ i, j ≤ i ∧ xs[i]? = some x := by
  induction xs with
  | nil => simp
  | cons a xs ih =>
    by_cases skip : f a = true
    · rw [dropWhile_cons_of_pos skip, ih]
      constructor
      · rintro ⟨j, b, first, stops, i, after, there⟩
        exact ⟨j + 1, b, by simpa using first, stops, i + 1, by omega, by simpa using there⟩
      · rintro ⟨j, b, first, stops, i, after, there⟩
        obtain ⟨j, rfl⟩ : ∃ j', j = j' + 1 := by
          refine ⟨j - 1, ?_⟩
          by_contra zero
          obtain rfl : j = 0 := by omega
          obtain rfl : a = b := by simpa using first
          rw [skip] at stops
          cases stops
        obtain ⟨i, rfl⟩ : ∃ i', i = i' + 1 := ⟨i - 1, by omega⟩
        exact ⟨j, b, by simpa using first, stops, i, by omega, by simpa using there⟩
    · rw [dropWhile_cons_of_neg skip]
      constructor
      · intro member
        obtain ⟨i, there⟩ := mem_iff_getElem?.mp member
        exact ⟨0, a, rfl, by simpa using skip, i, Nat.zero_le i, there⟩
      · rintro ⟨-, -, -, -, i, -, there⟩
        exact mem_of_getElem? there

end BoundedWalks
