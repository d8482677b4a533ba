import Mathlib

/-! A loop that maps a list and stops at the first failure returns a list exactly when every element
succeeds, and then what it returns stands beside the elements it came from. -/

namespace FallibleLists

open List

variable {α β ε : Type*}

theorem bind_eq_ok {ε α β : Type} {x : Except ε α} {f : α → Except ε β} {b : β} :
    x >>= f = .ok b ↔ ∃ a, x = .ok a ∧ f a = .ok b := by
  cases x with
  | error e | ok a => simp [bind, Except.bind]

theorem forM_eq_ok {ε α : Type} {f : α → Except ε Unit} {l : List α} :
    l.forM f = .ok () ↔ ∀ a ∈ l, f a = .ok () := by
  induction l with
  | nil => simp [pure, Except.pure]
  | cons a l ih =>
    have step : (a :: l).forM f = f a >>= fun _ => l.forM f := rfl
    rw [step, bind_eq_ok, forall_mem_cons, ← ih]
    constructor
    · rintro ⟨_, head, tail⟩
      exact ⟨head, tail⟩
    · rintro ⟨head, tail⟩
      exact ⟨(), head, tail⟩

theorem forall₂_of_mapM_iff {f : α → Except ε β} {l : List α} {out : List β} :
    l.mapM f = .ok out ↔ List.Forall₂ (fun a b => f a = .ok b) l out := by
  induction l generalizing out with
  | nil => simp [pure, Except.pure]
  | cons a l ih =>
    rw [mapM_cons, forall₂_cons_left_iff]
    cases head : f a with
    | error e => simp [bind, Except.bind]
    | ok b =>
      cases tail : l.mapM f with
      | error e =>
        simp only [bind, Except.bind, reduceCtorEq, false_iff, not_exists, not_and]
        intro b' rest _ all
        rw [← ih, tail] at all
        cases all
      | ok rest =>
        simp only [bind, Except.bind, pure, Except.pure, Except.ok.injEq, ← ih, tail]
        constructor
        · intro eq
          exact ⟨b, rest, rfl, rfl, eq.symm⟩
        · rintro ⟨b', rest', rfl, rfl, eq⟩
          exact eq.symm

theorem mapM_of_forall {f : α → Except ε β} {g : α → β} {l : List α}
    (all : ∀ a ∈ l, f a = .ok (g a)) : l.mapM f = .ok (l.map g) := by
  rw [forall₂_of_mapM_iff, forall₂_map_right_iff, forall₂_same]
  exact all

theorem exists_mapM_some {f : α → Option β} {l : List α} (all : ∀ a ∈ l, (f a).isSome) :
    ∃ out, l.mapM f = some out := by
  induction l with
  | nil => exact ⟨[], rfl⟩
  | cons a l ih =>
    obtain ⟨b, head⟩ := Option.isSome_iff_exists.mp (all a (by simp))
    obtain ⟨rest, tail⟩ := ih fun a' mem => all a' (by simp [mem])
    exact ⟨b :: rest, by simp [head, tail]⟩

theorem exists_right {R : α → β → Prop} {l : List α} {out : List β} (rel : List.Forall₂ R l out)
    {a : α} (mem : a ∈ l) : ∃ b ∈ out, R a b := by
  induction rel with
  | nil => cases mem
  | cons head _ ih =>
    rcases mem_cons.mp mem with rfl | mem
    · exact ⟨_, by simp, head⟩
    · obtain ⟨b, mem, rel⟩ := ih mem
      exact ⟨b, by simp [mem], rel⟩

end FallibleLists
