import Mathlib.Data.Vector.Basic

/-! A format writes a value as a list of symbols and reads it back from the front of any list that
begins with it. It does so for the values that fit, which need not be all. -/
namespace WireFormats

structure Format (β τ : Type*) where
  fits : τ → Prop
  write : τ → List β
  read : List β → Option (τ × List β)
  read_write : ∀ x, fits x → ∀ rest, read (write x ++ rest) = some (x, rest)

namespace Format

variable {β σ τ : Type*}

theorem write_append_inj (f : Format β τ) {x y : τ} (fitsX : f.fits x) (fitsY : f.fits y)
    {a b : List β} (same : f.write x ++ a = f.write y ++ b) : x = y ∧ a = b := by
  have reads := f.read_write x fitsX a
  rw [same, f.read_write y fitsY b] at reads
  cases reads
  exact ⟨rfl, rfl⟩

theorem write_injOn (f : Format β τ) : Set.InjOn f.write {x | f.fits x} := by
  intro x fitsX y fitsY same
  have same' : f.write x ++ [] = f.write y ++ [] := by rw [same]
  exact (f.write_append_inj fitsX fitsY same').1

def symbol : Format β β where
  fits _ := True
  write x := [x]
  read
    | [] => none
    | x :: rest => some (x, rest)
  read_write _ _ _ := rfl

def block (n : ℕ) : Format β (Vector β n) where
  fits _ := True
  write v := v.toList
  read l := if long : n ≤ l.length then
      some (⟨(l.take n).toArray, by rw [List.size_toArray, List.length_take_of_le long]⟩, l.drop n)
    else none
  read_write v _ rest := by
    have long : n ≤ (v.toList ++ rest).length := by
      rw [List.length_append, Vector.length_toList]
      exact Nat.le_add_right n rest.length
    have front : (v.toList ++ rest).take n = v.toList := List.take_left' Vector.length_toList
    have back : (v.toList ++ rest).drop n = rest := List.drop_left' Vector.length_toList
    simp only [dif_pos long, front, back]
    exact congrArg (fun w => some (w, rest)) (Vector.toList_inj.mp rfl)

def both (f : Format β σ) (g : Format β τ) : Format β (σ × τ) where
  fits x := f.fits x.1 ∧ g.fits x.2
  write x := f.write x.1 ++ g.write x.2
  read l := (f.read l).bind fun x => (g.read x.2).map fun y => ((x.1, y.1), y.2)
  read_write x fits rest := by
    rw [List.append_assoc, f.read_write x.1 fits.1, Option.bind_some, g.read_write x.2 fits.2,
      Option.map_some]

def reshape (f : Format β τ) (out : σ → τ) (back : τ → Option σ)
    (inverse : ∀ x, back (out x) = some x) : Format β σ where
  fits x := f.fits (out x)
  write x := f.write (out x)
  read l := (f.read l).bind fun y => (back y.1).map (·, y.2)
  read_write x fits rest := by
    rw [f.read_write (out x) fits, Option.bind_some, inverse, Option.map_some]

def readMany (f : Format β τ) : ℕ → List β → Option (List τ × List β)
  | 0, l => some ([], l)
  | n + 1, l => (f.read l).bind fun x => (f.readMany n x.2).map fun xs => (x.1 :: xs.1, xs.2)

theorem readMany_write (f : Format β τ) {xs : List τ} (fits : ∀ x ∈ xs, f.fits x)
    (rest : List β) : f.readMany xs.length (xs.flatMap f.write ++ rest) = some (xs, rest) := by
  induction xs with
  | nil => rfl
  | cons x xs ih =>
    obtain ⟨first, others⟩ := List.forall_mem_cons.mp fits
    rw [List.length_cons, List.flatMap_cons, List.append_assoc, readMany, f.read_write x first,
      Option.bind_some, ih others, Option.map_some]

def counted (count : Format β ℕ) (f : Format β τ) : Format β (List τ) where
  fits xs := count.fits xs.length ∧ ∀ x ∈ xs, f.fits x
  write xs := count.write xs.length ++ xs.flatMap f.write
  read l := (count.read l).bind fun n => f.readMany n.1 n.2
  read_write xs fits rest := by
    rw [List.append_assoc, count.read_write xs.length fits.1, Option.bind_some,
      f.readMany_write fits.2]

end Format

end WireFormats
