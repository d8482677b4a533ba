import Mathlib

/-! A graph is a finite map from keys to nodes, and every node lists the keys of its parents. -/
namespace ContentGraphs

open Function

universe u v

variable {κ : Type u} {ν : Type v} (parents : ν → List κ)

def Edge (g : κ → Option ν) (h p : κ) : Prop := ∃ n, g h = some n ∧ p ∈ parents n

def ancestors (g : κ → Option ν) (h : κ) : Set κ :=
  {a | Relation.ReflTransGen (Edge parents g) h a}

/-- Finitely many nodes, each over parents that were there before it. -/
structure Grown (g : κ → Option ν) : Prop where
  finite : {h | (g h).isSome}.Finite
  closed : ∀ h p, Edge parents g h p → (g p).isSome
  ranked : ∃ (rank : κ → ℕ) (bound : ℕ), (∀ h, (g h).isSome → rank h < bound) ∧
    ∀ h p, Edge parents g h p → rank p < rank h

variable {parents} {g g' : κ → Option ν}

theorem grown_empty : Grown parents (fun _ => none) where
  finite := by simp
  closed := by
    intro h p edge
    obtain ⟨n, hn, -⟩ := edge
    cases hn
  ranked := by
    refine ⟨fun _ => 0, 0, by simp, ?_⟩
    intro h p edge
    obtain ⟨n, hn, -⟩ := edge
    cases hn

section

variable [DecidableEq κ] {k : κ} {node : ν}

theorem edge_update {h p : κ} :
    Edge parents (update g k (some node)) h p ↔
      (h = k ∧ p ∈ parents node) ∨ (h ≠ k ∧ Edge parents g h p) := by
  by_cases same : h = k
  · subst same
    simp [Edge]
  · simp [Edge, same]

theorem isSome_update {h : κ} : (update g k (some node) h).isSome ↔ h = k ∨ (g h).isSome := by
  by_cases same : h = k
  · subst same
    simp
  · simp [same]

theorem Grown.insert (grown : Grown parents g) (fresh : g k = none)
    (present : ∀ p ∈ parents node, (g p).isSome) : Grown parents (update g k (some node)) := by
  have other : ∀ p, (g p).isSome → p ≠ k := by
    rintro p stored rfl
    rw [fresh] at stored
    cases stored
  constructor
  · refine (grown.finite.insert k).subset fun h stored => ?_
    exact isSome_update.mp stored
  · intro h p edge
    rw [isSome_update]
    rcases edge_update.mp edge with ⟨-, hp⟩ | ⟨-, old⟩
    · exact Or.inr (present p hp)
    · exact Or.inr (grown.closed h p old)
  · -- the new node gets the rank that bounds all earlier ones
    obtain ⟨rank, bound, below, decreasing⟩ := grown.ranked
    refine ⟨update rank k bound, bound + 1, ?_, ?_⟩
    · intro h stored
      rcases isSome_update.mp stored with rfl | old
      · simp
      · rw [update_of_ne (other h old)]
        exact (below h old).trans (Nat.lt_succ_self bound)
    · intro h p edge
      rcases edge_update.mp edge with ⟨rfl, hp⟩ | ⟨ne, old⟩
      · rw [update_self, update_of_ne (other p (present p hp))]
        exact below p (present p hp)
      · rw [update_of_ne ne, update_of_ne (other p (grown.closed h p old))]
        exact decreasing h p old

end

theorem Grown.isSome_ancestor (grown : Grown parents g) {h a : κ} (stored : (g h).isSome)
    (above : a ∈ ancestors parents g h) : (g a).isSome := by
  induction above with
  | refl => exact stored
  | tail _ edge _ => exact grown.closed _ _ edge

theorem Grown.ancestors_finite (grown : Grown parents g) {h : κ} (stored : (g h).isSome) :
    (ancestors parents g h).Finite :=
  grown.finite.subset fun _ above => grown.isSome_ancestor stored above

theorem Grown.acyclic (grown : Grown parents g) (h : κ) :
    ¬ Relation.TransGen (Edge parents g) h h := by
  obtain ⟨rank, -, -, decreasing⟩ := grown.ranked
  have lower : ∀ p, Relation.TransGen (Edge parents g) h p → rank p < rank h := by
    intro p path
    induction path with
    | single edge => exact decreasing _ _ edge
    | tail _ edge ih => exact (decreasing _ _ edge).trans ih
  exact fun cycle => lt_irrefl _ (lower h cycle)

section

variable {R : ν → ν → Prop} (bind : ∀ h n n', g h = some n → g' h = some n' → R n n')
  (same : ∀ n n', R n n' → parents n = parents n')

include bind same

theorem ancestor_common (grown : Grown parents g) (grown' : Grown parents g') {h a : κ}
    (stored : (g h).isSome) (stored' : (g' h).isSome) (above : a ∈ ancestors parents g h) :
    a ∈ ancestors parents g' h ∧ ∃ n n', g a = some n ∧ g' a = some n' ∧ R n n' := by
  have common : ∀ a, (g a).isSome → (g' a).isSome →
      ∃ n n', g a = some n ∧ g' a = some n' ∧ R n n' := by
    intro a ha ha'
    obtain ⟨n, hn⟩ := Option.isSome_iff_exists.mp ha
    obtain ⟨n', hn'⟩ := Option.isSome_iff_exists.mp ha'
    exact ⟨n, n', hn, hn', bind a n n' hn hn'⟩
  induction above with
  | refl => exact ⟨.refl, common h stored stored'⟩
  | tail _ edge ih =>
    obtain ⟨above', n, n', hn, hn', related⟩ := ih
    obtain ⟨m, hm, hp⟩ := id edge
    rw [hn] at hm
    cases hm
    rw [same n n' related] at hp
    have edge' : Edge parents g' _ _ := ⟨n', hn', hp⟩
    exact ⟨above'.tail edge',
      common _ (grown.closed _ _ edge) (grown'.closed _ _ edge')⟩

end

end ContentGraphs
