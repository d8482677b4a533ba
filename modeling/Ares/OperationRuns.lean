import Mathlib

/-! The states a run passes through, conditions met by each of its steps, and the rule that turns a
per-step characterisation of a property into one for whole runs. -/
namespace OperationRuns

open List

universe u v

variable {σ : Type u} {ω : Type v} (next : ω → σ → σ)

def visited (s : σ) : List ω → List σ
  | [] => [s]
  | op :: ops => s :: visited (next op s) ops

def last (s : σ) (ops : List ω) : σ := ops.foldl (fun s op => next op s) s

def AllSteps (C : σ → ω → Prop) (s : σ) : List ω → Prop
  | [] => True
  | op :: ops => C s op ∧ AllSteps C (next op s) ops

instance AllSteps.decidable (C : σ → ω → Prop) [∀ s op, Decidable (C s op)] :
    (s : σ) → (ops : List ω) → Decidable (AllSteps next C s ops)
  | _, [] => .isTrue trivial
  | s, op :: ops =>
    have := AllSteps.decidable C (next op s) ops
    inferInstanceAs (Decidable (C s op ∧ AllSteps next C (next op s) ops))

variable {next} {F C : σ → ω → Prop} {I J : σ → Prop} {s : σ} {ops : List ω}

theorem AllSteps.and (hF : AllSteps next F s ops) (hC : AllSteps next C s ops) :
    AllSteps next (fun s op => F s op ∧ C s op) s ops := by
  induction ops generalizing s with
  | nil => trivial
  | cons op ops ih => exact ⟨⟨hF.1, hC.1⟩, ih hF.2 hC.2⟩

theorem AllSteps.of_forall (all : ∀ s op, C s op) (s : σ) (ops : List ω) :
    AllSteps next C s ops := by
  induction ops generalizing s with
  | nil => trivial
  | cons op ops ih => exact ⟨all s op, ih (next op s)⟩

theorem last_mem_visited : last next s ops ∈ visited next s ops := by
  induction ops generalizing s with
  | nil => exact mem_singleton_self s
  | cons op ops ih => exact mem_cons_of_mem s ih

theorem forall_visited_iff (hI : ∀ s op, I s → F s op → I (next op s))
    (hJ : ∀ s op, I s → J s → F s op → (J (next op s) ↔ C s op)) (hs : I s) (hj : J s)
    (hF : AllSteps next F s ops) : (∀ t ∈ visited next s ops, J t) ↔ AllSteps next C s ops := by
  induction ops generalizing s with
  | nil => simp [visited, AllSteps, hj]
  | cons op ops ih =>
    have hs' := hI s op hs hF.1
    have hstep := hJ s op hs hj hF.1
    simp only [visited, forall_mem_cons]
    constructor
    · rintro ⟨-, hall⟩
      have hj' : J (next op s) := by
        cases ops <;> exact hall _ (by simp [visited])
      exact ⟨hstep.mp hj', (ih hs' hj' hF.2).mp hall⟩
    · rintro ⟨hc, hall⟩
      exact ⟨hj, (ih hs' (hstep.mpr hc) hF.2).mpr hall⟩

/-- What can only be lost along a run, and is there at its end, was there throughout. -/
theorem forall_visited_iff_last (hI : ∀ s op, I s → F s op → I (next op s))
    (hback : ∀ s op, I s → F s op → J (next op s) → J s) (hs : I s) (hF : AllSteps next F s ops) :
    (∀ t ∈ visited next s ops, J t) ↔ J (last next s ops) := by
  induction ops generalizing s with
  | nil => simp [visited, last]
  | cons op ops ih =>
    have hrest := ih (hI s op hs hF.1) hF.2
    simp only [visited, forall_mem_cons, hrest]
    constructor
    · exact fun h => h.2
    · intro hlast
      have hnext : J (next op s) := by
        refine hrest.mpr hlast _ ?_
        cases ops <;> simp [visited]
      exact ⟨hback s op hs hF.1 hnext, hlast⟩

theorem allSteps_of_last (hback : ∀ s op, J (next op s) → J s) (h : J (last next s ops)) :
    AllSteps next (fun s op => J (next op s)) s ops := by
  induction ops generalizing s with
  | nil => trivial
  | cons op ops ih =>
    have hrest := ih h
    refine ⟨?_, hrest⟩
    cases ops with
    | nil => exact h
    | cons op' ops' => exact hback _ op' hrest.1

section

variable (step : σ → ω → Option σ) {guard : σ → ω → Prop}

/-- Runs all of whose steps meet `guard` in the state they are taken from. -/
inductive Run (guard : σ → ω → Prop) : σ → σ → Prop where
  | refl (s : σ) : Run guard s s
  | tail {s t u : σ} {m : ω} : Run guard s t → guard t m → step t m = some u → Run guard s u

theorem Run.invariant {step : σ → ω → Option σ}
    (hI : ∀ s m t, I s → guard s m → step s m = some t → I t) {t : σ} (h : Run step guard s t)
    (hs : I s) : I t := by
  induction h with
  | refl => exact hs
  | tail _ hg hstep ih => exact hI _ _ _ ih hg hstep

theorem Run.trans {step : σ → ω → Option σ} {t u : σ}
    (h : Run step guard s t) (k : Run step guard t u) : Run step guard s u := by
  induction k with
  | refl => exact h
  | tail _ hg hstep ih => exact .tail ih hg hstep

def play (s : σ) : List ω → σ
  | [] => s
  | m :: ms => play ((step s m).getD s) ms

def Guarded (guard : σ → ω → Prop) (s : σ) : List ω → Prop
  | [] => True
  | m :: ms => guard s m ∧ (step s m).isSome = true ∧ Guarded guard ((step s m).getD s) ms

instance Guarded.decidable (guard : σ → ω → Prop) [∀ s m, Decidable (guard s m)] :
    (s : σ) → (ms : List ω) → Decidable (Guarded step guard s ms)
  | _, [] => .isTrue trivial
  | s, m :: ms =>
    have := Guarded.decidable guard ((step s m).getD s) ms
    inferInstanceAs (Decidable (guard s m ∧ (step s m).isSome = true ∧
      Guarded step guard ((step s m).getD s) ms))

theorem Guarded.run {step : σ → ω → Option σ} {guard guard' : σ → ω → Prop}
    (hguard : ∀ s m, guard s m → guard' s m) {ms : List ω} (h : Guarded step guard s ms) :
    Run step guard' s (play step s ms) := by
  induction ms generalizing s with
  | nil => exact .refl s
  | cons m ms ih =>
    obtain ⟨hg, hsome, hrest⟩ := h
    obtain ⟨t, ht⟩ := Option.isSome_iff_exists.mp hsome
    have hplay := ih hrest
    simp only [ht] at hplay
    have h1 : Run step guard' s t := .tail (.refl s) (hguard s m hg) ht
    simpa [play, ht] using h1.trans hplay

end

end OperationRuns
