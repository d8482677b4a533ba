import Mathlib

/-! A program is a tree of atomic actions: it asks the shared state for one action, receives its
answer and continues. Alone, it is run to its end. -/
namespace InterleavedPrograms

open List

universe u v w

inductive Prog (Act : Type u) (Res : Act → Type v) (α : Type w) where
  | ret (a : α)
  | act (a : Act) (k : Res a → Prog Act Res α)

/-- One performed action, with the state it was performed in and its answer. -/
structure Event (σ : Type w) (Act : Type u) (Res : Act → Type v) where
  pre : σ
  act : Act
  res : Res act

variable {Act : Type u} {Res : Act → Type v} {α β : Type v} {σ : Type w}

namespace Prog

def bind : Prog Act Res α → (α → Prog Act Res β) → Prog Act Res β
  | .ret a, f => f a
  | .act a k, f => .act a fun x => (k x).bind f

instance : Monad (Prog Act Res) where
  pure := .ret
  bind := bind

def call (a : Act) : Prog Act Res (Res a) := .act a .ret

@[simp] theorem pure_def (a : α) : (pure a : Prog Act Res α) = .ret a := rfl

@[simp] theorem ret_bind (a : α) (f : α → Prog Act Res β) : (.ret a >>= f) = f a := rfl

@[simp] theorem act_bind (a : Act) (k : Res a → Prog Act Res α) (f : α → Prog Act Res β) :
    (.act a k >>= f) = .act a fun x => k x >>= f := rfl

@[simp] theorem call_bind (a : Act) (f : Res a → Prog Act Res β) : (call a >>= f) = .act a f := rfl

section

variable (sem : (a : Act) → σ → Res a × σ) {φ : σ → Act → Prop}

def result : Prog Act Res α → σ → α
  | .ret a, _ => a
  | .act a k, s => (k (sem a s).1).result (sem a s).2

def final : Prog Act Res α → σ → σ
  | .ret _, s => s
  | .act a k, s => (k (sem a s).1).final (sem a s).2

def events : Prog Act Res α → σ → List (Event σ Act Res)
  | .ret _, _ => []
  | .act a k, s => ⟨s, a, (sem a s).1⟩ :: (k (sem a s).1).events (sem a s).2

@[simp] theorem result_ret (a : α) (s : σ) : (ret a : Prog Act Res α).result sem s = a := rfl

@[simp] theorem final_ret (a : α) (s : σ) : (ret a : Prog Act Res α).final sem s = s := rfl

@[simp] theorem events_ret (a : α) (s : σ) : (ret a : Prog Act Res α).events sem s = [] := rfl

section

variable (a : Act) (k : Res a → Prog Act Res α) (s : σ)

include a k s

@[simp] theorem result_act : (act a k).result sem s = (k (sem a s).1).result sem (sem a s).2 := rfl

@[simp] theorem final_act : (act a k).final sem s = (k (sem a s).1).final sem (sem a s).2 := rfl

@[simp] theorem events_act :
    (act a k).events sem s = ⟨s, a, (sem a s).1⟩ :: (k (sem a s).1).events sem (sem a s).2 :=
  rfl

end

section

variable (p : Prog Act Res α) (f : α → Prog Act Res β) (s : σ)

include p f s

theorem result_bind : (p >>= f).result sem s = (f (p.result sem s)).result sem (p.final sem s) := by
  induction p generalizing s with
  | ret a => rfl
  | act a k ih => exact ih _ _

theorem final_bind : (p >>= f).final sem s = (f (p.result sem s)).final sem (p.final sem s) := by
  induction p generalizing s with
  | ret a => rfl
  | act a k ih => exact ih _ _

theorem events_bind :
    (p >>= f).events sem s = p.events sem s ++ (f (p.result sem s)).events sem (p.final sem s) := by
  induction p generalizing s with
  | ret a => rfl
  | act a k ih => exact congrArg (_ :: ·) (ih _ _)

end

theorem forall_events_of_answer {sem : (a : Act) → σ → Res a × σ} {a : Act}
    {k : Res a → Prog Act Res α} {s : σ} {φ : Event σ Act Res → Prop} (x : Res a)
    (answer : (sem a s).1 = x) (first : φ ⟨s, a, x⟩)
    (rest : ∀ d ∈ (k x).events sem (sem a s).2, φ d) : ∀ d ∈ (act a k).events sem s, φ d := by
  rw [events_act, answer]
  exact forall_mem_cons.mpr ⟨first, rest⟩

theorem final_invariant {I : σ → Prop} (hI : ∀ a s, I s → I (sem a s).2)
    (p : Prog Act Res α) {s : σ} (hs : I s) : I (p.final sem s) := by
  induction p generalizing s with
  | ret a => exact hs
  | act a k ih => exact ih _ (hI a s hs)

theorem final_of_events {I : σ → Prop}
    (hI : ∀ a s, φ s a → I s → I (sem a s).2) (p : Prog Act Res α) {s : σ}
    (hp : ∀ d ∈ p.events sem s, φ d.pre d.act) (hs : I s) : I (p.final sem s) := by
  induction p generalizing s with
  | ret a => exact hs
  | act a k ih =>
    rw [events_act, forall_mem_cons] at hp
    exact ih _ hp.2 (hI a s hp.1 hs)

section

variable {τ : Type w} (note : τ → Event σ Act Res → τ)

def recorded (a : Act) (x : σ × τ) : Res a × (σ × τ) :=
  ((sem a x.1).1, (sem a x.1).2, note x.2 ⟨x.1, a, (sem a x.1).1⟩)

theorem final_recorded (p : Prog Act Res α) (x : σ × τ) :
    (p.final (recorded sem note) x).1 = p.final sem x.1 := by
  induction p generalizing x with
  | ret a => rfl
  | act a k ih => exact ih _ _

end

theorem simulation {τ : Type*} {sem' : (a : Act) → τ → Res a × τ} {R : σ → τ → Prop}
    (step : ∀ a s t, R s t → φ s a →
      (sem a s).1 = (sem' a t).1 ∧ R (sem a s).2 (sem' a t).2)
    (p : Prog Act Res α) {s : σ} {t : τ} (related : R s t)
    (hp : ∀ d ∈ p.events sem s, φ d.pre d.act) :
    R (p.final sem s) (p.final sem' t) ∧
      List.Forall₂ (fun d d' => d.act = d'.act ∧ φ d.pre d.act ∧ R d.pre d'.pre)
        (p.events sem s) (p.events sem' t) := by
  induction p generalizing s t with
  | ret a => exact ⟨related, .nil⟩
  | act a k ih =>
    rw [events_act, forall_mem_cons] at hp
    obtain ⟨answer, next⟩ := step a s t related hp.1
    obtain ⟨final, events⟩ := ih (sem a s).1 next hp.2
    rw [final_act, final_act, events_act, events_act, ← answer]
    exact ⟨final, .cons ⟨rfl, hp.1, related⟩ events⟩

end

/-- Every action the program can ever ask for, whatever the answers, satisfies `φ`. -/
def Always (φ : Act → Prop) : Prog Act Res α → Prop
  | .ret _ => True
  | .act a k => φ a ∧ ∀ x, (k x).Always φ

variable {φ : Act → Prop}

theorem always_of_forall (h : ∀ a, φ a) (p : Prog Act Res α) : p.Always φ := by
  induction p with
  | ret a => trivial
  | act a k ih => exact ⟨h a, ih⟩

variable {p : Prog Act Res α}

theorem Always.mono {φ ψ : Act → Prop} (h : ∀ a, φ a → ψ a) (hp : p.Always φ) : p.Always ψ := by
  induction p with
  | ret a => trivial
  | act a k ih => exact ⟨h a hp.1, fun x => ih x (hp.2 x)⟩

theorem Always.bind {f : α → Prog Act Res β}
    (hp : p.Always φ) (hf : ∀ x, (f x).Always φ) : (p >>= f).Always φ := by
  induction p with
  | ret a => exact hf a
  | act a k ih => exact ⟨hp.1, fun x => ih x (hp.2 x)⟩

theorem Always.events (sem : (a : Act) → σ → Res a × σ) (hp : p.Always φ) (s : σ) :
    ∀ e ∈ p.events sem s, φ e.act := by
  induction p generalizing s with
  | ret a => simp
  | act a k ih =>
    intro e he
    rcases mem_cons.mp he with rfl | he
    · exact hp.1
    · exact ih _ (hp.2 _) _ e he

theorem Always.final (sem : (a : Act) → σ → Res a × σ) {I : σ → Prop}
    (hI : ∀ a s, φ a → I s → I (sem a s).2) (hp : p.Always φ)
    {s : σ} (hs : I s) : I (p.final sem s) := by
  induction p generalizing s with
  | ret a => exact hs
  | act a k ih => exact ih _ (hp.2 _) (hI a s hp.1 hs)

section

variable {ℓ : Type*} (after : ℓ → (a : Act) → Res a → ℓ) (ok : ℓ → Act → Prop)

/-- The program keeps to a protocol: in every local status it only asks for actions that
are in order there, and it ends in a status that suits its result. -/
def Follows (post : ℓ → α → Prop) : ℓ → Prog Act Res α → Prop
  | x, .ret a => post x a
  | x, .act a k => ok x a ∧ ∀ y, Follows post (after x a y) (k y)

variable {p : Prog Act Res α}

variable {post : ℓ → α → Prop}

variable {f : α → Prog Act Res β}

theorem Follows.bind {after : ℓ → (a : Act) → Res a → ℓ} {ok : ℓ → Act → Prop}
    {post' : ℓ → β → Prop} {x : ℓ} (hp : p.Follows after ok post x)
    (hf : ∀ x a, post x a → (f a).Follows after ok post' x) :
    (p >>= f).Follows after ok post' x := by
  induction p generalizing x with
  | ret a => exact hf x a hp
  | act a k ih => exact ⟨hp.1, fun y => ih y (hp.2 y)⟩

theorem Follows.mono {after : ℓ → (a : Act) → Res a → ℓ} {ok : ℓ → Act → Prop}
    {post post' : ℓ → α → Prop} (hpost : ∀ x a, post x a → post' x a)
    {x : ℓ} (hp : p.Follows after ok post x) : p.Follows after ok post' x := by
  induction p generalizing x with
  | ret a => exact hpost x a hp
  | act a k ih => exact ⟨hp.1, fun y => ih y (hp.2 y)⟩

/-- What each action makes true of the status and the state, where it is in order, holds wherever
the program acts. -/
theorem Follows.asserted {after : ℓ → (a : Act) → Res a → ℓ} {ok : ℓ → Act → Prop}
    (sem : (a : Act) → σ → Res a × σ) {I : ℓ → σ → Prop}
    (step : ∀ x a s, ok x a → I x s → I (after x a (sem a s).1) (sem a s).2) {x : ℓ}
    (hp : p.Follows after ok post x) {s : σ} (hs : I x s) : (∃ y, I y (p.final sem s)) ∧
      ∀ d ∈ p.events sem s, ∃ y, ok y d.act ∧ I y d.pre := by
  induction p generalizing x s with
  | ret a => exact ⟨⟨x, hs⟩, by simp⟩
  | act a k ih =>
    obtain ⟨ends, events⟩ := ih _ (hp.2 _) (step x a s hp.1 hs)
    refine ⟨ends, ?_⟩
    rw [events_act, forall_mem_cons]
    exact ⟨⟨x, hp.1, hs⟩, events⟩

def Obeys (p : Prog Act Res α) : Prop := ∀ x, p.Follows after ok (fun _ _ => True) x

variable {after ok}

theorem Obeys.bind (hp : p.Obeys after ok)
    (hf : ∀ a, (f a).Obeys after ok) : (p >>= f).Obeys after ok :=
  fun x => (hp x).bind fun y a _ => hf a y

theorem Obeys.always
    (hp : p.Obeys (fun (_ : Unit) _ _ => ()) fun _ => φ) : p.Always φ := by
  induction p with
  | ret a => trivial
  | act a k ih => exact ⟨(hp ()).1, fun y => ih y fun _ => (hp ()).2 y⟩

theorem Always.obeys (hp : p.Always φ)
    (h : ∀ x a, φ a → ok x a) : p.Obeys after ok := by
  intro x
  induction p generalizing x with
  | ret a => trivial
  | act a k ih => exact ⟨h x a hp.1, fun y => ih y (hp.2 y) _⟩

end

def embed {Act' : Type u} {Res' : Act' → Type v} (f : Act → Act') (g : ∀ a, Res' (f a) → Res a) :
    Prog Act Res α → Prog Act' Res' α
  | .ret a => .ret a
  | .act a k => .act (f a) fun y => (k (g a y)).embed f g

end Prog

/-- Threads over one shared state; the history records who performed what, oldest first. -/
structure Pool (ι : Type*) (σ : Type w) (Act : Type u) (Res : Act → Type v) (α : Type v) where
  state : σ
  threads : ι → Prog Act Res α
  history : List (ι × Event σ Act Res)

namespace Pool

variable {ι : Type*} [DecidableEq ι] (sem : (a : Act) → σ → Res a × σ)
  {guard : Pool ι σ Act Res α → ι → Prop} {threads : ι → Prog Act Res α} {Q : Pool ι σ Act Res α}

def start (s : σ) (threads : ι → Prog Act Res α) : Pool ι σ Act Res α := ⟨s, threads, []⟩

def step (P : Pool ι σ Act Res α) (i : ι) : Option (Pool ι σ Act Res α) :=
  match P.threads i with
  | .ret _ => none
  | .act a k =>
    some
      { state := (sem a P.state).2
        threads := Function.update P.threads i (k (sem a P.state).1)
        history := P.history ++ [(i, ⟨P.state, a, (sem a P.state).1⟩)] }

theorem step_eq_some {P Q : Pool ι σ Act Res α} {i : ι} (h : P.step sem i = some Q) :
    ∃ a k, P.threads i = .act a k ∧
      Q = ⟨(sem a P.state).2, Function.update P.threads i (k (sem a P.state).1),
        P.history ++ [(i, ⟨P.state, a, (sem a P.state).1⟩)]⟩ := by
  unfold step at h
  split at h
  · cases h
  · rename_i a k hp
    exact ⟨a, k, hp, (Option.some.inj h).symm⟩

/-- Interleavings all of whose steps meet `guard` in the pool they are taken from. -/
inductive Run (guard : Pool ι σ Act Res α → ι → Prop) :
    Pool ι σ Act Res α → Pool ι σ Act Res α → Prop where
  | refl (P) : Run guard P P
  | tail {P Q R i} : Run guard P Q → guard Q i → Q.step sem i = some R → Run guard P R

theorem Run.invariant {I : Pool ι σ Act Res α → Prop}
    (hI : ∀ Q i R, I Q → guard Q i → Q.step sem i = some R → I R)
    {P Q : Pool ι σ Act Res α} (h : Run sem guard P Q) (hP : I P) : I Q := by
  induction h with
  | refl => exact hP
  | tail _ hg hs ih => exact hI _ _ _ ih hg hs

theorem Run.trans {P Q R : Pool ι σ Act Res α}
    (h : Run sem guard P Q) (k : Run sem guard Q R) : Run sem guard P R := by
  induction k with
  | refl => exact h
  | tail _ hg hs ih => exact .tail ih hg hs

def runSchedule (P : Pool ι σ Act Res α) : List ι → Pool ι σ Act Res α
  | [] => P
  | i :: is => runSchedule ((P.step sem i).getD P) is

theorem runSchedule_run (P : Pool ι σ Act Res α) (is : List ι) :
    Run sem (fun _ _ => True) P (P.runSchedule sem is) := by
  induction is generalizing P with
  | nil => exact .refl P
  | cons i is ih =>
    have ht := ih ((P.step sem i).getD P)
    cases hs : P.step sem i with
    | none => simpa [runSchedule, hs] using ht
    | some Q =>
      simp only [hs] at ht
      have h1 : Run sem (fun _ _ => True) P Q := .tail (.refl P) trivial hs
      simpa [runSchedule, hs] using h1.trans sem ht

def Guarded (guard : Pool ι σ Act Res α → ι → Prop) (P : Pool ι σ Act Res α) : List ι → Prop
  | [] => True
  | i :: is => guard P i ∧ (P.step sem i).isSome ∧ Guarded guard ((P.step sem i).getD P) is

instance Guarded.decidable {guard : Pool ι σ Act Res α → ι → Prop} [∀ P i, Decidable (guard P i)] :
    (P : Pool ι σ Act Res α) → (is : List ι) → Decidable (Guarded sem guard P is)
  | _, [] => .isTrue trivial
  | P, i :: is =>
    have : Decidable (Guarded sem guard ((P.step sem i).getD P) is) := Guarded.decidable _ is
    inferInstanceAs (Decidable (guard P i ∧ (P.step sem i).isSome = true ∧
      Guarded sem guard ((P.step sem i).getD P) is))

theorem Guarded.run {P : Pool ι σ Act Res α}
    {is : List ι} (h : P.Guarded sem guard is) : Run sem guard P (P.runSchedule sem is) := by
  induction is generalizing P with
  | nil => exact .refl P
  | cons i is ih =>
    obtain ⟨hg, hs, ht⟩ := h
    obtain ⟨Q, hQ⟩ := Option.isSome_iff_exists.mp hs
    have hrest := ih ht
    simp only [hQ] at hrest
    have h1 : Run sem guard P Q := .tail (.refl P) hg hQ
    simpa [runSchedule, hQ] using h1.trans sem hrest

theorem Run.answers {s : σ} (h : Run sem guard (start s threads) Q) :
    ∀ x ∈ Q.history, x.2.res = (sem x.2.act x.2.pre).1 := by
  refine h.invariant sem (I := fun Q => ∀ x ∈ Q.history, x.2.res = (sem x.2.act x.2.pre).1)
    ?_ (by simp [start])
  intro Q i R hQ _ hs
  obtain ⟨a, k, -, rfl⟩ := step_eq_some sem hs
  intro x hx
  rcases mem_append.mp hx with hx | hx
  · exact hQ x hx
  · rw [mem_singleton.mp hx]

theorem Run.keeps {φ : Act → Prop} {I : σ → Prop} (hI : ∀ a s, φ a → I s → I (sem a s).2) {s : σ}
    (hp : ∀ i, (threads i).Always φ)
    (h : Run sem guard (start s threads) Q) (hs : I s) : I Q.state := by
  refine (h.invariant sem (I := fun Q => (∀ i, (Q.threads i).Always φ) ∧ I Q.state) ?_ ⟨hp, hs⟩).2
  rintro Q i R ⟨ht, hq⟩ - hstep
  obtain ⟨a, k, hk, rfl⟩ := step_eq_some sem hstep
  have ha := ht i
  rw [hk] at ha
  refine ⟨fun j => ?_, hI a Q.state ha.1 hq⟩
  by_cases hj : j = i
  · subst j
    simpa using ha.2 _
  · simpa [hj] using ht j

theorem always_history {φ : ι → Act → Prop} {s : σ} (hp : ∀ i, (threads i).Always (φ i))
    (h : Run sem guard (start s threads) Q) : ∀ x ∈ Q.history, φ x.1 x.2.act := by
  have hI := h.invariant sem
    (I := fun Q => (∀ i, (Q.threads i).Always (φ i)) ∧ ∀ x ∈ Q.history, φ x.1 x.2.act) ?_ ?_
  · exact hI.2
  · rintro Q i R ⟨ht, hh⟩ - hs
    obtain ⟨a, k, hk, rfl⟩ := step_eq_some sem hs
    have ha := ht i
    rw [hk] at ha
    constructor
    · intro j
      by_cases hj : j = i
      · subst j
        simpa using ha.2 _
      · simpa [hj] using ht j
    · intro x hx
      rcases mem_append.mp hx with hx | hx
      · exact hh x hx
      · rw [mem_singleton.mp hx]
        exact ha.1
  · exact ⟨hp, by simp [start]⟩

section

variable {ℓ : Type*} (after : ℓ → (a : Act) → Res a → ℓ) (ok : ℓ → Act → Prop)
  {post : ι → ℓ → α → Prop} {guard : Pool ι σ Act Res α → ι → Prop} {threads : ι → Prog Act Res α}
  {Q : Pool ι σ Act Res α} {init : ℓ}

def status (init : ℓ) (h : List (ι × Event σ Act Res)) (i : ι) : ℓ :=
  (h.filter (·.1 = i)).foldl (fun x e => after x e.2.act e.2.res) init

@[simp] theorem status_append_self (init : ℓ) (h : List (ι × Event σ Act Res)) (i : ι)
    (e : Event σ Act Res) :
    status after init (h ++ [(i, e)]) i = after (status after init h i) e.act e.res := by
  simp [status]

@[simp] theorem status_append_of_ne (init : ℓ) (h : List (ι × Event σ Act Res)) {i j : ι}
    (hij : j ≠ i) (e : Event σ Act Res) :
    status after init (h ++ [(i, e)]) j = status after init h j := by
  simp [status, Ne.symm hij]

theorem follows_step {P Q : Pool ι σ Act Res α} {i : ι}
    (hP : ∀ j, (P.threads j).Follows after ok (post j) (status after init P.history j))
    (hs : P.step sem i = some Q) (j : ι) :
    (Q.threads j).Follows after ok (post j) (status after init Q.history j) := by
  obtain ⟨a, k, hk, rfl⟩ := step_eq_some sem hs
  by_cases hj : j = i
  · subst hj
    have hfollows := hP j
    rw [hk] at hfollows
    simpa using hfollows.2 _
  · simpa [hj] using hP j

theorem follows_run {s : σ} (hp : ∀ i, (threads i).Follows after ok (post i) init)
    (h : Run sem guard (start s threads) Q) (i : ι) :
    (Q.threads i).Follows after ok (post i) (status after init Q.history i) := by
  refine h.invariant sem
    (I := fun Q => ∀ i,
      (Q.threads i).Follows after ok (post i) (status after init Q.history i))
    ?_ hp i
  intro Q i R hQ _ hs j
  exact follows_step sem after ok hQ hs j

/-- What a thread's own steps make true of its status, and no step of another thread undoes, holds
wherever the thread acts. -/
theorem Run.asserted {after : ℓ → (a : Act) → Res a → ℓ} {ok : ℓ → Act → Prop} {I : σ → Prop}
    {asserts : ℓ → σ → Prop}
    (own : ∀ x a s, I s → asserts x s → ok x a →
      I (sem a s).2 ∧ asserts (after x a (sem a s).1) (sem a s).2)
    (others : ∀ x y a s, I s → asserts x s → ok x a → asserts y s → asserts y (sem a s).2) {s : σ}
    (hp : ∀ i, (threads i).Follows after ok (post i) init) (hs : I s) (hinit : asserts init s)
    (h : Run sem guard (start s threads) Q) :
    ∀ e ∈ Q.history, ∃ x, I e.2.pre ∧ asserts x e.2.pre ∧ ok x e.2.act := by
  have all := h.invariant sem
    (I := fun Q => (∀ i, (Q.threads i).Follows after ok (post i) (status after init Q.history i)) ∧
      I Q.state ∧ (∀ i, asserts (status after init Q.history i) Q.state) ∧
      ∀ e ∈ Q.history, ∃ x, I e.2.pre ∧ asserts x e.2.pre ∧ ok x e.2.act) ?_
    ⟨hp, hs, fun _ => hinit, by simp [start]⟩
  · exact all.2.2.2
  · rintro Q i R ⟨follows, inv, asserted, seen⟩ - step
    have follows' := follows_step sem after ok follows step
    obtain ⟨a, k, hk, rfl⟩ := step_eq_some sem step
    have here := follows i
    rw [hk] at here
    obtain ⟨inv', mine⟩ := own _ a _ inv (asserted i) here.1
    refine ⟨follows', inv', fun j => ?_, fun e mem => ?_⟩
    · by_cases hj : j = i
      · subst hj
        simpa using mine
      · simpa [hj] using others _ _ a _ inv (asserted i) here.1 (asserted j)
    · rcases mem_append.mp mem with mem | mem
      · exact seen e mem
      · rw [mem_singleton.mp mem]
        exact ⟨_, inv, asserted i, here.1⟩

end

end Pool

section

variable {β : Type*}

def Seen (h : List β) (P : β → Prop) (n : ℕ) : Prop := ∃ x, h[n]? = some x ∧ P x

def NoneAfter (h : List β) (P : β → Prop) (n : ℕ) : Prop := ∀ k, n < k → ¬ Seen h P k

def NoneBetween (h : List β) (P : β → Prop) (n t : ℕ) : Prop := ∀ k, n < k → k < t → ¬ Seen h P k

variable {h : List β} {P P' : β → Prop} {x : β} {n t : ℕ}

instance [DecidablePred P] : Decidable (Seen h P n) :=
  decidable_of_iff ((h[n]?).any (fun x => decide (P x)) = true) (by
    simp only [Seen, Option.any_eq_true, decide_eq_true_eq])

theorem Seen.lt (hn : Seen h P n) : n < h.length := by
  obtain ⟨x, hx, -⟩ := hn
  exact (List.getElem?_eq_some_iff.mp hx).1

theorem Seen.mono (hP : ∀ x, P x → P' x) (hn : Seen h P n) : Seen h P' n := by
  obtain ⟨x, hx, hpx⟩ := hn
  exact ⟨x, hx, hP x hpx⟩

theorem Seen.both (hn : Seen h P n) (hn' : Seen h P' n) : ∃ x, P x ∧ P' x := by
  obtain ⟨x, hx, hpx⟩ := hn
  obtain ⟨x', hx', hpx'⟩ := hn'
  rw [hx] at hx'
  cases hx'
  exact ⟨x, hpx, hpx'⟩

theorem Seen.before {k : ℕ} (hk : Seen h P k) (hn : NoneAfter h P n)
    (hne : ¬ Seen h P n) : k < n := by
  rcases lt_trichotomy k n with hlt | rfl | hgt
  · exact hlt
  · exact (hne hk).elim
  · exact (hn k hgt hk).elim

theorem seen_snoc : Seen (h ++ [x]) P n ↔ Seen h P n ∨ (n = h.length ∧ P x) := by
  constructor
  · rintro ⟨y, hy, hpy⟩
    rcases lt_trichotomy n h.length with hlt | rfl | hgt
    · rw [List.getElem?_append_left hlt] at hy
      exact .inl ⟨y, hy, hpy⟩
    · rw [List.getElem?_concat_length] at hy
      cases hy
      exact .inr ⟨rfl, hpy⟩
    · rw [List.getElem?_eq_none (by simp; omega)] at hy
      cases hy
  · rintro (hn | ⟨rfl, hx⟩)
    · have hlt := hn.lt
      obtain ⟨y, hy, hpy⟩ := hn
      exact ⟨y, by rwa [List.getElem?_append_left hlt], hpy⟩
    · exact ⟨x, List.getElem?_concat_length, hx⟩

theorem Seen.snoc (hn : Seen h P n) (x : β) : Seen (h ++ [x]) P n := seen_snoc.mpr (.inl hn)

theorem seen_length (hx : P x) : Seen (h ++ [x]) P h.length := seen_snoc.mpr (.inr ⟨rfl, hx⟩)

theorem NoneAfter.snoc (hn : NoneAfter h P n) (hx : ¬ P x) : NoneAfter (h ++ [x]) P n := by
  intro k hk hseen
  rcases seen_snoc.mp hseen with hseen | ⟨-, hpx⟩
  · exact hn k hk hseen
  · exact hx hpx

theorem NoneAfter.of_snoc (hn : NoneAfter (h ++ [x]) P n) : NoneAfter h P n :=
  fun k hk hseen => hn k hk (hseen.snoc x)

theorem NoneAfter.between (hn : NoneAfter h P n) : NoneBetween h P n t := fun k hk _ => hn k hk

theorem NoneBetween.snoc (hn : NoneBetween h P n t) (ht : t ≤ h.length) (x : β) :
    NoneBetween (h ++ [x]) P n t := by
  intro k hk hkt hseen
  rcases seen_snoc.mp hseen with hseen | ⟨rfl, -⟩
  · exact hn k hk hkt hseen
  · omega

theorem NoneAfter.upto (hn : NoneAfter h P n) (x : β) : NoneBetween (h ++ [x]) P n h.length :=
  hn.between.snoc le_rfl x

theorem NoneBetween.unique {k : ℕ} (hn : Seen h P n) (hk : Seen h P k) (hnt : n < t) (hkt : k < t)
    (hn' : NoneBetween h P n t) (hk' : NoneBetween h P k t) : n = k := by
  rcases lt_trichotomy n k with hlt | heq | hgt
  · exact (hn' k hlt hkt hk).elim
  · exact heq
  · exact (hk' n hgt hnt hn).elim

theorem noneAfter_length : NoneAfter (h ++ [x]) P h.length := by
  intro k hk hseen
  have hlt := hseen.lt
  simp only [length_append, length_singleton] at hlt
  omega

end

end InterleavedPrograms
