import Ares.SessionRunner

/-! Any number of `HandleMessage` calls interleave at the granularity of `sem`. -/
namespace SessionRunnerInterleaving

open InterleavedPrograms LineageNodes PhasePipelines SessionRunner List Function

variable {α L S : Type}

abbrev RunnerPool (ι α L S : Type) :=
  Pool ι (RunnerState α L S) (Action α L) Action.Res (Outcome (Except RunErr Bool))

/-- Where a call stands between a completed phase and the tracker update that leaves it. -/
inductive Standing (α L : Type) where
  | elsewhere
  | complete (t : Ref) (p : Phase α L)
  | leaving (t : Ref) (p : Phase α L)
  | exited (t : Ref) (p : Phase α L)
  | committed (t : Ref) (p : Phase α L)

def Standing.after : Standing α L → (a : Action α L) → a.Res → Standing α L
  | _, .checkComplete t p, done => if done then .complete t p else .elsewhere
  | .complete _ _, .readCurrent t, current =>
    match current with
    | some p => .leaving t p
    | none => .elsewhere
  | _, .exit t p, _ => .exited t p
  | _, .commit t p, _ => .committed t p
  | _, _, _ => .elsewhere

def Standing.isComplete : Standing α L → Bool
  | .complete _ _ => true
  | _ => false

def Standing.Allows (r : SessionRunner α L S) : Standing α L → Action α L → Prop
  | .elsewhere, .exit .. | .elsewhere, .commit .. | .elsewhere, .moveTo ..
  | .elsewhere, .clearCurrent .. | .elsewhere, .create .. => False
  | .elsewhere, _ => True
  | .complete t _, a => a = .readCurrent t
  | .leaving t p, a => a = .exit t p
  | .exited t p, a => a = .commit t p
  | .committed t p, a => (p.exitState = stateNone ∧ a = .clearCurrent t) ∨
      ∃ q, r.byEntryState p.exitState = some q ∧ a = .moveTo t p.exitState q

/-- The call has read `p` as the phase to leave and not moved the tracker on since. This
includes calls that returned early, on a failed exit or commit. -/
def Standing.Busy (t : Ref) (p : Phase α L) : Standing α L → Prop
  | .leaving t' p' | .exited t' p' | .committed t' p' => t' = t ∧ p' = p
  | _ => False

def Standing.Past (t : Ref) (p : Phase α L) : Standing α L → Prop
  | .exited t' p' | .committed t' p' => t' = t ∧ p' = p
  | _ => False

theorem Standing.Past.busy {t : Ref} {p : Phase α L} {x : Standing α L} (h : x.Past t p) :
    x.Busy t p := by
  cases x <;> first | exact h | exact h.elim

theorem advance_follows (r : SessionRunner α L S) (t : Ref) (p : Phase α L) (hops : ℕ) :
    (advance r t hops).Follows Standing.after (Standing.Allows r) (fun _ _ => True)
      (.complete t p) := by
  induction hops generalizing p with
  | zero => trivial
  | succ hops ih =>
    refine ⟨rfl, fun current => ?_⟩
    cases current with
    | none => trivial
    | some current =>
      refine ⟨rfl, fun e => ?_⟩
      cases e with
      | some e => trivial
      | none =>
        refine ⟨rfl, fun e => ?_⟩
        cases e with
        | some e => trivial
        | none =>
          split_ifs with hx
          · exact ⟨Or.inl ⟨hx, rfl⟩, fun _ => trivial⟩
          · split
            · trivial
            · rename_i next hn
              refine ⟨Or.inr ⟨next, hn, rfl⟩, fun _ => ⟨trivial, fun e => ?_⟩⟩
              cases e with
              | some e => trivial
              | none =>
                refine ⟨trivial, fun _ => ?_⟩
                split_ifs
                · trivial
                · refine ⟨trivial, fun done => ?_⟩
                  cases done with
                  | false => trivial
                  | true => exact ih next

theorem handleMessage_follows (r : SessionRunner α L S) (sid msgType sender : String)
    (payload : Bytes) :
    (handleMessage r sid msgType sender payload).Follows Standing.after (Standing.Allows r)
      (fun _ _ => True) .elsewhere := by
  simp only [handleMessage, call, Prog.call_bind]
  refine ⟨trivial, fun t => ?_⟩
  cases t with
  | none => trivial
  | some t =>
    refine ⟨trivial, fun current => ?_⟩
    cases current with
    | none => trivial
    | some current =>
      dsimp only
      split_ifs
      · refine ⟨trivial, fun e => ?_⟩
        cases e with
        | some e => trivial
        | none =>
          refine ⟨trivial, fun done => ?_⟩
          cases done with
          | false => trivial
          | true => exact advance_follows ..
      · exact ⟨trivial, fun _ => trivial⟩

variable {ι : Type} {h : List (ι × RunnerEvent α L S)}

section

def exitOf : Action α L → Option (Ref × String)
  | .exit t p => some (t, p.name)
  | _ => none

def exits (h : List (ι × RunnerEvent α L S)) : List (Ref × String) :=
  h.filterMap fun x => exitOf x.2.act

def Checked (t : Ref) (p : Phase α L) (h : List (ι × RunnerEvent α L S)) : Prop :=
  ∃ i s, (i, ⟨s, .checkComplete t p, true⟩) ∈ h

def completionOf : RunnerEvent α L S → Option (Ref × String)
  | ⟨_, .checkComplete t p, true⟩ => some (t, p.name)
  | _ => none

def completions (h : List (ι × RunnerEvent α L S)) : List (Ref × String) :=
  h.filterMap fun x => completionOf x.2

structure ExitDiscipline (h : List (ι × RunnerEvent α L S)) : Prop where
  once : (exits h).Nodup
  completed : ∀ h₁ x h₂ t p, h = h₁ ++ x :: h₂ → x.2.act = .exit t p → Checked t p h₁

theorem Checked.append {t : Ref} {p : Phase α L}
    (hc : Checked t p h) (x : ι × RunnerEvent α L S) : Checked t p (h ++ [x]) := by
  obtain ⟨i, s, hm⟩ := hc
  exact ⟨i, s, mem_append_left _ hm⟩

theorem ExitDiscipline.append (hd : ExitDiscipline h) {x : ι × RunnerEvent α L S}
    (hx : ∀ t p, x.2.act = .exit t p → (t, p.name) ∉ exits h ∧ Checked t p h) :
    ExitDiscipline (h ++ [x]) := by
  constructor
  · rw [exits, filterMap_append, nodup_append]
    refine ⟨hd.once, ?_, ?_⟩
    · cases hx' : exitOf x.2.act <;> simp [hx']
    · intro a ha b hb hab
      obtain ⟨t, p, hact, rfl⟩ : ∃ t p, x.2.act = .exit t p ∧ a = (t, p.name) := by
        cases hact : x.2.act <;> simp_all [exitOf]
      exact (hx t p hact).1 ha
  · intro h₁ y h₂ t p heq hy
    rcases eq_nil_or_concat h₂ with rfl | ⟨h₃, z, rfl⟩
    · obtain ⟨rfl, hxy⟩ := append_inj' heq rfl
      cases hxy
      exact (hx t p hy).2
    · have heq' : h ++ [x] = (h₁ ++ y :: h₃) ++ [z] := by simpa using heq
      exact hd.completed h₁ y h₃ t p (append_inj' heq' rfl).1 hy

end

section

variable (r : SessionRunner α L S)

/-- Tracker `t` stands at position `k` of the pipeline: at most one call is leaving that
position, and whatever was exited lies behind it or is what that call is leaving. -/
structure PlacedAt (st : ι → Standing α L) (s : RunnerState α L S)
    (h : List (ι × RunnerEvent α L S)) (t : Ref) (k : ℕ) : Prop where
  position : (s.trackers t).current = (inlinePhases r.phases)[k]?
  busy : ∀ i p, (st i).Busy t p → (inlinePhases r.phases)[k]? = some p
  unique : ∀ i j p q, (st i).Busy t p → (st j).Busy t q → i = j
  exited : ∀ x ∈ h, ∀ p, x.2.act = .exit t p → ∃ m, (inlinePhases r.phases)[m]? = some p ∧
    (m < k ∨ m = k ∧ ∃ i, (st i).Past t p)

variable {r} {st : ι → Standing α L} {s s' : RunnerState α L S} {t : Ref} {k : ℕ} {i : ι}
  {y : Standing α L} {e : RunnerEvent α L S}

variable {p : Phase α L}

theorem PlacedAt.not_exited (hp : PlacedAt r st s h t k) (hr : Pipeline r)
    (hi : st i = .leaving t p) : (t, p.name) ∉ exits h := by
  intro hm
  obtain ⟨x, hx, hact⟩ := mem_filterMap.mp hm
  obtain ⟨q, hq, hname⟩ : ∃ q, x.2.act = .exit t q ∧ q.name = p.name := by
    cases ha : x.2.act <;> simp_all [exitOf]
  have hbusy : (st i).Busy t p := by
    rw [hi]
    exact ⟨rfl, rfl⟩
  have hk := hp.busy i p hbusy
  obtain ⟨m, hm, hcase⟩ := hp.exited x hx q hq
  have hmk : m = k := by
    have hname' : ((inlinePhases r.phases).map Phase.name)[m]? =
        ((inlinePhases r.phases).map Phase.name)[k]? := by
      simp [hm, hk, hname]
    obtain ⟨hlt, -⟩ := List.getElem?_eq_some_iff.mp hm
    exact (List.getElem?_inj (by simpa using hlt) hr.chained.names).mp hname'
  rcases hcase with hlt | ⟨-, j, hj⟩
  · omega
  · have hij := hp.unique i j p q hbusy hj.busy
    subst hij
    rw [hi] at hj
    exact hj

variable {s : RunnerState α L S}

theorem placedAt_start (hs : OnPipeline r s) (t : Ref) :
    ∃ k, PlacedAt r (fun _ : ι => .elsewhere) s [] t k := by
  have hnone : ∀ p, ¬ (Standing.elsewhere : Standing α L).Busy t p := fun _ hb => hb
  cases hc : (s.trackers t).current with
  | none =>
    exact ⟨(inlinePhases r.phases).length, by simp [hc], fun _ p hb => absurd hb (hnone p),
      fun _ _ p _ hb => absurd hb (hnone p), by simp⟩
  | some p =>
    obtain ⟨k, hk⟩ := mem_iff_getElem?.mp (hs t p hc)
    exact ⟨k, hc.trans hk.symm, fun _ p hb => absurd hb (hnone p),
      fun _ _ p _ hb => absurd hb (hnone p), by simp⟩

variable [DecidableEq ι] {a : Action α L} {P : RunnerPool ι α L S}

theorem PlacedAt.stay (hp : PlacedAt r st s h t k)
    (hpos : (s'.trackers t).current = (s.trackers t).current)
    (hbusy : ∀ p, y.Busy t p → (st i).Busy t p ∨
      ((inlinePhases r.phases)[k]? = some p ∧ ∀ j q, ¬ (st j).Busy t q))
    (hpast : ∀ p, (st i).Past t p → y.Past t p) (hexit : ∀ p, e.act = .exit t p → y.Past t p) :
    PlacedAt r (update st i y) s' (h ++ [(i, e)]) t k := by
  have hk : ∀ p, y.Busy t p → (inlinePhases r.phases)[k]? = some p := fun p hy =>
    (hbusy p hy).elim (hp.busy i p) And.left
  have hother : ∀ j, j ≠ i → ∀ p q, y.Busy t p → ¬ (st j).Busy t q := by
    intro j hj p q hy hq
    rcases hbusy p hy with hi | ⟨-, hfree⟩
    · exact hj (hp.unique j i q p hq hi)
    · exact hfree j q hq
  refine ⟨hpos.trans hp.position, ?_, ?_, ?_⟩
  · intro j p hj
    by_cases hji : j = i
    · subst hji
      exact hk p (by simpa using hj)
    · exact hp.busy j p (by simpa [hji] using hj)
  · intro j l p q hj hl
    by_cases hji : j = i <;> by_cases hli : l = i
    · rw [hji, hli]
    · subst hji
      simp only [update_self, update_of_ne hli] at hj hl
      exact absurd hl (hother l hli p q hj)
    · subst hli
      simp only [update_self, update_of_ne hji] at hj hl
      exact absurd hj (hother j hji q p hl)
    · simp only [update_of_ne hji, update_of_ne hli] at hj hl
      exact hp.unique j l p q hj hl
  · intro x hx p hact
    rcases mem_append.mp hx with hx | hx
    · obtain ⟨m, hm, hlt | ⟨rfl, j, hj⟩⟩ := hp.exited x hx p hact
      · exact ⟨m, hm, Or.inl hlt⟩
      · refine ⟨m, hm, Or.inr ⟨rfl, ?_⟩⟩
        by_cases hji : j = i
        · subst hji
          exact ⟨j, by simpa using hpast p hj⟩
        · exact ⟨j, by simpa [hji] using hj⟩
    · rw [mem_singleton.mp hx] at hact
      have hy := hexit p hact
      exact ⟨k, hk p hy.busy, Or.inr ⟨rfl, i, by simpa using hy⟩⟩

theorem PlacedAt.move (hp : PlacedAt r st s h t k) (hi : (st i).Busy t p)
    (hpos : (s'.trackers t).current = (inlinePhases r.phases)[k + 1]?)
    (hact : ∀ p, e.act ≠ .exit t p) :
    PlacedAt r (update st i .elsewhere) s' (h ++ [(i, e)]) t (k + 1) := by
  have hfree : ∀ j q, ¬ (update st i Standing.elsewhere j).Busy t q := by
    intro j q hj
    by_cases hji : j = i
    · subst hji
      simp only [update_self] at hj
      exact hj
    · simp only [update_of_ne hji] at hj
      exact hji (hp.unique j i q p hj hi)
  refine ⟨hpos, fun j q hj => absurd hj (hfree j q), fun j _ q _ hj => absurd hj (hfree j q), ?_⟩
  intro x hx q hq
  rcases mem_append.mp hx with hx | hx
  · obtain ⟨m, hm, hlt | ⟨rfl, -⟩⟩ := hp.exited x hx q hq <;> exact ⟨m, hm, Or.inl (by omega)⟩
  · rw [mem_singleton.mp hx] at hq
    exact absurd hq (hact q)

def standing (P : RunnerPool ι α L S) : ι → Standing α L :=
  Pool.status Standing.after .elsewhere P.history

def NoOverlap (P : RunnerPool ι α L S) (i : ι) : Prop :=
  ∀ t p, standing P i = .complete t p →
    (P.state.trackers t).current = some p ∧ ∀ j q, ¬ (standing P j).Busy t q

def Acyclic (r : SessionRunner α L S) : Prop :=
  ∀ p, (inlinePhases r.phases).getLast? = some p → r.byEntryState p.exitState = none

structure Disciplined (r : SessionRunner α L S) (P : RunnerPool ι α L S) : Prop where
  follows : ∀ i, (P.threads i).Follows Standing.after (Standing.Allows r) (fun _ _ => True)
    (standing P i)
  placed : ∀ t, ∃ k, PlacedAt r (standing P) P.state P.history t k
  checked : ∀ i t p, standing P i = .complete t p ∨ standing P i = .leaving t p →
    Checked t p P.history
  discipline : ExitDiscipline P.history

theorem standing_append (P : RunnerPool ι α L S) (i : ι) (s : RunnerState α L S)
    (threads : ι → RunnerProg α L (Outcome (Except RunErr Bool))) (e : RunnerEvent α L S) :
    standing ⟨s, threads, P.history ++ [(i, e)]⟩ =
      update (standing P) i ((standing P i).after e.act e.res) := by
  funext j
  by_cases hj : j = i
  · subst hj
    simp [standing]
  · simp [standing, hj]

theorem moved_position (hr : Pipeline r) (ha : Acyclic r) (ω : MapOrder)
    (hk : (inlinePhases r.phases)[k]? = some p) (hok : (Standing.committed t p).Allows r a) :
    ((sem r ω a s).2.trackers t).current = (inlinePhases r.phases)[k + 1]? := by
  cases hnext : (inlinePhases r.phases)[k + 1]? with
  | none =>
    have hlast : (inlinePhases r.phases).getLast? = some p := by
      have hlt := (List.getElem?_eq_some_iff.mp hk).1
      have hge := List.getElem?_eq_none_iff.mp hnext
      rw [List.getLast?_eq_getElem?, ← hk]
      congr 1
      omega
    rcases hok with ⟨-, rfl⟩ | ⟨q, hq, -⟩
    · simp [sem]
    · rw [ha p hlast] at hq
      cases hq
  | some n =>
    have hn := hr.next hk hnext
    rcases hok with ⟨hnone, rfl⟩ | ⟨q, hq, rfl⟩
    · obtain ⟨hmem, hentry⟩ := (hr.byEntry _ _).mp hn
      exact absurd (hentry.trans hnone) (hr.chained.entered n hmem)
    · rw [hn] at hq
      cases hq
      simp [sem]

theorem elsewhere_step (hok : Standing.elsewhere.Allows r a) (res : a.Res) :
    ¬ Moves s t a ∧ (∀ p, a ≠ .exit t p) ∧
      ∀ p, ¬ (Standing.elsewhere.after a res : Standing α L).Busy t p := by
  cases a with
  | exit | commit | moveTo | clearCurrent | create => exact hok.elim
  | checkComplete t' q =>
    refine ⟨id, nofun, fun p hb => ?_⟩
    simp only [Standing.after] at hb
    split_ifs at hb <;> exact hb
  | _ => exact ⟨id, nofun, fun _ hb => hb⟩

theorem placed_step (hr : Pipeline r) (ha : Acyclic r) (ω : MapOrder)
    (hg : NoOverlap P i) (hok : (standing P i).Allows r a)
    (hp : ∃ k, PlacedAt r (standing P) P.state P.history t k) :
    ∃ k, PlacedAt r (update (standing P) i ((standing P i).after a (sem r ω a P.state).1))
      (sem r ω a P.state).2 (P.history ++ [(i, ⟨P.state, a, (sem r ω a P.state).1⟩)]) t k := by
  obtain ⟨k, hp⟩ := hp
  cases hst : standing P i with
  | elsewhere =>
    rw [hst] at hok
    obtain ⟨hmove, hexit, hbusy⟩ := elsewhere_step hok (sem r ω a P.state).1
    refine ⟨k, hp.stay (sem_position r ω hmove).2 ?_ ?_ ?_⟩
    · exact fun p hb => absurd hb (hbusy p)
    · rw [hst]
      exact fun p hb => hb.elim
    · exact fun p he => absurd he (hexit p)
  | complete t₀ p₀ =>
    rw [hst] at hok
    obtain rfl : a = .readCurrent t₀ := hok
    obtain ⟨hcur, hfree⟩ := hg t₀ p₀ hst
    refine ⟨k, hp.stay rfl ?_ ?_ ?_⟩
    · simp only [sem, hcur]
      rintro p ⟨rfl, rfl⟩
      exact Or.inr ⟨hp.position.symm.trans hcur, hfree⟩
    · rw [hst]
      exact fun p hb => hb.elim
    · rintro p ⟨⟩
  | leaving t₀ p₀ =>
    rw [hst] at hok
    obtain rfl : a = .exit t₀ p₀ := hok
    refine ⟨k, hp.stay (sem_position r ω id).2 ?_ ?_ ?_⟩
    · rw [hst]
      exact fun p hb => Or.inl hb
    · rw [hst]
      exact fun p hb => hb.elim
    · rintro p ⟨⟩
      exact ⟨rfl, rfl⟩
  | exited t₀ p₀ =>
    rw [hst] at hok
    obtain rfl : a = .commit t₀ p₀ := hok
    refine ⟨k, hp.stay (sem_position r ω id).2 ?_ ?_ ?_⟩
    · rw [hst]
      exact fun p hb => Or.inl hb
    · rw [hst]
      exact fun p hb => hb
    · rintro p ⟨⟩
  | committed t₀ p₀ =>
    rw [hst] at hok
    have hafter : (Standing.committed t₀ p₀).after a (sem r ω a P.state).1 = .elsewhere := by
      rcases hok with ⟨-, rfl⟩ | ⟨q, -, rfl⟩ <;> rfl
    have hexit : ∀ p, a ≠ .exit t p := by
      rcases hok with ⟨-, rfl⟩ | ⟨q, -, rfl⟩ <;> rintro p ⟨⟩
    rw [hafter]
    by_cases ht : t₀ = t
    · subst ht
      have hb : (standing P i).Busy t₀ p₀ := by
        rw [hst]
        exact ⟨rfl, rfl⟩
      exact ⟨k + 1, hp.move hb (moved_position hr ha ω (hp.busy i p₀ hb) hok) hexit⟩
    · have hmove : ¬ Moves P.state t a := by
        rcases hok with ⟨-, rfl⟩ | ⟨q, -, rfl⟩ <;> exact ht
      refine ⟨k, hp.stay (sem_position r ω hmove).2 (fun p hb => hb.elim) ?_ ?_⟩
      · rw [hst]
        exact fun p hb => absurd hb.1 ht
      · exact fun p he => absurd he (hexit p)

theorem checked_step (ω : MapOrder) (hP : Disciplined r P)
    (hg : NoOverlap P i) (hok : (standing P i).Allows r a)
    (hst : (standing P i).after a (sem r ω a P.state).1 = .complete t p ∨
      (standing P i).after a (sem r ω a P.state).1 = .leaving t p) :
    Checked t p (P.history ++ [(i, ⟨P.state, a, (sem r ω a P.state).1⟩)]) := by
  cases hx : standing P i with
  | elsewhere =>
    rw [hx] at hst
    cases a with
    | checkComplete t' q =>
      simp only [Standing.after] at hst
      split_ifs at hst with hd
      · simp only [or_false] at hst
        obtain ⟨rfl, rfl⟩ := hst
        exact ⟨i, P.state, by simp [hd]⟩
      · simp at hst
    | _ => simp [Standing.after] at hst
  | complete t₀ p₀ =>
    rw [hx] at hok hst
    obtain rfl : a = .readCurrent t₀ := hok
    simp only [sem, Standing.after, (hg t₀ p₀ hx).1, reduceCtorEq, false_or,
      Standing.leaving.injEq] at hst
    obtain ⟨rfl, rfl⟩ := hst
    exact (hP.checked i t₀ p₀ (Or.inl hx)).append _
  | leaving t₀ p₀ =>
    rw [hx] at hok hst
    obtain rfl : a = .exit t₀ p₀ := hok
    simp [Standing.after] at hst
  | exited t₀ p₀ =>
    rw [hx] at hok hst
    obtain rfl : a = .commit t₀ p₀ := hok
    simp [Standing.after] at hst
  | committed t₀ p₀ =>
    rw [hx] at hok hst
    rcases hok with ⟨-, rfl⟩ | ⟨q, -, rfl⟩ <;> simp [Standing.after] at hst

theorem allows_exit {x : Standing α L} (h : x.Allows r (.exit t p)) : x = .leaving t p := by
  cases x with
  | leaving t' q =>
    cases h
    rfl
  | committed t' q =>
    rcases h with ⟨-, h⟩ | ⟨_, -, h⟩ <;> cases h
  | elsewhere => exact h.elim
  | complete | exited => cases h

theorem disciplined_step (hr : Pipeline r) (ha : Acyclic r) (ω : MapOrder)
    {P Q : RunnerPool ι α L S} (hP : Disciplined r P) (hg : NoOverlap P i)
    (hs : P.step (sem r ω) i = some Q) : Disciplined r Q := by
  have hfollows := Pool.follows_step _ _ _ hP.follows hs
  obtain ⟨a, f, hf, rfl⟩ := Pool.step_eq_some _ hs
  have hok := hP.follows i
  rw [hf] at hok
  replace hok := hok.1
  refine ⟨hfollows, ?_, ?_, ?_⟩
  · intro t
    rw [standing_append]
    exact placed_step hr ha ω hg hok (hP.placed t)
  · intro j t p
    rw [standing_append]
    by_cases hj : j = i
    · subst hj
      rw [update_self]
      exact checked_step ω hP hg hok
    · rw [update_of_ne hj]
      exact fun h => (hP.checked j t p h).append _
  · refine hP.discipline.append ?_
    rintro t p rfl
    have hleave := allows_exit hok
    obtain ⟨k, hk⟩ := hP.placed t
    exact ⟨hk.not_exited hr hleave, hP.checked i t p (Or.inr hleave)⟩

def calls (r : SessionRunner α L S) (s : RunnerState α L S) (sid : String) (msgs : ι → Message) :
    RunnerPool ι α L S :=
  Pool.start s fun i => handleMessage r sid (msgs i).msgType (msgs i).sender (msgs i).payload

theorem disciplined_calls (hs : OnPipeline r s) (sid : String)
    (msgs : ι → Message) : Disciplined r (calls r s sid msgs) where
  follows i := handleMessage_follows r sid _ _ _
  placed t := placedAt_start hs t
  checked i t p h := by rcases h with h | h <;> cases h
  discipline := ⟨nodup_nil, by simp [calls, Pool.start]⟩

/-- Without overlap, every phase is exited at most once and only after it completed. -/
theorem exit_discipline (hr : Accepted r) (ha : Acyclic r) (ω : MapOrder) (store : S) (app : L)
    (sid cohortID : String) (msgs : ι → Message) {Q : RunnerPool ι α L S}
    (h : Pool.Run (sem r ω) NoOverlap
      (calls r (begun r ω store app sid cohortID) sid msgs) Q) : ExitDiscipline Q.history := by
  have hQ : Disciplined r Q := by
    refine h.invariant (sem r ω) ?_
      (disciplined_calls (onPipeline_begun hr.pipeline ω store app sid cohortID) sid msgs)
    exact fun P i R hP hg hs => disciplined_step hr.pipeline ha ω hP hg hs
  exact hQ.discipline

end

def twoQuorums : List (Phase Unit Unit) :=
  [quorumPhase "collect" "collecting" "deciding" "share" "shares" 2,
    quorumPhase "decide" "deciding" stateNone "vote" "votes" 1]

def twoShares (second : Bool) : Message :=
  ⟨"share", if second then "bob" else "alice", []⟩

def twoQuorumsRunner : SessionRunner Unit Unit Unit :=
  (compose twoQuorums).toOption.get (by decide)

def twoSharesCalls : RunnerPool Bool Unit Unit Unit :=
  calls twoQuorumsRunner (begun twoQuorumsRunner .listed () () "s" "") "s" twoShares

theorem twoQuorums_compose : compose twoQuorums = .ok twoQuorumsRunner := rfl

theorem twoQuorums_acyclic : Acyclic twoQuorumsRunner := by
  rintro p ⟨⟩
  rfl

theorem exit_discipline_twoShares : ∃ Q,
    Pool.Run (sem twoQuorumsRunner .listed) NoOverlap twoSharesCalls Q ∧
      exits Q.history = [(0, "collect")] ∧ ExitDiscipline Q.history := by
  have hg : twoSharesCalls.Guarded (sem twoQuorumsRunner .listed) NoOverlap
      [false, false, false, false, true, true, true, true, true, true, true, true, true, true] := by
    refine ⟨?_, rfl, ?_, rfl, ?_, rfl, ?_, rfl, ?_, rfl, ?_, rfl, ?_, rfl, ?_, rfl, ?_, rfl,
      ?_, rfl, ?_, rfl, ?_, rfl, ?_, rfl, ?_, rfl, trivial⟩
    case refine_9 =>
      rintro t p ⟨⟩
      exact ⟨rfl, fun j q => by cases j <;> exact id⟩
    all_goals rintro t p ⟨⟩
  exact ⟨_, hg.run, by decide,
    exit_discipline (Or.inl ⟨_, twoQuorums_compose⟩) twoQuorums_acyclic .listed () () "s" ""
      twoShares hg.run⟩

/-- Both calls pass `CheckComplete` of the first phase before either leaves it, and it is exited
twice; or the slower one finds the second phase current and exits it although its quorum was never
checked. -/
theorem overlapping_exits : compose twoQuorums = .ok twoQuorumsRunner ∧
    (∃ Q, Pool.Run (sem twoQuorumsRunner .listed) (fun _ _ => True) twoSharesCalls Q ∧
      ¬ (exits Q.history).Nodup) ∧
    ∃ Q, Pool.Run (sem twoQuorumsRunner .listed) (fun _ _ => True) twoSharesCalls Q ∧
      (0, "decide") ∈ exits Q.history ∧ (0, "decide") ∉ completions Q.history := by
  refine ⟨rfl, ⟨_, Pool.runSchedule_run _ _
      [false, false, false, true, true, true, false, true, false, true, false, true], ?_⟩,
    _, Pool.runSchedule_run _ _ [false, false, false, true, true, true, false, true,
      false, false, false, false, true, true], ?_⟩
  · decide
  · decide

end SessionRunnerInterleaving
