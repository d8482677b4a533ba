import Ares.SubmissionPhases

/-! The bucket of a submission phase takes messages of every sender and its quorum counts them. -/
namespace OutsiderMessages

open LineageNodes PhasePipelines SessionRunner SubmissionPhases List Function

section

variable {α L S : Type}

def deliver (p : Phase α L) (e : HookEnv α L) (m : Message) : HookEnv α L :=
  if phaseConsumes p m.msgType then
    let out := p.onMessage m.msgType m.sender m.payload e
    { e with ctx := { e.ctx with values := out.values }, app := out.app }
  else e

def deliverAll (p : Phase α L) (e : HookEnv α L) (ms : List Message) : HookEnv α L :=
  ms.foldl (deliver p) e

/-- The runner's delivery step does the same, for a phase whose `OnMessage` commits no
artifacts. -/
theorem deliver_sem (r : SessionRunner α L S) (ω : MapOrder) (s : RunnerState α L S) (t : Ref)
    (p : Phase α L) (m : Message) (hm : phaseConsumes p m.msgType = true)
    (hart : (p.onMessage m.msgType m.sender m.payload (s.env r t)).artifacts = []) :
    (sem r ω (.onMessage t p m.msgType m.sender m.payload) s).2.env r t =
      deliver p (s.env r t) m := by
  have hstore : (sem r ω (.onMessage t p m.msgType m.sender m.payload) s).2.store = s.store := by
    simp only [sem, applyHook, hart, commitArtifacts]
  have hctx : ((sem r ω (.onMessage t p m.msgType m.sender m.payload) s).2.trackers t).ctx =
      { (s.trackers t).ctx with
        values := (p.onMessage m.msgType m.sender m.payload (s.env r t)).values } := by
    simp [sem, applyHook]
  simp only [deliver, hm]
  simp only [RunnerState.env, hstore, hctx]
  rfl

end

def insiders (participants : List String) (ms : List Message) : List Message :=
  ms.filter fun m => m.sender ∈ participants

def latest (msgType : String) (ms : List Message) : StringMap Bytes :=
  (ms.filter fun m => m.msgType = msgType).foldl
    (fun b m => bucketInsert b m.sender m.payload) .empty

def within (participants : List String) (b : StringMap Bytes) : StringMap Bytes where
  entries := b.entries.filter fun x => x.1 ∈ participants
  keys_nodup := (filter_sublist.map _).nodup b.keys_nodup

theorem stringMap_ext {ν : Type} {b c : StringMap ν} (h : b.entries = c.entries) : b = c := by
  cases b
  cases h
  rfl

theorem within_insert (participants : List String) (b : StringMap Bytes) (sender : String)
    (payload : Bytes) : within participants (bucketInsert b sender payload) =
      if sender ∈ participants then bucketInsert (within participants b) sender payload
      else within participants b := by
  apply stringMap_ext
  by_cases hs : sender ∈ participants
  · simp [within, bucketInsert, hs, Bool.and_comm]
  · simp only [within, bucketInsert, hs, if_false, filter_append, filter_filter,
      filter_cons, decide_false, Bool.false_eq_true, filter_nil, append_nil]
    refine filter_congr fun x _ => ?_
    by_cases hx : x.1 = sender
    · simp [hx, hs]
    · simp [hx]

theorem latest_insiders (msgType : String) (participants : List String) (ms : List Message) :
    latest msgType (insiders participants ms) = within participants (latest msgType ms) := by
  unfold latest insiders
  rw [filter_comm, foldl_filter]
  refine @List.foldl_hom _ _ _ (within participants) _ _ _ .empty fun b m => ?_
  rw [within_insert]
  simp

theorem sender_of_mem_latest {msgType x : String} {ms : List Message} :
    x ∈ (latest msgType ms).entries.map Prod.fst →
      ∃ m ∈ ms, m.sender = x ∧ m.msgType = msgType := by
  refine List.foldlRecOn (motive := fun b : StringMap Bytes => x ∈ b.entries.map Prod.fst → _) _ _
    (fun h => absurd h not_mem_nil) fun b ih m hm h => ?_
  simp only [bucketInsert, map_append, mem_append, map_cons, map_nil,
    mem_singleton] at h
  rcases h with h | rfl
  · exact ih ((filter_sublist.map _).subset h)
  · obtain ⟨hm, ht⟩ := mem_filter.mp hm
    exact ⟨m, hm, rfl, by simpa using ht⟩

theorem length_within_le (participants : List String) (b : StringMap Bytes) :
    (within participants b).entries.length ≤ b.entries.length := length_filter_le _ _

theorem submitted_of_length_le {participants : List String} {b : StringMap Bytes}
    (h : participants.length ≤ (within participants b).entries.length) {x : String}
    (hx : x ∈ participants) : x ∈ b.entries.map Prod.fst := by
  have hsub : (within participants b).entries.map Prod.fst ⊆ participants := by
    intro y hy
    obtain ⟨z, hz, rfl⟩ := mem_map.mp hy
    simpa using (mem_filter.mp hz).2
  have hperm := (subperm_of_subset (within participants b).keys_nodup hsub).perm_of_length_le
    (by simpa using h)
  have hmem := hperm.symm.mem_iff.mp hx
  obtain ⟨z, hz, rfl⟩ := mem_map.mp hmem
  exact mem_map.mpr ⟨z, (mem_filter.mp hz).1, rfl⟩

def frontOrder (k : String) : EntryOrder where
  order l := l.filter (fun x => x.1 = k) ++ l.filter fun x => !decide (x.1 = k)
  perm l := filter_append_perm _ l

def compOrder (ω ω' : EntryOrder) : EntryOrder where
  order l := ω.order (ω'.order l)
  perm l := (ω.perm _).trans (ω'.perm l)

theorem frontOrder_cons {ν : Type} {l : List (String × ν)} (hl : (l.map Prod.fst).Nodup)
    {x : String × ν} (hx : x ∈ l) :
    (frontOrder x.1).order l = x :: l.filter fun y => !decide (y.1 = x.1) := by
  classical
  have hfilter : l.filter (fun y => decide (y.1 = x.1)) = l.filter (· = x) := by
    refine filter_congr fun y hy => decide_eq_decide.mpr ⟨fun h => ?_, congrArg _⟩
    exact inj_on_of_nodup_map hl hy hx h
  simp only [frontOrder, hfilter, filter_eq, count_eq_one_of_mem hl.of_map hx,
    replicate_one, singleton_append]

theorem lookup_eq_some_iff_mem {ν : Type} {l : List (String × ν)} (hl : (l.map Prod.fst).Nodup)
    {k : String} {v : ν} : l.lookup k = some v ↔ (k, v) ∈ l := by
  rw [List.lookup_eq_some_iff]
  constructor
  · rintro ⟨before, after, rfl, -⟩
    simp
  · intro mem
    obtain ⟨before, after, rfl⟩ := append_of_mem mem
    refine ⟨before, after, rfl, fun x hx => ?_⟩
    rw [map_append, map_cons, nodup_append] at hl
    simpa using (hl.2.2 x.1 (mem_map_of_mem hx) k mem_cons_self).symm

variable {l : List (String × Bytes)} {F H : Type}

section

variable {β γ : Type} {decode : Bytes → Except String β} {err : String → String → ExitErr}
  {bs : List (String × β)}

def Decodes (decode : Bytes → Except String β) (x : String × Bytes) : Prop :=
  ∃ b, decode x.2 = .ok b

theorem not_decodes_iff {x : String × Bytes} : ¬ Decodes decode x ↔ ∃ t, decode x.2 = .error t := by
  unfold Decodes
  cases decode x.2 <;> simp

def decoded (decode : Bytes → Except String β) (l : List (String × Bytes)) (sender : String) :
    Option β :=
  (l.lookup sender).bind fun payload => (decode payload).toOption

theorem decodeAll_error {e : ExitErr} (h : decodeAll decode err l = .error e) :
    ∃ x ∈ l, ∃ t, decode x.2 = .error t ∧ err x.1 t = e := by
  fun_induction decodeAll decode err l with
  | case1 | case4 => cases h
  | case2 sender payload rest t hd =>
    cases h
    exact ⟨_, mem_cons_self, t, hd, rfl⟩
  | case3 sender payload rest b hd e' hrest ih =>
    obtain ⟨x, hx, found⟩ := ih (hrest.trans h)
    exact ⟨x, mem_cons_of_mem _ hx, found⟩

theorem decodeAll_ok (h : decodeAll decode err l = .ok bs) :
    bs.map Prod.fst = l.map Prod.fst ∧ (∀ x ∈ l, ∃ b, decode x.2 = .ok b ∧ (x.1, b) ∈ bs) := by
  fun_induction decodeAll decode err l generalizing bs with
  | case1 =>
    cases h
    simp
  | case2 | case3 => cases h
  | case4 sender payload rest b hd bs' hrest ih =>
    cases h
    obtain ⟨hkeys, hmem⟩ := ih hrest
    refine ⟨by simp [hkeys], forall_mem_cons.mpr ⟨⟨b, hd, mem_cons_self⟩, ?_⟩⟩
    intro x hx
    obtain ⟨b', hb', hm⟩ := hmem x hx
    exact ⟨b', hb', mem_cons_of_mem _ hm⟩

theorem decodeAll_lookup {l' : List (String × Bytes)} (hl : (l.map Prod.fst).Nodup)
    (hperm : l'.Perm l) (h : decodeAll decode err l' = .ok bs) :
    (fun sender => bs.lookup sender) = decoded decode l := by
  obtain ⟨hkeys, hmem⟩ := decodeAll_ok h
  have hl' := (hperm.map Prod.fst).nodup_iff.mpr hl
  have hbs := hkeys ▸ hl'
  funext sender
  cases hpay : l.lookup sender with
  | none =>
    have hnone : bs.lookup sender = none := by
      by_contra hne
      obtain ⟨b, hb⟩ := Option.ne_none_iff_exists'.mp hne
      have hin := hkeys ▸ mem_map.mpr ⟨_, (lookup_eq_some_iff_mem hbs).mp hb, rfl⟩
      obtain ⟨x, hx, rfl⟩ := mem_map.mp hin
      have hsome := (lookup_eq_some_iff_mem hl).mpr (hperm.mem_iff.mp hx)
      cases hpay.symm.trans hsome
    simp [decoded, hpay, hnone]
  | some payload =>
    have hx := hperm.mem_iff.mpr ((lookup_eq_some_iff_mem hl).mp hpay)
    obtain ⟨b, hb, hin⟩ := hmem _ hx
    have hsome := (lookup_eq_some_iff_mem hbs).mpr hin
    simp [decoded, hpay, hsome, show decode payload = .ok b from hb, Except.toOption]

theorem exists_order_decodeAll (decode : Bytes → Except String β)
    (err : String → String → ExitErr) (hl : (l.map Prod.fst).Nodup) (f : EntryOrder → γ)
    (bad : ExitErr → γ) (good : EntryOrder → (String → Option β) → γ)
    (hbad : ∀ ω e, decodeAll decode err (ω.order l) = .error e → f ω = bad e)
    (hgood : ∀ ω bs, decodeAll decode err (ω.order l) = .ok bs →
      f ω = good ω fun sender => bs.lookup sender) (x : γ) :
    (∃ ω, f ω = x) ↔ (∃ y ∈ l, ∃ t, decode y.2 = .error t ∧ bad (err y.1 t) = x) ∨
      (∀ y ∈ l, Decodes decode y) ∧ ∃ ω, good ω (decoded decode l) = x := by
  constructor
  · rintro ⟨ω, rfl⟩
    cases hd : decodeAll decode err (ω.order l) with
    | error e =>
      obtain ⟨y, hy, t, ht, rfl⟩ := decodeAll_error hd
      exact Or.inl ⟨y, (ω.perm l).mem_iff.mp hy, t, ht, (hbad ω _ hd).symm⟩
    | ok bs =>
      refine Or.inr ⟨fun y hy => ?_, ω, ?_⟩
      · obtain ⟨b, hb, -⟩ := (decodeAll_ok hd).2 y ((ω.perm l).mem_iff.mpr hy)
        exact ⟨b, hb⟩
      · rw [hgood ω bs hd, decodeAll_lookup hl (ω.perm l) hd]
  · rintro (⟨y, hy, t, ht, rfl⟩ | ⟨hall, ω, rfl⟩)
    · refine ⟨frontOrder y.1, hbad _ _ ?_⟩
      rw [frontOrder_cons hl hy]
      simp [decodeAll, ht]
    · refine ⟨ω, ?_⟩
      cases hd : decodeAll decode err (ω.order l) with
      | error e =>
        obtain ⟨y, hy, t, ht, -⟩ := decodeAll_error hd
        exact absurd (hall y ((ω.perm l).mem_iff.mp hy)) (not_decodes_iff.mpr ⟨t, ht⟩)
      | ok bs => rw [hgood ω bs hd, decodeAll_lookup hl (ω.perm l) hd]

end

section

variable {decode : Bytes → Except String SlotEntry} {e : ExitErr} {l' : List (String × Bytes)}
  {slots : List SlotEntry}

def Twice (decode : Bytes → Except String SlotEntry) (l : List (String × Bytes)) (k : ℤ) : Prop :=
  ∃ x ∈ l, ∃ y ∈ l, x.1 ≠ y.1 ∧ ∃ a b, decode x.2 = .ok a ∧ decode y.2 = .ok b ∧
    a.slotIndex = k ∧ b.slotIndex = k

inductive Fault (decode : Bytes → Except String SlotEntry) (l : List (String × Bytes)) :
    ExitErr → Prop where
  | decode {x t} (hx : x ∈ l) (ht : decode x.2 = .error t) : Fault decode l (.decodeSlot x.1 t)
  | duplicate {k} (h : Twice decode l k) : Fault decode l (.duplicateSlot k)

theorem Twice.mono (h : ∀ x ∈ l, x ∈ l') {k : ℤ} (ht : Twice decode l k) : Twice decode l' k := by
  obtain ⟨x, hx, y, hy, rest⟩ := ht
  exact ⟨x, h x hx, y, h y hy, rest⟩

theorem Fault.mono (h : ∀ x ∈ l, x ∈ l') (hf : Fault decode l e) : Fault decode l' e := by
  cases hf with
  | decode hx ht => exact .decode (h _ hx) ht
  | duplicate ht => exact .duplicate (ht.mono h)

theorem Fault.sender {s t : String} (h : Fault decode l (.decodeSlot s t)) :
    ∃ x ∈ l, x.1 = s ∧ decode x.2 = .error t := by
  cases h with
  | decode hx ht => exact ⟨_, hx, rfl, ht⟩

theorem Fault.ne_commitFailure (h : Fault decode l e) (answer : Option AppErr) :
    commitFailure answer ≠ some e := by
  cases answer with
  | none => simp [commitFailure]
  | some a =>
    simp only [commitFailure]
    split_ifs
    · simp
    · cases h <;> simp

theorem collectSlots_error {seen : List ℤ} (hl : (l.map Prod.fst).Nodup)
    (h : collectSlots decode seen l = .error e) :
    Fault decode l e ∨
      ∃ x ∈ l, ∃ a, decode x.2 = .ok a ∧ a.slotIndex ∈ seen ∧ e = .duplicateSlot a.slotIndex := by
  fun_induction collectSlots decode seen l with
  | case1 | case5 => cases h
  | case2 seen sender payload rest t hd =>
    cases h
    exact Or.inl (.decode mem_cons_self hd)
  | case3 seen sender payload rest a hd hseen =>
    cases h
    exact Or.inr ⟨_, mem_cons_self, a, hd, hseen, rfl⟩
  | case4 seen sender payload rest a hd hseen e' hrest ih =>
    simp only [map_cons, nodup_cons] at hl
    rcases ih hl.2 (hrest.trans h) with hf | ⟨y, hy, b, hb, hin, rfl⟩
    · exact Or.inl (hf.mono fun _ hx => mem_cons_of_mem _ hx)
    · rcases mem_cons.mp hin with hsame | hin
      · -- The index was seen in this very list.
        have hne : sender ≠ y.1 := fun heq => hl.1 (heq ▸ mem_map_of_mem hy)
        exact Or.inl (.duplicate ⟨(sender, payload), mem_cons_self, y,
          mem_cons_of_mem _ hy, hne, a, b, hd, hb, hsame.symm, rfl⟩)
      · exact Or.inr ⟨y, mem_cons_of_mem _ hy, b, hb, hin, rfl⟩

def DistinctSlots (decode : Bytes → Except String SlotEntry) (x y : String × Bytes) : Prop :=
  ∀ a b, decode x.2 = .ok a → decode y.2 = .ok b → a.slotIndex ≠ b.slotIndex

instance : Std.Symm (DistinctSlots decode) :=
  ⟨fun _ _ h a b ha hb => (h b a hb ha).symm⟩

theorem collectSlots_ok {seen : List ℤ} (h : collectSlots decode seen l = .ok slots) :
    slots.length = l.length ∧ (∀ x ∈ l, ∃ a, decode x.2 = .ok a ∧ a.slotIndex ∉ seen) ∧
      l.Pairwise (DistinctSlots decode) := by
  fun_induction collectSlots decode seen l generalizing slots with
  | case1 =>
    cases h
    simp
  | case2 | case3 | case4 => cases h
  | case5 seen sender payload rest a hd hseen slots' hrest ih =>
    cases h
    obtain ⟨hlen, hall, hpair⟩ := ih hrest
    refine ⟨by simp [hlen], forall_mem_cons.mpr ⟨⟨a, hd, hseen⟩, ?_⟩,
      pairwise_cons.mpr ⟨?_, hpair⟩⟩
    · intro x hx
      obtain ⟨b, hb, hnot⟩ := hall x hx
      exact ⟨b, hb, fun hin => hnot (mem_cons_of_mem _ hin)⟩
    · intro y hy a' b ha' hb hsame
      obtain ⟨b', hb', hnot⟩ := hall y hy
      cases ha'.symm.trans hd
      cases hb.symm.trans hb'
      exact hnot (mem_cons.mpr (Or.inl hsame.symm))

theorem not_fault_of_ok (h : collectSlots decode [] l = .ok slots)
    (e : ExitErr) : ¬ Fault decode l e := by
  obtain ⟨-, hall, hpair⟩ := collectSlots_ok h
  intro hf
  cases hf with
  | decode hx ht =>
    obtain ⟨a, ha, -⟩ := hall _ hx
    cases ha.symm.trans ht
  | duplicate htwice =>
    obtain ⟨x, hx, y, hy, hne, a, b, ha, hb, hk, hk'⟩ := htwice
    have hdistinct := hpair.forall hx hy fun he => hne (congrArg Prod.fst he)
    exact hdistinct a b ha hb (hk.trans hk'.symm)

theorem exists_order_fault (hl : (l.map Prod.fst).Nodup) (hf : Fault decode l e) :
    ∃ ω : EntryOrder, collectSlots decode [] (ω.order l) = .error e := by
  cases hf with
  | @decode x t hx ht =>
    refine ⟨frontOrder x.1, ?_⟩
    rw [frontOrder_cons hl hx]
    simp [collectSlots, ht]
  | @duplicate k htwice =>
    obtain ⟨x, hx, y, hy, hne, a, b, ha, hb, hk, hk'⟩ := htwice
    -- First `x`, then `y`.
    refine ⟨compOrder (frontOrder x.1) (frontOrder y.1), ?_⟩
    have hl' := (((frontOrder y.1).perm l).map Prod.fst).nodup_iff.mpr hl
    have hx' := ((frontOrder y.1).perm l).mem_iff.mpr hx
    have horder : (compOrder (frontOrder x.1) (frontOrder y.1)).order l =
        x :: y ::
          ((l.filter fun z => !decide (z.1 = y.1)).filter fun z => !decide (z.1 = x.1)) := by
      simp only [compOrder]
      rw [frontOrder_cons hl' hx', frontOrder_cons hl hy]
      simp [Ne.symm hne]
    rw [horder]
    subst hk
    simp [collectSlots, ha, hb, hk']

end

section

def bucketKeys : List String :=
  [Anon.bucketOnions, Anon.bucketPeels, Anon.bucketSlots, BoundCheck.bucketPartials,
    Voting.bucketBallots]

structure SameOutside (e e' : Env F H) : Prop where
  values : ∀ k ∉ bucketKeys, e'.ctx.values k = e.ctx.values k
  app : e'.app = e.app
  dag : e'.dag = e.dag

theorem SameOutside.refl (e : Env F H) : SameOutside e e := ⟨fun _ _ => rfl, rfl, rfl⟩

theorem SameOutside.trans {e e' e'' : Env F H} (h : SameOutside e e') (h' : SameOutside e' e'') :
    SameOutside e e'' :=
  ⟨fun k hk => (h'.values k hk).trans (h.values k hk), h'.app.trans h.app, h'.dag.trans h.dag⟩

theorem SameOutside.symm {e e' : Env F H} (h : SameOutside e e') : SameOutside e' e :=
  ⟨fun k hk => (h.values k hk).symm, h.app.symm, h.dag.symm⟩

theorem accumulated_accumulate (values : String → Option (Value (Entry F H)))
    (bucketKey sender : String) (payload : Bytes) :
    accumulatedMessages (accumulateMessage values bucketKey sender payload) bucketKey =
      bucketInsert (accumulatedMessages values bucketKey) sender payload := by
  simp only [accumulatedMessages, tryBlobs, accumulateMessage, update_self]
  cases values bucketKey with
  | none => rfl
  | some v => cases v <;> rfl

theorem messageCount_eq (values : String → Option (Value (Entry F H))) (bucketKey : String) :
    messageCount values bucketKey = (accumulatedMessages values bucketKey).entries.length := by
  simp only [messageCount, accumulatedMessages, tryBlobs]
  cases values bucketKey with
  | none => rfl
  | some v => cases v <;> rfl

def collected (bucketKey : String) (m : Message) (e : Env F H) : Env F H :=
  { e with ctx := { e.ctx with
      values := accumulateMessage e.ctx.values bucketKey m.sender m.payload } }

theorem sameOutside_collected {bucketKey : String} (hk : bucketKey ∈ bucketKeys) (m : Message)
    (e : Env F H) : SameOutside e (collected bucketKey m e) := by
  refine ⟨fun k hnot => ?_, rfl, rfl⟩
  have hne : k ≠ bucketKey := fun he => hnot (he ▸ hk)
  simp [collected, accumulateMessage, update_of_ne hne]

theorem deliver_of_collect {q : Phase (Entry F H) (List (Violation F))} {m : Message} {e : Env F H}
    {bucketKey : String} (hc : m.msgType ∈ q.consumedMessageTypes)
    (ho : q.onMessage m.msgType m.sender m.payload e = collect bucketKey m.sender m.payload e) :
    deliver q e m = collected bucketKey m e := by
  rw [deliver, if_pos (phaseConsumes_iff.mpr hc)]
  simp only [ho]
  rfl

def holding (p : SubmissionPhase F H) (e : Env F H) (b : StringMap Bytes) : Env F H :=
  { e with ctx := { e.ctx with
      values := update e.ctx.values p.bucketKey (some (.bucket b)) } }

theorem sameOutside_holding (p : SubmissionPhase F H) (e : Env F H) (b : StringMap Bytes) :
    SameOutside e (holding p e b) := by
  have hk : p.bucketKey ∈ bucketKeys := by
    cases p <;> simp [SubmissionPhase.bucketKey, bucketKeys]
  refine ⟨fun k hnot => ?_, rfl, rfl⟩
  have hne : k ≠ p.bucketKey := fun he => hnot (he ▸ hk)
  simp [holding, update_of_ne hne]

theorem accumulated_holding (p : SubmissionPhase F H) (e : Env F H) (b : StringMap Bytes) :
    accumulatedMessages (holding p e b).ctx.values p.bucketKey = b := by
  simp [holding, accumulatedMessages, tryBlobs]

end

section

/-- What can be seen of an exit: its error, the context entries the phase provides, and the
violations reported. -/
structure Ending (F H : Type) where
  err : Option ExitErr
  stored : String → Option (Value (Entry F H))
  reports : List (Violation F)

structure Observation (F H : Type) where
  complete : Bool
  endings : Set (Ending F H)

variable [Zero F] [One F] [Add F] [Sub F] [Max F] [LE F] [DecidableLE F]

def provided (p : SubmissionPhase F H) (values : String → Option (Value (Entry F H))) :
    String → Option (Value (Entry F H)) :=
  fun k => if k ∈ (p.phase .listed).provides.entries.map Prod.fst then values k else none

def ending (p : SubmissionPhase F H) (out : ExitOut F H) : Ending F H :=
  ⟨out.err, provided p out.values, out.reports⟩

def endings (p : SubmissionPhase F H) (e : Env F H) : Set (Ending F H) :=
  Set.range fun ω => ending p (p.exit ω e)

def observe (p : SubmissionPhase F H) (e : Env F H) (ms : List Message) : Observation F H :=
  let e' := deliverAll (p.phase .listed) e ms
  ⟨(p.phase .listed).checkComplete e', endings p e'⟩

variable (p : SubmissionPhase F H)

theorem deliver_spec (e : Env F H) (m : Message) :
    SameOutside e (deliver (p.phase .listed) e m) ∧
      accumulatedMessages (deliver (p.phase .listed) e m).ctx.values p.bucketKey =
        if m.msgType = p.msgType then
          bucketInsert (accumulatedMessages e.ctx.values p.bucketKey) m.sender m.payload
        else accumulatedMessages e.ctx.values p.bucketKey := by
  by_cases ht : m.msgType = p.msgType
  · have hc : m.msgType ∈ (p.phase .listed).consumedMessageTypes := by
      rw [ht]
      cases p <;> simp [SubmissionPhase.phase, SubmissionPhase.msgType, phaseGShuffle, phaseGVerify,
        BoundCheck.BoundPhase.phase, Voting.phaseSubmitVote]
    have ho : (p.phase .listed).onMessage m.msgType m.sender m.payload e =
        collect p.bucketKey m.sender m.payload e := by
      rw [ht]
      cases p with
      | gShuffle | gVerify | boundCheck | submitVote => rfl
    have hk : p.bucketKey ∈ bucketKeys := by
      cases p <;> simp [SubmissionPhase.bucketKey, bucketKeys]
    rw [deliver_of_collect hc ho, if_pos ht]
    exact ⟨sameOutside_collected hk m e, accumulated_accumulate ..⟩
  · rw [if_neg ht]
    by_cases hc : m.msgType ∈ (p.phase .listed).consumedMessageTypes
    · -- Only the shuffle consumes a second type, and keeps it in a bucket of its own.
      cases p with
      | gShuffle =>
        have hbatch : m.msgType = Anon.msgOnionBatch := by
          rcases mem_cons.mp hc with h | h
          · exact h
          · exact (ht (mem_singleton.mp h)).elim
        have ho : (phaseGShuffle : Phase (Entry F H) _).onMessage m.msgType m.sender m.payload e =
            collect Anon.bucketOnions m.sender m.payload e := by
          rw [hbatch]
          rfl
        have hdel := deliver_of_collect (q := phaseGShuffle) hc ho
        simp only [SubmissionPhase.phase, hdel]
        have hne : Anon.bucketPeels ≠ Anon.bucketOnions := by decide
        refine ⟨sameOutside_collected (by simp [bucketKeys]) m e, ?_⟩
        simp [collected, accumulatedMessages, tryBlobs, accumulateMessage,
          SubmissionPhase.bucketKey, update_of_ne hne]
      | gVerify | boundCheck | submitVote => exact (ht (mem_singleton.mp hc)).elim
    · rw [deliver, if_neg fun h => hc (phaseConsumes_iff.mp h)]
      exact ⟨.refl e, rfl⟩

theorem deliverAll_spec (e : Env F H) (ms : List Message) :
    SameOutside e (deliverAll (p.phase .listed) e ms) ∧
      accumulatedMessages (deliverAll (p.phase .listed) e ms).ctx.values p.bucketKey =
        (ms.filter fun m => m.msgType = p.msgType).foldl
          (fun b m => bucketInsert b m.sender m.payload)
          (accumulatedMessages e.ctx.values p.bucketKey) := by
  induction ms generalizing e with
  | nil => exact ⟨.refl e, rfl⟩
  | cons m ms ih =>
    obtain ⟨hout, hbucket⟩ := deliver_spec p e m
    obtain ⟨hout', hbucket'⟩ := ih (deliver (p.phase .listed) e m)
    refine ⟨hout.trans hout', ?_⟩
    rw [hbucket] at hbucket'
    by_cases ht : m.msgType = p.msgType <;> simpa [ht, deliverAll] using hbucket'

section

variable {values values' : String → Option (Value (Entry F H))}
  (h : ∀ k ∉ bucketKeys, values' k = values k)

include h

theorem provided_congr : provided p values' = provided p values := by
  have hkeys : ∀ k ∈ (p.phase .listed).provides.entries.map Prod.fst, k ∉ bucketKeys := by
    cases p with
    | gShuffle | gVerify | boundCheck | submitVote =>
      simp only [SubmissionPhase.phase, phaseGShuffle, phaseGVerify, BoundCheck.BoundPhase.phase,
        Voting.phaseSubmitVote]
      decide
  funext k
  unfold provided
  split_ifs with hk
  · exact h k (hkeys k hk)
  · rfl

theorem provided_update (key : String) (v : Option (Value (Entry F H))) :
    provided p (update values' key v) = provided p (update values key v) := by
  refine provided_congr p fun k hk => ?_
  by_cases he : k = key
  · simp [he]
  · simpa [update_of_ne he] using h k hk

end

theorem ending_congr (p : SubmissionPhase F H) {e e' : Env F H} (h : SameOutside e e')
    (hb : accumulatedMessages e'.ctx.values p.bucketKey =
      accumulatedMessages e.ctx.values p.bucketKey) (ω : EntryOrder) :
    ending p (p.exit ω e') = ending p (p.exit ω e) := by
  have hsame : ∀ err, ending p (ended e' err) = ending p (ended e err) := by
    intro err
    simp only [ending, ended, h.app, provided_congr p h.values]
  cases p with
  | gShuffle =>
    simp only [SubmissionPhase.bucketKey] at hb
    simp only [SubmissionPhase.exit, exitGShuffle, ending, ended, h.app, hb,
      provided_update _ h.values]
  | gVerify exitState codec commit =>
    simp only [SubmissionPhase.bucketKey] at hb
    simp only [SubmissionPhase.exit, exitGVerify, hb, h.dag]
    cases collectSlots codec.decode []
        (ω.order (accumulatedMessages e.ctx.values Anon.bucketSlots).entries) with
    | error err => exact hsame _
    | ok slots => simp only [ending, h.app, provided_update _ h.values]
  | boundCheck q =>
    simp only [SubmissionPhase.bucketKey] at hb
    have hfuse : tryFuse e'.ctx.values BoundCheck.ctxBoundCheckFuse =
        tryFuse e.ctx.values BoundCheck.ctxBoundCheckFuse := by
      simp only [tryFuse, h.values BoundCheck.ctxBoundCheckFuse (by decide)]
    have hnames : tryNames e'.ctx.values BoundCheck.ctxParticipants =
        tryNames e.ctx.values BoundCheck.ctxParticipants := by
      simp only [tryNames, h.values BoundCheck.ctxParticipants (by decide)]
    simp only [SubmissionPhase.exit, BoundCheck.exitBound, hb, hfuse, hnames]
    cases q.fuse <|> tryFuse e.ctx.values BoundCheck.ctxBoundCheckFuse with
    | none => exact hsame _
    | some fuse =>
      cases decodeAll q.decode .decodePartials
          (ω.order (accumulatedMessages e.ctx.values BoundCheck.bucketPartials).entries) with
      | error err => exact hsame _
      | ok maps =>
        dsimp only
        cases BoundCheck.checkParties q fuse (fun sender => maps.lookup sender)
            ((tryNames e.ctx.values BoundCheck.ctxParticipants).getD [])
            ((tryNames e.ctx.values BoundCheck.ctxParticipants).getD []) with
        | error err => exact hsame _
        | ok found =>
          simp only [BoundCheck.reportAll]
          split_ifs
          · exact hsame _
          · simp only [ending, ended, h.app, provided_congr _ h.values]
          · simp only [ending, ended, h.app, provided_congr _ h.values]
  | submitVote entryState decode =>
    simp only [SubmissionPhase.bucketKey] at hb
    simp only [SubmissionPhase.exit, Voting.exitSubmitVote, hb]
    cases decodeAll decode .decodeBallot
        (ω.order (accumulatedMessages e.ctx.values Voting.bucketBallots).entries) with
    | error err => exact hsame _
    | ok decoded => simp only [ending, ended, h.app, provided_update _ h.values]

theorem observe_eq {e : Env F H} {participants : List String}
    (hps : e.ctx.values p.participantsKey = some (.other (.names participants)))
    (hfresh : accumulatedMessages e.ctx.values p.bucketKey = .empty) (ms : List Message) :
    observe p e ms = ⟨decide (participants.length ≤ (latest p.msgType ms).entries.length),
      endings p (holding p e (latest p.msgType ms))⟩ := by
  obtain ⟨hout, hbucket⟩ := deliverAll_spec p e ms
  rw [hfresh, ← latest] at hbucket
  have hkey : p.participantsKey ∉ bucketKeys := by
    cases p <;> simp only [SubmissionPhase.participantsKey] <;> decide
  have hcomplete : (p.phase .listed).checkComplete =
      allSubmitted p.participantsKey p.bucketKey := by
    cases p <;> rfl
  have hend : endings p (deliverAll (p.phase .listed) e ms) =
      endings p (holding p e (latest p.msgType ms)) := by
    refine congrArg Set.range (funext fun ω => ?_)
    refine ending_congr p ((sameOutside_holding p e _).symm.trans hout) ?_ ω
    rw [hbucket, accumulated_holding]
  simp only [observe, hend, hcomplete, allSubmitted, tryNames, hout.values _ hkey, hps,
    quorumReached, messageCount_eq, hbucket]

end

section

open BoundCheck

variable {m : String → Option (String → Option Bytes)}

theorem collectPartials_congr {m' : String → Option (String → Option Bytes)} {senders : List String}
    (h : ∀ s ∈ senders, m s = m' s) (checkedParty : String) :
    collectPartials m checkedParty senders = collectPartials m' checkedParty senders := by
  induction senders with
  | nil => rfl
  | cons s rest ih =>
    simp only [collectPartials, h s mem_cons_self,
      ih fun s' hs' => h s' (mem_cons_of_mem _ hs')]

section

variable {F H : Type} [Zero F] [Sub F] [Max F] [LE F] [DecidableLE F] (q : BoundPhase F H)
  (fuse : Fuse F)

include q fuse

theorem checkParties_congr {m' : String → Option (String → Option Bytes)}
    {participants : List String} (h : ∀ s ∈ participants, m s = m' s) (parties : List String) :
    checkParties q fuse m participants parties = checkParties q fuse m' participants parties := by
  induction parties with
  | nil => rfl
  | cons c rest ih => simp only [checkParties, collectPartials_congr h c, ih]

theorem checkParties_error {participants parties : List String} {err : ExitErr}
    (h : checkParties q fuse m participants parties = .error err) {s t : String} :
    err ≠ .decodePartials s t := by
  fun_induction checkParties q fuse m participants parties with
  | case1 | case3 | case7 => cases h
  | case2 | case6 =>
    rename_i hrest ih
    exact ih (hrest.trans h)
  | case4 | case5 =>
    cases h
    simp

end

end

section

variable [Zero F] [One F] [Add F] [Sub F] [Max F] [LE F] [DecidableLE F]

def stopped (p : SubmissionPhase F H) (e : Env F H) (err : ExitErr) : Ending F H :=
  ⟨some err, provided p e.ctx.values, e.app⟩

def storing (p : SubmissionPhase F H) (e : Env F H) (key : String) (v : Value (Entry F H))
    (err : Option ExitErr) : Ending F H :=
  ⟨err, provided p (update e.ctx.values key (some v)), e.app⟩

theorem ending_ended_holding (p : SubmissionPhase F H) (e : Env F H) (b : StringMap Bytes)
    (err : ExitErr) : ending p (ended (holding p e b) (some err)) = stopped p e err := by
  simp only [ending, ended, provided_congr p (sameOutside_holding p e b).values]
  rfl

theorem storing_inj {p : SubmissionPhase F H} {e : Env F H} {key : String}
    {v w : Value (Entry F H)} {err err' : Option ExitErr}
    (hkey : key ∈ (p.phase .listed).provides.entries.map Prod.fst)
    (h : storing p e key v err = storing p e key w err') : v = w := by
  have hstored := congrFun (congrArg Ending.stored h) key
  simpa [storing, provided, hkey] using hstored

theorem endings_gShuffle (e : Env F H) (b : StringMap Bytes) :
    endings .gShuffle (holding .gShuffle e b) =
      {storing .gShuffle e Anon.ctxPeelRounds (.other (.int b.entries.length)) none} := by
  have hend : ∀ ω : EntryOrder,
      ending .gShuffle (SubmissionPhase.exit ω .gShuffle (holding .gShuffle e b)) =
        storing .gShuffle e Anon.ctxPeelRounds (.other (.int b.entries.length)) none := by
    intro ω
    have hb := accumulated_holding (SubmissionPhase.gShuffle : SubmissionPhase F H) e b
    simp only [SubmissionPhase.exit, exitGShuffle, ending,
      provided_update _ (sameOutside_holding .gShuffle e b).values]
    rfl
  have : Nonempty EntryOrder := ⟨.listed⟩
  exact Set.range_eq_singleton_iff.mpr hend

section

variable (exitState : SessionState) (codec : SlotCodec) (commit : Artifact → Option AppErr)

def assembled (e : Env F H) (slots : List SlotEntry) : Ending F H :=
  let encoded := codec.encode (slots.mergeSort fun a b => decide (a.slotIndex ≤ b.slotIndex))
  storing (.gVerify exitState codec commit) e Anon.ctxAssembledSlotList (.bytes encoded)
    (commitFailure (commit ⟨"anon-g-verify", Anon.ctxAssembledSlotList, encoded,
      e.dag.filter fun n => n.role = Anon.roleSlotSubmission⟩))

variable {exitState codec commit} {P : SubmissionPhase F H}

theorem mem_endings_gVerify (hP : P = .gVerify exitState codec commit) (e : Env F H)
    (b : StringMap Bytes) (x : Ending F H) :
    x ∈ endings P (holding P e b) ↔
      (∃ err, Fault codec.decode b.entries err ∧ stopped P e err = x) ∨
      (∀ err, ¬ Fault codec.decode b.entries err) ∧
        ∃ slots : List SlotEntry, slots.length = b.entries.length ∧
          (∃ ω : EntryOrder, collectSlots codec.decode [] (ω.order b.entries) = .ok slots) ∧
          assembled exitState codec commit e slots = x := by
  have hexit : ∀ ω : EntryOrder, P.exit ω (holding P e b) =
      exitGVerify codec commit ω (holding P e b) := by
    rw [hP]
    exact fun _ => rfl
  have hb : accumulatedMessages (holding P e b).ctx.values Anon.bucketSlots = b := by
    rw [hP]
    exact accumulated_holding ..
  have hbad : ∀ (ω : EntryOrder) err,
      collectSlots codec.decode [] (ω.order b.entries) = .error err →
        ending P (P.exit ω (holding P e b)) = stopped P e err := by
    intro ω err hc
    simp only [hexit, exitGVerify, hb, hc]
    exact ending_ended_holding ..
  have hgood : ∀ (ω : EntryOrder) slots,
      collectSlots codec.decode [] (ω.order b.entries) = .ok slots →
        ending P (P.exit ω (holding P e b)) = assembled exitState codec commit e slots := by
    intro ω slots hc
    simp only [hexit, exitGVerify, hb, hc, ending, assembled, ← hP,
      provided_update _ (sameOutside_holding P e b).values]
    rfl
  constructor
  · rintro ⟨ω, rfl⟩
    have hmem : ∀ y, y ∈ ω.order b.entries ↔ y ∈ b.entries := fun y => (ω.perm _).mem_iff
    cases hc : collectSlots codec.decode [] (ω.order b.entries) with
    | error err =>
      have hnodup := ((ω.perm b.entries).map Prod.fst).nodup_iff.mpr b.keys_nodup
      refine Or.inl ⟨err, ?_, (hbad ω err hc).symm⟩
      rcases collectSlots_error hnodup hc with hf | ⟨_, _, _, _, hin, _⟩
      · exact hf.mono fun y hy => (hmem y).mp hy
      · cases hin
    | ok slots =>
      refine Or.inr ⟨fun err hf => ?_, slots, ?_, ⟨ω, hc⟩, (hgood ω slots hc).symm⟩
      · exact not_fault_of_ok hc err (hf.mono fun y hy => (hmem y).mpr hy)
      · exact (collectSlots_ok hc).1.trans (ω.perm _).length_eq
  · rintro (⟨err, hf, rfl⟩ | ⟨-, slots, -, ⟨ω, hc⟩, rfl⟩)
    · obtain ⟨ω, hc⟩ := exists_order_fault b.keys_nodup hf
      exact ⟨ω, hbad ω err hc⟩
    · exact ⟨ω, hgood ω slots hc⟩

end

theorem mem_endings_submitVote {P : SubmissionPhase F H} {entryState : SessionState}
    {decode : Bytes → Except String (ℤ × F)} (hP : P = .submitVote entryState decode) (e : Env F H)
    (b : StringMap Bytes) (x : Ending F H) :
    x ∈ endings P (holding P e b) ↔
      (∃ y ∈ b.entries, ∃ t, decode y.2 = .error t ∧ stopped P e (.decodeBallot y.1 t) = x) ∨
      (∀ y ∈ b.entries, Decodes decode y) ∧ storing P e Voting.ctxVoteBallots
          (.other (.ballots fun voter => (decoded decode b.entries voter).map
            (Voting.ballotOf voter))) none = x := by
  have hexit : ∀ ω : EntryOrder, P.exit ω (holding P e b) =
      Voting.exitSubmitVote decode ω (holding P e b) := by
    rw [hP]
    exact fun _ => rfl
  have hb : accumulatedMessages (holding P e b).ctx.values Voting.bucketBallots = b := by
    rw [hP]
    exact accumulated_holding ..
  have hends := exists_order_decodeAll decode .decodeBallot b.keys_nodup
    (fun ω => ending P (P.exit ω (holding P e b))) (stopped P e)
    (fun _ m => storing P e Voting.ctxVoteBallots
      (.other (.ballots fun voter => (m voter).map (Voting.ballotOf voter))) none) ?_ ?_ x
  · rw [endings, Set.mem_range, hends]
    refine or_congr_right (and_congr_right fun _ => ⟨?_, fun h => ⟨.listed, h⟩⟩)
    rintro ⟨-, h⟩
    exact h
  · intro ω err hc
    simp only [hexit, Voting.exitSubmitVote, hb, hc]
    exact ending_ended_holding ..
  · intro ω bs hc
    simp only [hexit, Voting.exitSubmitVote, hb, hc, ending,
      provided_update _ (sameOutside_holding P e b).values]
    rfl

section

open BoundCheck

variable (q : BoundPhase F H)

theorem endings_boundCheck_stub (e : Env F H) (b : StringMap Bytes)
    (hfuse : (q.fuse <|> tryFuse e.ctx.values ctxBoundCheckFuse) = none) :
    endings (.boundCheck q) (holding (.boundCheck q) e b) =
      {⟨none, provided (.boundCheck q) e.ctx.values, e.app⟩} := by
  have hout := sameOutside_holding (.boundCheck q) e b
  have hnone : (q.fuse <|> tryFuse (holding (.boundCheck q) e b).ctx.values
      ctxBoundCheckFuse) = none := by
    rw [← hfuse]
    simp only [tryFuse, hout.values ctxBoundCheckFuse (by decide)]
  have hend : ∀ ω : EntryOrder,
      ending (.boundCheck q) (SubmissionPhase.exit ω (.boundCheck q)
        (holding (.boundCheck q) e b)) = ⟨none, provided (.boundCheck q) e.ctx.values, e.app⟩ := by
    intro ω
    simp only [SubmissionPhase.exit, exitBound, hnone, ending, ended,
      provided_congr _ hout.values]
    rfl
  have : Nonempty EntryOrder := ⟨.listed⟩
  exact Set.range_eq_singleton_iff.mpr hend

def checkedEnding (e : Env F H) (fuse : Fuse F) (participants : List String) (ω : EntryOrder)
    (m : String → Option (String → Option Bytes)) : Ending F H :=
  match checkParties q fuse m participants participants with
  | .error err => stopped (.boundCheck q) e err
  | .ok found => ending (.boundCheck q) (reportAll q ω e found)

theorem checkedEnding_ne_stopped (e : Env F H) (fuse : Fuse F) (participants : List String)
    (ω : EntryOrder) (m : String → Option (String → Option Bytes)) {s t : String} :
    checkedEnding q e fuse participants ω m ≠ stopped (.boundCheck q) e (.decodePartials s t) := by
  intro h
  have herr := congrArg Ending.err h
  simp only [checkedEnding] at herr
  cases hc : checkParties q fuse m participants participants with
  | error err =>
    simp only [hc, stopped, Option.some.injEq] at herr
    exact checkParties_error q fuse hc herr
  | ok found =>
    simp only [hc, reportAll] at herr
    split_ifs at herr <;> cases herr

theorem ending_reportAll_holding (e : Env F H) (b : StringMap Bytes) (ω : EntryOrder)
    (found : List (Violation F) × List String) :
    ending (.boundCheck q) (reportAll q ω (holding (.boundCheck q) e b) found) =
      ending (.boundCheck q) (reportAll q ω e found) := by
  have hvalues := provided_congr (.boundCheck q) (sameOutside_holding (.boundCheck q) e b).values
  simp only [reportAll]
  split_ifs
  all_goals
    simp only [ending, ended, hvalues]
    rfl

theorem mem_endings_boundCheck (e : Env F H) (b : StringMap Bytes) {fuse : Fuse F}
    (hfuse : (q.fuse <|> tryFuse e.ctx.values ctxBoundCheckFuse) = some fuse)
    {participants : List String}
    (hps : e.ctx.values ctxParticipants = some (.other (.names participants))) (x : Ending F H) :
    x ∈ endings (.boundCheck q) (holding (.boundCheck q) e b) ↔
      (∃ y ∈ b.entries, ∃ t, q.decode y.2 = .error t ∧
        stopped (.boundCheck q) e (.decodePartials y.1 t) = x) ∨
      (∀ y ∈ b.entries, Decodes q.decode y) ∧ ∃ ω : EntryOrder,
        checkedEnding q e fuse participants ω (decoded q.decode b.entries) = x := by
  have hout := sameOutside_holding (.boundCheck q) e b
  have hb := accumulated_holding (.boundCheck q) e b
  have hfuse' : (q.fuse <|> tryFuse (holding (.boundCheck q) e b).ctx.values
      ctxBoundCheckFuse) = some fuse := by
    rw [← hfuse]
    simp only [tryFuse, hout.values ctxBoundCheckFuse (by decide)]
  have hnames : (tryNames (holding (.boundCheck q) e b).ctx.values ctxParticipants).getD [] =
      participants := by
    simp [tryNames, hout.values ctxParticipants (by decide), hps]
  simp only [SubmissionPhase.bucketKey] at hb
  have hends := exists_order_decodeAll q.decode .decodePartials b.keys_nodup
    (fun ω => ending (.boundCheck q) (SubmissionPhase.exit ω (.boundCheck q)
      (holding (.boundCheck q) e b))) (stopped (.boundCheck q) e)
    (checkedEnding q e fuse participants) ?_ ?_ x
  · exact hends
  · intro ω err hc
    simp only [SubmissionPhase.exit, exitBound, hfuse', hb, hc]
    exact ending_ended_holding (.boundCheck q) e b err
  · intro ω bs hc
    simp only [SubmissionPhase.exit, exitBound, hfuse', hb, hc, hnames, checkedEnding]
    cases checkParties q fuse (fun sender => bs.lookup sender) participants participants with
    | error err => exact ending_ended_holding (.boundCheck q) e b err
    | ok found => exact ending_reportAll_holding ..

end

end

section

def NoOutsider (participants : List String) (b : StringMap Bytes) : Prop :=
  ∀ x ∈ b.entries, x.1 ∈ participants

def QuorumKept (participants : List String) (b : StringMap Bytes) : Prop :=
  participants.length ≤ (within participants b).entries.length ∨
    b.entries.length < participants.length

def OutsidersDecode {β : Type} (decode : Bytes → Except String β) (participants : List String)
    (b : StringMap Bytes) : Prop :=
  ∀ x ∈ b.entries, x.1 ∉ participants → Decodes decode x

variable {participants : List String} {b : StringMap Bytes}

theorem mem_within {x : String × Bytes} :
    x ∈ (within participants b).entries ↔ x ∈ b.entries ∧ x.1 ∈ participants := by
  simp [within]

theorem within_eq_self (h : NoOutsider participants b) : within participants b = b :=
  stringMap_ext (filter_eq_self.mpr fun x hx => by simpa using h x hx)

theorem noOutsider_of_length (h : b.entries.length = (within participants b).entries.length) :
    NoOutsider participants b := by
  have hself := length_filter_eq_length_iff.mp h.symm
  intro x hx
  simpa using hself x hx

theorem quorumKept_iff :
    decide (participants.length ≤ b.entries.length) =
        decide (participants.length ≤ (within participants b).entries.length) ↔
      QuorumKept participants b := by
  have hle := length_within_le participants b
  unfold QuorumKept
  rw [decide_eq_decide]
  omega

theorem lookup_within (b : StringMap Bytes) {s : String} (hs : s ∈ participants) :
    (within participants b).entries.lookup s = b.entries.lookup s := by
  refine Option.ext fun v => ?_
  rw [lookup_eq_some_iff_mem (within participants b).keys_nodup,
    lookup_eq_some_iff_mem b.keys_nodup,
    mem_within]
  exact and_iff_left hs

theorem OutsidersDecode.inside {β : Type} {decode : Bytes → Except String β}
    (h : OutsidersDecode decode participants b) {x : String × Bytes} (hx : x ∈ b.entries)
    {t : String} (ht : decode x.2 = .error t) : x ∈ (within participants b).entries := by
  refine mem_within.mpr ⟨hx, ?_⟩
  by_contra hnot
  exact not_decodes_iff.mpr ⟨t, ht⟩ (h x hx hnot)

theorem bad_within_iff {β : Type} {decode : Bytes → Except String β}
    (h : OutsidersDecode decode participants b) {P : String × Bytes → String → Prop} :
    (∃ y ∈ b.entries, ∃ t, decode y.2 = .error t ∧ P y t) ↔
      ∃ y ∈ (within participants b).entries, ∃ t, decode y.2 = .error t ∧ P y t := by
  constructor
  · rintro ⟨y, hy, t, ht, hP⟩
    exact ⟨y, h.inside hy ht, t, ht, hP⟩
  · rintro ⟨y, hy, t, ht, hP⟩
    exact ⟨y, (mem_within.mp hy).1, t, ht, hP⟩

variable [Zero F] [One F] [Add F] [Sub F] [Max F] [LE F] [DecidableLE F]

def Unmoved (p : SubmissionPhase F H) (e : Env F H) (participants : List String)
    (b : StringMap Bytes) : Prop :=
  match p with
  | .gShuffle => NoOutsider participants b
  | .gVerify _ codec _ => NoOutsider participants b ∨
      (QuorumKept participants b ∧ OutsidersDecode codec.decode participants b ∧
        (∃ err, Fault codec.decode (within participants b).entries err) ∧
        ∀ k, Twice codec.decode b.entries k → Twice codec.decode (within participants b).entries k)
  | .boundCheck q => QuorumKept participants b ∧
      ((q.fuse <|> tryFuse e.ctx.values BoundCheck.ctxBoundCheckFuse) = none ∨
        OutsidersDecode q.decode participants b)
  | .submitVote _ decode => NoOutsider participants b ∨
      (QuorumKept participants b ∧ OutsidersDecode decode participants b ∧
        ∃ y ∈ (within participants b).entries, ¬ Decodes decode y)

section

variable (e : Env F H) (participants : List String) (b : StringMap Bytes) {P : SubmissionPhase F H}

theorem endings_gShuffle_iff :
    endings (.gShuffle : SubmissionPhase F H) (holding .gShuffle e b) =
        endings .gShuffle (holding .gShuffle e (within participants b)) ↔
      NoOutsider participants b := by
  rw [endings_gShuffle, endings_gShuffle, Set.singleton_eq_singleton_iff]
  constructor
  · intro h
    have hkey : Anon.ctxPeelRounds ∈ ((SubmissionPhase.gShuffle : SubmissionPhase F H).phase
        .listed).provides.entries.map Prod.fst := mem_cons_self
    have hrounds := storing_inj hkey h
    simp only [Value.other.injEq, Entry.int.injEq, Nat.cast_inj] at hrounds
    exact noOutsider_of_length hrounds
  · intro h
    rw [within_eq_self h]

theorem endings_gVerify_iff {exitState : SessionState} {codec : SlotCodec}
    {commit : Artifact → Option AppErr} (hP : P = .gVerify exitState codec commit) :
    endings P (holding P e b) = endings P (holding P e (within participants b)) ↔
      NoOutsider participants b ∨ (OutsidersDecode codec.decode participants b ∧
        (∃ err, Fault codec.decode (within participants b).entries err) ∧
        ∀ k, Twice codec.decode b.entries k →
          Twice codec.decode (within participants b).entries k) := by
  have hsub : ∀ x ∈ (within participants b).entries, x ∈ b.entries :=
    fun x hx => (mem_within.mp hx).1
  constructor
  · intro h
    by_cases hclean : ∀ err, ¬ Fault codec.decode b.entries err
    · -- Both runs assemble their slots, and the lists differ in length.
      left
      have hok : ∃ slots, collectSlots codec.decode [] (EntryOrder.listed.order b.entries) =
          .ok slots := by
        cases hc : collectSlots codec.decode [] (EntryOrder.listed.order b.entries) with
        | ok slots => exact ⟨slots, rfl⟩
        | error err =>
          rcases collectSlots_error b.keys_nodup hc with hf | ⟨_, _, _, _, hin, _⟩
          · exact (hclean err hf).elim
          · cases hin
      obtain ⟨slots, hc⟩ := hok
      have hmem := (mem_endings_gVerify hP e b _).mpr
        (Or.inr ⟨hclean, slots, (collectSlots_ok hc).1, ⟨.listed, hc⟩, rfl⟩)
      rw [h, mem_endings_gVerify hP] at hmem
      rcases hmem with ⟨err, hf, -⟩ | ⟨-, slots', hlen, -, heq⟩
      · exact (hclean err (hf.mono hsub)).elim
      · have hkey : Anon.ctxAssembledSlotList ∈ ((SubmissionPhase.gVerify exitState codec commit :
            SubmissionPhase F H).phase .listed).provides.entries.map Prod.fst := mem_cons_self
        have hbytes := storing_inj hkey heq
        simp only [Value.bytes.injEq] at hbytes
        have hlens := codec.encode_length hbytes
        simp only [length_mergeSort] at hlens
        have hb := (collectSlots_ok hc).1
        simp only [EntryOrder.listed] at hb
        exact noOutsider_of_length (by omega)
    · -- Every fault of the larger bucket is one of the smaller.
      right
      obtain ⟨err₀, hf₀⟩ := not_forall_not.mp hclean
      have hback : ∀ err, Fault codec.decode b.entries err →
          Fault codec.decode (within participants b).entries err := by
        intro err hf
        have hmem := (mem_endings_gVerify hP e b _).mpr (Or.inl ⟨err, hf, rfl⟩)
        rw [h, mem_endings_gVerify hP] at hmem
        rcases hmem with ⟨err', hf', heq⟩ | ⟨-, slots, -, -, heq⟩
        · have herr := congrArg Ending.err heq
          cases herr
          exact hf'
        · exact (hf.ne_commitFailure _ (congrArg Ending.err heq)).elim
      refine ⟨?_, ⟨err₀, hback err₀ hf₀⟩, ?_⟩
      · intro x hx hnot
        by_contra hbad
        obtain ⟨t, ht⟩ := not_decodes_iff.mp hbad
        obtain ⟨y, hy, hxy, -⟩ := (hback _ (.decode hx ht)).sender
        exact hnot (hxy ▸ (mem_within.mp hy).2)
      · intro k hk
        have hf := hback _ (.duplicate hk)
        cases hf with
        | duplicate h => exact h
  · rintro (h | ⟨hdec, ⟨err₀, hf₀⟩, htwice⟩)
    · rw [within_eq_self h]
    · have hfault : ∀ err, Fault codec.decode b.entries err ↔
          Fault codec.decode (within participants b).entries err := by
        intro err
        constructor
        · intro hf
          cases hf with
          | decode hx ht => exact .decode (hdec.inside hx ht) ht
          | duplicate hk => exact .duplicate (htwice _ hk)
        · exact fun hf => hf.mono hsub
      ext x
      rw [mem_endings_gVerify hP, mem_endings_gVerify hP]
      simp only [hfault]
      refine or_congr_right ⟨fun h => (h.1 err₀ hf₀).elim, fun h => (h.1 err₀ hf₀).elim⟩

theorem endings_submitVote_iff {entryState : SessionState}
    {decode : Bytes → Except String (ℤ × F)} (hP : P = .submitVote entryState decode) :
    endings P (holding P e b) = endings P (holding P e (within participants b)) ↔
      NoOutsider participants b ∨ (OutsidersDecode decode participants b ∧
        ∃ y ∈ (within participants b).entries, ¬ Decodes decode y) := by
  constructor
  · intro h
    by_cases hall : ∀ y ∈ b.entries, Decodes decode y
    · -- All ballots are stored, and a ballot of another sender shows.
      left
      have hmem := (mem_endings_submitVote hP e b _).mpr (Or.inr ⟨hall, rfl⟩)
      rw [h, mem_endings_submitVote hP] at hmem
      rcases hmem with ⟨y, -, t, -, heq⟩ | ⟨-, heq⟩
      · cases congrArg Ending.err heq
      · have hkey : Voting.ctxVoteBallots ∈ (P.phase .listed).provides.entries.map Prod.fst :=
          hP ▸ mem_cons_self
        have hballots := storing_inj hkey heq
        simp only [Value.other.injEq, Entry.ballots.injEq] at hballots
        intro x hx
        by_contra hnot
        have hvoter := congrFun hballots x.1
        obtain ⟨v, hv⟩ := hall x hx
        have hin := (lookup_eq_some_iff_mem b.keys_nodup).mpr hx
        have hout : (within participants b).entries.lookup x.1 = none := by
          by_contra hne
          obtain ⟨w, hw⟩ := Option.ne_none_iff_exists'.mp hne
          exact hnot (mem_within.mp ((lookup_eq_some_iff_mem (within participants b).keys_nodup).mp
            hw)).2
        simp [decoded, hin, hout, hv, Except.toOption] at hvoter
    · right
      have hback : ∀ y ∈ b.entries, ¬ Decodes decode y →
          ∃ z ∈ (within participants b).entries, z.1 = y.1 ∧ ¬ Decodes decode z := by
        intro y hy hbad
        obtain ⟨t, ht⟩ := not_decodes_iff.mp hbad
        have hmem := (mem_endings_submitVote hP e b _).mpr
          (Or.inl ⟨y, hy, t, ht, rfl⟩)
        rw [h, mem_endings_submitVote hP] at hmem
        rcases hmem with ⟨z, hz, t', ht', heq⟩ | ⟨-, heq⟩
        · have herr := congrArg Ending.err heq
          simp only [stopped, Option.some.injEq, ExitErr.decodeBallot.injEq] at herr
          exact ⟨z, hz, herr.1, not_decodes_iff.mpr ⟨t', ht'⟩⟩
        · cases congrArg Ending.err heq
      refine ⟨fun y hy hnot => ?_, ?_⟩
      · by_contra hbad
        obtain ⟨z, hz, hzy, -⟩ := hback y hy hbad
        exact hnot (hzy ▸ (mem_within.mp hz).2)
      · obtain ⟨y, hy⟩ := not_forall.mp hall
        obtain ⟨hy, hbad⟩ := Classical.not_imp.mp hy
        obtain ⟨z, hz, -, hzbad⟩ := hback y hy hbad
        exact ⟨z, hz, hzbad⟩
  · rintro (h | ⟨hdec, y, hy, hbad⟩)
    · rw [within_eq_self h]
    · ext x
      rw [mem_endings_submitVote hP, mem_endings_submitVote hP]
      refine or_congr (bad_within_iff hdec) ⟨fun h => ?_, fun h => ?_⟩
      · exact (hbad (h.1 y (mem_within.mp hy).1)).elim
      · exact (hbad (h.1 y hy)).elim

theorem endings_boundCheck_iff (q : BoundCheck.BoundPhase F H)
    (hps : e.ctx.values BoundCheck.ctxParticipants = some (.other (.names participants))) :
    endings (.boundCheck q) (holding (.boundCheck q) e b) =
        endings (.boundCheck q) (holding (.boundCheck q) e (within participants b)) ↔
      (q.fuse <|> tryFuse e.ctx.values BoundCheck.ctxBoundCheckFuse) = none ∨
        OutsidersDecode q.decode participants b := by
  cases hfuse : q.fuse <|> tryFuse e.ctx.values BoundCheck.ctxBoundCheckFuse with
  | none =>
    rw [endings_boundCheck_stub q e b hfuse, endings_boundCheck_stub q e _ hfuse]
    simp
  | some fuse =>
    simp only [reduceCtorEq, false_or]
    constructor
    · intro h y hy hnot
      by_contra hbad
      obtain ⟨t, ht⟩ := not_decodes_iff.mp hbad
      have hmem := (mem_endings_boundCheck q e b hfuse hps _).mpr (Or.inl ⟨y, hy, t, ht, rfl⟩)
      rw [h, mem_endings_boundCheck q e _ hfuse hps] at hmem
      rcases hmem with ⟨z, hz, t', -, heq⟩ | ⟨-, ω, heq⟩
      · have herr := congrArg Ending.err heq
        simp only [stopped, Option.some.injEq, ExitErr.decodePartials.injEq] at herr
        exact hnot (herr.1 ▸ (mem_within.mp hz).2)
      · exact checkedEnding_ne_stopped q e fuse participants ω _ heq
    · intro hdec
      ext x
      rw [mem_endings_boundCheck q e b hfuse hps, mem_endings_boundCheck q e _ hfuse hps]
      have hall : (∀ y ∈ b.entries, Decodes q.decode y) ↔
          ∀ y ∈ (within participants b).entries, Decodes q.decode y := by
        constructor
        · exact fun h y hy => h y (mem_within.mp hy).1
        · intro h y hy
          by_cases hin : y.1 ∈ participants
          · exact h y (mem_within.mpr ⟨hy, hin⟩)
          · exact hdec y hy hin
      have hmaps : ∀ s ∈ participants, decoded q.decode b.entries s =
          decoded q.decode (within participants b).entries s := by
        intro s hs
        simp only [decoded, lookup_within b hs]
      refine or_congr (bad_within_iff hdec) (and_congr hall (exists_congr fun ω => ?_))
      simp only [checkedEnding, checkParties_congr q fuse hmaps participants]

theorem unmoved_iff (p : SubmissionPhase F H)
    (hps : e.ctx.values p.participantsKey = some (.other (.names participants))) :
    (decide (participants.length ≤ b.entries.length) =
          decide (participants.length ≤ (within participants b).entries.length) ∧
        endings p (holding p e b) = endings p (holding p e (within participants b))) ↔
      Unmoved p e participants b := by
  have hquorum : NoOutsider participants b → QuorumKept participants b := by
    intro h
    rw [QuorumKept, within_eq_self h]
    omega
  rw [quorumKept_iff]
  cases p with
  | gShuffle =>
    rw [endings_gShuffle_iff, Unmoved]
    exact ⟨fun h => h.2, fun h => ⟨hquorum h, h⟩⟩
  | gVerify exitState codec commit =>
    rw [endings_gVerify_iff e participants b rfl, Unmoved]
    tauto
  | boundCheck q => rw [endings_boundCheck_iff e participants b q hps, Unmoved]
  | submitVote entryState decode =>
    rw [endings_submitVote_iff e participants b rfl, Unmoved]
    tauto

end

end

/-- A phase shows the same after two message sequences that differ only in messages of senders
outside the participant list, if the latest submissions of both meet the condition; no weaker
condition will do; and under it a complete phase has a submission of every participant. -/
theorem outsiders_change_nothing {F H : Type} [Zero F] [One F] [Add F] [Sub F] [Max F] [LE F]
    [DecidableLE F] (p : SubmissionPhase F H) {e : Env F H} {participants : List String}
    (hps : e.ctx.values p.participantsKey = some (.other (.names participants)))
    (hfresh : accumulatedMessages e.ctx.values p.bucketKey = .empty) (ms : List Message) :
    ((∀ ms', insiders participants ms' = insiders participants ms →
        Unmoved p e participants (latest p.msgType ms') → observe p e ms = observe p e ms') ↔
      Unmoved p e participants (latest p.msgType ms)) ∧
    (Unmoved p e participants (latest p.msgType ms) → (observe p e ms).complete = true →
      ∀ x ∈ participants, ∃ m ∈ ms, m.sender = x ∧ m.msgType = p.msgType) := by
  have hwithin : ∀ ms', insiders participants ms' = insiders participants ms →
      within participants (latest p.msgType ms') = within participants (latest p.msgType ms) := by
    intro ms' h
    rw [← latest_insiders, ← latest_insiders, h]
  refine ⟨⟨fun h => ?_, fun hu ms' hms hu' => ?_⟩, fun hu hcomplete x hx => ?_⟩
  · -- Compare with the participants' messages alone.
    have hself : insiders participants (insiders participants ms) = insiders participants ms := by
      simp [insiders]
    have hlatest := latest_insiders p.msgType participants ms
    have hidem : within participants (within participants (latest p.msgType ms)) =
        within participants (latest p.msgType ms) := by
      rw [← hlatest, hwithin _ hself, hlatest]
    have hu' : Unmoved p e participants (latest p.msgType (insiders participants ms)) := by
      refine (unmoved_iff e participants _ p hps).mp ?_
      rw [hlatest, hidem]
      exact ⟨rfl, rfl⟩
    have hsame := h (insiders participants ms) hself hu'
    rw [observe_eq p hps hfresh, observe_eq p hps hfresh, hlatest, Observation.mk.injEq] at hsame
    exact (unmoved_iff e participants _ p hps).mp hsame
  · obtain ⟨hc, he⟩ := (unmoved_iff e participants _ p hps).mpr hu
    obtain ⟨hc', he'⟩ := (unmoved_iff e participants _ p hps).mpr hu'
    rw [hwithin ms' hms] at hc' he'
    rw [observe_eq p hps hfresh, observe_eq p hps hfresh, hc, he, hc', he']
  · obtain ⟨hc, -⟩ := (unmoved_iff e participants _ p hps).mpr hu
    rw [observe_eq p hps hfresh, hc] at hcomplete
    exact sender_of_mem_latest (submitted_of_length_le (of_decide_eq_true hcomplete) hx)

def oneByte (b : Bytes) : Except String (ℤ × ℤ) :=
  if b.length = 1 then .ok (b.length, 0) else .error "unexpected end of JSON input"

def ballots : SubmissionPhase ℤ Unit := .submitVote stateGossip oneByte

def ballot (voter : String) (payload : Bytes) : Message := ⟨"vote.ballot", voter, payload⟩

def pairEnv (p : SubmissionPhase ℤ Unit) : Env ℤ Unit where
  ctx := ⟨"s", "", fun k =>
    if k = p.participantsKey then some (.other (.names ["a", "b"])) else none⟩
  app := []
  dag := []

def twoAndStranger : List Message := [ballot "a" [1], ballot "b" [], ballot "x" [2]]

theorem latest_twoAndStranger :
    (latest ballots.msgType twoAndStranger).entries = [("a", [1]), ("b", []), ("x", [2])] := by
  decide +kernel

theorem outsiders_change_nothing_ballots :
    observe ballots (pairEnv ballots) twoAndStranger =
        observe ballots (pairEnv ballots) [ballot "a" [1], ballot "b" []] ∧
      (observe ballots (pairEnv ballots) twoAndStranger).complete = true := by
  have hbad : ¬ Decodes oneByte ("b", []) := not_decodes_iff.mpr ⟨_, rfl⟩
  have hx : Decodes oneByte ("x", [2]) := ⟨_, rfl⟩
  have hunmoved : Unmoved ballots (pairEnv ballots) ["a", "b"]
      (latest ballots.msgType twoAndStranger) := by
    refine Or.inr ⟨Or.inl (by decide +kernel), ?_, ("b", []), by decide +kernel, hbad⟩
    rw [OutsidersDecode, latest_twoAndStranger]
    simp [hx]
  have hpair : Unmoved ballots (pairEnv ballots) ["a", "b"]
      (latest ballots.msgType [ballot "a" [1], ballot "b" []]) := by
    refine Or.inl ?_
    unfold NoOutsider
    decide +kernel
  refine ⟨(outsiders_change_nothing ballots rfl rfl twoAndStranger).1.mpr hunmoved _ rfl hpair, ?_⟩
  rfl

def stubBound : SubmissionPhase ℤ Unit :=
  .boundCheck ⟨⟨fun _ _ => .ok [], ⟨0, 1⟩, 2⟩, true, ⟨0, 1⟩, "SCORING", "DECRYPTING", none, none,
    fun _ => .ok fun _ => none, fun _ => Vector.replicate 32 0⟩

def indexCodec : SlotCodec where
  decode b := .ok ⟨b.length, ""⟩
  encode l := List.replicate l.length 0
  encode_length h := by simpa using congrArg List.length h

/-- In each phase a message of `a` and one of the stranger `x` make it complete, without `b`; and
the ballot of `x` is stored with the others. -/
theorem stranger_completes :
    (∀ p ∈ [.gShuffle, .gVerify "SUBMITTING" indexCodec fun _ => none, stubBound, ballots],
      (observe p (pairEnv p) [⟨p.msgType, "a", [1]⟩, ⟨p.msgType, "x", [1]⟩]).complete = true ∧
      (observe p (pairEnv p) [⟨p.msgType, "a", [1]⟩]).complete = false) ∧
    insiders ["a", "b"] [ballot "a" [1], ballot "x" [1]] = [ballot "a" [1]] ∧
    ∃ en ∈ (observe ballots (pairEnv ballots) [ballot "a" [1], ballot "x" [1]]).endings,
      ∃ m, en.stored Voting.ctxVoteBallots = some (.other (.ballots m)) ∧
        m "x" = some ⟨"x", 1, 1⟩ := by
  refine ⟨?_, rfl, _, ⟨.listed, rfl⟩, _, rfl, rfl⟩
  simp only [forall_mem_cons, not_mem_nil, false_imp_iff, implies_true, and_true]
  exact ⟨⟨rfl, rfl⟩, ⟨rfl, rfl⟩, ⟨rfl, rfl⟩, ⟨rfl, rfl⟩⟩

end OutsiderMessages
