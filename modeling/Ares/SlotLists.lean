import Ares.OutsiderMessages

/-! `PhaseGVerify` waits for as many senders as there are participants and then sorts what they
submitted by slot index. `Exit` refuses an index that occurs twice and checks nothing else. -/
namespace SlotLists

open LineageNodes PhasePipelines SessionRunner SubmissionPhases OutsiderMessages List

theorem eq_range_of_sorted {l : List ℤ} {n : ℕ} (sorted : l.Pairwise (· ≤ ·)) (nodup : l.Nodup)
    (inRange : ∀ i ∈ l, 0 ≤ i ∧ i < n) (length : l.length = n) : l = (List.range n).map (↑) := by
  have subset : l ⊆ (List.range n).map ((↑) : ℕ → ℤ) := by
    intro i hi
    obtain ⟨nonneg, lt⟩ := inRange i hi
    refine mem_map.mpr ⟨i.toNat, mem_range.mpr ?_, Int.toNat_of_nonneg nonneg⟩
    omega
  have perm : l.Perm ((List.range n).map ((↑) : ℕ → ℤ)) := by
    apply (subperm_of_subset nodup subset).perm_of_length_le
    simp [length]
  have sorted' : ((List.range n).map ((↑) : ℕ → ℤ)).Pairwise (· ≤ ·) := by
    apply pairwise_map.mpr
    exact pairwise_le_range.imp Int.ofNat_le.mpr
  exact perm.eq_of_pairwise (fun _ _ _ _ => le_antisymm) sorted sorted'

def lastFrom (msgType : String) (ms : List Message) (sender : String) : Option Bytes :=
  (ms.filter fun m => m.msgType = msgType ∧ m.sender = sender).getLast?.map Message.payload

theorem mem_bucketInsert {b : StringMap Bytes} {sender : String} {payload : Bytes}
    {x : String × Bytes} : x ∈ (bucketInsert b sender payload).entries ↔
      x ∈ b.entries ∧ x.1 ≠ sender ∨ x = (sender, payload) := by
  simp [bucketInsert]

variable {ms : List Message}

theorem mem_latest {msgType : String} {x : String × Bytes} :
    x ∈ (latest msgType ms).entries ↔ lastFrom msgType ms x.1 = some x.2 := by
  induction ms using List.reverseRecOn with
  | nil => simp [latest, lastFrom, StringMap.empty]
  | append_singleton ms m ih =>
    by_cases ht : m.msgType = msgType
    · have hlatest : latest msgType (ms ++ [m]) =
          bucketInsert (latest msgType ms) m.sender m.payload := by
        simp [latest, ht]
      rw [hlatest, mem_bucketInsert, ih]
      by_cases hs : m.sender = x.1
      · have hlast : lastFrom msgType (ms ++ [m]) x.1 = some m.payload := by
          simp [lastFrom, ht, hs]
        rw [hlast, Option.some_inj]
        constructor
        · rintro (⟨-, hne⟩ | rfl)
          · exact absurd hs.symm hne
          · rfl
        · intro hp
          exact Or.inr (Prod.ext hs.symm hp.symm)
      · have hlast : lastFrom msgType (ms ++ [m]) x.1 = lastFrom msgType ms x.1 := by
          simp [lastFrom, hs]
        rw [hlast]
        constructor
        · rintro (⟨h, -⟩ | rfl)
          · exact h
          · exact absurd rfl hs
        · exact fun h => Or.inl ⟨h, fun he => hs he.symm⟩
    · have hlatest : latest msgType (ms ++ [m]) = latest msgType ms := by
        simp [latest, ht]
      have hlast : lastFrom msgType (ms ++ [m]) x.1 = lastFrom msgType ms x.1 := by
        simp [lastFrom, ht]
      rw [hlatest, hlast, ih]

theorem exists_lastFrom {msgType : String} {m : Message} (hm : m ∈ ms)
    (ht : m.msgType = msgType) : ∃ payload, lastFrom msgType ms m.sender = some payload := by
  have hmem : m ∈ ms.filter fun m' => m'.msgType = msgType ∧ m'.sender = m.sender := by
    simp [hm, ht]
  obtain ⟨last, hlast⟩ := Option.ne_none_iff_exists'.mp
    (mt List.getLast?_eq_none_iff.mp (ne_nil_of_mem hmem))
  exact ⟨last.payload, by rw [lastFrom, hlast, Option.map_some]⟩

theorem exists_of_lastFrom {msgType sender : String} {payload : Bytes}
    (h : lastFrom msgType ms sender = some payload) :
    ∃ m ∈ ms, m.msgType = msgType ∧ m.sender = sender := by
  obtain ⟨m, hm, ht, hs⟩ := sender_of_mem_latest
    (mem_map_of_mem (mem_latest (x := (sender, payload)).mpr h))
  exact ⟨m, hm, hs, ht⟩

section

variable {decode : Bytes → Except String SlotEntry} {l : List (String × Bytes)}
  {slots : List SlotEntry}

def assembleSlots (decode : Bytes → Except String SlotEntry) (l : List (String × Bytes)) :
    Except ExitErr (List SlotEntry) :=
  (collectSlots decode [] l).map fun slots =>
    slots.mergeSort fun a b => decide (a.slotIndex ≤ b.slotIndex)

theorem collectSlots_map {seen : List ℤ} (h : collectSlots decode seen l = .ok slots) :
    l.map (fun x => decode x.2) = slots.map .ok := by
  induction l generalizing seen slots with
  | nil =>
    cases h
    rfl
  | cons x l ih =>
    obtain ⟨sender, payload⟩ := x
    simp only [collectSlots] at h
    cases hd : decode payload with
    | error t => simp [hd] at h
    | ok slot =>
      simp only [hd] at h
      split_ifs at h
      cases hrest : collectSlots decode (slot.slotIndex :: seen) l with
      | error e => simp [hrest] at h
      | ok rest =>
        simp only [hrest, Except.ok.injEq] at h
        subst h
        simp [hd, ih hrest]

theorem nodup_slotIndex (decoded : l.map (fun x => decode x.2) = slots.map .ok)
    (distinct : l.Pairwise (DistinctSlots decode)) : (slots.map SlotEntry.slotIndex).Nodup := by
  have pairs : (l.map fun x => decode x.2).Pairwise fun r r' =>
      ∀ a b, r = .ok a → r' = .ok b → a.slotIndex ≠ b.slotIndex := pairwise_map.mpr distinct
  rw [decoded, pairwise_map] at pairs
  apply pairwise_map.mpr
  exact pairs.imp fun h => h _ _ rfl rfl

/-- What `Exit` knows of the list it assembled: one entry for each sender, and distinct indices in
order. -/
structure Assembled (decode : Bytes → Except String SlotEntry) (l : List (String × Bytes))
    (slots : List SlotEntry) : Prop where
  length : slots.length = l.length
  mem : ∀ slot, slot ∈ slots ↔ ∃ x ∈ l, decode x.2 = .ok slot
  decodes : ∀ x ∈ l, Decodes decode x
  distinct : l.Pairwise (DistinctSlots decode)
  nodup : (slots.map SlotEntry.slotIndex).Nodup
  sorted : (slots.map SlotEntry.slotIndex).Pairwise (· ≤ ·)

theorem assembled_of_ok (h : assembleSlots decode l = .ok slots) : Assembled decode l slots := by
  unfold assembleSlots at h
  cases hc : collectSlots decode [] l with
  | error e => simp [hc, Except.map] at h
  | ok found =>
    simp only [hc, Except.map, Except.ok.injEq] at h
    have perm := h ▸ mergeSort_perm _ _
    obtain ⟨length, decodes, distinct⟩ := collectSlots_ok hc
    have decoded := collectSlots_map hc
    refine ⟨perm.length_eq.trans length, fun slot => ?_, fun x hx => ?_, distinct, ?_, ?_⟩
    · rw [perm.mem_iff, ← mem_map_of_injective
        (fun _ _ => Except.ok.inj), ← decoded, mem_map]
    · obtain ⟨slot, hslot, -⟩ := decodes x hx
      exact ⟨slot, hslot⟩
    · exact ((perm.map _).nodup_iff).mpr (nodup_slotIndex decoded distinct)
    · have sorted : (found.mergeSort fun a b => decide (a.slotIndex ≤ b.slotIndex)).Pairwise
          fun a b => decide (a.slotIndex ≤ b.slotIndex) = true := by
        apply pairwise_mergeSort
        · intro a b c hab hbc
          simp only [decide_eq_true_eq] at hab hbc ⊢
          exact hab.trans hbc
        · intro a b
          simp only [Bool.or_eq_true, decide_eq_true_eq]
          exact le_total _ _
      rw [h] at sorted
      apply pairwise_map.mpr
      exact sorted.imp of_decide_eq_true

end

section

open Anon

variable {F H : Type}

theorem exitGVerify_eq (codec : SlotCodec) (commit : Artifact → Option AppErr) (ω : EntryOrder)
    (e : Env F H) : exitGVerify codec commit ω e =
      match assembleSlots codec.decode
        (ω.order (accumulatedMessages e.ctx.values bucketSlots).entries) with
      | .error err => ended e (some err)
      | .ok slots =>
        let artifact : Artifact := ⟨"anon-g-verify", ctxAssembledSlotList, codec.encode slots,
          e.dag.filter fun n => n.role = roleSlotSubmission⟩
        { values := Function.update e.ctx.values ctxAssembledSlotList
            (some (.bytes (codec.encode slots)))
          reports := e.app
          artifacts := [artifact]
          err := commitFailure (commit artifact) } := by
  unfold exitGVerify assembleSlots
  dsimp only
  cases collectSlots codec.decode []
    (ω.order (accumulatedMessages e.ctx.values bucketSlots).entries) <;> rfl

theorem exit_assembles {codec : SlotCodec} {commit : Artifact → Option AppErr} {ω : EntryOrder}
    {e : Env F H} (ok : (exitGVerify codec commit ω e).err = none) :
    ∃ slots, assembleSlots codec.decode
        (ω.order (accumulatedMessages e.ctx.values bucketSlots).entries) = .ok slots ∧
      (exitGVerify codec commit ω e).values ctxAssembledSlotList =
        some (.bytes (codec.encode slots)) := by
  rw [exitGVerify_eq] at ok ⊢
  cases hc : assembleSlots codec.decode
      (ω.order (accumulatedMessages e.ctx.values bucketSlots).entries) with
  | error err => simp [hc, ended] at ok
  | ok slots =>
    dsimp only
    exact ⟨slots, rfl, Function.update_self ..⟩

structure WellFormed (codec : SlotCodec) (participants : List String) (ms : List Message)
    (slots : List SlotEntry) : Prop where
  length : slots.length = participants.length
  indices : slots.map SlotEntry.slotIndex = (List.range participants.length).map (↑)
  decoded : ∀ slot ∈ slots, ∃ sender ∈ participants, ∃ payload,
    lastFrom msgSlotSubmit ms sender = some payload ∧ codec.decode payload = .ok slot

/-- Only participants submit, and the indices they submit last are below their number. -/
structure FromParticipants (codec : SlotCodec) (participants : List String) (ms : List Message) :
    Prop where
  sender : ∀ m ∈ ms, m.msgType = msgSlotSubmit → m.sender ∈ participants
  index : ∀ sender payload slot, lastFrom msgSlotSubmit ms sender = some payload →
    codec.decode payload = .ok slot → 0 ≤ slot.slotIndex ∧ slot.slotIndex < participants.length

theorem wellFormed_iff {codec : SlotCodec} {participants : List String}
    {l : List (String × Bytes)} (perm : l.Perm (latest msgSlotSubmit ms).entries)
    (quorum : participants.length ≤ l.length) {slots : List SlotEntry}
    (h : Assembled codec.decode l slots) :
    WellFormed codec participants ms slots ↔ FromParticipants codec participants ms := by
  have mem_iff : ∀ {sender payload}, (sender, payload) ∈ l ↔
      lastFrom msgSlotSubmit ms sender = some payload := fun {_ _} => perm.mem_iff.trans mem_latest
  constructor
  · intro wf
    refine ⟨fun m hm ht => ?_, fun sender payload slot hlast hd => ?_⟩
    · obtain ⟨payload, hlast⟩ := exists_lastFrom hm ht
      have hx := mem_iff.mpr hlast
      obtain ⟨slot, hslot⟩ := h.decodes _ hx
      obtain ⟨sender, hsender, payload', hlast', hslot'⟩ :=
        wf.decoded slot ((h.mem slot).mpr ⟨_, hx, hslot⟩)
      -- The entry of an outsider would be a participant's as well, and its index twice there.
      have hsame : (m.sender, payload) = (sender, payload') := by
        by_contra hne
        exact h.distinct.forall hx (mem_iff.mpr hlast') hne _ _ hslot hslot' rfl
      rw [Prod.mk.injEq] at hsame
      rw [hsame.1]
      exact hsender
    · have hslot := (h.mem slot).mpr ⟨_, mem_iff.mpr hlast, hd⟩
      have hindex := mem_map_of_mem (f := SlotEntry.slotIndex) hslot
      rw [wf.indices] at hindex
      obtain ⟨i, hi, heq⟩ := mem_map.mp hindex
      rw [mem_range] at hi
      omega
  · intro hc
    have subset : l.map Prod.fst ⊆ participants := by
      intro sender hsender
      obtain ⟨x, hx, rfl⟩ := mem_map.mp hsender
      obtain ⟨m, hm, ht, hs⟩ := exists_of_lastFrom (mem_iff.mp hx)
      exact hs ▸ hc.sender m hm ht
    have nodup := (perm.map Prod.fst).nodup_iff.mpr (latest msgSlotSubmit ms).keys_nodup
    have few := (subperm_of_subset nodup subset).length_le
    rw [length_map] at few
    have length := h.length.trans (few.antisymm quorum)
    refine ⟨length, eq_range_of_sorted h.sorted h.nodup ?_ ?_, fun slot hslot => ?_⟩
    · intro i hi
      obtain ⟨slot, hslot, rfl⟩ := mem_map.mp hi
      obtain ⟨x, hx, hd⟩ := (h.mem slot).mp hslot
      exact hc.index _ _ _ (mem_iff.mp hx) hd
    · rw [length_map, length]
    · obtain ⟨x, hx, hd⟩ := (h.mem slot).mp hslot
      exact ⟨x.1, subset (mem_map_of_mem hx), x.2, mem_iff.mp hx, hd⟩

variable [Zero F] [One F] [Add F] [Sub F] [Max F] [LE F] [DecidableLE F]

/-- After any messages that complete the phase, and if its exit succeeds, the assembled slot list is
well formed exactly if only participants submitted and the last index of each is below their
number. -/
theorem slotList_wellFormed_iff (exitState : SessionState) (codec : SlotCodec)
    (commit : Artifact → Option AppErr) (ω : EntryOrder) {e : Env F H} {participants : List String}
    (hps : e.ctx.values ctxParticipants = some (.other (.names participants)))
    (hfresh : accumulatedMessages e.ctx.values bucketSlots = .empty) (ms : List Message) :
    let p : Phase (Entry F H) _ := phaseGVerify exitState codec commit ω
    let e' := deliverAll p e ms
    p.checkComplete e' = true → (p.exit e').err = none →
      ((∃ slots, assembleSlots codec.decode
          (ω.order (accumulatedMessages e'.ctx.values bucketSlots).entries) = .ok slots ∧
        (p.exit e').values ctxAssembledSlotList = some (.bytes (codec.encode slots)) ∧
        WellFormed codec participants ms slots) ↔
      FromParticipants codec participants ms) := by
  intro p e' complete ok
  obtain ⟨outside, bucket⟩ := deliverAll_spec (.gVerify exitState codec commit) e ms
  have hbucket : accumulatedMessages e'.ctx.values bucketSlots = latest msgSlotSubmit ms := by
    rw [SubmissionPhase.bucketKey, hfresh] at bucket
    exact bucket
  have quorum : participants.length ≤ (latest msgSlotSubmit ms).entries.length := by
    have hnames : tryNames e'.ctx.values ctxParticipants = some participants := by
      rw [tryNames, show e'.ctx.values ctxParticipants = _ from
        (outside.values ctxParticipants (by decide)).trans hps]
    have hcount := complete
    simp only [p, phaseGVerify, allSubmitted, hnames, quorumReached, messageCount_eq, hbucket,
      decide_eq_true_eq] at hcount
    exact hcount
  have hexit := Option.map_eq_none_iff.mp ok
  obtain ⟨slots, hslots, hstored⟩ := exit_assembles hexit
  have assembled := assembled_of_ok hslots
  rw [hbucket] at assembled
  have hiff := wellFormed_iff (ω.perm _) (quorum.trans (ω.perm _).length_eq.ge) assembled
  constructor
  · rintro ⟨slots', hslots', -, wf⟩
    cases hslots.symm.trans hslots'
    exact hiff.mp wf
  · exact fun hc => ⟨slots, hslots, hstored, hiff.mpr hc⟩

end

open Anon

def submit (sender : String) (payload : Bytes) : Message := ⟨msgSlotSubmit, sender, payload⟩

def slotPhase : SubmissionPhase ℤ Unit := .gVerify "SUBMITTING" indexCodec fun _ => none

def takeTwo : List Message := [submit "a" [7, 7, 7], submit "b" [], submit "a" [7]]

theorem latest_takeTwo : (latest msgSlotSubmit takeTwo).entries = [("b", []), ("a", [7])] := by
  decide +kernel

theorem slotList_wellFormed_takeTwo :
    let p := slotPhase.phase .listed
    let e' := deliverAll p (pairEnv slotPhase) takeTwo
    p.checkComplete e' = true ∧ (p.exit e').err = none ∧
      ∃ slots, (p.exit e').values ctxAssembledSlotList = some (.bytes (indexCodec.encode slots)) ∧
        WellFormed indexCodec ["a", "b"] takeTwo slots := by
  have hc : FromParticipants indexCodec ["a", "b"] takeTwo := by
    refine ⟨by decide +kernel, fun sender payload slot hlast hd => ?_⟩
    have hx := mem_latest (x := (sender, payload)).mpr hlast
    rw [latest_takeTwo] at hx
    simp only [mem_cons, not_mem_nil, or_false] at hx
    rcases hx with ⟨-, rfl⟩ | ⟨-, rfl⟩ <;> cases hd <;> decide
  obtain ⟨slots, -, hstored, wf⟩ := (slotList_wellFormed_iff "SUBMITTING" indexCodec
    (fun _ => none) .listed (e := pairEnv slotPhase) rfl rfl takeTwo rfl rfl).mpr hc
  exact ⟨rfl, rfl, slots, hstored, wf⟩

/-- The participants of a session of two submit slots `5` and `7`; the phase is complete, its exit
succeeds, and these are the indices of the list. -/
theorem slots_out_of_range :
    let p := slotPhase.phase .listed
    let ms := [submit "a" (List.replicate 5 0), submit "b" (List.replicate 7 0)]
    let e' := deliverAll p (pairEnv slotPhase) ms
    p.checkComplete e' = true ∧ (p.exit e').err = none ∧
      ∃ slots, assembleSlots indexCodec.decode
          (accumulatedMessages e'.ctx.values bucketSlots).entries = .ok slots ∧
        (p.exit e').values ctxAssembledSlotList = some (.bytes (indexCodec.encode slots)) ∧
        slots.map SlotEntry.slotIndex = [5, 7] ∧ ¬ WellFormed indexCodec ["a", "b"] ms slots := by
  intro p ms e'
  have ok : (exitGVerify indexCodec (fun _ => none) .listed e').err = none := rfl
  obtain ⟨slots, hslots, hstored⟩ := exit_assembles ok
  have hlist : slots = [⟨5, ""⟩, ⟨7, ""⟩] := by
    have hsorted : assembleSlots indexCodec.decode (accumulatedMessages e'.ctx.values
        bucketSlots).entries = .ok ([⟨5, ""⟩, ⟨7, ""⟩].mergeSort _) := rfl
    rw [mergeSort_of_pairwise (by decide)] at hsorted
    exact Except.ok.inj (hslots.symm.trans hsorted)
  refine ⟨rfl, rfl, slots, hslots, hstored, by rw [hlist]; rfl, fun wf => ?_⟩
  have indices := wf.indices
  rw [hlist] at indices
  exact absurd indices (by decide)

end SlotLists
