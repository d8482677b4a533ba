import Ares.EnergySettlement

/-! The completed bids go to the evaluator, its masks come back and are handed to the seller
together with the bids, which the relay reads again by then. -/
namespace EnergyEvaluation

open InterleavedPrograms FiniteMaps EnergyAuction EnergyAuction.Auction EnergyRelay
  EnergyRelayConnections EnergyRoundKeys EnergySettlement List

variable {γ : Type} {ι : Type}

/-- What the relay asks of a tab in the course of an evaluation. -/
inductive Question where
  | evaluate | masks
  deriving DecidableEq

instance : Fintype Question := ⟨{.evaluate, .masks}, by rintro ⟨⟩ <;> decide⟩

namespace Question

def type : Question → MsgType
  | .evaluate => .evaluate
  | .masks => .masks

def reply : Question → MsgType
  | .evaluate => .masks
  | .masks => .offer

def phase : Question → Phase
  | .evaluate => .evaluating
  | .masks => .offer

def asked (q : Question) (s : RelayState γ) (id : String) : Step γ → Option (Msg γ)
  | .relay (.send dest m) => if dest = id ∧ m.type = q.type ∧ id ∈ s.conns then some m else none
  | _ => none

def answer (q : Question) : Step γ → Option (Msg γ)
  | .read m => if m.type = q.reply then some m else none
  | _ => none

end Question

section

def asked (h : List (ι × RelayEvent γ)) (q : Question) (id : String) : List (Msg γ) :=
  h.filterMap fun y => q.asked y.2.pre id y.2.act

variable [DecidableEq ι]

def answers (h : List (ι × RelayEvent γ)) (q : Question) (i : ι) : List (Msg γ) :=
  h.filterMap fun y => if y.1 = i then q.answer y.2.act else none

/-- Tabs answer each question once, in order. `computed ms cts` is that the masks `ms` are
computed from the ciphertexts `cts`, one from each. -/
def Honest (computed : List (List γ) → List (List γ) → Prop) (Q : Hub ι γ) (i : ι) : Prop :=
  ∀ x ∈ Q.next i, ∀ place ∈ Q.stage i, ∀ q : Question, ∀ m ∈ q.answer x,
    ∃ e ∈ (asked Q.history q place.1)[(answers Q.history q i).length]?,
      q = .evaluate → computed m.blobs e.blobs

end

def carries : Work γ → Bool
  | .completed | .collected _ | .evaluating .. | .masked _ | .pairing .. | .handing .. => true
  | .opened m => m.type = .masks || m.type = .offer
  | _ => false

inductive Spot (ι : Type) where
  | work (i : ι)
  | due (q : Question) (i : ι)

section

variable [DecidableEq ι]

def under (Q : Hub ι γ) : Spot ι → Bool
  | .work i => (Q.stage i).any fun place => carries place.2
  | .due q i => (Q.stage i).any fun place => place.2.registered &&
      (answers Q.history q i).length < (asked Q.history q place.1).length

def endsRound (a : Auction γ) : Step γ → Bool
  | .relay (.method (.publishKeys ..)) => true
  | .relay (.method op) => clearsRound a.peers op
  | _ => false

def Undisturbed (Q : Hub ι γ) (i : ι) : Prop :=
  ∀ x ∈ Q.next i, endsRound Q.state.auction x = true → ∀ spot, under Q spot = false

/-- The step of a tab is honest, and it ends no round that is being evaluated. -/
def Steady (computed : List (List γ) → List (List γ) → Prop) (Q : Hub ι γ) (i : ι) : Prop :=
  Honest computed Q i ∧ Undisturbed Q i

def SealedInRound (Q : Hub ι γ) (ct : List γ) (seat : ℤ) : Prop :=
  ∃ k, Stored Q.history ⟨k, seat, Q.state.auction.keyID, ct⟩

def Paired (env : Env γ) (computed : List (List γ) → List (List γ) → Prop) (Q : Hub ι γ) (i : ι)
    (m : Msg γ) : Prop :=
  ∃ id w n e cts seats, Q.stage i = some (id, w) ∧
    (answers Q.history .evaluate i).length = n + 1 ∧ (asked Q.history .evaluate id)[n]? = some e ∧
    e.blobs = cts ∧ e.note = env.seatJSON seats ∧ m.bids = cts ∧ m.note = env.seatJSON seats ∧
    computed m.blobs cts ∧ List.Forall₂ (SealedInRound Q) cts seats

def CompleteSet (Q : Hub ι γ) : Prop :=
  ∃ y ∈ Q.history, ∃ b ∈ bidOf y.2.act, b.2.1 = Q.state.auction.keyID ∧
    (y.2.pre.auction.submitBid b.1 b.2.1 b.2.2).1 = .complete ∧
    (y.2.pre.auction.submitBid b.1 b.2.1 b.2.2).2.bids = Q.state.auction.bids

/-- What the relay hands the seller is of one evaluation, and an offer is opened only by the
evaluation of a complete set of bids. -/
structure Consistent (env : Env γ) (ω : PeerOrder)
    (computed : List (List γ) → List (List γ) → Prop) (Q : Hub ι γ) : Prop where
  paired : ∀ i dest m, Q.next i = some (.relay (.send dest m)) → m.type = .masks →
    Paired env computed Q i m
  opened : ∀ i R, Q.step (stepSem env ω) i = some R →
    Q.state.auction.phase ≠ .offer → R.state.auction.phase = .offer →
    Q.state.auction.phase = .evaluating ∧ CompleteSet Q

end

section

variable [DecidableEq ι] (env : Env γ) (computed : List (List γ) → List (List γ) → Prop)
  (Q : Hub ι γ)

def Answered (i : ι) (id : String) (m : Msg γ) : Prop :=
  ∃ n, (answers Q.history .evaluate i).length = n + 1 ∧
    (asked Q.history .evaluate id)[n]? = some (evaluateMsg env Q.state.auction.orderedBids) ∧
    computed m.blobs Q.state.auction.orderedBids.1

def Carried (i : ι) (id : String) : Work γ → Prop
  | .completed => Q.state.auction.phase = .evaluating
  | .collected bids | .evaluating bids _ =>
    Q.state.auction.phase = .evaluating ∧ bids = Q.state.auction.orderedBids
  | .opened m =>
    (m.type = .masks → Q.state.auction.phase = .evaluating ∧ Answered env computed Q i id m) ∧
      (m.type = .offer → Q.state.auction.phase = .offer)
  | .masked m | .pairing m _ => Q.state.auction.phase = .offer ∧ Answered env computed Q i id m
  | .handing m _ bids => Q.state.auction.phase = .offer ∧ Answered env computed Q i id m ∧
      bids = Q.state.auction.orderedBids
  | _ => True

def Due (q : Question) (i : ι) (id : String) : Prop :=
  Q.state.auction.phase = q.phase ∧
    (asked Q.history q id).length = (answers Q.history q i).length + 1 ∧
    (q = .evaluate → (asked Q.history q id)[(answers Q.history q i).length]? =
      some (evaluateMsg env Q.state.auction.orderedBids))

def Fact : Spot ι → Prop
  | .work i => ∀ id w, Q.stage i = some (id, w) → Carried env computed Q i id w
  | .due q i => ∀ id w, Q.stage i = some (id, w) → Due env Q q i id

structure Flight : Prop where
  single : ∀ a b, under Q a = true → under Q b = true → a = b
  quiet : ∀ a, under Q a = true → Q.state.auction.phase ≠ .bidding ∧
    Q.state.auction.winnerSeat < 0
  fact : ∀ a, under Q a = true → Fact env computed Q a
  answered : ∀ q i id w, Q.stage i = some (id, w) →
    (answers Q.history q i).length ≤ (asked Q.history q id).length

structure Ground : Prop where
  bidding : Q.state.auction.phase = .bidding → Q.state.auction.winnerSeat < 0
  stored : BidsStored Q
  complete : Q.state.auction.phase = .evaluating → CompleteSet Q

end

theorem sealed_of_ordered {Q : Hub ι γ} (hB : BidsStored Q) :
    List.Forall₂ (SealedInRound Q) Q.state.auction.orderedBids.1 Q.state.auction.orderedBids.2 := by
  have hlookup : ∀ seat ∈ Q.state.auction.orderedBids.2,
      (Q.state.auction.bids.lookup seat).isSome = true := by
    intro seat hseat
    have hmem := (mem_filter.mp hseat).2
    exact AList.lookup_isSome.mpr (of_decide_eq_true hmem)
  refine ((forall₂_filterMap hlookup).imp ?_).flip
  intro seat ct hct
  obtain ⟨k, -, hstored⟩ := hB seat ct hct
  exact ⟨k, hstored⟩

section

variable [DecidableEq ι] {env : Env γ} {ω : PeerOrder}
  {computed : List (List γ) → List (List γ) → Prop} {Q R : Hub ι γ} {i j : ι} {x : Step γ}
  {id : String} {w w' : Work γ} {q : Question} {k : String} {m : Msg γ}

theorem asked_taken (ht : Taken env ω Q i x R) (q : Question) (id : String) :
    asked R.history q id = asked Q.history q id ++ (q.asked Q.state id x).toList := by
  rw [ht.history, asked, filterMap_append, asked]
  cases h : q.asked Q.state id x <;> simp [h]

theorem answers_taken (ht : Taken env ω Q i x R) (q : Question) (j : ι) :
    answers R.history q j = answers Q.history q j ++ if i = j then (q.answer x).toList else [] := by
  rw [ht.history, answers, filterMap_append, answers]
  by_cases hij : i = j
  · cases h : q.answer x <;> simp [hij, h]
  · simp [hij]

theorem under_work (hi : Q.stage i = some (id, w)) : under Q (.work i) = carries w := by
  simp [under, hi]

theorem under_due (hi : Q.stage i = some (id, w)) : under Q (.due q i) = true ↔
    w.registered = true ∧ (answers Q.history q i).length < (asked Q.history q id).length := by
  simp [under, hi]

theorem stage_of_under {a : Spot ι} (h : under Q a = true) : ∃ id w,
    (∀ i, a = .work i → Q.stage i = some (id, w)) ∧ ∀ q i, a = .due q i → Q.stage i = some
    (id, w) := by
  cases a with
  | work i =>
    simp only [under, Option.any_eq_true] at h
    obtain ⟨⟨id, w⟩, hi, -⟩ := h
    exact ⟨id, w, by rintro _ ⟨⟩; exact hi, by rintro _ _ ⟨⟩⟩
  | due q i =>
    simp only [under, Option.any_eq_true] at h
    obtain ⟨⟨id, w⟩, hi, -⟩ := h
    exact ⟨id, w, by rintro _ ⟨⟩, by rintro _ _ ⟨⟩; exact hi⟩

theorem stage_back (ht : Taken env ω Q i x R) (hi : Q.stage i = some (id, w))
    (hi' : R.stage i = some (id, w')) {v : Work γ} (hj : R.stage j = some (k, v)) :
    (j = i ∧ k = id ∧ v = w') ∨ (j ≠ i ∧ Q.stage j = some (k, v)) := by
  by_cases hji : j = i
  · subst hji
    rw [hi'] at hj
    cases hj
    exact .inl ⟨rfl, rfl, rfl⟩
  · rw [ht.others j hji] at hj
    exact .inr ⟨hji, hj⟩

theorem under_back (ht : Taken env ω Q i x R) (hi : Q.stage i = some (id, w))
    (hi' : R.stage i = some (id, w')) (hreg : w'.registered = true → w.registered = true)
    {a : Spot ι} (ha : under R a = true) :
    (a = .work i ∧ carries w' = true) ∨
      (∃ q j k v, a = .due q j ∧ R.stage j = some (k, v) ∧
        (q.asked Q.state k x).isSome = true) ∨ (a ≠ .work i ∧ under Q a = true) := by
  obtain ⟨k, v, hwork, hdue⟩ := stage_of_under ha
  cases a with
  | work j =>
    have hj := hwork j rfl
    rw [under_work hj] at ha
    rcases stage_back ht hi hi' hj with ⟨rfl, -, rfl⟩ | ⟨hji, hj⟩
    · exact .inl ⟨rfl, ha⟩
    · refine .inr (.inr ⟨?_, by rw [under_work hj]; exact ha⟩)
      rintro ⟨⟩
      exact hji rfl
  | due q j =>
    have hj := hdue q j rfl
    cases hasked : q.asked Q.state k x with
    | some m => exact .inr (.inl ⟨q, j, k, v, rfl, hj, by rw [hasked]; rfl⟩)
    | none =>
      refine .inr (.inr ⟨by rintro ⟨⟩, ?_⟩)
      obtain ⟨hv, hlt⟩ := (under_due hj).mp ha
      rw [asked_taken ht, answers_taken ht, hasked] at hlt
      simp only [Option.toList_none, append_nil, length_append] at hlt
      have hlt' : (answers Q.history q j).length < (asked Q.history q k).length := by omega
      rcases stage_back ht hi hi' hj with ⟨rfl, rfl, rfl⟩ | ⟨-, hj⟩
      · exact (under_due hi).mpr ⟨hreg hv, hlt'⟩
      · exact (under_due hj).mpr ⟨hv, hlt'⟩

structure SameRound (Q R : Hub ι γ) : Prop where
  phase : R.state.auction.phase = Q.state.auction.phase
  bids : R.state.auction.orderedBids = Q.state.auction.orderedBids
  winner : R.state.auction.winnerSeat = Q.state.auction.winnerSeat

theorem endsRound_of_clears {op : Op γ} {a : Auction γ} (h : clearsRound a.peers op = true) :
    endsRound a (.relay (.method op)) = true := by
  cases op <;> first | rfl | exact h

theorem sameRound (ht : Taken env ω Q i x R) (hends : endsRound Q.state.auction x = false)
    (hmasks : ∀ masks, x ≠ .relay (.method (.setMasks masks)))
    (hoffer : ∀ seat price, x ≠ .relay (.method (.offer seat price)))
    (hphase : Q.state.auction.phase ≠ .bidding) (hwinner : Q.state.auction.winnerSeat < 0) :
    SameRound Q R := by
  have hsame : roundPart R.state.auction = roundPart Q.state.auction := by
    obtain ⟨t, hpart, rfl | ⟨op, hcalled, hstep⟩⟩ := roundStep_taken ht
    · exact hpart
    · rw [hpart]
      cases hstep with
      | published pk ek =>
        rw [called_eq_method hcalled (by rintro _ _ ⟨⟩)] at hends
        cases hends
      | sealed hp hb hbidding => exact (hphase hbidding).elim
      | masked masks => exact (hmasks masks (called_eq_method hcalled (by rintro _ _ ⟨⟩))).elim
      | offered seat price =>
        exact (hoffer seat price (called_eq_method hcalled (by rintro _ _ ⟨⟩))).elim
      | settled h => exact absurd hwinner (not_lt.mpr h)
      | cleared h =>
        rw [called_eq_method hcalled (by rintro _ _ rfl; cases h), endsRound_of_clears h] at hends
        cases hends
      | refused | kept => rfl
  have hfield := RoundPart.mk.inj hsame
  exact ⟨hfield.1, by simp only [orderedBids, hfield.2.2.2.1], hfield.2.2.2.2.2.1⟩

theorem Answered.taken (h : Answered env computed Q i id m) {j : ι}
    (ht : Taken env ω Q j x R) (hbids : R.state.auction.orderedBids = Q.state.auction.orderedBids)
    (hans : answers R.history .evaluate i = answers Q.history .evaluate i) :
    Answered env computed R i id m := by
  obtain ⟨n, hn, hasked, hcomputed⟩ := h
  refine ⟨n, by rw [hans]; exact hn, ?_, by rw [hbids]; exact hcomputed⟩
  rw [hbids, asked_taken ht, List.getElem?_append_left]
  · exact hasked
  · exact (List.getElem?_eq_some_iff.mp hasked).1

theorem Carried.taken (h : Carried env computed Q i id w) {j : ι} (ht : Taken env ω Q j x R)
    (hsame : SameRound Q R) (hans : answers R.history .evaluate i = answers Q.history .evaluate i) :
    Carried env computed R i id w := by
  cases w with
  | completed => exact hsame.phase.trans h
  | collected bids | evaluating bids ev => exact ⟨hsame.phase.trans h.1, h.2.trans hsame.bids.symm⟩
  | opened m =>
    refine ⟨fun hm => ?_, fun hm => hsame.phase.trans (h.2 hm)⟩
    obtain ⟨hphase, hanswered⟩ := h.1 hm
    exact ⟨hsame.phase.trans hphase, hanswered.taken ht hsame.bids hans⟩
  | masked m | pairing m seller => exact ⟨hsame.phase.trans h.1, h.2.taken ht hsame.bids hans⟩
  | handing m seller bids =>
    exact ⟨hsame.phase.trans h.1, h.2.1.taken ht hsame.bids hans, h.2.2.trans hsame.bids.symm⟩
  | _ => trivial

theorem answered_step (hF : Flight env computed Q) (hg : Honest computed Q i)
    (ht : Taken env ω Q i x R) (hi : Q.stage i = some (id, w)) (hi' : R.stage i = some (id, w'))
    {v : Work γ} (hj : R.stage j = some (k, v)) :
    (answers R.history q j).length ≤ (asked R.history q k).length := by
  rw [asked_taken ht, answers_taken ht, length_append, length_append]
  rcases stage_back ht hi hi' hj with ⟨rfl, rfl, -⟩ | ⟨hji, hj⟩
  · have hle := hF.answered q j k w hi
    cases hanswer : q.answer x with
    | none => simp; omega
    | some m =>
      obtain ⟨e, he, -⟩ := hg x ht.next _ hi q m hanswer
      have hlt : (answers Q.history q j).length < (asked Q.history q k).length :=
        (List.getElem?_eq_some_iff.mp he).1
      simp; omega
  · have hle := hF.answered q j k v hj
    rw [if_neg (Ne.symm hji)]
    simp; omega

def plain : Step γ → Bool
  | .read m => m.type ≠ .masks && m.type ≠ .offer
  | .relay (.send _ m) => m.type ≠ .evaluate && m.type ≠ .masks
  | .relay (.method (.setMasks _)) | .relay (.method (.offer ..)) => false
  | _ => true

theorem asked_plain (h : plain x = true) (q : Question) (s : RelayState γ) (k : String) :
    q.asked s k x = none := by
  unfold Question.asked
  split
  · refine if_neg fun hm => ?_
    cases q <;> simp [plain, hm.2.1, Question.type] at h
  · rfl

theorem answer_plain (h : plain x = true) (q : Question) : q.answer x = none := by
  unfold Question.answer
  split
  · refine if_neg fun hm => ?_
    cases q <;> simp [plain, hm, Question.reply] at h
  · rfl

theorem plain_light {a : EnergyRelay.Action γ} (h : light a = true) : plain (.relay a) = true := by
  cases a with
  | send dest m =>
    have hlight : lightMsg m = true := h
    simp only [plain, Bool.and_eq_true, decide_eq_true_eq]
    constructor
    · intro hm
      simp [lightMsg, hm] at hlight
    · intro hm
      simp [lightMsg, hm] at hlight
  | snapshot | peerIDs => rfl
  | _ => cases h

theorem plain_unanswered {op : Op γ} (h : unanswered op = true) :
    plain (.relay (.method op)) = true := by
  cases op <;> first | rfl | cases h

section

variable (hF : Flight env computed Q) {m : Msg γ}

include hF

theorem Flight.kept (hg : Steady computed Q i) (ht : Taken env ω Q i x R)
    (hi : Q.stage i = some (id, w)) (hi' : R.stage i = some (id, w')) (hplain : plain x = true)
    (hreg : w'.registered = true → w.registered = true)
    (hcarry : carries w' = true → carries w = true)
    (hwork : carries w' = true → SameRound Q R → Carried env computed R i id w →
      Carried env computed R i id w') : Flight env computed R := by
  have hask := asked_plain hplain
  have hans := answer_plain hplain
  have hback : ∀ a, under R a = true → under Q a = true := by
    intro a ha
    rcases under_back ht hi hi' hreg ha with ⟨rfl, hw'⟩ | ⟨q, j, k, v, -, -, hasked⟩ | ⟨-, ha⟩
    · rw [under_work hi]
      exact hcarry hw'
    · rw [hask] at hasked
      cases hasked
    · exact ha
  have hsame : ∀ a, under Q a = true → SameRound Q R := by
    intro a ha
    obtain ⟨hphase, hwinner⟩ := hF.quiet a ha
    refine sameRound ht ?_ ?_ ?_ hphase hwinner
    · by_contra hends
      rw [hg.2 x ht.next (by simpa using hends) a] at ha
      cases ha
    · rintro masks rfl
      cases hplain
    · rintro seat price rfl
      cases hplain
  have hanswers : ∀ q j, answers R.history q j = answers Q.history q j := by
    simp [answers_taken ht, hans]
  have hasked : ∀ q k, asked R.history q k = asked Q.history q k := by
    simp [asked_taken ht, hask]
  refine ⟨fun a b ha hb => hF.single a b (hback a ha) (hback b hb), ?_, ?_, ?_⟩
  · intro a ha
    rw [(hsame a (hback a ha)).phase, (hsame a (hback a ha)).winner]
    exact hF.quiet a (hback a ha)
  · intro a ha
    have hround := hsame a (hback a ha)
    have hfact := hF.fact a (hback a ha)
    cases a with
    | work j =>
      intro k v hj
      rcases stage_back ht hi hi' hj with ⟨rfl, rfl, rfl⟩ | ⟨-, hj'⟩
      · rw [under_work hj] at ha
        exact hwork ha hround ((hfact k w hi).taken ht hround (hanswers _ _))
      · exact (hfact k v hj').taken ht hround (hanswers _ _)
    | due q j =>
      intro k v hj
      have hdue : Due env Q q j k := by
        rcases stage_back ht hi hi' hj with ⟨rfl, rfl, rfl⟩ | ⟨-, hj'⟩
        · exact hfact k w hi
        · exact hfact k v hj'
      unfold Due
      rw [hround.phase, hround.bids, hanswers, hasked]
      exact hdue
  · intro q j k v hj
    exact answered_step hF hg.1 ht hi hi' hj

theorem Flight.idle (hg : Steady computed Q i) (ht : Taken env ω Q i x R)
    (hi : Q.stage i = some (id, w)) (hi' : R.stage i = some (id, w')) (hplain : plain x = true)
    (hreg : w'.registered = true → w.registered = true) (hw' : carries w' = false) :
    Flight env computed R := by
  refine hF.kept hg ht hi hi' hplain hreg ?_ ?_
  · rw [hw']
    rintro ⟨⟩
  · rw [hw']
    rintro ⟨⟩

theorem Flight.one (hg : Honest computed Q i) (ht : Taken env ω Q i x R)
    (hi : Q.stage i = some (id, w)) (hi' : R.stage i = some (id, w')) (a : Spot ι)
    (hone : ∀ b, under R b = true → b = a)
    (hquiet : R.state.auction.phase ≠ .bidding ∧ R.state.auction.winnerSeat < 0)
    (hfact : under R a = true → Fact env computed R a) : Flight env computed R where
  single := fun b c hb hc => (hone b hb).trans (hone c hc).symm
  quiet := fun _ _ => hquiet
  fact := by
    intro b hb
    obtain rfl := hone b hb
    exact hfact hb
  answered := fun q j k v hj => answered_step hF hg ht hi hi' hj

theorem flight_complete (hG : Ground Q) (hg : Honest computed Q i)
    (ht : Taken env ω Q i (.relay (.method (.submitBid id m.keyID m.blob))) R)
    (hi : Q.stage i = some (id, .opened m)) (hi' : R.stage i = some (id, .completed))
    (hcomplete : (Q.state.auction.submitBid id m.keyID m.blob).1 = .complete) :
    Flight env computed R := by
  have hauction : R.state.auction = (Q.state.auction.submitBid id m.keyID m.blob).2 := by
    rw [ht.state]
    rfl
  obtain ⟨hbidding, hphase, hwinner⟩ : Q.state.auction.phase = .bidding ∧
      R.state.auction.phase = .evaluating ∧
      R.state.auction.winnerSeat = Q.state.auction.winnerSeat := by
    rw [hauction]
    revert hcomplete
    unfold Auction.submitBid
    split
    · rintro ⟨⟩
    · dsimp only
      split_ifs with hrole hkey hsize
      · rintro ⟨⟩
      · rintro ⟨⟩
      · rintro ⟨⟩
      · exact fun _ => ⟨not_not.mp (not_or.mp hrole).2, rfl, rfl⟩
  have hnone : ∀ a, under Q a ≠ true := fun a ha => (hF.quiet a ha).1 hbidding
  refine hF.one hg ht hi hi' (.work i) ?_ ⟨by rw [hphase]; rintro ⟨⟩, ?_⟩ ?_
  · intro b hb
    rcases under_back ht hi hi' (fun _ => rfl) hb with ⟨rfl, -⟩ | ⟨q, j, k, v, -, -, hasked⟩
      | ⟨-, hb⟩
    · rfl
    · cases hasked
    · exact (hnone b hb).elim
  · rw [hwinner]
    exact hG.bidding hbidding
  · intro _ k v hstage
    rw [hi'] at hstage
    cases hstage
    exact hphase

theorem flight_read (hg : Honest computed Q i) (ht : Taken env ω Q i (.read m) R)
    (hi : Q.stage i = some (id, .idle)) (hi' : R.stage i = some (id, .opened m))
    (hm : m.type = q.reply) : Flight env computed R := by
  have hanswer : q.answer (.read m) = some m := if_pos hm
  obtain ⟨e, he, hcomputed⟩ := hg _ ht.next _ hi q m hanswer
  have hlt := (List.getElem?_eq_some_iff.mp he).1
  have hdue := (under_due hi).mpr ⟨rfl, hlt⟩
  obtain ⟨hphase, hlength, hquestion⟩ := hF.fact _ hdue id _ hi
  have hanswers : answers R.history q i = answers Q.history q i ++ [m] := by
    simp [answers_taken ht, hanswer]
  have hasked : asked R.history q id = asked Q.history q id := by
    rw [asked_taken ht]
    exact append_nil _
  have hstate := ht.state
  refine hF.one hg ht hi hi' (.work i) ?_ (by rw [hstate]; exact hF.quiet _ hdue) ?_
  · intro b hb
    rcases under_back ht hi hi' (fun _ => rfl) hb with ⟨rfl, -⟩ | ⟨q, j, k, v, -, -, hasked⟩
      | ⟨-, hold⟩
    · rfl
    · cases hasked
    · -- the one question that was open has just been answered
      obtain rfl := hF.single _ _ hdue hold
      have hopen := ((under_due hi').mp hb).2
      rw [hanswers, hasked, hlength] at hopen
      simp at hopen
  · intro _ k v hstage
    rw [hi'] at hstage
    cases hstage
    refine ⟨fun hmasks => ?_, fun hoffer => ?_⟩
    · obtain rfl : q = .evaluate := by
        cases q with
        | evaluate => rfl
        | masks => rw [hmasks] at hm; cases hm
      rw [hstate]
      refine ⟨hphase, (answers Q.history .evaluate i).length, by simp [hanswers], ?_, ?_⟩
      · rw [hasked, hstate]
        exact hquestion rfl
      · rw [hstate]
        have hcts := hcomputed rfl
        rw [Option.mem_def.mp he] at hquestion
        rw [Option.some.inj (hquestion rfl)] at hcts
        exact hcts
    · obtain rfl : q = .masks := by
        cases q with
        | evaluate => rw [hoffer] at hm; cases hm
        | masks => rfl
      rw [hstate]
      exact hphase

theorem flight_mask (hg : Honest computed Q i)
    (ht : Taken env ω Q i (.relay (.method (.setMasks m.blobs))) R)
    (hi : Q.stage i = some (id, .opened m)) (hi' : R.stage i = some (id, .masked m))
    (hm : m.type = .masks) : Flight env computed R := by
  have hauction : R.state.auction = Q.state.auction.setMasks m.blobs := by
    rw [ht.state]
    rfl
  have hwork : under Q (.work i) = true := by simp [under_work hi, carries, hm]
  have hfact := (hF.fact _ hwork id _ hi).1 hm
  refine hF.one hg ht hi hi' (.work i) ?_ ?_ ?_
  · intro b hb
    rcases under_back ht hi hi' (fun _ => rfl) hb with ⟨rfl, -⟩ | ⟨q, j, k, v, -, -, hasked⟩
      | ⟨hne, hb⟩
    · rfl
    · cases hasked
    · exact (hne (hF.single _ _ hb hwork)).elim
  · rw [hauction]
    exact ⟨by rintro ⟨⟩, (hF.quiet _ hwork).2⟩
  · intro _ k v hstage
    rw [hi'] at hstage
    cases hstage
    refine ⟨by rw [hauction]; rfl, hfact.2.taken ht (by rw [hauction]; rfl) ?_⟩
    rw [answers_taken ht, if_pos rfl]
    exact append_nil _

theorem flight_offer (hg : Honest computed Q i)
    (ht : Taken env ω Q i (.relay (.method (.offer m.seat m.price))) R)
    (hi : Q.stage i = some (id, .opened m)) (hi' : R.stage i = some (id, .idle))
    (hm : m.type = .offer) : Flight env computed R := by
  have hwork : under Q (.work i) = true := by simp [under_work hi, carries, hm]
  have hnone : ∀ a, under R a ≠ true := by
    intro b hb
    rcases under_back ht hi hi' (fun _ => rfl) hb with ⟨-, hw'⟩ | ⟨q, j, k, v, -, -, hasked⟩
      | ⟨hne, hb⟩
    · cases hw'
    · cases hasked
    · exact hne (hF.single _ _ hb hwork)
  exact ⟨fun a _ ha => (hnone a ha).elim, fun a ha => (hnone a ha).elim,
    fun a ha => (hnone a ha).elim, fun q j k v hj => answered_step hF hg ht hi hi' hj⟩

theorem flight_ask (hm : Members Q) (hg : Honest computed Q i) {dest : String}
    (ht : Taken env ω Q i (.relay (.send dest m)) R) (hi : Q.stage i = some (id, w))
    (hi' : R.stage i = some (id, .idle)) (hwork : under Q (.work i) = true)
    (hreg : w.registered = true) (hq : m.type = q.type) (hphase : Q.state.auction.phase = q.phase)
    (hmsg : q = .evaluate → m = evaluateMsg env Q.state.auction.orderedBids) :
    Flight env computed R := by
  have hauction : R.state.auction = Q.state.auction := by
    rw [ht.state]
    exact RelayState.deliver_auction ..
  have hplace : ∀ b, under R b = true →
      ∃ j k v, b = .due q j ∧ R.stage j = some (k, v) ∧ k = dest ∧
        q.asked Q.state k (.relay (.send dest m)) = some m := by
    intro b hb
    rcases under_back ht hi hi' (fun _ => hreg) hb with ⟨-, hw'⟩ | ⟨q', j, k, v, rfl, hj, hasked⟩
      | ⟨hne, hb⟩
    · cases hw'
    · simp only [Question.asked] at hasked
      split at hasked
      · rename_i hdest
        obtain rfl : q' = q := by
          have htype := hq.symm.trans hdest.2.1
          cases q <;> cases q' <;> first | rfl | cases htype
        exact ⟨j, k, v, rfl, hj, hdest.1.symm, if_pos hdest⟩
      · cases hasked
    · exact (hne (hF.single _ _ hb hwork)).elim
  have hback : ∀ {j : ι} {k v}, R.stage j = some (k, v) → ∃ u, Q.stage j = some (k, u) := by
    intro j k v hj
    rcases stage_back ht hi hi' hj with ⟨rfl, rfl, -⟩ | ⟨-, hj⟩
    · exact ⟨w, hi⟩
    · exact ⟨v, hj⟩
  refine ⟨?_, ?_, ?_, fun q j k v hj => answered_step hF hg ht hi hi' hj⟩
  · intro a b ha hb
    obtain ⟨j, k, v, rfl, hj, rfl, -⟩ := hplace a ha
    obtain ⟨j', k', v', rfl, hj', rfl, -⟩ := hplace b hb
    obtain ⟨u, hu⟩ := hback hj
    obtain ⟨u', hu'⟩ := hback hj'
    rw [hm.distinct j j' k' u u' hu hu']
  · intro a _
    rw [hauction]
    exact hF.quiet _ hwork
  · intro a ha
    obtain ⟨j, k, v, rfl, hj, -, hasked⟩ := hplace a ha
    intro k' v' hj'
    rw [hj] at hj'
    cases hj'
    have hanswers : answers R.history q j = answers Q.history q j := by
      rw [answers_taken ht]
      split <;> exact append_nil _
    -- nothing was open before: the only place was the connection that asks
    have hle : (asked Q.history q k).length = (answers Q.history q j).length := by
      have hnot : ∀ v₀, Q.stage j = some (k, v₀) → v₀.registered = true →
          (asked Q.history q k).length = (answers Q.history q j).length := by
        intro v₀ hj₀ hreg₀
        refine le_antisymm ?_ (hF.answered q j k v₀ hj₀)
        by_contra hlt
        have hdue := (under_due hj₀).mpr ⟨hreg₀, not_le.mp hlt⟩
        cases hF.single _ _ hdue hwork
      rcases stage_back ht hi hi' hj with ⟨rfl, rfl, rfl⟩ | ⟨-, hj₀⟩
      · exact hnot w hi hreg
      · exact hnot v hj₀ ((under_due hj).mp ha).1
    refine ⟨by rw [hauction]; exact hphase, ?_, fun hevaluate => ?_⟩
    · rw [hanswers, asked_taken ht, hasked, length_append, hle]
      rfl
    · rw [hanswers, asked_taken ht, hasked, ← hle, hauction, ← hmsg hevaluate]
      exact List.getElem?_concat_length

theorem flight_goes (hG : Ground Q) (hm : Members Q) (hg : Steady computed Q i)
    (ht : Taken env ω Q i x R) (hi : Q.stage i = some (id, w)) (hi' : R.stage i = some (id, w'))
    (hgoes : Goes env id w x (stepSem env ω x Q.state).1 w') : Flight env computed R := by
  have hcarried := hF.fact (.work i)
  rw [under_work hi] at hcarried
  cases hgoes with
  | light hw ha =>
    exact hF.kept hg ht hi hi' (plain_light ha) (fun h => h) (fun h => h) (fun _ _ h => h)
  | call hm hop => exact hF.idle hg ht hi hi' (plain_unanswered hop) (fun _ => rfl) rfl
  | skip hmethod =>
    refine hF.idle hg ht hi hi' ?_ (fun _ => rfl) rfl
    simp only [plain, Bool.and_eq_true, decide_eq_true_eq]
    constructor
    · intro hm
      simp [method, hm] at hmethod
    · intro hm
      simp [method, hm] at hmethod
  | read hmethod =>
    rename_i m a
    by_cases hq : ∃ q : Question, m.type = q.reply
    · obtain ⟨q, hq⟩ := hq
      exact flight_read hF hg.1 ht hi hi' hq
    · have hnot : m.type ≠ .masks ∧ m.type ≠ .offer :=
        ⟨fun h => hq ⟨.evaluate, h⟩, fun h => hq ⟨.masks, h⟩⟩
      exact hF.idle hg ht hi hi' (by simpa [plain] using hnot) (fun _ => rfl)
        (by simpa [carries] using hnot)
  | complete hm result hr => exact flight_complete hF hG hg.1 ht hi hi' hr
  | collect =>
    exact hF.kept hg ht hi hi' rfl (fun _ => rfl) (fun _ => rfl)
      (fun _ hsame h => ⟨h, hsame.bids.symm⟩)
  | pick | seller => exact hF.kept hg ht hi hi' rfl (fun _ => rfl) (fun _ => rfl) (fun _ _ h => h)
  | evaluate =>
    obtain ⟨hphase, hbids⟩ := hcarried rfl id _ hi
    refine flight_ask (q := .evaluate) hF hm hg.1 ht hi hi' (by rw [under_work hi]; rfl) rfl rfl
      hphase fun _ => ?_
    rw [hbids]
  | mask hmasks => exact flight_mask hF hg.1 ht hi hi' hmasks
  | pair =>
    exact hF.kept hg ht hi hi' rfl (fun _ => rfl) (fun _ => rfl)
      (fun _ hsame h => ⟨h.1, h.2, hsame.bids.symm⟩)
  | hand =>
    obtain ⟨hphase, -⟩ := hcarried rfl id _ hi
    exact flight_ask (q := .masks) hF hm hg.1 ht hi hi' (by rw [under_work hi]; rfl) rfl rfl
      hphase (by rintro ⟨⟩)
  | offer hoffer => exact flight_offer hF hg.1 ht hi hi' hoffer
  | deregister | leave => exact hF.idle hg ht hi hi' rfl (by rintro ⟨⟩) rfl
  | _ => exact hF.idle hg ht hi hi' rfl (fun _ => rfl) rfl

end

/-- No question goes to a tab that has no id yet, and none is answered by one. -/
structure Mail (Q : Hub ι γ) : Prop where
  issued : ∀ q k, asked Q.history q k ≠ [] → ∃ n ≤ Q.state.nextID, k = tabID n
  fresh : ∀ q i, Q.stage i = none → answers Q.history q i = []

theorem nextID_taken (ht : Taken env ω Q i x R) : Q.state.nextID ≤ R.state.nextID := by
  rw [ht.state]
  cases x with
  | register => exact Nat.le_succ _
  | read m => exact le_rfl
  | relay a =>
    cases a with
    | send dest m => exact (RelayState.deliver_nextID _ _ _).ge
    | _ => exact le_rfl

theorem mail_step (hM : Mail Q) (hm : Members Q) (ht : Taken env ω Q i x R)
    (hstay : R.stage i ≠ none) : Mail R where
  issued := by
    intro q k hne
    rw [asked_taken ht] at hne
    have hle := nextID_taken ht
    by_cases hold : asked Q.history q k = []
    · rw [hold] at hne
      cases hasked : q.asked Q.state k x with
      | none =>
        rw [hasked] at hne
        exact (hne rfl).elim
      | some m =>
        have hconn : k ∈ Q.state.conns := by
          unfold Question.asked at hasked
          split at hasked
          · split at hasked
            · rename_i hdest
              exact hdest.2.2
            · cases hasked
          · cases hasked
        obtain ⟨j, v, hj, -⟩ := (hm.registered k).mp hconn
        obtain ⟨n, hn, hk⟩ := hm.issued j k v hj
        exact ⟨n, hn.trans hle, hk⟩
    · obtain ⟨n, hn, hk⟩ := hM.issued q k hold
      exact ⟨n, hn.trans hle, hk⟩
  fresh := by
    intro q j hj
    have hji : j ≠ i := by
      rintro rfl
      exact hstay hj
    rw [ht.others j hji] at hj
    rw [answers_taken ht, hM.fresh q j hj, if_neg (Ne.symm hji)]
    rfl

theorem flight_register (hF : Flight env computed Q) (hM : Mail Q)
    (ht : Taken env ω Q i .register R) (hi : Q.stage i = none)
    (hi' : R.stage i = some (tabID (Q.state.nextID + 1), .joining)) : Flight env computed R := by
  have hauction : R.state.auction = Q.state.auction := by
    rw [ht.state]
    rfl
  have hanswers : ∀ q j, answers R.history q j = answers Q.history q j := by
    intro q j
    rw [answers_taken ht]
    split <;> exact append_nil _
  have hasked : ∀ q k, asked R.history q k = asked Q.history q k := by
    intro q k
    rw [asked_taken ht]
    exact append_nil _
  have hnew : ∀ q, asked Q.history q (tabID (Q.state.nextID + 1)) = [] := by
    intro q
    by_contra hne
    obtain ⟨n, hn, hid⟩ := hM.issued q _ hne
    have := tabID_injective hid
    omega
  have hback : ∀ a, under R a = true → under Q a = true ∧ a ≠ .work i ∧ ∀ q, a ≠ .due q i := by
    intro a ha
    obtain ⟨k, v, hwork, hdue⟩ := stage_of_under ha
    cases a with
    | work j =>
      have hj := hwork j rfl
      rw [under_work hj] at ha
      have hji : j ≠ i := by
        rintro rfl
        rw [hi'] at hj
        cases hj
        cases ha
      rw [ht.others j hji] at hj
      refine ⟨by rw [under_work hj]; exact ha, ?_, by rintro _ ⟨⟩⟩
      rintro ⟨⟩
      exact hji rfl
    | due q j =>
      have hj := hdue q j rfl
      obtain ⟨hv, hlt⟩ := (under_due hj).mp ha
      rw [hanswers, hasked] at hlt
      have hji : j ≠ i := by
        rintro rfl
        rw [hi'] at hj
        cases hj
        rw [hnew] at hlt
        cases hlt
      rw [ht.others j hji] at hj
      refine ⟨(under_due hj).mpr ⟨hv, hlt⟩, by rintro ⟨⟩, ?_⟩
      rintro _ ⟨⟩
      exact hji rfl
  have hsame : SameRound Q R := ⟨by rw [hauction], by rw [hauction], by rw [hauction]⟩
  refine ⟨fun a b ha hb => hF.single a b (hback a ha).1 (hback b hb).1, ?_, ?_, ?_⟩
  · intro a ha
    rw [hauction]
    exact hF.quiet a (hback a ha).1
  · intro a ha
    obtain ⟨hold, hwork, hdue⟩ := hback a ha
    have hfact := hF.fact a hold
    cases a with
    | work j =>
      intro k v hj
      rw [ht.others j (fun h => hwork (by rw [h]))] at hj
      exact (hfact k v hj).taken ht hsame (hanswers _ _)
    | due q j =>
      intro k v hj
      rw [ht.others j (fun h => hdue q (by rw [h]))] at hj
      unfold Due
      rw [hauction, hanswers, hasked]
      exact hfact k v hj
  · intro q j k v hj
    rw [hanswers, hasked]
    by_cases hji : j = i
    · subst hji
      rw [hM.fresh q j hi]
      exact Nat.zero_le _
    · rw [ht.others j hji] at hj
      exact hF.answered q j k v hj

theorem complete_of_phase {a : Auction γ} {kid : ℤ} {ct : List γ}
    (h : (a.submitBid k kid ct).2.phase = .evaluating) (ha : a.phase ≠ .evaluating) :
    (a.submitBid k kid ct).1 = .complete ∧ kid = a.keyID ∧
      (a.submitBid k kid ct).2.keyID = a.keyID := by
  revert h
  unfold Auction.submitBid
  split
  · exact fun h => (ha h).elim
  · dsimp only
    split_ifs with hrole hkey hsize
    · exact fun h => (ha h).elim
    · exact fun h => (ha h).elim
    · exact fun h => (ha h).elim
    · exact fun _ => ⟨rfl, not_not.mp hkey, rfl⟩

theorem CompleteSet.taken (h : CompleteSet Q) (ht : Taken env ω Q i x R)
    (hkey : R.state.auction.keyID = Q.state.auction.keyID)
    (hbids : R.state.auction.bids = Q.state.auction.bids) : CompleteSet R := by
  obtain ⟨y, hy, b, hb, hrest⟩ := h
  refine ⟨y, ?_, b, hb, ?_⟩
  · rw [ht.history]
    exact mem_append_left _ hy
  · rw [hkey, hbids]
    exact hrest

theorem completeSet_step (hC : Q.state.auction.phase = .evaluating → CompleteSet Q)
    (ht : Taken env ω Q i x R) (hphase : R.state.auction.phase = .evaluating) : CompleteSet R := by
  by_cases hbid : ∃ k kid ct, x = .relay (.method (.submitBid k kid ct)) ∧
      Q.state.auction.phase ≠ .evaluating
  · obtain ⟨k, kid, ct, rfl, hnot⟩ := hbid
    have hauction : R.state.auction = (Q.state.auction.submitBid k kid ct).2 := by
      rw [ht.state]
      rfl
    rw [hauction] at hphase
    obtain ⟨hcomplete, hkid, hkey⟩ := complete_of_phase hphase hnot
    refine ⟨_, by rw [ht.history]; exact mem_append_right _ (mem_singleton_self _),
      (k, kid, ct), rfl, ?_, hcomplete, by rw [hauction]⟩
    rw [hauction, hkey]
    exact hkid
  · obtain ⟨t, hpart, rfl | ⟨op, hcalled, hstep⟩⟩ := roundStep_taken ht
    · have hfield := RoundPart.mk.inj hpart
      exact (hC (hfield.1.symm.trans hphase)).taken ht hfield.2.2.2.2.1 hfield.2.2.2.1
    · have hphase' : t.phase = .evaluating := hpart ▸ hphase
      have hkey : R.state.auction.keyID = t.keyID := hpart ▸ rfl
      have hbids : R.state.auction.bids = t.bids := hpart ▸ rfl
      cases hstep with
      | published | masked | offered | settled | cleared => cases hphase'
      | sealed hp hb hbidding =>
        refine (hbid ⟨_, _, _, called_eq_method hcalled (by rintro _ _ ⟨⟩), ?_⟩).elim
        intro hevaluating
        have hboth : Q.state.auction.phase = .bidding := hbidding
        rw [hevaluating] at hboth
        cases hboth
      | refused | kept => exact (hC hphase').taken ht hkey hbids

theorem bidding_step (hB : Q.state.auction.phase = .bidding → Q.state.auction.winnerSeat < 0)
    (ht : Taken env ω Q i x R) (hphase : R.state.auction.phase = .bidding) :
    R.state.auction.winnerSeat < 0 := by
  obtain ⟨t, hpart, rfl | ⟨op, hcalled, hstep⟩⟩ := roundStep_taken ht
  · have hfield := RoundPart.mk.inj hpart
    rw [hfield.2.2.2.2.2.1]
    exact hB (hfield.1.symm.trans hphase)
  · have hphase' : t.phase = .bidding := hpart ▸ hphase
    have hwinner : R.state.auction.winnerSeat = t.winnerSeat := hpart ▸ rfl
    rw [hwinner]
    cases hstep with
    | published => exact Int.negSucc_lt_zero 0
    | sealed hp hb hbidding => exact hB hbidding
    | refused | kept => exact hB hphase'
    | masked | offered | settled | cleared => cases hphase'

structure Evaluates (env : Env γ) (computed : List (List γ) → List (List γ) → Prop)
    (Q : Hub ι γ) : Prop where
  flight : Flight env computed Q
  mail : Mail Q
  ground : Ground Q

theorem evaluates_step {guard : Hub ι γ → ι → Prop} {frames : ι → List (Msg γ)}
    (hrun : Pool.Run (stepSem env ω) guard (Hub.start env frames) Q)
    (hE : Evaluates env computed Q) (hg : Steady computed Q i)
    (hs : Q.step (stepSem env ω) i = some R) : Evaluates env computed R := by
  have hm := members hrun
  obtain ⟨x, ht, ⟨hi, rfl, hi'⟩ | ⟨id, w, w', hi, hi', hgoes⟩⟩ := step_cases hrun hs
  · refine ⟨flight_register hE.flight hE.mail ht hi hi', mail_step hE.mail hm ht ?_,
      bidding_step hE.ground.bidding ht, bidsStored_register hE.ground.stored ht,
      completeSet_step hE.ground.complete ht⟩
    rw [hi']
    rintro ⟨⟩
  · refine ⟨flight_goes hE.flight hE.ground hm hg ht hi hi' hgoes, mail_step hE.mail hm ht ?_,
      bidding_step hE.ground.bidding ht,
      bidsStored_step hE.ground.stored ht (bidsStep hm ht hi hgoes),
      completeSet_step hE.ground.complete ht⟩
    rw [hi']
    rintro ⟨⟩

theorem evaluates_start (env : Env γ) (computed : List (List γ) → List (List γ) → Prop)
    (frames : ι → List (Msg γ)) : Evaluates env computed (Hub.start env frames) := by
  have hnone : ∀ a, under (Hub.start env frames) a ≠ true := by
    intro a ha
    cases a <;> cases ha
  refine ⟨⟨fun a _ ha => (hnone a ha).elim, fun a ha => (hnone a ha).elim,
    fun a ha => (hnone a ha).elim, ?_⟩, ⟨fun q k hne => (hne rfl).elim, fun q i _ => rfl⟩,
    ⟨by rintro ⟨⟩, bidsStored_start env frames, by rintro ⟨⟩⟩⟩
  intro q i id w hi
  cases hi

theorem goes_masks {r : x.Res} (h : Goes env id w x r w') {dest : String}
    (hx : x = .relay (.send dest m)) (hm : m.type = .masks) :
    ∃ m' bids, w = .handing m' dest bids ∧ m = masksMsg env m'.blobs bids := by
  cases h with
  | hand =>
    cases hx
    exact ⟨_, _, rfl, rfl⟩
  | light _ ha =>
    have hlight := lightMsg_of_light ha hx
    simp [lightMsg, hm] at hlight
  | _ => cases hx <;> cases hm

theorem goes_setMasks {r : x.Res} (h : Goes env id w x r w') {masks : List (List γ)}
    (hx : x = .relay (.method (.setMasks masks))) : ∃ m, w = .opened m ∧ m.type = .masks := by
  cases h with
  | mask hm => exact ⟨_, rfl, hm⟩
  | light _ ha =>
    cases hx
    cases ha
  | call _ hop =>
    cases hx
    cases hop
  | _ => cases hx

theorem goes_offer {r : x.Res} (h : Goes env id w x r w') {seat : ℤ} {price : ℚ}
    (hx : x = .relay (.method (.offer seat price))) : ∃ m, w = .opened m ∧ m.type = .offer := by
  cases h with
  | offer hm => exact ⟨_, rfl, hm⟩
  | light _ ha =>
    cases hx
    cases ha
  | call _ hop =>
    cases hx
    cases hop
  | _ => cases hx

theorem paired_of_evaluates (hE : Evaluates env computed Q) {seller : String}
    {bids : List (List γ) × List ℤ} (hi : Q.stage i = some (id, .handing m seller bids)) :
    Paired env computed Q i (masksMsg env m.blobs bids) := by
  have hwork : under Q (.work i) = true := by rw [under_work hi]; rfl
  obtain ⟨-, ⟨n, hn, hasked, hcomputed⟩, rfl⟩ := hE.flight.fact _ hwork id _ hi
  exact ⟨id, _, n, _, _, _, hi, hn, hasked, rfl, rfl, rfl, rfl, hcomputed,
    sealed_of_ordered hE.ground.stored⟩

theorem opened_of_evaluates (hE : Evaluates env computed Q) (ht : Taken env ω Q i x R)
    (hi : Q.stage i = some (id, w)) (hgoes : Goes env id w x (stepSem env ω x Q.state).1 w')
    (hnot : Q.state.auction.phase ≠ .offer) (hoffer : R.state.auction.phase = .offer) :
    Q.state.auction.phase = .evaluating := by
  obtain ⟨t, hpart, rfl | ⟨op, hcalled, hstep⟩⟩ := roundStep_taken ht
  · exact (hnot ((RoundPart.mk.inj hpart).1.symm.trans hoffer)).elim
  · have hphase : t.phase = .offer := hpart ▸ hoffer
    cases hstep with
    | published | settled | cleared => cases hphase
    | sealed _ _ _ hphase' =>
      rcases hphase' with h | h <;> cases h.symm.trans hphase
    | refused | kept => exact (hnot hphase).elim
    | masked masks =>
      obtain ⟨m, rfl, hm⟩ := goes_setMasks hgoes (called_eq_method hcalled (by rintro _ _ ⟨⟩))
      have hwork : under Q (.work i) = true := by simp [under_work hi, carries, hm]
      exact ((hE.flight.fact _ hwork id _ hi).1 hm).1
    | offered seat price =>
      obtain ⟨m, rfl, hm⟩ := goes_offer hgoes (called_eq_method hcalled (by rintro _ _ ⟨⟩))
      have hwork : under Q (.work i) = true := by simp [under_work hi, carries, hm]
      exact (hnot ((hE.flight.fact _ hwork id _ hi).2 hm)).elim

end

/-- In runs with honest tabs in which no round is ended while it is evaluated, the seller is handed
masks with the bids they were computed from, and an offer is opened only by the evaluation of a
complete set of bids. -/
theorem round_consistent {ι : Type} [DecidableEq ι] (env : Env γ) (ω : PeerOrder)
    (frames : ι → List (Msg γ)) (computed : List (List γ) → List (List γ) → Prop) {Q : Hub ι γ}
    (hrun : Pool.Run (stepSem env ω) (Steady computed) (Hub.start env frames) Q) :
    Consistent env ω computed Q := by
  have hE : Evaluates env computed Q := by
    induction hrun with
    | refl => exact evaluates_start ..
    | tail hrun hg hs ih => exact evaluates_step hrun ih hg hs
  constructor
  · intro i dest m hnext hm
    obtain ⟨R, hs⟩ := exists_step env ω hnext
    obtain ⟨x, ht, ⟨-, rfl, -⟩ | ⟨id, w, w', hi, -, hgoes⟩⟩ := step_cases hrun hs
    · cases ht.next.symm.trans hnext
    · have hx := Option.some.inj (ht.next.symm.trans hnext)
      obtain ⟨m', bids, rfl, rfl⟩ := goes_masks hgoes hx hm
      exact paired_of_evaluates hE hi
  · intro i R hs hnot hoffer
    obtain ⟨x, ht, ⟨-, rfl, -⟩ | ⟨id, w, w', hi, -, hgoes⟩⟩ := step_cases hrun hs
    · rw [ht.state] at hoffer
      exact (hnot hoffer).elim
    · have hphase := opened_of_evaluates hE ht hi hgoes hnot hoffer
      exact ⟨hphase, hE.ground.complete hphase⟩

section

variable [DecidableEq ι] (computed : List (List γ) → List (List γ) → Prop)
  [∀ masks cts, Decidable (computed masks cts)] (Q : Hub ι γ) (i : ι)

instance : Decidable (Honest computed Q i) :=
  inferInstanceAs (Decidable (∀ _ ∈ _, ∀ _ ∈ _, ∀ _, ∀ _ ∈ _, ∃ _ ∈ _, _ → _))

variable [Fintype ι]

instance : Decidable (∀ spot, under Q spot = false) :=
  decidable_of_iff ((∀ i, under Q (.work i) = false) ∧ ∀ q i, under Q (.due q i) = false) (by
    constructor
    · rintro ⟨hwork, hdue⟩ (i | ⟨q, i⟩)
      · exact hwork i
      · exact hdue q i
    · intro h
      exact ⟨fun i => h _, fun q i => h _⟩)

instance : Decidable (Undisturbed Q i) :=
  inferInstanceAs (Decidable (∀ _ ∈ _, _ → ∀ spot, under Q spot = false))

instance : Decidable (Steady computed Q i) := inferInstanceAs (Decidable (_ ∧ _))

end

def oneEach (masks cts : List (List ℕ)) : Prop := masks.length = cts.length

instance (masks cts : List (List ℕ)) : Decidable (oneEach masks cts) :=
  inferInstanceAs (Decidable (_ = _))

def handSchedule : List Tab :=
  turns [(.first, 5), (.second, 6), (.first, 12), (.second, 13)]

def handRun : Hub Tab ℕ :=
  (Hub.start seatEnv saleFrames).runSchedule (stepSem seatEnv .listed) handSchedule

theorem round_consistent_hand :
    handRun.next .second = some (.relay (.send "p1" (masksMsg seatEnv [[1]] ([[5, 9]], [0])))) ∧
      Paired seatEnv oneEach handRun .second (masksMsg seatEnv [[1]] ([[5, 9]], [0])) := by
  have hnext : handRun.next .second =
      some (.relay (.send "p1" (masksMsg seatEnv [[1]] ([[5, 9]], [0])))) := by decide +kernel
  exact ⟨hnext, (round_consistent seatEnv .listed saleFrames oneEach
    (Pool.Guarded.run _ (by decide +kernel))).paired .second "p1" _ hnext rfl⟩

def lostFrames : Tab → List (Msg ℕ)
  | .first => [{ type := .keys, blob := [5], note := [6] }]
  | .second =>
    [{ type := .bid, blob := [5, 9], keyID := 1 }, { type := .masks, blobs := [[1], [0]] }]
  | .third => [{ type := .bid, blob := [5, 8], keyID := 1 }]
  | .fourth => []

def lostSchedule : List Tab :=
  turns [(.first, 5), (.second, 6), (.third, 7), (.first, 14), (.second, 7), (.third, 12),
    (.second, 4)]

def lostRun : Hub Tab ℕ :=
  (Hub.start seatEnv lostFrames).runSchedule (stepSem seatEnv .listed) lostSchedule

/-- The seller is about to be handed two masks and no bid. -/
theorem masks_without_bids :
    Pool.Run (stepSem seatEnv .listed) (Honest oneEach) (Hub.start seatEnv lostFrames) lostRun ∧
      ¬ Consistent seatEnv .listed oneEach lostRun := by
  have hnext : lostRun.next .second =
      some (.relay (.send "p1" (masksMsg seatEnv [[1], [0]] ([], [])))) := by decide +kernel
  have hstage : (lostRun.stage .second).map Prod.fst = some "p2" := by decide +kernel
  have hanswers : (answers lostRun.history .evaluate .second).length = 1 := by decide +kernel
  have hasked : asked lostRun.history .evaluate "p2" =
      [evaluateMsg seatEnv ([[5, 9], [5, 8]], [0, 1])] := by decide +kernel
  refine ⟨Pool.Guarded.run _ (by decide +kernel), fun h => ?_⟩
  obtain ⟨id, w, n, e, cts, seats, hi, hn, he, hcts, -, hbids, -⟩ :=
    h.paired .second "p1" _ hnext rfl
  rw [hi] at hstage
  obtain rfl : id = "p2" := Option.some.inj hstage
  obtain rfl : n = 0 := by omega
  rw [hasked] at he
  cases he
  cases hcts.trans hbids.symm

end EnergyEvaluation
