import Ares.EnergyAuctionRounds
import Ares.EnergyRelay

/-! Two runs of the relay over the same connections and frames, except that the seats named in
offers may differ. -/
namespace EnergyRelaySecrecy

open InterleavedPrograms FiniteMaps OperationRuns EnergyAuction EnergyAuctionRounds EnergyRelay

variable {γ : Type}

inductive Inbound (γ : Type) where
  | connect
  | disconnect (id : String)
  | frame (id : String) (m : Msg γ)
  deriving DecidableEq

def handled (env : Env γ) (ω : PeerOrder) : Inbound γ → RelayState γ → RelayState γ
  | .connect, s => (connected (tabID (s.nextID + 1))).final (sem env ω) s.register
  | .disconnect id, s => (disconnected id).final (sem env ω) s
  | .frame id m, s => (handle env id m).final (sem env ω) s

def Veiled (a b : Auction γ) : Prop :=
  ∃ w ts, b = { a with winnerSeat := w, trades := ts } ∧
    ts.map Trade.public = a.trades.map Trade.public ∧ (w < 0 ↔ a.winnerSeat < 0)

def VeiledFrom (a b a' b' : Auction γ) : Prop :=
  Veiled a' b' ∧ (a.winnerSeat = b.winnerSeat → a'.winnerSeat = b'.winnerSeat)

section

variable {a b : Auction γ}

theorem Veiled.refl (a : Auction γ) : Veiled a a := ⟨a.winnerSeat, a.trades, rfl, rfl, Iff.rfl⟩

section

variable (h : Veiled a b)

include h

theorem Veiled.snapshot : b.snapshot = { a.snapshot with winnerSeat := b.winnerSeat } := by
  obtain ⟨w, ts, rfl, hts, -⟩ := h
  simp only [Auction.snapshot, hts]
  rfl

theorem Veiled.peers : b.peers = a.peers := by
  obtain ⟨w, ts, rfl, -, -⟩ := h
  rfl

theorem Veiled.offer (price : ℚ) {seat seat' : ℤ} (hs : 0 ≤ seat) (hs' : 0 ≤ seat') : Veiled
    (a.offer seat price) (b.offer seat' price) := by
  obtain ⟨w, ts, rfl, hts, -⟩ := h
  exact ⟨seat', ts, rfl, hts, iff_of_false (not_lt.mpr hs') (not_lt.mpr hs)⟩

theorem Veiled.sameOffer (seat : ℤ) (price : ℚ) :
    Veiled (a.offer seat price) (b.offer seat price) := by
  obtain ⟨w, ts, rfl, hts, -⟩ := h
  exact ⟨seat, ts, rfl, hts, Iff.rfl⟩

theorem Veiled.leave (id : String) : VeiledFrom a b (a.leave id) (b.leave id) := by
  obtain ⟨w, ts, rfl, hts, hw⟩ := h
  simp only [Auction.leave, Auction.removed, Auction.resetLocked]
  split_ifs with hany haudit haudit <;>
    first
    | exact ⟨⟨-1, ts, rfl, hts, Iff.rfl⟩, fun _ => rfl⟩
    | exact ⟨⟨w, ts, rfl, hts, hw⟩, fun heq => heq⟩

theorem Veiled.settle (accepted : Bool) (clock : String) :
    VeiledFrom a b (a.settle accepted clock).2 (b.settle accepted clock).2 ∧
      (0 ≤ (a.settle accepted clock).1 ↔ 0 ≤ (b.settle accepted clock).1) := by
  obtain ⟨w, ts, rfl, hts, hw⟩ := h
  simp only [Auction.settle]
  by_cases hneg : a.winnerSeat < 0
  · rw [if_pos hneg, if_pos (hw.mpr hneg)]
    exact ⟨⟨⟨w, ts, rfl, hts, hw⟩, fun heq => heq⟩, Iff.rfl⟩
  · have hlen : ts.length = a.trades.length := by simpa using congrArg List.length hts
    rw [if_neg hneg, if_neg (fun hlt => hneg (hw.mp hlt))]
    refine ⟨⟨⟨-1, Auction.trade { a with winnerSeat := w, trades := ts } accepted clock :: ts,
      ?_, ?_, Iff.rfl⟩, fun _ => rfl⟩, ?_⟩
    · simp only [Auction.resetLocked, List.length_cons, hlen]
      rfl
    · simp only [List.map_cons, hts]
      rfl
    · exact iff_of_true (not_lt.mp hneg) (not_lt.mp fun hlt => hneg (hw.mp hlt))

theorem Veiled.submitBid (id : String) (keyID : ℤ) (ct : List γ) :
    (a.submitBid id keyID ct).1 = (b.submitBid id keyID ct).1 ∧
      VeiledFrom a b (a.submitBid id keyID ct).2 (b.submitBid id keyID ct).2 := by
  obtain ⟨w, ts, rfl, hts, hw⟩ := h
  simp only [Auction.submitBid]
  cases hp : a.peers.lookup id with
  | none => exact ⟨rfl, ⟨w, ts, rfl, hts, hw⟩, fun heq => heq⟩
  | some p =>
    dsimp only
    -- the two completeness tests read the same bids and peers
    split_ifs with hrole hkey hsize hsize' hsize'
    all_goals first
      | exact ⟨rfl, ⟨w, ts, rfl, hts, hw⟩, fun heq => heq⟩
      | exact absurd hsize hsize'
      | exact absurd hsize' hsize

end

def concernsWinner : Op γ → Bool
  | .offer .. | .settle .. => true
  | _ => false

theorem Veiled.run (h : Veiled a b) {op : Op γ} (hop : concernsWinner op = false) :
    (op.run a).1 = (op.run b).1 ∧ VeiledFrom a b (op.run a).2 (op.run b).2 := by
  have hveiled := h
  obtain ⟨w, ts, rfl, hts, hw⟩ := hveiled
  cases op with
  | offer seat price | settle accepted clock => cases hop
  | leave id => exact ⟨rfl, h.leave id⟩
  | submitBid id keyID ct => exact h.submitBid ..
  | startEpochChain =>
    simp only [Op.run, Auction.startEpochChain]
    split_ifs <;> exact ⟨rfl, ⟨w, ts, rfl, hts, hw⟩, fun heq => heq⟩
  | advanceEpochChain pk =>
    simp only [Op.run, Auction.advanceEpochChain]
    cases a.epochParty[a.chainPos + 1]? <;>
      exact ⟨rfl, ⟨w, ts, rfl, hts, hw⟩, fun heq => heq⟩
  | submitEpochTotal id ct =>
    simp only [Op.run, Auction.submitEpochTotal]
    split_ifs <;> exact ⟨rfl, ⟨w, ts, rfl, hts, hw⟩, fun heq => heq⟩
  | newEpoch => exact ⟨rfl, ⟨-1, [], rfl, rfl, Iff.rfl⟩, fun _ => rfl⟩
  | reset | setHour n | publishKeys pk ek => exact ⟨rfl, ⟨-1, ts, rfl, hts, Iff.rfl⟩, fun _ => rfl⟩
  | join id | setMasks masks | submitEpochPartial id ct | closeEpoch net ok =>
    exact ⟨rfl, ⟨w, ts, rfl, hts, hw⟩, fun heq => heq⟩

end

def reseat (w : ℤ) (m : Msg γ) : Msg γ :=
  { m with state := m.state.map fun snap => { snap with winnerSeat := w } }

def Told (w v : ℤ) (l l' : List (Msg γ)) : Prop := l' = l.map (reseat v) ∧ l = l'.map (reseat w)

variable {m : Msg γ} {ω : PeerOrder} {s : RelayState γ}

section

variable {w v : ℤ} {l l' k k' : List (Msg γ)}

theorem reseat_of_none (h : m.state = none) : reseat w m = m := by
  cases m
  simp_all [reseat]

theorem Told.nil : Told w v ([] : List (Msg γ)) [] := ⟨rfl, rfl⟩

theorem Told.append (h : Told w v l l') (hk : Told w v k k') : Told w v (l ++ k) (l' ++ k') := by
  refine ⟨?_, ?_⟩
  · rw [List.map_append, ← h.1, ← hk.1]
  · rw [List.map_append, ← h.2, ← hk.2]

theorem Told.same (h : m.state = none) : Told w v [m] [m] := by
  refine ⟨?_, ?_⟩ <;> rw [List.map_singleton, reseat_of_none h]

theorem Told.state {a b : Auction γ} (h : Veiled a b) (id : String) :
    Told a.winnerSeat b.winnerSeat [(stateMsg a.snapshot id : Msg γ)] [stateMsg b.snapshot id] := by
  rw [h.snapshot]
  exact ⟨rfl, rfl⟩

theorem Told.eq_iff (h : Told w v l l') : l = l' ↔ w = v ∨ ∀ m ∈ l, m.state = none := by
  have hfix : ∀ {u : ℤ}, l.map (reseat u) = l → ∀ m ∈ l, ∀ snap, m.state = some snap →
      snap.winnerSeat = u := by
    intro u hmap m hm snap hsnap
    have hm' : reseat u m = m := List.map_inj_left.mp (hmap.trans (List.map_id l).symm) m hm
    have hstate := congrArg Msg.state hm'
    rw [reseat, hsnap, Option.map_some, Option.some.injEq] at hstate
    rw [← hstate]
  constructor
  · intro heq
    by_cases hnone : ∀ m ∈ l, m.state = none
    · exact .inr hnone
    · obtain ⟨m, hm, hsome⟩ : ∃ m ∈ l, ¬ m.state = none := by simpa using hnone
      obtain ⟨snap, hsnap⟩ := Option.ne_none_iff_exists'.mp hsome
      subst heq
      exact .inl ((hfix h.2.symm m hm snap hsnap).symm.trans (hfix h.1.symm m hm snap hsnap))
  · rintro (rfl | hnone)
    · have hidem : ∀ m : Msg γ, reseat w (reseat w m) = reseat w m := by
        intro m
        cases m.state <;> simp_all [reseat, Function.comp_def]
      rw [h.2, h.1, List.map_map]
      exact List.map_congr_left fun m _ => hidem m
    · rw [h.1]
      exact (List.map_id l).symm.trans (List.map_congr_left fun m hm =>
        (reseat_of_none (hnone m hm)).symm)

end

structure Alike (s t : RelayState γ) : Prop where
  conns : t.conns = s.conns
  order : t.order = s.order
  nextID : t.nextID = s.nextID
  draws : t.draws = s.draws
  auction : Veiled s.auction t.auction

theorem Alike.withAuction {s t : RelayState γ} (h : Alike s t) {a a' : Auction γ}
    (ha : Veiled a a') : Alike (s.withAuction a) (t.withAuction a') :=
  ⟨h.conns, h.order, h.nextID, h.draws, ha⟩

def Sends (b : String) (w v : ℤ) (s t s' t' : RelayState γ) : Prop :=
  ∃ l l', s'.received b = s.received b ++ l ∧ t'.received b = t.received b ++ l' ∧ Told w v l l'

/-- A part of a handler that leaves the auctions as they are. -/
structure Emits (b : String) (s t s' t' : RelayState γ) : Prop where
  alike : Alike s' t'
  left : s'.auction = s.auction
  right : t'.auction = t.auction
  told : Sends b s.auction.winnerSeat t.auction.winnerSeat s t s' t'

structure Coupled (b : String) (s t s' t' : RelayState γ) : Prop where
  alike : Alike s' t'
  told : Sends b s'.auction.winnerSeat t'.auction.winnerSeat s t s' t'

structure Twinned (b : String) (s t s' t' : RelayState γ) : Prop extends
    Coupled b s t s' t' where
  winner : s.auction.winnerSeat = t.auction.winnerSeat →
    s'.auction.winnerSeat = t'.auction.winnerSeat

section

variable {b : String} {s t s' t' s'' t'' : RelayState γ}

theorem Emits.refl (h : Alike s t) : Emits b s t s t :=
  ⟨h, rfl, rfl, [], [], by simp, by simp, .nil⟩

theorem Emits.trans (h : Emits b s t s' t') (h' : Emits b s' t' s'' t'') : Emits b s t s'' t'' := by
  obtain ⟨l, l', hl, hl', ht⟩ := h.told
  obtain ⟨k, k', hk, hk', ht'⟩ := h'.told
  rw [h.left, h.right] at ht'
  refine ⟨h'.alike, h'.left.trans h.left, h'.right.trans h.right, l ++ k, l' ++ k', ?_, ?_,
    ht.append ht'⟩
  · rw [hk, hl, List.append_assoc]
  · rw [hk', hl', List.append_assoc]

section

variable (h : Emits b s' t' s'' t'') (hs : s'.received b = s.received b)
  (ht : t'.received b = t.received b)

include h hs ht

theorem Emits.coupled : Coupled b s t s'' t'' := by
  refine ⟨h.alike, ?_⟩
  have htold := h.told
  rw [Sends, hs, ht] at htold
  rw [h.left, h.right]
  exact htold

theorem Emits.twinned
    (hwinner : s.auction.winnerSeat = t.auction.winnerSeat →
      s'.auction.winnerSeat = t'.auction.winnerSeat) : Twinned b s t s'' t'' := by
  refine ⟨h.coupled hs ht, ?_⟩
  rw [h.left, h.right]
  exact hwinner

end

theorem emits_deliver (h : Alike s t) (dest : String) {m m' : Msg γ}
    (hm : Told s.auction.winnerSeat t.auction.winnerSeat [m] [m']) :
    Emits b s t (s.deliver dest m) (t.deliver dest m') := by
  have halike : Alike (s.deliver dest m) (t.deliver dest m') := by
    constructor <;> simp [h.conns, h.order, h.nextID, h.draws, h.auction]
  refine ⟨halike, by simp, by simp, _, _, received_deliver s dest m, received_deliver t dest m',
    ?_⟩
  rw [h.conns]
  split_ifs
  · exact hm
  · exact .nil

end

theorem sellerID_perm {peers : FinMap String Peer} (h : count Auction.isSeller peers ≤ 1)
    {l : List Peer} (hl : l.Perm (values peers)) :
    Auction.sellerID l = Auction.sellerID (values peers) := by
  have hfilter : l.filter Auction.isSeller = (values peers).filter Auction.isSeller := by
    have hperm := hl.filter Auction.isSeller
    rw [count, List.countP_eq_length_filter] at h
    generalize (values peers).filter Auction.isSeller = k at h hperm
    cases k with
    | nil => exact hperm.eq_nil
    | cons p k =>
      obtain rfl : k = [] := List.length_eq_zero_iff.mp (Nat.le_zero.mp (Nat.le_of_succ_le_succ h))
      exact hperm.eq_singleton
  simp only [Auction.sellerID, Auction.seller, ← List.head?_filter, hfilter]

section

variable (env : Env γ) (ω ω' : PeerOrder) (b : String)

def Even (p : RelayM γ Unit) : Prop :=
  ∀ s t, Alike s t → Emits b s t (p.final (sem env ω) s) (p.final (sem env ω') t)

variable {env ω ω' b} {s t : RelayState γ}

theorem even_ret : Even env ω ω' b (.ret ()) := fun _ _ h => .refl h

theorem Even.seq {p q : RelayM γ Unit} (hp : Even env ω ω' b p) (hq : Even env ω ω' b q) :
    Even env ω ω' b (p >>= fun _ => q) := by
  intro s t h
  have h1 := hp s t h
  rw [Prog.final_bind, Prog.final_bind]
  exact h1.trans (hq _ _ h1.alike)

variable (env ω ω' b) in
theorem emits_sendEach {f f' : String → Msg γ} {ids ids' : List String} (hids : ids' = ids)
    (h : Alike s t) (hf : ∀ id, Told s.auction.winnerSeat t.auction.winnerSeat [f id] [f' id]) :
    Emits b s t ((sendEach f ids).final (sem env ω) s)
      ((sendEach f' ids').final (sem env ω') t) := by
  subst hids
  induction ids' generalizing s t with
  | nil => exact .refl h
  | cons id ids ih =>
    have h1 : Emits b s t (s.deliver id (f id)) (t.deliver id (f' id)) := emits_deliver h id (hf id)
    refine h1.trans (ih h1.alike ?_)
    rw [h1.left, h1.right]
    exact hf

variable (env ω ω' b) in
theorem emits_broadcast (h : Alike s t) :
    Emits b s t (broadcast.final (sem env ω) s) (broadcast.final (sem env ω') t) :=
  emits_sendEach env ω ω' b h.order h (Told.state h.auction)

theorem even_broadcast : Even env ω ω' b (broadcast : RelayM γ Unit) :=
  fun _ _ h => emits_broadcast env ω ω' b h

theorem even_send (dest : String) (hm : m.state = none) : Even env ω ω' b (ask (.send dest m)) :=
  fun _ _ h => emits_deliver h dest (.same hm)

theorem even_sendAll (hm : m.state = none) : Even env ω ω' b (sendAll m) :=
  fun _ _ h => emits_sendEach env ω ω' b h.order h fun _ => Told.same hm

def reads : Action γ → Bool
  | .keyID | .evaluator | .orderedBids | .epochCiphertexts | .epochPartials => true
  | _ => false

variable (env ω ω') in
theorem reads_sem (h : Veiled s.auction t.auction) {a : Action γ}
    (ha : reads a = true) : (sem env ω' a t).1 = (sem env ω a s).1 ∧
      (sem env ω a s).2 = s ∧ (sem env ω' a t).2 = t := by
  obtain ⟨w, ts, heq, -, -⟩ := h
  cases a with
  | keyID | evaluator | orderedBids | epochCiphertexts | epochPartials =>
    refine ⟨?_, rfl, rfl⟩
    simp only [sem, heq]
    rfl
  | _ => cases ha

theorem even_reads {a : Action γ} (ha : reads a = true) {k : a.Res → RelayM γ Unit}
    (hk : ∀ r, Even env ω ω' b (k r)) : Even env ω ω' b (ask a >>= k) := by
  intro s t h
  obtain ⟨hres, hs, ht⟩ := reads_sem env ω ω' h.auction ha
  have h1 := hk (sem env ω a s).1 s t h
  simp only [ask, Prog.call_bind, Prog.final_act, hres, hs, ht]
  exact h1

theorem even_sendEvaluator (hm : m.state = none) : Even env ω ω' b (sendEvaluator m) := by
  refine even_reads rfl fun ev => ?_
  cases ev with
  | none => exact even_ret
  | some p => exact even_send p.id hm

theorem twinned_method (h : Alike s t) {op : Op γ}
    (hop : concernsWinner op = false) {k : op.Res → RelayM γ Unit}
    (hk : ∀ r, Even env ω ω' b (k r)) :
    Twinned b s t ((ask (.method op) >>= k).final (sem env ω) s)
      ((ask (.method op) >>= k).final (sem env ω') t) := by
  obtain ⟨hres, hveiled, hwinner⟩ := h.auction.run hop
  have h1 := hk (op.run s.auction).1 _ _ (h.withAuction hveiled)
  nth_rewrite 2 [hres] at h1
  exact h1.twinned rfl rfl hwinner

theorem even_sendMasks (m : Msg γ) (seller : String) :
    Even env ω ω' b (sendMasks env m seller) := by
  unfold sendMasks
  split
  · refine even_reads rfl fun bids => ?_
    exact (even_send _ rfl).seq even_broadcast
  · exact even_broadcast

section

variable {s t : RelayState γ} (h : Alike s t) (m : Msg γ)
include h

variable (env ω ω' b) in
theorem twinned_perform {op : Op γ} (hop : concernsWinner op = false) :
    Twinned b s t ((perform op).final (sem env ω) s) ((perform op).final (sem env ω') t) :=
  twinned_method h hop fun _ => even_broadcast

theorem twinned_handleKeys :
    Twinned b s t ((handleKeys m).final (sem env ω) s) ((handleKeys m).final (sem env ω') t) := by
  refine twinned_method h rfl fun _ => ?_
  refine even_broadcast.seq (even_reads rfl fun kid => ?_)
  exact (even_sendAll rfl).seq (even_sendEvaluator rfl)

theorem twinned_handleBid (id : String) :
    Twinned b s t ((handleBid env id m).final (sem env ω) s)
      ((handleBid env id m).final (sem env ω') t) := by
  refine twinned_method h rfl fun result => ?_
  cases result with
  | rejected => exact even_reads rfl fun kid => (even_send id rfl).seq even_broadcast
  | stored => exact even_broadcast
  | complete =>
    refine even_broadcast.seq (even_reads rfl fun bids => ?_)
    exact even_sendEvaluator rfl

theorem twinned_handleEpochtotal (id : String) :
    Twinned b s t ((handleEpochtotal id m).final (sem env ω) s)
      ((handleEpochtotal id m).final (sem env ω') t) := by
  refine twinned_method h rfl fun all => ?_
  split
  · refine even_reads rfl fun cts => ?_
    exact (even_sendEvaluator rfl).seq even_broadcast
  · exact even_broadcast

theorem twinned_handleEpochPartial (id : String) :
    Twinned b s t ((handleEpochPartial id m).final (sem env ω) s)
      ((handleEpochPartial id m).final (sem env ω') t) := by
  refine twinned_method h rfl fun all => ?_
  split
  · refine even_reads rfl fun parts => ?_
    exact (even_sendAll rfl).seq even_broadcast
  · exact even_broadcast

theorem twinned_handleMasks (hs : count Auction.isSeller s.auction.peers ≤ 1) :
    Twinned b s t ((handleMasks env m).final (sem env ω) s)
      ((handleMasks env m).final (sem env ω') t) := by
  obtain ⟨-, hveiled, hwinner⟩ :=
    h.auction.run (show concernsWinner (.setMasks m.blobs) = false from rfl)
  let s1 := (s.withAuction (s.auction.setMasks m.blobs)).drawn
  let t1 := (t.withAuction (t.auction.setMasks m.blobs)).drawn
  have halike : Alike s1 t1 := ⟨h.conns, h.order, h.nextID, congrArg (· + 1) h.draws, hveiled⟩
  have hseller : Auction.sellerID (ω'.order t.draws (values t.auction.peers)) =
      Auction.sellerID (ω.order s.draws (values s.auction.peers)) := by
    rw [h.auction.peers, sellerID_perm hs (ω.perm ..), sellerID_perm hs (ω'.perm ..)]
  have heven : Even env ω ω' b (sendMasks env m
    (Auction.sellerID (ω.order s.draws (values s.auction.peers)))) := even_sendMasks m _
  have h1 := heven s1 t1 halike
  nth_rewrite 2 [← hseller] at h1
  exact h1.twinned rfl rfl hwinner

end

def settled (env : Env γ) (ω : PeerOrder) (m : Msg γ) (s : RelayState γ) : RelayState γ :=
  let r := s.auction.settle m.ok (env.clock s.draws)
  let s1 := (s.withAuction r.2).drawn
  if 0 ≤ r.1 ∧ m.ok then
    let winner := Auction.peerAtSeat (ω.order s1.draws (values s1.auction.peers)) r.1
    if winner ≠ "" then
      s1.drawn.deliver winner { type := .won, seat := r.1, price := m.price }
    else s1.drawn
  else s1

theorem handleSettle_final (m : Msg γ) (s : RelayState γ) :
    (handleSettle m).final (sem env ω) s = broadcast.final (sem env ω) (settled env ω m s) := by
  let r := s.auction.settle m.ok (env.clock s.draws)
  let s1 := (s.withAuction r.2).drawn
  have hfinal : (handleSettle m).final (sem env ω) s =
      (if 0 ≤ r.1 ∧ m.ok then ask (.peerAtSeat r.1) >>= sendWon m r.1
        else broadcast : RelayM γ Unit).final (sem env ω) s1 := rfl
  rw [hfinal, settled]
  dsimp only
  by_cases hwon : 0 ≤ r.1 ∧ m.ok = true
  · rw [if_pos hwon, if_pos hwon]
    have hsend : (ask (.peerAtSeat r.1) >>= sendWon m r.1).final (sem env ω) s1 =
        (sendWon m r.1 (Auction.peerAtSeat (ω.order s1.draws (values s1.auction.peers))
          r.1)).final (sem env ω) s1.drawn := rfl
    rw [hsend, sendWon]
    split <;> rfl
  · rw [if_neg hwon, if_neg hwon]

variable (env ω) in
theorem settled_fields (m : Msg γ) (s : RelayState γ) :
    (settled env ω m s).auction = (s.auction.settle m.ok (env.clock s.draws)).2 ∧
      (settled env ω m s).conns = s.conns ∧ (settled env ω m s).order = s.order ∧
      (settled env ω m s).nextID = s.nextID ∧ (settled env ω m s).draws = s.draws + 1 +
        if 0 ≤ (s.auction.settle m.ok (env.clock s.draws)).1 ∧ m.ok then 1 else 0 := by
  unfold settled
  dsimp only
  split
  · split <;> simp [RelayState.drawn, RelayState.withAuction]
  · simp [RelayState.drawn, RelayState.withAuction]

theorem settled_alike (h : Alike s t) (m : Msg γ) :
    Alike (settled env ω m s) (settled env ω' m t) := by
  obtain ⟨hsa, hsc, hso, hsn, hsd⟩ := settled_fields env ω m s
  obtain ⟨hta, htc, hto, htn, htd⟩ := settled_fields env ω' m t
  obtain ⟨⟨hveiled, -⟩, hsign⟩ := h.auction.settle m.ok (env.clock s.draws)
  refine ⟨?_, ?_, ?_, ?_, ?_⟩
  · rw [hsc, htc, h.conns]
  · rw [hso, hto, h.order]
  · rw [hsn, htn, h.nextID]
  · simp only [hsd, htd, h.draws, hsign]
  · rw [hsa, hta, h.draws]
    exact hveiled

theorem received_settled {s : RelayState γ}
    (h : ∀ x ∈ (settled env ω m s).received b, x.type ≠ .won) :
    (settled env ω m s).received b = s.received b := by
  simp only [settled] at h ⊢
  split_ifs at h ⊢
  · rw [received_deliver] at h ⊢
    split_ifs at h ⊢
    · exact absurd rfl (h _ (List.mem_append_right _ (List.mem_singleton_self _)))
    · exact List.append_nil _
  all_goals rfl

variable (env ω b) in
theorem received_final (p : RelayM γ Unit) (s : RelayState γ) :
    ∃ l, (p.final (sem env ω) s).received b = s.received b ++ l := by
  refine Prog.final_invariant (sem env ω) (I := fun s' => ∃ l, s'.received b = s.received b ++ l) ?_
    p ⟨[], (List.append_nil _).symm⟩
  rintro a s' ⟨l, hl⟩
  cases a with
  | send dest m =>
    refine ⟨l ++ if dest ∈ s'.conns ∧ dest = b then [m] else [], ?_⟩
    simp [sem, received_deliver, hl]
  | _ => exact ⟨l, hl⟩

section

variable {s t : RelayState γ} (h : Alike s t)

include h

theorem twinned_handleSettle (m : Msg γ)
    (hs : ∀ x ∈ ((handleSettle m).final (sem env ω) s).received b, x.type ≠ .won)
    (ht : ∀ x ∈ ((handleSettle m).final (sem env ω') t).received b, x.type ≠ .won) :
    Twinned b s t ((handleSettle m).final (sem env ω) s)
      ((handleSettle m).final (sem env ω') t) := by
  rw [handleSettle_final] at hs ht ⊢
  rw [handleSettle_final]
  obtain ⟨l, hl⟩ := received_final env ω b broadcast (settled env ω m s)
  obtain ⟨l', hl'⟩ := received_final env ω' b broadcast (settled env ω' m t)
  rw [hl] at hs
  rw [hl'] at ht
  refine (emits_broadcast env ω ω' b (settled_alike h m)).twinned
    (received_settled fun x hx => hs x (List.mem_append_left _ hx))
    (received_settled fun x hx => ht x (List.mem_append_left _ hx)) ?_
  rw [(settled_fields env ω m s).1, (settled_fields env ω' m t).1, h.draws]
  exact (h.auction.settle m.ok (env.clock s.draws)).1.2

theorem twinned_frame (id : String) (m : Msg γ)
    (hsellers : count Auction.isSeller s.auction.peers ≤ 1)
    (hs : ∀ x ∈ (handled env ω (.frame id m) s).received b, x.type ≠ .won)
    (ht : ∀ x ∈ (handled env ω' (.frame id m) t).received b, x.type ≠ .won) :
    Twinned b s t (handled env ω (.frame id m) s) (handled env ω' (.frame id m) t) := by
  have hquiet : Twinned b s t s t := (Emits.refl h).twinned rfl rfl fun heq => heq
  have hnothing : Even env ω ω' b (sendAll { type := .epochdecrypt, blob := m.blob }) :=
    even_sendAll rfl
  simp only [handled, handle] at hs ht ⊢
  cases hm : m.type <;> simp only [hm] at hs ht ⊢
  case keys => exact twinned_handleKeys h m
  case bid => exact twinned_handleBid h m id
  case masks => exact twinned_handleMasks h m hsellers
  case settle => exact twinned_handleSettle h m hs ht
  case epochstart =>
    refine twinned_method h rfl fun first => ?_
    split
    · exact (even_send _ rfl).seq even_broadcast
    · exact even_broadcast
  case epochchained =>
    refine twinned_method h rfl fun step => ?_
    split
    · exact even_broadcast.seq (even_sendAll rfl)
    · exact (even_send _ rfl).seq even_broadcast
  case epochtotal => exact twinned_handleEpochtotal h m id
  case epochPartial => exact twinned_handleEpochPartial h m id
  case newepoch => exact twinned_method h rfl fun _ => (even_sendAll rfl).seq even_broadcast
  case epochsummed => exact (hnothing s t h).twinned rfl rfl fun heq => heq
  case epochresult | reset | hour => exact twinned_perform env ω ω' b h rfl
  case offer =>
    have halike := h.withAuction (h.auction.sameOffer m.seat m.price)
    exact (emits_broadcast env ω ω' b halike).twinned rfl rfl fun _ => rfl
  all_goals exact hquiet

theorem coupled_offer (price : ℚ) {seat seat' : ℤ} (hseat : 0 ≤ seat) (hseat' : 0 ≤ seat') :
    Coupled b s t ((perform (.offer seat price)).final (sem env ω) s)
      ((perform (.offer seat' price)).final (sem env ω') t) := by
  have halike := h.withAuction (h.auction.offer price hseat hseat')
  exact (emits_broadcast env ω ω' b halike).coupled rfl rfl

theorem twinned_connect : Twinned b s t (handled env ω .connect s) (handled env ω' .connect t) := by
  have halike : Alike s.register t.register := by
    constructor <;> simp [RelayState.register, h.conns, h.order, h.nextID, h.draws, h.auction]
  have hop : concernsWinner (.join (tabID (s.nextID + 1)) : Op γ) = false := rfl
  have hjoin := twinned_perform env ω ω' b halike hop
  simp only [handled, h.nextID]
  exact ⟨⟨hjoin.alike, hjoin.told⟩, hjoin.winner⟩

theorem twinned_disconnect (id : String) :
    Twinned b s t (handled env ω (.disconnect id) s) (handled env ω' (.disconnect id) t) := by
  have halike : Alike (s.deregister id) (t.deregister id) := by
    constructor <;> simp [RelayState.deregister, h.conns, h.order, h.nextID, h.draws, h.auction]
  have hop : concernsWinner (.leave id : Op γ) = false := rfl
  have hleave := twinned_perform env ω ω' b halike hop
  exact ⟨⟨hleave.alike, hleave.told⟩, hleave.winner⟩

end

end

/-- The relay's own books: everyone registered is listed once, and every id in use has been
issued. -/
structure Served (s : RelayState γ) : Prop where
  sound : Sound (table s.auction)
  present : ∀ k, k ∈ s.order ↔ k ∈ s.conns
  order_nodup : s.order.Nodup
  listed : ∀ k ∈ s.order, ∃ n ≤ s.nextID, k = tabID n
  seated : ∀ k ∈ s.auction.peers, ∃ n ≤ s.nextID, k = tabID n

def withinFrame : Action γ → Bool
  | .method (.join _) | .deregister _ => false
  | _ => true

section

variable {env : Env γ} {b : String}

theorem mem_peers_apply {op : Op γ} (hop : ∀ id, op ≠ .join id) {a : Auction γ} {k : String}
    (h : k ∈ (op.apply a).peers) : k ∈ a.peers := by
  have hstep := table_step op a
  generalize ht : table (op.apply a) = t' at hstep
  have hpeers : (op.apply a).peers = t'.peers := by rw [← ht]; rfl
  rw [hpeers] at h
  cases hstep with
  | joined id => exact absurd rfl (hop id)
  | ended _ => exact (AList.mem_erase.mp ((mem_mapValues ..).mp h)).2
  | left _ => exact (AList.mem_erase.mp h).2
  | published pk ek | stored _ _ _ _ | completed _ _ _ _ | cleared _ _ =>
    exact (mem_mapValues ..).mp h
  | refused _ | offered _ | kept _ => exact h

theorem freshJoin_of_ne {op : Op γ} (hop : ∀ id, op ≠ .join id) (a : Auction γ) :
    FreshJoin a op := by
  cases op with
  | join id => exact absurd rfl (hop id)
  | _ => trivial

theorem Served.apply (h : Served s) (op : Op γ) (hop : ∀ id, op ≠ .join id) :
    Served (s.withAuction (op.apply s.auction)) :=
  ⟨sound_apply h.sound (freshJoin_of_ne hop _), h.present, h.order_nodup, h.listed,
    fun k hk => h.seated k (mem_peers_apply hop hk)⟩

theorem Served.sem (h : Served s) {a : Action γ} (ha : withinFrame a = true) :
    Served (sem env ω a s).2 := by
  cases a with
  | method op =>
    refine h.apply op fun id heq => ?_
    subst heq
    cases ha
  | settle accepted =>
    have hs := h.apply (.settle accepted (env.clock s.draws)) fun id heq => by cases heq
    exact ⟨hs.sound, hs.present, hs.order_nodup, hs.listed, hs.seated⟩
  | deregister id => cases ha
  | send dest m =>
    refine ⟨?_, ?_, ?_, ?_, ?_⟩ <;> simp only [EnergyRelay.sem, RelayState.deliver_auction,
      RelayState.deliver_order, RelayState.deliver_conns, RelayState.deliver_nextID]
    exacts [h.sound, h.present, h.order_nodup, h.listed, h.seated]
  | sellerID | peerAtSeat seat => exact ⟨h.sound, h.present, h.order_nodup, h.listed, h.seated⟩
  | _ => exact h

theorem received_of_absent (p : RelayM γ Unit) (hb : b ∉ s.conns) :
    b ∉ (p.final (EnergyRelay.sem env ω) s).conns ∧
      (p.final (EnergyRelay.sem env ω) s).received b = s.received b := by
  refine Prog.final_invariant (EnergyRelay.sem env ω)
    (I := fun s' => b ∉ s'.conns ∧ s'.received b = s.received b) ?_ p ⟨hb, rfl⟩
  rintro a s' ⟨habsent, hsame⟩
  cases a with
  | send dest m =>
    refine ⟨by simpa [EnergyRelay.sem] using habsent, ?_⟩
    have hno : ¬ (dest ∈ s'.conns ∧ dest = b) := fun hd => habsent (hd.2 ▸ hd.1)
    simp only [EnergyRelay.sem, received_deliver, if_neg hno, List.append_nil, hsame]
  | deregister id => exact ⟨fun hmem => habsent (List.mem_filter.mp hmem).1, hsame⟩
  | _ => exact ⟨habsent, hsame⟩

theorem received_sendEach (f : String → Msg γ) (ids : List String) (s : RelayState γ) :
    ((sendEach f ids).final (EnergyRelay.sem env ω) s).received b = s.received b ++
      if b ∈ s.conns then (ids.filter (· = b)).map f else [] := by
  induction ids generalizing s with
  | nil => simp [sendEach]
  | cons id ids ih =>
    have hfinal : (sendEach f (id :: ids)).final (EnergyRelay.sem env ω) s =
        (sendEach f ids).final (EnergyRelay.sem env ω) (s.deliver id (f id)) := rfl
    rw [hfinal, ih, received_deliver, RelayState.deliver_conns, List.append_assoc]
    by_cases hid : id = b
    · subst hid
      by_cases hb : id ∈ s.conns <;> simp [hb]
    · by_cases hb : b ∈ s.conns <;> simp [hid]

theorem received_perform (op : Op γ) (h : b ∈ s.conns) (horder : b ∈ s.order) :
    ∃ l, ((perform op).final (EnergyRelay.sem env ω) s).received b = s.received b ++ l ∧
      ∃ m ∈ l, m.state ≠ none := by
  let s1 := s.withAuction (op.apply s.auction)
  have hfinal : (perform op).final (EnergyRelay.sem env ω) s =
      (sendEach (stateMsg s1.auction.snapshot) s1.order).final (EnergyRelay.sem env ω) s1 := rfl
  refine ⟨_, by rw [hfinal, received_sendEach]; rfl, stateMsg s1.auction.snapshot b, ?_, by
    simp [stateMsg]⟩
  rw [if_pos (show b ∈ s1.conns from h)]
  exact List.mem_map.mpr ⟨b, List.mem_filter.mpr ⟨horder, by simp⟩, rfl⟩

end

section

def Within (p : RelayM γ Unit) : Prop := p.Always fun a => withinFrame a = true

theorem within_sendEach (f : String → Msg γ) (ids : List String) : Within (sendEach f ids) := by
  induction ids with
  | nil => trivial
  | cons id ids ih => exact ⟨rfl, fun _ => ih⟩

theorem within_broadcast : Within (broadcast : RelayM γ Unit) :=
  ⟨rfl, fun _ => ⟨rfl, fun _ => within_sendEach _ _⟩⟩

theorem within_sendAll (m : Msg γ) : Within (sendAll m) := ⟨rfl, fun _ => within_sendEach _ _⟩

theorem within_sendEvaluator (m : Msg γ) : Within (sendEvaluator m) := by
  refine ⟨rfl, fun ev => ?_⟩
  cases ev with
  | none => trivial
  | some p => exact ⟨rfl, fun _ => trivial⟩

theorem within_ask {a : Action γ} (ha : withinFrame a = true) {k : a.Res → RelayM γ Unit}
    (hk : ∀ r, Within (k r)) : Within (ask a >>= k) := ⟨ha, hk⟩

theorem within_send (dest : String) (m : Msg γ) {p : RelayM γ Unit} (hp : Within p) :
    Within (ask (.send dest m) >>= fun _ => p) := ⟨rfl, fun _ => hp⟩

theorem Within.seq {p q : RelayM γ Unit} (hp : Within p) (hq : Within q) :
    Within (p >>= fun _ => q) := Prog.Always.bind hp fun _ => hq

theorem within_handle (env : Env γ) (id : String) (m : Msg γ) : Within (handle env id m) := by
  unfold handle
  split
  · refine within_ask rfl fun _ => within_broadcast.seq (within_ask rfl fun _ => ?_)
    exact (within_sendAll _).seq (within_sendEvaluator _)
  · refine within_ask rfl fun result => ?_
    cases result with
    | rejected => exact within_ask rfl fun _ => within_send _ _ within_broadcast
    | stored => exact within_broadcast
    | complete => exact within_broadcast.seq (within_ask rfl fun _ => within_sendEvaluator _)
  · refine within_ask rfl fun _ => within_ask rfl fun seller => ?_
    simp only [sendMasks]
    split
    · exact within_ask rfl fun _ => within_send _ _ within_broadcast
    · exact within_broadcast
  · exact within_ask rfl fun _ => within_broadcast
  · refine within_ask rfl fun seat => ?_
    split
    · refine within_ask rfl fun winner => ?_
      simp only [sendWon]
      split
      · exact within_send _ _ within_broadcast
      · exact within_broadcast
    · exact within_broadcast
  · refine within_ask rfl fun first => ?_
    split
    · exact within_send _ _ within_broadcast
    · exact within_broadcast
  · refine within_ask rfl fun step => ?_
    split
    · exact within_broadcast.seq (within_sendAll _)
    · exact within_send _ _ within_broadcast
  · refine within_ask rfl fun all => ?_
    split
    · exact within_ask rfl fun _ => (within_sendEvaluator _).seq within_broadcast
    · exact within_broadcast
  · exact within_sendAll _
  · refine within_ask rfl fun all => ?_
    split
    · exact within_ask rfl fun _ => (within_sendAll _).seq within_broadcast
    · exact within_broadcast
  · exact within_ask rfl fun _ => within_broadcast
  · exact within_ask rfl fun _ => (within_sendAll _).seq within_broadcast
  · exact within_ask rfl fun _ => within_broadcast
  · exact within_ask rfl fun _ => within_broadcast
  · trivial

end

section

variable {env : Env γ}

theorem Served.within (h : Served s) {p : RelayM γ Unit} (hp : Within p) :
    Served (p.final (EnergyRelay.sem env ω) s) :=
  Prog.Always.final (EnergyRelay.sem env ω) (fun _ _ ha hs => hs.sem ha) hp h

theorem served_fresh : Served (RelayState.fresh : RelayState γ) :=
  ⟨sound_start, by simp [RelayState.fresh], List.nodup_nil, by simp [RelayState.fresh],
    by simp [RelayState.fresh, newAuction]⟩

theorem not_issued {k : String} (h : ∃ n ≤ s.nextID, k = tabID n) : k ≠ tabID (s.nextID + 1) := by
  rintro rfl
  obtain ⟨n, hn, heq⟩ := h
  have := tabID_injective heq
  omega

theorem Served.connected (h : Served s) : Served (handled env ω .connect s) := by
  have hnext : ∀ k, (∃ n ≤ s.nextID, k = tabID n) → ∃ n ≤ s.nextID + 1, k = tabID n :=
    fun k ⟨n, hn, hk⟩ => ⟨n, Nat.le_succ_of_le hn, hk⟩
  have hnew : tabID (s.nextID + 1) ∉ s.auction.peers := fun hmem => not_issued (h.seated _ hmem) rfl
  have hunlisted : tabID (s.nextID + 1) ∉ s.order := fun hmem => not_issued (h.listed _ hmem) rfl
  have hjoined : Served (s.register.withAuction
      ((Op.join (tabID (s.nextID + 1))).apply s.auction)) := by
    refine ⟨sound_apply h.sound hnew, ?_, ?_, ?_, ?_⟩
    · intro k
      simp [RelayState.register, RelayState.withAuction, h.present]
    · exact h.order_nodup.append (List.nodup_singleton _) (by simpa using hunlisted)
    · intro k hk
      rcases List.mem_append.mp hk with hk | hk
      · exact hnext k (h.listed k hk)
      · exact ⟨s.nextID + 1, le_refl _, List.mem_singleton.mp hk⟩
    · intro k hk
      rcases (AList.mem_insert _).mp hk with rfl | hk
      · exact ⟨s.nextID + 1, le_refl _, rfl⟩
      · exact hnext k (h.seated k hk)
  exact hjoined.within within_broadcast

theorem Served.disconnected (h : Served s) (id : String) :
    Served (handled env ω (.disconnect id) s) := by
  have hgone : Served (s.deregister id) := by
    refine ⟨h.sound, ?_, h.order_nodup.erase id, fun k hk => h.listed k (List.mem_of_mem_erase hk),
      h.seated⟩
    intro k
    simp [RelayState.deregister, h.order_nodup.mem_erase_iff, h.present, and_comm]
  have hleft := hgone.apply (.leave id) fun _ heq => by cases heq
  exact hleft.within within_broadcast

theorem Served.handled (h : Served s) (e : Inbound γ) : Served (handled env ω e s) := by
  cases e with
  | connect => exact h.connected
  | disconnect id => exact h.disconnected id
  | frame id m => exact h.within (within_handle env id m)

end

def SameButSeat (a : Auction γ) : Inbound γ → Inbound γ → Prop
  | .connect, .connect => True
  | .disconnect id, .disconnect id' => id = id'
  | .frame id m, .frame id' m' => id = id' ∧
      (m = m' ∨ (m.type = .offer ∧ m' = { m with seat := m'.seat } ∧
        m.seat ∈ seatsOf Auction.isBuyer a.peers ∧ m'.seat ∈ seatsOf Auction.isBuyer a.peers))
  | _, _ => False

instance [DecidableEq γ] (a : Auction γ) : (e e' : Inbound γ) → Decidable (SameButSeat a e e')
  | .connect, .connect => .isTrue trivial
  | .disconnect id, .disconnect id' => inferInstanceAs (Decidable (id = id'))
  | .frame _ m, .frame _ m' => inferInstanceAs (Decidable (_ ∧ (m = m' ∨ (m.type = .offer ∧
      m' = { m with seat := m'.seat } ∧ m.seat ∈ seatsOf Auction.isBuyer a.peers ∧
      m'.seat ∈ seatsOf Auction.isBuyer a.peers))))
  | .connect, .disconnect _ | .connect, .frame .. | .disconnect _, .connect
  | .disconnect _, .frame .. | .frame .., .connect | .frame .., .disconnect _ => .isFalse id

def twinNext (env : Env γ) (ω ω' : PeerOrder) (e : Inbound γ × Inbound γ)
    (p : RelayState γ × RelayState γ) : RelayState γ × RelayState γ :=
  (handled env ω e.1 p.1, handled env ω' e.2 p.2)

def Twins (p : RelayState γ × RelayState γ) (e : Inbound γ × Inbound γ) : Prop :=
  SameButSeat p.1.auction e.1 e.2

instance [DecidableEq γ] (p : RelayState γ × RelayState γ) (e : Inbound γ × Inbound γ) :
    Decidable (Twins p e) := inferInstanceAs (Decidable (SameButSeat p.1.auction e.1 e.2))

def NotWinner (b : String) (s : RelayState γ) : Prop := ∀ m ∈ s.received b, m.type ≠ .won

/-- The step does not show `b` a difference: the tab is away when two different seats are
offered, and does not come in while they stand. -/
def Unseen (b : String) (p : RelayState γ × RelayState γ) : Inbound γ × Inbound γ → Prop
  | (.frame _ m, .frame _ m') => m.type = .offer → m.seat ≠ m'.seat → b ∉ p.1.conns
  | (.connect, _) => tabID (p.1.nextID + 1) = b →
      p.1.auction.winnerSeat = p.2.auction.winnerSeat
  | _ => True

instance (b : String) (s : RelayState γ) : Decidable (NotWinner b s) :=
  inferInstanceAs (Decidable (∀ m ∈ s.received b, m.type ≠ .won))

instance (b : String) (p : RelayState γ × RelayState γ) :
    (e : Inbound γ × Inbound γ) → Decidable (Unseen b p e)
  | (.frame _ m, .frame _ m') =>
    inferInstanceAs (Decidable (m.type = .offer → m.seat ≠ m'.seat → b ∉ p.1.conns))
  | (.connect, _) => inferInstanceAs (Decidable (_ → _))
  | (.disconnect _, _) | (.frame .., .connect) | (.frame .., .disconnect _) => .isTrue trivial

/-- What ties the two runs together; the last part says that a tab which is present and has noticed
nothing is looking at equal offers. -/
structure TwinInv (b : String) (p : RelayState γ × RelayState γ) : Prop where
  served : Served p.1
  alike : Alike p.1 p.2
  noticed : p.1.received b = p.2.received b → b ∈ p.1.conns →
    p.1.auction.winnerSeat = p.2.auction.winnerSeat

section

variable {env : Env γ} {ω ω' : PeerOrder} {b : String} {s t s' t' : RelayState γ}

theorem Told.length {w v : ℤ} {l l' : List (Msg γ)} (h : Told w v l l') : l.length = l'.length := by
  rw [h.1, List.length_map]

theorem Coupled.received_iff (h : Coupled b s t s' t') {l : List (Msg γ)}
    (hl : s'.received b = s.received b ++ l) : s'.received b = t'.received b ↔
      s.received b = t.received b ∧
        (s'.auction.winnerSeat = t'.auction.winnerSeat ∨ ∀ m ∈ l, m.state = none) := by
  obtain ⟨k, k', hk, hk', htold⟩ := h.told
  obtain rfl : l = k := List.append_cancel_left (hl.symm.trans hk)
  rw [hk, hk', ← htold.eq_iff]
  constructor
  · intro heq
    exact List.append_inj' heq htold.length
  · rintro ⟨hr, hkk⟩
    rw [hr, hkk]

theorem Twinned.unnoticed (h : Twinned b s t s' t') (hinv : TwinInv b (s, t))
    (hr : s.received b = t.received b) (habsent : b ∉ s.conns → s'.received b = s.received b) :
    s'.received b = t'.received b := by
  by_cases hb : b ∈ s.conns
  · obtain ⟨l, -, hl, -⟩ := h.told
    exact (h.received_iff hl).mpr ⟨hr, .inl (h.winner (hinv.noticed hr hb))⟩
  · have hl : s'.received b = s.received b ++ [] := by rw [habsent hb, List.append_nil]
    exact (h.received_iff hl).mpr ⟨hr, .inr (by simp)⟩

theorem Twinned.noticed (h : Twinned b s t s' t') (hinv : TwinInv b (s, t))
    (hconns : b ∈ s'.conns → b ∈ s.conns) (hr : s'.received b = t'.received b)
    (hb : b ∈ s'.conns) : s'.auction.winnerSeat = t'.auction.winnerSeat := by
  obtain ⟨l, -, hl, -⟩ := h.told
  exact h.winner (hinv.noticed ((h.received_iff hl).mp hr).1 (hconns hb))

theorem Coupled.shown (h : Coupled b s t s' t') {l : List (Msg γ)}
    (hl : s'.received b = s.received b ++ l) (hstate : ∃ m ∈ l, m.state ≠ none) :
    s'.received b = t'.received b ↔
      s.received b = t.received b ∧ s'.auction.winnerSeat = t'.auction.winnerSeat := by
  obtain ⟨m, hm, hsome⟩ := hstate
  rw [h.received_iff hl, or_iff_left fun hnone => hsome (hnone m hm)]

theorem conns_within {p : RelayM γ Unit} (hp : Within p) :
    (p.final (EnergyRelay.sem env ω) s).conns = s.conns := by
  refine Prog.Always.final (EnergyRelay.sem env ω) (I := fun s' => s'.conns = s.conns) ?_ hp rfl
  intro a s' ha hs
  cases a with
  | deregister id => cases ha
  | send dest m => simpa [EnergyRelay.sem] using hs
  | _ => exact hs

variable (env ω s) in
theorem perform_auction (op : Op γ) :
    ((perform op).final (EnergyRelay.sem env ω) s).auction = op.apply s.auction := by
  have halike : Alike s s := ⟨rfl, rfl, rfl, rfl, .refl _⟩
  exact (emits_broadcast env ω ω "" (halike.withAuction (.refl (op.apply s.auction)))).left

variable (env ω s) in
theorem perform_conns (op : Op γ) :
    ((perform op).final (EnergyRelay.sem env ω) s).conns = s.conns := by
  have hbroadcast : (broadcast.final (EnergyRelay.sem env ω)
      (s.withAuction (op.apply s.auction))).conns = s.conns := conns_within within_broadcast
  exact hbroadcast

theorem frame_step (hinv : TwinInv b (s, t)) (id : String) (m : Msg γ)
    (hs : NotWinner b (handled env ω (.frame id m) s))
    (ht : NotWinner b (handled env ω' (.frame id m) t)) :
    let p' := (handled env ω (.frame id m) s, handled env ω' (.frame id m) t)
    Coupled b s t p'.1 p'.2 ∧ TwinInv b p' ∧
      (s.received b = t.received b → p'.1.received b = p'.2.received b) := by
  intro p'
  have htwin := twinned_frame hinv.alike id m hinv.served.sound.people.sellers hs ht
  have hconns : (handled env ω (.frame id m) s).conns = s.conns :=
    conns_within (within_handle env id m)
  refine ⟨htwin.toCoupled, ⟨hinv.served.handled (.frame id m), htwin.alike, ?_⟩, fun hr => ?_⟩
  · exact htwin.noticed hinv fun hb => hconns ▸ hb
  · exact htwin.unnoticed hinv hr fun hb => (received_of_absent _ hb).2

theorem seat_nonneg (h : Served s) {seat : ℤ}
    (hseat : seat ∈ seatsOf Auction.isBuyer s.auction.peers) : 0 ≤ seat := by
  obtain ⟨k, p, hp, hb, rfl⟩ := mem_seatsOf.mp hseat
  exact (h.sound.people.seats k p hp (of_decide_eq_true hb)).1

variable (env ω ω') in
theorem offer_step (hinv : TwinInv b (s, t)) (price : ℚ) {seat seat' : ℤ}
    (hseat : seat ∈ seatsOf Auction.isBuyer s.auction.peers)
    (hseat' : seat' ∈ seatsOf Auction.isBuyer s.auction.peers) :
    let p' := ((perform (.offer seat price)).final (EnergyRelay.sem env ω) s,
      (perform (.offer seat' price)).final (EnergyRelay.sem env ω') t)
    Coupled b s t p'.1 p'.2 ∧ TwinInv b p' ∧ (s.received b = t.received b →
      (p'.1.received b = p'.2.received b ↔ (seat ≠ seat' → b ∉ s.conns))) := by
  intro p'
  have hcoupled : Coupled b s t p'.1 p'.2 := coupled_offer hinv.alike price
    (seat_nonneg hinv.served hseat) (seat_nonneg hinv.served hseat')
  have hwithin : Within (perform (.offer seat price) : RelayM γ Unit) :=
    within_ask rfl fun _ => within_broadcast
  have hconns : p'.1.conns = s.conns := perform_conns env ω s _
  have hwinner : p'.1.auction.winnerSeat = p'.2.auction.winnerSeat ↔ seat = seat' := by
    have hleft : p'.1.auction = s.auction.offer seat price := perform_auction env ω s _
    have hright : p'.2.auction = t.auction.offer seat' price := perform_auction env ω' t _
    rw [hleft, hright]
    rfl
  refine ⟨hcoupled, ?_⟩
  -- a tab that is there is shown the seats, one that is away is sent nothing
  by_cases hb : b ∈ s.conns
  · obtain ⟨l, hl, hstate⟩ :=
      received_perform (.offer seat price) hb ((hinv.served.present b).mpr hb)
    have hshown := hcoupled.shown hl hstate
    refine ⟨⟨hinv.served.within hwithin, hcoupled.alike, fun hr _ => (hshown.mp hr).2⟩, ?_⟩
    intro hr
    rw [hshown, hwinner]
    constructor
    · rintro ⟨-, rfl⟩ hne
      exact absurd rfl hne
    · intro haway
      exact ⟨hr, by_contra fun hne => haway hne hb⟩
  · refine ⟨⟨hinv.served.within hwithin, hcoupled.alike, fun _ hb' => absurd (hconns ▸ hb') hb⟩, ?_⟩
    intro hr
    have hl : p'.1.received b = s.received b ++ [] := by
      rw [List.append_nil]
      exact (received_of_absent _ hb).2
    exact iff_of_true ((hcoupled.received_iff hl).mpr ⟨hr, .inr (by simp)⟩) fun _ => hb

theorem connect_step (hinv : TwinInv b (s, t)) :
    let p' := (handled env ω .connect s, handled env ω' .connect t)
    Coupled b s t p'.1 p'.2 ∧ TwinInv b p' ∧
      (s.received b = t.received b → (p'.1.received b = p'.2.received b ↔
        (tabID (s.nextID + 1) = b → s.auction.winnerSeat = t.auction.winnerSeat))) := by
  intro p'
  have htwin : Twinned b s t p'.1 p'.2 := twinned_connect hinv.alike
  have hserved : Served p'.1 := hinv.served.handled .connect
  have hconns : p'.1.conns = s.conns ++ [tabID (s.nextID + 1)] := perform_conns env ω s.register _
  have hwinner : p'.1.auction.winnerSeat = p'.2.auction.winnerSeat ↔
      s.auction.winnerSeat = t.auction.winnerSeat := by
    have hleft : p'.1.auction = (s.auction.join (tabID (s.nextID + 1))).2 :=
      perform_auction env ω s.register _
    have hright : p'.2.auction = (t.auction.join (tabID (t.nextID + 1))).2 :=
      perform_auction env ω' t.register _
    rw [hleft, hright]
    rfl
  refine ⟨htwin.toCoupled, ?_⟩
  by_cases hnew : tabID (s.nextID + 1) = b
  · have hb : b ∈ s.register.conns := by simp [RelayState.register, hnew]
    have horder : b ∈ s.register.order := by simp [RelayState.register, hnew]
    obtain ⟨l, hl, hstate⟩ := received_perform (.join (tabID (s.nextID + 1))) hb horder
    have hshown := htwin.shown hl hstate
    refine ⟨⟨hserved, htwin.alike, fun hr _ => (hshown.mp hr).2⟩, fun hr => ?_⟩
    rw [hshown, hwinner]
    exact ⟨fun h _ => h.2, fun h => ⟨hr, h hnew⟩⟩
  · refine ⟨⟨hserved, htwin.alike, htwin.noticed hinv fun hb => ?_⟩, fun hr => ?_⟩
    · rw [hconns] at hb
      rcases List.mem_append.mp hb with hb | hb
      · exact hb
      · exact absurd (List.mem_singleton.mp hb).symm hnew
    · refine iff_of_true (htwin.unnoticed hinv hr fun hb => ?_) fun h => absurd h hnew
      have hb' : b ∉ s.register.conns := by simp [RelayState.register, hb, Ne.symm hnew]
      exact (received_of_absent _ hb').2

variable (env ω ω') in
theorem disconnect_step (hinv : TwinInv b (s, t)) (id : String) :
    let p' := (handled env ω (.disconnect id) s, handled env ω' (.disconnect id) t)
    Coupled b s t p'.1 p'.2 ∧ TwinInv b p' ∧
      (s.received b = t.received b → p'.1.received b = p'.2.received b) := by
  intro p'
  have htwin : Twinned b s t p'.1 p'.2 := twinned_disconnect hinv.alike id
  have hconns : p'.1.conns = (s.deregister id).conns := perform_conns env ω (s.deregister id) _
  refine ⟨htwin.toCoupled,
    ⟨hinv.served.handled (.disconnect id), htwin.alike, htwin.noticed hinv fun hb => ?_⟩,
    fun hr => htwin.unnoticed hinv hr fun hb => (received_of_absent _ hb).2⟩
  rw [hconns] at hb
  exact (List.mem_filter.mp hb).1

variable (env ω b s) in
theorem received_grows (e : Inbound γ) :
    ∃ l, (handled env ω e s).received b = s.received b ++ l := by
  cases e with
  | connect => exact received_final ..
  | disconnect id | frame id m => exact received_final ..

theorem NotWinner.back {e : Inbound γ} (h : NotWinner b (handled env ω e s)) : NotWinner b s := by
  obtain ⟨l, hl⟩ := received_grows env ω b s e
  intro m hm
  exact h m (by rw [hl]; exact List.mem_append_left _ hm)

theorem twin_step {p : RelayState γ × RelayState γ} {e : Inbound γ × Inbound γ}
    (hinv : TwinInv b p) (htwin : Twins p e) (hs : NotWinner b (twinNext env ω ω' e p).1)
    (ht : NotWinner b (twinNext env ω ω' e p).2) :
    Coupled b p.1 p.2 (twinNext env ω ω' e p).1 (twinNext env ω ω' e p).2 ∧
      TwinInv b (twinNext env ω ω' e p) ∧ (p.1.received b = p.2.received b →
      ((twinNext env ω ω' e p).1.received b = (twinNext env ω ω' e p).2.received b ↔
        Unseen b p e)) := by
  obtain ⟨e, e'⟩ := e
  cases e with
  | connect =>
    cases e' with
    | connect => exact connect_step hinv
    | _ => exact absurd htwin id
  | disconnect id =>
    cases e' with
    | disconnect id' =>
      obtain rfl : id = id' := htwin
      obtain ⟨hcoupled, hinv', hsame⟩ := disconnect_step env ω ω' hinv id
      exact ⟨hcoupled, hinv', fun hr => iff_of_true (hsame hr) trivial⟩
    | _ => exact absurd htwin fun h => h
  | frame id m =>
    cases e' with
    | frame id' m' =>
      obtain ⟨rfl, rfl | ⟨htype, hm', hseat, hseat'⟩⟩ := htwin
      · obtain ⟨hcoupled, hinv', hsame⟩ := frame_step hinv id m hs ht
        exact ⟨hcoupled, hinv', fun hr => iff_of_true (hsame hr) fun _ hne => absurd rfl hne⟩
      · have hstep := offer_step env ω ω' hinv m.price hseat hseat'
        have hprice : m'.price = m.price := by rw [hm']
        have htype' : m'.type = .offer := by rw [hm', htype]
        have hleft : handle env id m = perform (.offer m.seat m.price) := by
          simp only [handle, htype]
        have hright : handle env id m' = perform (.offer m'.seat m.price) := by
          simp only [handle, htype', hprice]
        simp only [twinNext, handled, hleft, hright, Unseen, htype, forall_const]
        exact hstep
    | _ => exact absurd htwin fun h => h

end

/-- A tab that is told in neither run that it won receives the same messages in both exactly if
every difference in an offer passes it by. -/
theorem sees_same_iff (env : Env γ) (ω ω' : PeerOrder) (b : String)
    (es : List (Inbound γ × Inbound γ))
    (htwins : AllSteps (twinNext env ω ω') Twins (.fresh, .fresh) es)
    (hs : NotWinner b (last (twinNext env ω ω') (.fresh, .fresh) es).1)
    (ht : NotWinner b (last (twinNext env ω ω') (.fresh, .fresh) es).2) :
    (last (twinNext env ω ω') (.fresh, .fresh) es).1.received b =
        (last (twinNext env ω ω') (.fresh, .fresh) es).2.received b ↔
      AllSteps (twinNext env ω ω') (Unseen b) (.fresh, .fresh) es := by
  have hstart : TwinInv b ((.fresh, .fresh) : RelayState γ × RelayState γ) :=
    ⟨served_fresh, ⟨rfl, rfl, rfl, rfl, .refl _⟩, fun _ _ => rfl⟩
  have hlost := allSteps_of_last
      (J := fun p : RelayState γ × RelayState γ => NotWinner b p.1 ∧ NotWinner b p.2)
      (fun p e h => ⟨h.1.back, h.2.back⟩) ⟨hs, ht⟩
  have hsteps := htwins.and hlost
  rw [← forall_visited_iff (I := TwinInv b)
    (fun p e hinv hF => (twin_step hinv hF.1 hF.2.1 hF.2.2).2.1)
    (fun p e hinv hr hF => (twin_step hinv hF.1 hF.2.1 hF.2.2).2.2 hr) hstart rfl hsteps]
  refine (forall_visited_iff_last (I := TwinInv b)
    (J := fun p : RelayState γ × RelayState γ => p.1.received b = p.2.received b)
    (fun p e hinv hF => (twin_step hinv hF.1 hF.2.1 hF.2.2).2.1)
    (fun p e hinv hF hr => ?_) hstart hsteps).symm
  have hcoupled := (twin_step hinv hF.1 hF.2.1 hF.2.2).1
  obtain ⟨l, -, hl, -⟩ := hcoupled.told
  exact ((hcoupled.received_iff hl).mp hr).1

def offered : List (Inbound UInt8 × Inbound UInt8) :=
  [(.connect, .connect), (.connect, .connect), (.connect, .connect),
    (.frame "p1" { type := .offer, seat := 0, price := 7 },
      .frame "p1" { type := .offer, seat := 1, price := 7 })]

def accepted : List (Inbound UInt8 × Inbound UInt8) :=
  [(.frame "p1" { type := .settle, ok := true, price := 7 },
    .frame "p1" { type := .settle, ok := true, price := 7 })]

def latecomer : RelayState UInt8 × RelayState UInt8 :=
  last (twinNext testEnv .listed .listed) (.fresh, .fresh)
    (offered ++ accepted ++ [(.connect, .connect)])

theorem sees_same_latecomer : latecomer.1.received "p4" = latecomer.2.received "p4" := by
  have htwins : AllSteps (twinNext testEnv .listed .listed) Twins (.fresh, .fresh)
      (offered ++ accepted ++ [(.connect, .connect)]) := by decide +kernel
  have hs : NotWinner "p4" latecomer.1 := by decide +kernel
  have ht : NotWinner "p4" latecomer.2 := by decide +kernel
  have hunseen : AllSteps (twinNext testEnv .listed .listed) (Unseen "p4") (.fresh, .fresh)
      (offered ++ accepted ++ [(.connect, .connect)]) := by decide +kernel
  exact (sees_same_iff testEnv .listed .listed "p4" _ htwins hs ht).mpr hunseen

/-- A third buyer, told in neither run that it won, is shown the winning seat. -/
theorem third_buyer_shown_winner :
    let es := (.connect, .connect) :: offered ++ accepted
    let p := last (twinNext testEnv .listed .listed) (.fresh, .fresh) es
    AllSteps (twinNext testEnv .listed .listed) Twins (.fresh, .fresh) es ∧
      (p.1.auction.peers.lookup "p4").any Auction.isBuyer = true ∧
      NotWinner "p4" p.1 ∧ NotWinner "p4" p.2 ∧ p.1.received "p4" ≠ p.2.received "p4" := by
  decide +kernel

end EnergyRelaySecrecy
