import Ares.EnergyAuction
import Ares.OperationRuns

/-! The round logic reads five parts of the auction; `TableStep` says once what every method can do
to them. -/
namespace EnergyAuctionRounds

open FiniteMaps OperationRuns EnergyAuction EnergyAuction.Auction

variable {γ : Type}

structure Table (γ : Type) where
  peers : FinMap String Peer
  order : List String
  bids : FinMap ℤ (List γ)
  phase : Phase
  keyID : ℤ

def table (a : Auction γ) : Table γ := ⟨a.peers, a.order, a.bids, a.phase, a.keyID⟩

def buyers (peers : FinMap String Peer) : ℕ := count isBuyer peers

def newPeer (peers : FinMap String Peer) (id : String) : Peer :=
  if (seller (values peers)).isNone then ⟨id, .seller, -1, false⟩
  else if buyers peers < maxBuyers then ⟨id, .buyer, buyers peers, false⟩
  else ⟨id, .full, -1, false⟩

def byTab : Op γ → Bool
  | .join _ | .leave _ | .submitBid .. => true
  | _ => false

inductive TableStep : Table γ → Op γ → Table γ → Prop where
  | joined (t id) : TableStep t (.join id)
      { t with peers := t.peers.insert id (newPeer t.peers id), order := t.order ++ [id] }
  | ended {t : Table γ} {id} (h : (t.peers.lookup id).any endsRound = true) :
      TableStep t (.leave id)
        ⟨unsealed (t.peers.erase id), t.order.erase id, ∅, .waiting, t.keyID⟩
  | left {t : Table γ} {id} (h : (t.peers.lookup id).any endsRound = false) :
      TableStep t (.leave id) { t with peers := t.peers.erase id, order := t.order.erase id }
  | published (t pk ek) : TableStep t (.publishKeys pk ek)
      ⟨unsealed t.peers, t.order, ∅, .bidding, t.keyID + 1⟩
  | refused {t : Table γ} {id keyID ct} (h : ¬ (∃ p, t.peers.lookup id = some p ∧
      p.role = .buyer ∧ t.phase = .bidding ∧ keyID = t.keyID)) :
      TableStep t (.submitBid id keyID ct) t
  | stored {t : Table γ} {id p ct} (hp : t.peers.lookup id = some p) (hb : p.role = .buyer)
      (hphase : t.phase = .bidding)
      (hsize : size (t.bids.insert p.seat ct) < buyers t.peers) :
      TableStep t (.submitBid id t.keyID ct)
        { t with bids := t.bids.insert p.seat ct, peers := sealPeer id t.peers }
  | completed {t : Table γ} {id p ct} (hp : t.peers.lookup id = some p)
      (hb : p.role = .buyer) (hphase : t.phase = .bidding)
      (hsize : buyers t.peers ≤ size (t.bids.insert p.seat ct)) :
      TableStep t (.submitBid id t.keyID ct)
        { t with bids := t.bids.insert p.seat ct, peers := sealPeer id t.peers,
                 phase := .evaluating }
  | cleared {t : Table γ} {op phase} (h : byTab op = false) (hphase : phase ≠ .bidding) :
      TableStep t op ⟨unsealed t.peers, t.order, ∅, phase, t.keyID⟩
  | offered {t : Table γ} {op} (h : byTab op = false) :
      TableStep t op { t with phase := .offer }
  | kept {t : Table γ} {op} (h : byTab op = false) : TableStep t op t

@[simp] theorem count_isBuyer_sealPeer (id : String) (peers : FinMap String Peer) :
    count isBuyer (sealPeer id peers) = count isBuyer peers := by
  refine count_mapValues (fun k p => ?_) _
  split <;> rfl

theorem leave_step (a : Auction γ) (id : String) :
    TableStep (table a) (.leave id) (table (a.leave id)) := by
  have habort : ∀ b : Auction γ,
      table (if b.epoch = .audit ∧ id ∈ b.epochParty then b.abortAudit else b) = table b := by
    intro b
    split <;> rfl
  simp only [Auction.leave, habort]
  cases h : (a.peers.lookup id).any endsRound with
  | true => exact .ended h
  | false => exact .left h

theorem submitBid_step (a : Auction γ) (id : String) (keyID : ℤ) (ct : List γ) :
    TableStep (table a) (.submitBid id keyID ct) (table (a.submitBid id keyID ct).2) := by
  unfold Auction.submitBid
  split
  · rename_i hnone
    exact .refused fun ⟨p, hp, _⟩ => by simp [table, hnone] at hp
  · rename_i p hp
    dsimp only
    split_ifs with hrole hkey hsize
    · refine .refused fun ⟨q, hq, hb, hphase, _⟩ => ?_
      have hqp : q = p := Option.some.inj (hq.symm.trans hp)
      subst hqp
      exact hrole.elim (· hb) (· hphase)
    · exact .refused fun ⟨_, _, _, _, hk⟩ => hkey hk
    all_goals
      obtain ⟨hb, hphase⟩ : p.role = .buyer ∧ a.phase = .bidding := by
        simpa using hrole
      obtain rfl : keyID = a.keyID := not_not.mp hkey
      have hpos : 0 < count isBuyer a.peers := count_pos.mpr ⟨id, p, hp, by simp [isBuyer, hb]⟩
      simp only [withBid, buyerCount, count_isBuyer_sealPeer] at hsize
    · exact .stored hp hb hphase
        (show size (a.bids.insert p.seat ct) < count isBuyer a.peers by omega)
    · exact .completed hp hb hphase
        (show count isBuyer a.peers ≤ size (a.bids.insert p.seat ct) by omega)

theorem table_step (op : Op γ) (a : Auction γ) : TableStep (table a) op (table (op.apply a)) := by
  cases op with
  | join id => exact .joined (table a) id
  | leave id => exact leave_step a id
  | reset | setHour h | newEpoch => exact .cleared rfl nofun
  | publishKeys pk ek => exact .published (table a) pk ek
  | submitBid id keyID ct => exact submitBid_step ..
  | setMasks masks | offer seat price => exact .offered rfl
  | settle accepted clock =>
    simp only [Op.apply, Op.run, settle]
    split
    · exact .kept rfl
    · exact TableStep.cleared rfl (show Phase.settled ≠ .bidding from nofun)
  | startEpochChain =>
    simp only [Op.apply, Op.run, startEpochChain]
    split <;> exact .kept rfl
  | advanceEpochChain pk =>
    simp only [Op.apply, Op.run, advanceEpochChain]
    split <;> exact .kept rfl
  | submitEpochPartial id ct | closeEpoch net ok => exact .kept rfl
  | submitEpochTotal id ct =>
    simp only [Op.apply, Op.run, submitEpochTotal]
    split <;> exact .kept rfl

variable {peers : FinMap String Peer} {p : Peer}

variable {k : String}

theorem lookup_unsealed :
    (unsealed peers).lookup k = some p ↔
      ∃ q, peers.lookup k = some q ∧ p = { q with sealed := false } := by
  simp only [unsealed, lookup_mapValues, Option.map_eq_some_iff, @eq_comm _ p]

variable {peers : FinMap String Peer} {order : List String} {id : String} {t : Table γ}

theorem lookup_sealPeer :
    (sealPeer id peers).lookup k = some p ↔
      ∃ q, peers.lookup k = some q ∧ p = if k = id then { q with sealed := true } else q := by
  simp only [sealPeer, lookup_mapValues, Option.map_eq_some_iff, @eq_comm _ p]

theorem lookup_erase_some :
    (peers.erase id).lookup k = some p ↔ k ≠ id ∧ peers.lookup k = some p := by
  by_cases hk : k = id
  · subst hk
    simp
  · simp [hk]

theorem lookup_insert_some {q : Peer} :
    (peers.insert id q).lookup k = some p ↔
      (k = id ∧ p = q) ∨ (k ≠ id ∧ peers.lookup k = some p) := by
  by_cases hk : k = id
  · subst hk
    simp [eq_comm]
  · simp [hk]

@[simp] theorem newPeer_id (peers : FinMap String Peer) (id : String) :
    (newPeer peers id).id = id := by
  unfold newPeer
  split_ifs <;> rfl

@[simp] theorem newPeer_sealed (peers : FinMap String Peer) (id : String) :
    (newPeer peers id).sealed = false := by
  unfold newPeer
  split_ifs <;> rfl

theorem newPeer_buyer (h : (newPeer peers id).role = .buyer) :
    (newPeer peers id).seat = buyers peers ∧ buyers peers < maxBuyers := by
  unfold newPeer at h ⊢
  split_ifs at h ⊢ with hs hb
  simp_all

theorem newPeer_seller (h : (newPeer peers id).role = .seller) : count isSeller peers = 0 := by
  have hnone : (seller (values peers)).isNone = true := by
    unfold newPeer at h
    split_ifs at h with hs hb
    simp_all
  rw [seller, Option.isNone_iff_eq_none, List.find?_eq_none] at hnone
  exact List.countP_eq_zero.mpr hnone

/-- The part of the seating discipline that no sequence of methods breaks. -/
structure People (peers : FinMap String Peer) (order : List String) : Prop where
  named : ∀ k p, peers.lookup k = some p → p.id = k
  listed : ∀ k, k ∈ order ↔ k ∈ peers
  order_nodup : order.Nodup
  sellers : count isSeller peers ≤ 1
  buyers_le : buyers peers ≤ maxBuyers
  seats : ∀ k p, peers.lookup k = some p → p.role = .buyer → 0 ≤ p.seat ∧ p.seat < maxBuyers
  sealed_buyer : ∀ k p, peers.lookup k = some p → p.sealed = true → p.role = .buyer

def SealedAt (peers : FinMap String Peer) (seat : ℤ) : Prop :=
  ∃ k p, peers.lookup k = some p ∧ p.sealed = true ∧ p.seat = seat

structure Sound (t : Table γ) : Prop where
  people : People t.peers t.order
  bid_iff : ∀ seat, seat ∈ t.bids ↔ SealedAt t.peers seat

section

section

variable (h : People peers order)

include h

theorem People.seller_unique {k l : String} {p q : Peer} (hk : peers.lookup k = some p)
    (hl : peers.lookup l = some q) (hp : p.role = .seller) (hq : q.role = .seller) : k = l := by
  by_contra hne
  have hsellers := h.sellers
  have herase := count_erase (P := isSeller) hk
  have hpos : 0 < count isSeller (peers.erase k) := by
    refine count_pos.mpr ⟨l, q, ?_, by simp [isSeller, hq]⟩
    rw [AList.lookup_erase_ne (Ne.symm hne)]
    exact hl
  simp only [isSeller, hp, decide_true, if_true] at herase hsellers hpos
  omega

theorem People.joined (hid : id ∉ peers) :
    People (peers.insert id (newPeer peers id)) (order ++ [id]) where
  named := by
    intro k p hp
    rcases lookup_insert_some.mp hp with ⟨rfl, rfl⟩ | ⟨-, hp⟩
    · exact newPeer_id ..
    · exact h.named k p hp
  listed := by
    intro k
    simp [h.listed, or_comm]
  order_nodup := by
    have hnot : id ∉ order := fun hmem => hid ((h.listed id).mp hmem)
    simpa [List.nodup_append, h.order_nodup] using fun k hk => ne_of_mem_of_not_mem hk hnot
  sellers := by
    rw [count_insert_new hid]
    split
    · rename_i hs
      have hrole := of_decide_eq_true hs
      have hzero := newPeer_seller hrole
      omega
    · exact h.sellers
  buyers_le := by
    have hb := h.buyers_le
    rw [buyers] at hb ⊢
    rw [count_insert_new hid]
    split
    · rename_i hs
      have hrole := of_decide_eq_true hs
      exact (newPeer_buyer hrole).2
    · exact hb
  seats := by
    intro k p hp hrole
    rcases lookup_insert_some.mp hp with ⟨-, rfl⟩ | ⟨-, hp⟩
    · obtain ⟨hseat, hlt⟩ := newPeer_buyer hrole
      rw [hseat]
      exact ⟨Int.natCast_nonneg _, Int.ofNat_lt.mpr hlt⟩
    · exact h.seats k p hp hrole
  sealed_buyer := by
    intro k p hp hsealed
    rcases lookup_insert_some.mp hp with ⟨-, rfl⟩ | ⟨-, hp⟩
    · simp at hsealed
    · exact h.sealed_buyer k p hp hsealed

theorem People.erased : People (peers.erase id) (order.erase id) where
  named := fun k p hp => h.named k p (lookup_erase_some.mp hp).2
  listed := by
    intro k
    rw [h.order_nodup.mem_erase_iff, AList.mem_erase, h.listed]
  order_nodup := h.order_nodup.erase id
  sellers := (count_erase_le isSeller peers id).trans h.sellers
  buyers_le := (count_erase_le isBuyer peers id).trans h.buyers_le
  seats := fun k p hp => h.seats k p (lookup_erase_some.mp hp).2
  sealed_buyer := fun k p hp => h.sealed_buyer k p (lookup_erase_some.mp hp).2

theorem People.resealed {f : String → Peer → Peer} (hf : ∀ k p, ∃ b, f k p = { p with sealed := b })
    (hsealed : ∀ k p, peers.lookup k = some p → (f k p).sealed = true → p.role = .buyer) :
    People (mapValues f peers) order := by
  have hrole : ∀ k p, (f k p).role = p.role := fun k p => by
    obtain ⟨b, hb⟩ := hf k p
    rw [hb]
  have hlookup : ∀ {k p}, (mapValues f peers).lookup k = some p →
      ∃ q, peers.lookup k = some q ∧ f k q = p := by
    intro k p hp
    rwa [lookup_mapValues, Option.map_eq_some_iff] at hp
  refine ⟨?_, ?_, h.order_nodup, ?_, ?_, ?_, ?_⟩
  · intro k p hp
    obtain ⟨q, hq, rfl⟩ := hlookup hp
    obtain ⟨b, hb⟩ := hf k q
    rw [hb]
    exact h.named k q hq
  · intro k
    rw [mem_mapValues, h.listed]
  · rw [count_mapValues (Q := isSeller) fun k p => by simp [isSeller, hrole]]
    exact h.sellers
  · rw [buyers, count_mapValues (Q := isBuyer) fun k p => by simp [isBuyer, hrole]]
    exact h.buyers_le
  · intro k p hp hbuyer
    obtain ⟨q, hq, rfl⟩ := hlookup hp
    rw [hrole] at hbuyer
    obtain ⟨b, hb⟩ := hf k q
    rw [hb]
    exact h.seats k q hq hbuyer
  · intro k p hp hs
    obtain ⟨q, hq, rfl⟩ := hlookup hp
    rw [hrole]
    exact hsealed k q hq hs

theorem People.unsealed : People (unsealed peers) order :=
  h.resealed (fun _ _ => ⟨false, rfl⟩) nofun

theorem People.sealed (hp : peers.lookup id = some p) (hrole : p.role = .buyer) : People
    (sealPeer id peers) order := by
  refine h.resealed (fun k q => ?_) ?_
  · split
    · exact ⟨true, rfl⟩
    · exact ⟨q.sealed, rfl⟩
  · intro k q hq hs
    split at hs
    · rename_i hk
      subst hk
      rwa [Option.some.inj (hq.symm.trans hp)]
    · exact h.sealed_buyer k q hq hs

end

theorem not_sealedAt_unsealed (seat : ℤ) : ¬ SealedAt (unsealed peers) seat := by
  rintro ⟨k, p, hp, hs, -⟩
  obtain ⟨q, -, rfl⟩ := lookup_unsealed.mp hp
  simp at hs

theorem sealedAt_joined (hid : id ∉ peers) (seat : ℤ) :
    SealedAt (peers.insert id (newPeer peers id)) seat ↔ SealedAt peers seat := by
  constructor
  · rintro ⟨k, p, hp, hs, hseat⟩
    rcases lookup_insert_some.mp hp with ⟨-, rfl⟩ | ⟨-, hp⟩
    · simp at hs
    · exact ⟨k, p, hp, hs, hseat⟩
  · rintro ⟨k, p, hp, hs, hseat⟩
    have hk : k ≠ id := fun heq => hid (heq ▸ mem_of_lookup hp)
    exact ⟨k, p, lookup_insert_some.mpr (.inr ⟨hk, hp⟩), hs, hseat⟩

theorem sealedAt_erased (hid : ∀ p, peers.lookup id = some p → p.sealed = false) (seat : ℤ) :
    SealedAt (peers.erase id) seat ↔ SealedAt peers seat := by
  constructor
  · rintro ⟨k, p, hp, hs, hseat⟩
    exact ⟨k, p, (lookup_erase_some.mp hp).2, hs, hseat⟩
  · rintro ⟨k, p, hp, hs, hseat⟩
    refine ⟨k, p, lookup_erase_some.mpr ⟨?_, hp⟩, hs, hseat⟩
    rintro rfl
    simp [hid p hp] at hs

theorem sealedAt_sealPeer (hp : peers.lookup id = some p) (seat : ℤ) :
    SealedAt (sealPeer id peers) seat ↔ seat = p.seat ∨ SealedAt peers seat := by
  constructor
  · rintro ⟨k, q, hq, hs, hseat⟩
    obtain ⟨r, hr, rfl⟩ := lookup_sealPeer.mp hq
    split at hs
    · rename_i hk
      subst hk
      obtain rfl : r = p := Option.some.inj (hr.symm.trans hp)
      exact .inl (by simpa using hseat.symm)
    · rename_i hk
      exact .inr ⟨k, r, hr, hs, by simpa [hk] using hseat⟩
  · rintro (rfl | ⟨k, q, hq, hs, hseat⟩)
    · exact ⟨id, _, lookup_sealPeer.mpr ⟨p, hp, rfl⟩, by simp, by simp⟩
    · refine ⟨k, _, lookup_sealPeer.mpr ⟨q, hq, rfl⟩, ?_, ?_⟩
      · split <;> simp [hs]
      · split <;> exact hseat

end

def FreshJoin (a : Auction γ) : Op γ → Prop
  | .join id => id ∉ a.peers
  | _ => True

instance (a : Auction γ) (op : Op γ) : Decidable (FreshJoin a op) := by
  cases op <;> simp only [FreshJoin] <;> infer_instance

theorem sound_start : Sound (table (newAuction : Auction γ)) where
  people :=
    { named := by simp [table, newAuction]
      listed := by simp [table, newAuction]
      order_nodup := List.nodup_nil
      sellers := Nat.zero_le _
      buyers_le := Nat.zero_le _
      seats := by simp [table, newAuction]
      sealed_buyer := by simp [table, newAuction] }
  bid_iff := by simp [table, newAuction, SealedAt]

theorem People.cleared (h : People peers order) (phase : Phase) (keyID : ℤ) :
    Sound (⟨EnergyAuction.Auction.unsealed peers, order, ∅, phase, keyID⟩ : Table γ) :=
  ⟨h.unsealed, fun seat => iff_of_false (AList.notMem_empty seat) (not_sealedAt_unsealed seat)⟩

theorem Sound.bid (h : Sound t) (ct : List γ) (hp : t.peers.lookup id = some p)
    (hrole : p.role = .buyer) (phase : Phase) :
    Sound { t with bids := t.bids.insert p.seat ct, peers := sealPeer id t.peers,
                   phase := phase } where
  people := h.people.sealed hp hrole
  bid_iff := by
    intro seat
    rw [AList.mem_insert, sealedAt_sealPeer hp, h.bid_iff]

theorem not_sealed_of_stays (h : (peers.lookup id).any endsRound = false) :
    ∀ p, peers.lookup id = some p → p.sealed = false := by
  intro p hp
  rw [hp, Option.any_some, endsRound, Bool.or_eq_false_iff] at h
  exact h.2

variable {op : Op γ}

theorem sound_step {t t' : Table γ} (h : Sound t) (hstep : TableStep t op t')
    (hfresh : ∀ id, op = .join id → id ∉ t.peers) : Sound t' := by
  cases hstep with
  | joined id =>
    have hid := hfresh id rfl
    exact ⟨h.people.joined hid, fun seat => by rw [h.bid_iff, sealedAt_joined hid]⟩
  | ended _ => exact h.people.erased.cleared _ _
  | left hstay =>
    refine ⟨h.people.erased, fun seat => ?_⟩
    rw [h.bid_iff, sealedAt_erased (not_sealed_of_stays hstay)]
  | published pk ek | cleared _ _ => exact h.people.cleared _ _
  | refused _ | kept _ => exact h
  | stored hp hb hphase _ => exact h.bid _ hp hb t.phase
  | completed hp hb _ _ => exact h.bid _ hp hb .evaluating
  | offered _ => exact ⟨h.people, h.bid_iff⟩

variable {a : Auction γ}

theorem sound_apply (h : Sound (table a)) (hf : FreshJoin a op) : Sound (table (op.apply a)) := by
  refine sound_step h (table_step op a) ?_
  rintro id rfl
  exact hf

def DistinctSeats (peers : FinMap String Peer) : Prop :=
  ∀ k l p q, peers.lookup k = some p → peers.lookup l = some q →
    p.role = .buyer → q.role = .buyer → p.seat = q.seat → k = l

structure Seated (a : Auction γ) : Prop where
  sellers : count isSeller a.peers ≤ 1
  buyers_le : a.buyerCount ≤ maxBuyers
  seats : ∀ k p, a.peers.lookup k = some p → p.role = .buyer → 0 ≤ p.seat ∧ p.seat < maxBuyers
  distinct : DistinctSeats a.peers
  named : ∀ k p, a.peers.lookup k = some p → p.id = k
  listed : ∀ k, k ∈ a.order ↔ k ∈ a.peers
  order_nodup : a.order.Nodup
  bids : size a.bids = count isSealedBuyer a.peers

def SeatFree (a : Auction γ) : Op γ → Prop
  | .join id => (a.seatedAs id).role = .buyer →
      ∀ p ∈ values a.peers, p.role = .buyer → p.seat ≠ a.buyerCount
  | _ => True

instance (a : Auction γ) (op : Op γ) : Decidable (SeatFree a op) := by
  cases op <;> simp only [SeatFree] <;> infer_instance

def seatsOf (P : Peer → Bool) (peers : FinMap String Peer) : List ℤ :=
  ((values peers).filter P).map Peer.seat

theorem length_seatsOf (P : Peer → Bool) (peers : FinMap String Peer) :
    (seatsOf P peers).length = count P peers := by
  rw [seatsOf, List.length_map, count, List.countP_eq_length_filter]

theorem mem_seatsOf {P : Peer → Bool} {seat : ℤ} :
    seat ∈ seatsOf P peers ↔ ∃ k p, peers.lookup k = some p ∧ P p = true ∧ p.seat = seat := by
  simp only [seatsOf, List.mem_map, List.mem_filter, mem_values]
  constructor
  · rintro ⟨p, ⟨⟨k, hk⟩, hP⟩, hseat⟩
    exact ⟨k, p, hk, hP, hseat⟩
  · rintro ⟨k, p, hk, hP, hseat⟩
    exact ⟨p, ⟨⟨k, hk⟩, hP⟩, hseat⟩

section

variable {peers peers' : FinMap String Peer}

theorem size_bids (h : Sound t) (hd : DistinctSeats t.peers) :
    size t.bids = count isSealedBuyer t.peers := by
  have hkeys : ∀ seat, seat ∈ t.bids ↔ seat ∈ seatsOf isSealedBuyer t.peers := by
    intro seat
    rw [h.bid_iff, mem_seatsOf]
    constructor
    · rintro ⟨k, p, hp, hs, hseat⟩
      exact ⟨k, p, hp, by simp [isSealedBuyer, h.people.sealed_buyer k p hp hs, hs], hseat⟩
    · rintro ⟨k, p, hp, hs, hseat⟩
      exact ⟨k, p, hp, by simp_all [isSealedBuyer], hseat⟩
  rw [(size_eq_length_iff hkeys).mpr, length_seatsOf]
  refine nodup_map_filter.mpr fun k l p q hk hl hp hq hseat => ?_
  simp only [isSealedBuyer, Bool.and_eq_true, decide_eq_true_eq] at hp hq
  exact hd k l p q hk hl hp.1 hq.1 hseat

theorem seated_iff (h : Sound (table a)) : Seated a ↔ DistinctSeats a.peers := by
  constructor
  · exact Seated.distinct
  · intro hd
    exact ⟨h.people.sellers, h.people.buyers_le, h.people.seats, hd, h.people.named,
      h.people.listed, h.people.order_nodup, size_bids h hd⟩

theorem DistinctSeats.of_same (h : DistinctSeats peers)
    (hsame : ∀ k p, peers'.lookup k = some p →
      ∃ q, peers.lookup k = some q ∧ q.role = p.role ∧ q.seat = p.seat) : DistinctSeats peers' := by
  intro k l p q hp hq hbp hbq hseat
  obtain ⟨p', hp', hrp, hsp⟩ := hsame k p hp
  obtain ⟨q', hq', hrq, hsq⟩ := hsame l q hq
  exact h k l p' q' hp' hq' (hrp.trans hbp) (hrq.trans hbq) (by rw [hsp, hsq, hseat])

theorem same_erase (id : String) : ∀ k p, (peers.erase id).lookup k = some p →
    ∃ q, peers.lookup k = some q ∧ q.role = p.role ∧ q.seat = p.seat :=
  fun _ p hp => ⟨p, (lookup_erase_some.mp hp).2, rfl, rfl⟩

theorem same_unsealed : ∀ k p, (unsealed peers).lookup k = some p →
    ∃ q, peers.lookup k = some q ∧ q.role = p.role ∧ q.seat = p.seat := by
  intro k p hp
  obtain ⟨q, hq, rfl⟩ := lookup_unsealed.mp hp
  exact ⟨q, hq, rfl, rfl⟩

theorem same_sealPeer (id : String) : ∀ k p, (sealPeer id peers).lookup k = some p →
    ∃ q, peers.lookup k = some q ∧ q.role = p.role ∧ q.seat = p.seat := by
  intro k p hp
  obtain ⟨q, hq, rfl⟩ := lookup_sealPeer.mp hp
  refine ⟨q, hq, ?_⟩
  split <;> exact ⟨rfl, rfl⟩

theorem distinctSeats_joined (hid : id ∉ peers) (h : DistinctSeats peers) :
    DistinctSeats (peers.insert id (newPeer peers id)) ↔
      ((newPeer peers id).role = .buyer →
        ∀ p ∈ values peers, p.role = .buyer → p.seat ≠ buyers peers) := by
  constructor
  · intro hd hnew p hp hrole hseat
    obtain ⟨k, hk⟩ := mem_values.mp hp
    have hne : k ≠ id := fun heq => hid (heq ▸ mem_of_lookup hk)
    refine hne (hd k id p _ (lookup_insert_some.mpr (.inr ⟨hne, hk⟩))
      (lookup_insert_some.mpr (.inl ⟨rfl, rfl⟩)) hrole hnew ?_)
    rw [hseat, (newPeer_buyer hnew).1]
  · intro hfree k l p q hp hq hbp hbq hseat
    rcases lookup_insert_some.mp hp with ⟨rfl, rfl⟩ | ⟨-, hpold⟩
    · rcases lookup_insert_some.mp hq with ⟨rfl, -⟩ | ⟨-, hqold⟩
      · rfl
      · rw [(newPeer_buyer hbp).1] at hseat
        exact absurd hseat.symm (hfree hbp q (mem_values.mpr ⟨l, hqold⟩) hbq)
    · rcases lookup_insert_some.mp hq with ⟨rfl, rfl⟩ | ⟨-, hqold⟩
      · rw [(newPeer_buyer hbq).1] at hseat
        exact absurd hseat (hfree hbq p (mem_values.mpr ⟨k, hpold⟩) hbp)
      · exact h k l p q hpold hqold hbp hbq hseat

end

theorem seatFree_of_not_join (h : ∀ id, op ≠ .join id) : SeatFree a op := by
  cases op with
  | join id => exact absurd rfl (h id)
  | _ => trivial

theorem distinctSeats_step (h : DistinctSeats a.peers) (hf : FreshJoin a op) :
    DistinctSeats (op.apply a).peers ↔ SeatFree a op := by
  by_cases hjoin : ∃ id, op = .join id
  · obtain ⟨id, rfl⟩ := hjoin
    exact distinctSeats_joined hf h
  · have hop : ∀ id, op ≠ .join id := fun id heq => hjoin ⟨id, heq⟩
    refine iff_of_true ?_ (seatFree_of_not_join hop)
    have hstep := table_step op a
    generalize ht : table (op.apply a) = t' at hstep
    have hpeers : (op.apply a).peers = t'.peers := by rw [← ht]; rfl
    rw [hpeers]
    cases hstep with
    | joined id => exact absurd rfl (hop id)
    | ended _ => exact (h.of_same (same_erase _)).of_same same_unsealed
    | left _ => exact h.of_same (same_erase _)
    | published pk ek | cleared _ _ => exact h.of_same same_unsealed
    | stored hp hb hphase hsize | completed hp hb hphase hsize => exact h.of_same (same_sealPeer _)
    | refused _ | offered _ | kept _ => exact h

/-- Whatever the tabs do, the auction is properly seated throughout exactly if no join is
given a seat that another buyer holds. -/
theorem seated_run_iff (ops : List (Op γ)) (hfresh : AllSteps Op.apply FreshJoin newAuction ops) :
    (∀ a ∈ visited Op.apply newAuction ops, Seated a) ↔
      AllSteps Op.apply SeatFree newAuction ops := by
  refine forall_visited_iff (fun a op => sound_apply)
    (fun a op h hd hf => ?_) sound_start ?_ hfresh
  · rw [seated_iff h] at hd
    rw [seated_iff (sound_apply h hf)]
    exact distinctSeats_step hd hf
  · rw [seated_iff sound_start]
    simp [DistinctSeats, newAuction]

def cohort : List (Op UInt8) :=
  [.join "p1", .join "p2", .join "p3", .publishKeys [1] [2], .submitBid "p2" 1 [3],
    .submitBid "p3" 1 [4], .leave "p3", .join "p4"]

theorem seated_run_cohort : Seated (last Op.apply newAuction cohort) :=
  (seated_run_iff cohort (by decide)).mpr (by decide) _ last_mem_visited

/-- The second buyer keeps seat 1; the first leaves, and the next to join is counted into
seat 1 as well. -/
theorem taken_seat_handed_out :
    let ops : List (Op UInt8) := [.join "p1", .join "p2", .join "p3", .leave "p2", .join "p4"]
    AllSteps Op.apply FreshJoin newAuction ops ∧
      ∃ a ∈ visited Op.apply newAuction ops, ¬ Seated a := by
  intro ops
  refine ⟨by decide, last Op.apply newAuction ops, last_mem_visited, ?_⟩
  intro h
  have hsame := h.distinct "p3" "p4" ⟨"p3", .buyer, 1, false⟩ ⟨"p4", .buyer, 1, false⟩
  exact absurd hsame (by decide)

/-- An auction together with the bids it has accepted: whose, and under which key. -/
structure Round (γ : Type) where
  auction : Auction γ
  accepted : List (String × ℤ)

def acceptedBid (a : Auction γ) : Op γ → List (String × ℤ)
  | .submitBid id keyID ct => if (a.submitBid id keyID ct).1 = .rejected then [] else [(id, keyID)]
  | _ => []

def Round.next (op : Op γ) (r : Round γ) : Round γ :=
  ⟨op.apply r.auction, acceptedBid r.auction op ++ r.accepted⟩

def Round.start : Round γ := ⟨newAuction, []⟩

def NotStranded (r : Round γ) : Prop :=
  r.auction.phase = .bidding → 0 < r.auction.buyerCount →
    (∃ k p, r.auction.peers.lookup k = some p ∧ p.role = .buyer ∧ p.sealed = false) ∧
      ¬ ∀ k p, r.auction.peers.lookup k = some p → p.role = .buyer →
        (k, r.auction.keyID) ∈ r.accepted

def otherBuyers (peers : FinMap String Peer) (id : String) : List Peer :=
  (values (peers.erase id)).filter isBuyer

def KeepsRound (a : Auction γ) : Op γ → Prop
  | .leave id => a.phase = .bidding →
      (a.peers.lookup id).any (fun p => isBuyer p && !p.sealed) = true →
      otherBuyers a.peers id ≠ [] → ∃ q ∈ otherBuyers a.peers id, q.sealed = false
  | .submitBid id keyID _ => a.phase = .bidding → keyID = a.keyID →
      (a.peers.lookup id).any isBuyer = true →
      (∀ q ∈ otherBuyers a.peers id, q.sealed = true) → (seatsOf isBuyer a.peers).Nodup
  | _ => True

instance (a : Auction γ) (op : Op γ) : Decidable (KeepsRound a op) := by
  cases op <;> simp only [KeepsRound] <;> infer_instance

def Unsealed (peers : FinMap String Peer) : Prop :=
  ∃ k p, peers.lookup k = some p ∧ p.role = .buyer ∧ p.sealed = false

/-- Accepted bids are of the current key or an earlier one, and during bidding those of the current
key are of tabs that are there and sealed. -/
structure Ledger (t : Table γ) (accepted : List (String × ℤ)) : Prop where
  past : ∀ x ∈ accepted, x.2 ≤ t.keyID
  current : t.phase = .bidding → ∀ id, (id, t.keyID) ∈ accepted →
    ∃ p, t.peers.lookup id = some p ∧ p.sealed = true

section

variable {t t' : Table γ} {op : Op γ}

theorem mem_otherBuyers {q : Peer} : q ∈ otherBuyers peers id ↔
    ∃ k, k ≠ id ∧ peers.lookup k = some q ∧ q.role = .buyer := by
  simp only [otherBuyers, List.mem_filter, mem_values, lookup_erase_some, isBuyer,
    decide_eq_true_eq]
  constructor
  · rintro ⟨⟨k, hk, hq⟩, hb⟩
    exact ⟨k, hk, hq, hb⟩
  · rintro ⟨k, hk, hq, hb⟩
    exact ⟨⟨k, hk, hq⟩, hb⟩

theorem buyers_pos : 0 < buyers peers ↔ ∃ k p, peers.lookup k = some p ∧ p.role = .buyer := by
  rw [buyers, count_pos]
  simp only [isBuyer, decide_eq_true_eq]

theorem notStranded_iff {r : Round γ} (h : Ledger (table r.auction) r.accepted) :
    NotStranded r ↔ (r.auction.phase = .bidding → 0 < buyers r.auction.peers →
      Unsealed r.auction.peers) := by
  constructor
  · intro hn hphase hpos
    exact (hn hphase hpos).1
  · intro hu hphase hpos
    obtain ⟨k, p, hp, hb, hs⟩ := hu hphase hpos
    refine ⟨⟨k, p, hp, hb, hs⟩, fun hall => ?_⟩
    obtain ⟨q, hq, hqs⟩ := h.current hphase k (hall k p hp hb)
    obtain rfl : q = p := Option.some.inj (hq.symm.trans hp)
    simp [hs] at hqs

theorem mem_bids_of_all_sealed (h : Sound t)
    (hall : ∀ k p, t.peers.lookup k = some p → p.role = .buyer → p.sealed = true) (seat : ℤ) :
    seat ∈ t.bids ↔ seat ∈ seatsOf isBuyer t.peers := by
  rw [h.bid_iff, mem_seatsOf]
  constructor
  · rintro ⟨k, p, hp, hs, hseat⟩
    exact ⟨k, p, hp, by simp [isBuyer, h.people.sealed_buyer k p hp hs], hseat⟩
  · rintro ⟨k, p, hp, hb, hseat⟩
    exact ⟨k, p, hp, hall k p hp (of_decide_eq_true hb), hseat⟩

theorem seatsOf_sealPeer (id : String) (peers : FinMap String Peer) :
    seatsOf isBuyer (sealPeer id peers) = seatsOf isBuyer peers := by
  simp only [seatsOf, values, sealPeer, mapValues, List.map_map, List.filter_map]
  have hbuyer : ∀ e : Sigma fun _ : String => Peer,
      isBuyer (if e.1 = id then { e.2 with sealed := true } else e.2) = isBuyer e.2 := by
    intro e
    split <;> rfl
  have hseat : ∀ e : Sigma fun _ : String => Peer,
      (if e.1 = id then { e.2 with sealed := true } else e.2).seat = e.2.seat := by
    intro e
    split <;> rfl
  simp only [Function.comp_def, hbuyer, hseat]

theorem all_sealed_sealPeer (h : ∀ q ∈ otherBuyers peers id, q.sealed = true) :
    ∀ k p, (sealPeer id peers).lookup k = some p → p.role = .buyer → p.sealed = true := by
  intro k p hp hb
  obtain ⟨q, hq, rfl⟩ := lookup_sealPeer.mp hp
  split at hb
  · rename_i hk
    rw [if_pos hk]
  · rename_i hk
    rw [if_neg hk]
    exact h q (mem_otherBuyers.mpr ⟨k, hk, hq, hb⟩)

theorem unsealed_sealPeer {q : Peer} (hq : q ∈ otherBuyers peers id) (hs : q.sealed = false) :
    Unsealed (sealPeer id peers) := by
  obtain ⟨k, hk, hlookup, hb⟩ := mem_otherBuyers.mp hq
  exact ⟨k, q, lookup_sealPeer.mpr ⟨q, hlookup, by simp [hk]⟩, hb, hs⟩

section

variable {p : Peer} {ct : List γ} (h : Sound t) (hp : t.peers.lookup id = some p)
  (hb : p.role = .buyer)

include h hp hb

theorem unsealed_stored (hsize : size (t.bids.insert p.seat ct) < buyers t.peers) :
    Unsealed (sealPeer id t.peers) ↔
      ((∀ q ∈ otherBuyers t.peers id, q.sealed = true) → (seatsOf isBuyer t.peers).Nodup) := by
  by_cases hall : ∀ q ∈ otherBuyers t.peers id, q.sealed = true
  · have hsealed := all_sealed_sealPeer hall
    refine iff_of_false ?_ ?_
    · rintro ⟨k, q, hq, hbq, hs⟩
      simp [hsealed k q hq hbq] at hs
    · intro hnodup
      have hkeys := mem_bids_of_all_sealed (h.bid ct hp hb t.phase) hsealed
      rw [← seatsOf_sealPeer] at hnodup
      have hlen := (size_eq_length_iff hkeys).mpr (hnodup hall)
      rw [seatsOf_sealPeer, length_seatsOf] at hlen
      exact absurd hlen (ne_of_lt hsize)
  · refine iff_of_true ?_ fun h => absurd h hall
    obtain ⟨q, hq, hs⟩ : ∃ q ∈ otherBuyers t.peers id, ¬ q.sealed = true := by
      simpa only [not_forall, exists_prop] using hall
    exact unsealed_sealPeer hq (Bool.eq_false_iff.mpr hs)

theorem nodup_completed (hsize : buyers t.peers ≤ size (t.bids.insert p.seat ct))
    (hall : ∀ q ∈ otherBuyers t.peers id, q.sealed = true) : (seatsOf isBuyer t.peers).Nodup := by
  have hkeys := mem_bids_of_all_sealed (h.bid ct hp hb .evaluating) (all_sealed_sealPeer hall)
  have hle := size_le_length hkeys
  rw [← seatsOf_sealPeer, ← size_eq_length_iff hkeys]
  refine le_antisymm hle ?_
  rw [seatsOf_sealPeer, length_seatsOf]
  exact hsize

end

theorem unsealed_joined (hid : id ∉ peers) (hpos : 0 < buyers (peers.insert id (newPeer peers id)))
    (h : 0 < buyers peers → Unsealed peers) : Unsealed (peers.insert id (newPeer peers id)) := by
  by_cases hnew : (newPeer peers id).role = .buyer
  · exact ⟨id, _, lookup_insert_some.mpr (.inl ⟨rfl, rfl⟩), hnew, newPeer_sealed peers id⟩
  · have hold : 0 < buyers peers := by
      simpa [buyers, count_insert_new hid, isBuyer, hnew] using hpos
    obtain ⟨k, p, hp, hb, hs⟩ := h hold
    have hk : k ≠ id := fun heq => hid (heq ▸ mem_of_lookup hp)
    exact ⟨k, p, lookup_insert_some.mpr (.inr ⟨hk, hp⟩), hb, hs⟩

theorem unsealed_erased (h : 0 < buyers peers → Unsealed peers) :
    (0 < buyers (peers.erase id) → Unsealed (peers.erase id)) ↔
      ((peers.lookup id).any (fun p => isBuyer p && !p.sealed) = true →
        otherBuyers peers id ≠ [] → ∃ q ∈ otherBuyers peers id, q.sealed = false) := by
  have hothers : Unsealed (peers.erase id) ↔ ∃ q ∈ otherBuyers peers id, q.sealed = false := by
    simp only [Unsealed, mem_otherBuyers, lookup_erase_some]
    constructor
    · rintro ⟨k, q, ⟨hk, hq⟩, hb, hs⟩
      exact ⟨q, ⟨k, hk, hq, hb⟩, hs⟩
    · rintro ⟨q, ⟨k, hk, hq, hb⟩, hs⟩
      exact ⟨k, q, ⟨hk, hq⟩, hb, hs⟩
  have hsome : 0 < buyers (peers.erase id) ↔ otherBuyers peers id ≠ [] := by
    rw [otherBuyers, buyers, count, List.countP_eq_length_filter, List.length_pos_iff]
  rw [hothers, hsome]
  constructor
  · intro hu _
    exact hu
  · intro hu hne
    by_cases hany : (peers.lookup id).any (fun p => isBuyer p && !p.sealed) = true
    · exact hu hany hne
    · obtain ⟨q, hq⟩ := List.exists_mem_of_ne_nil _ hne
      obtain ⟨l, hl, hlq, hbq⟩ := mem_otherBuyers.mp hq
      obtain ⟨k, p, hp, hb, hs⟩ := h (buyers_pos.mpr ⟨l, q, hlq, hbq⟩)
      refine ⟨p, mem_otherBuyers.mpr ⟨k, ?_, hp, hb⟩, hs⟩
      rintro rfl
      simp [hp, isBuyer, hb, hs] at hany

end

theorem exists_of_any {P : Peer → Bool} {o : Option Peer} (h : o.any P = true) :
    ∃ p, o = some p ∧ P p = true := by
  cases o with
  | none => cases h
  | some p => exact ⟨p, rfl, h⟩

theorem keepsRound_of_not_byTab (h : byTab op = false) : KeepsRound a op := by
  cases op with
  | join id | leave id | submitBid id keyID ct => cases h
  | _ => trivial

theorem unsealed_step (h : Sound (table a))
    (hu : a.phase = .bidding → 0 < buyers a.peers → Unsealed a.peers) (hf : FreshJoin a op) :
    ((op.apply a).phase = .bidding → 0 < buyers (op.apply a).peers →
      Unsealed (op.apply a).peers) ↔ KeepsRound a op := by
  have hstep := table_step op a
  generalize ht : table (op.apply a) = t' at hstep
  have hpeers : (op.apply a).peers = t'.peers := by rw [← ht]; rfl
  have hphase' : (op.apply a).phase = t'.phase := by rw [← ht]; rfl
  rw [hpeers, hphase']
  cases hstep with
  | joined id => exact iff_of_true (fun hphase hpos => unsealed_joined hf hpos (hu hphase)) trivial
  | ended hend =>
    refine iff_of_true nofun fun _ hany => ?_
    obtain ⟨p, hp, hopen⟩ := exists_of_any hany
    have hends : endsRound p = true := by simpa [table, hp] using hend
    simp_all [endsRound, isBuyer, isSeller]
  | left _ =>
    constructor
    · intro hopen hphase
      exact (unsealed_erased (hu hphase)).mp (hopen hphase)
    · intro hkeep hphase
      exact (unsealed_erased (hu hphase)).mpr (hkeep hphase)
  | published pk ek =>
    refine iff_of_true (fun _ hpos => ?_) trivial
    obtain ⟨k, p, hp, hb⟩ := buyers_pos.mp hpos
    obtain ⟨q, -, rfl⟩ := lookup_unsealed.mp hp
    exact ⟨k, _, hp, hb, rfl⟩
  | refused hrefused =>
    refine iff_of_true hu fun hphase hkey hany => ?_
    obtain ⟨p, hp, hb⟩ := exists_of_any hany
    exact absurd ⟨p, hp, of_decide_eq_true hb, hphase, hkey⟩ hrefused
  | @stored id p ct hp hb hphase hsize =>
    have hany : (a.peers.lookup id).any isBuyer = true := by
      rw [show a.peers.lookup id = some p from hp]
      exact decide_eq_true hb
    have hpos : 0 < buyers (sealPeer id a.peers) := by
      rw [buyers, count_isBuyer_sealPeer]
      exact Nat.zero_lt_of_lt hsize
    have hiff := unsealed_stored h hp hb hsize
    constructor
    · intro hopen _ _ _
      exact hiff.mp (hopen hphase hpos)
    · intro hkeep _ _
      exact hiff.mpr (hkeep hphase rfl hany)
  | completed hp hb hphase hsize =>
    exact iff_of_true nofun fun _ _ _ => nodup_completed h hp hb hsize
  | cleared hop hne =>
    exact iff_of_true (fun hphase => absurd hphase hne) (keepsRound_of_not_byTab hop)
  | offered hop => exact iff_of_true nofun (keepsRound_of_not_byTab hop)
  | kept hop => exact iff_of_true hu (keepsRound_of_not_byTab hop)

theorem acceptedBid_of_not_byTab (h : byTab op = false) : acceptedBid a op = [] := by
  cases op with
  | join id | leave id | submitBid id keyID ct => cases h
  | _ => rfl

theorem submitBid_rejected_iff (a : Auction γ) (id : String) (keyID : ℤ) (ct : List γ) :
    (a.submitBid id keyID ct).1 = .rejected ↔ ¬ ∃ p, a.peers.lookup id = some p ∧
      p.role = .buyer ∧ a.phase = .bidding ∧ keyID = a.keyID := by
  unfold Auction.submitBid
  split
  · rename_i hnone
    simp [hnone]
  · rename_i p hp
    dsimp only
    split_ifs with hrole hkey hsize
    · simp only [hp, Option.some.injEq, true_iff]
      rintro ⟨q, rfl, hb, hphase, -⟩
      exact hrole.elim (· hb) (· hphase)
    · simp [hkey]
    all_goals
      simp only [not_or] at hrole hkey
      simp [hp, hrole, hkey]

theorem acceptedBid_accepted {ct : List γ} (hp : a.peers.lookup id = some p) (hb : p.role = .buyer)
    (hphase : a.phase = .bidding) : acceptedBid a (.submitBid id a.keyID ct) = [(id, a.keyID)] :=
  if_neg fun hrej => (submitBid_rejected_iff ..).mp hrej ⟨p, hp, hb, hphase, rfl⟩

section

variable {accepted : List (String × ℤ)} {bids : FinMap ℤ (List γ)} {phase : Phase}

theorem Ledger.idle (h : Ledger t accepted) (hphase : phase ≠ .bidding) :
    Ledger ⟨peers, order, bids, phase, t.keyID⟩ accepted :=
  ⟨h.past, fun hb => absurd hb hphase⟩

theorem Ledger.kept (h : Ledger t accepted)
    (hkeep : ∀ k p, t.peers.lookup k = some p → p.sealed = true →
      ∃ q, peers.lookup k = some q ∧ q.sealed = true) :
    Ledger ⟨peers, order, bids, t.phase, t.keyID⟩ accepted := by
  refine ⟨h.past, fun hphase id hid => ?_⟩
  obtain ⟨p, hp, hs⟩ := h.current hphase id hid
  exact hkeep id p hp hs

theorem Ledger.bid (h : Ledger t accepted)
    (hp : t.peers.lookup id = some p) :
    Ledger ⟨sealPeer id t.peers, order, bids, t.phase, t.keyID⟩ ((id, t.keyID) :: accepted) := by
  refine ⟨?_, fun hphase k hk => ?_⟩
  · intro x hx
    rcases List.mem_cons.mp hx with rfl | hx
    · exact le_refl _
    · exact h.past x hx
  · rcases List.mem_cons.mp hk with heq | hk
    · obtain rfl : k = id := (Prod.mk.inj heq).1
      exact ⟨_, lookup_sealPeer.mpr ⟨p, hp, rfl⟩, by simp⟩
    · obtain ⟨q, hq, hs⟩ := h.current hphase k hk
      refine ⟨_, lookup_sealPeer.mpr ⟨q, hq, rfl⟩, ?_⟩
      split <;> simp [hs]

end

theorem ledger_step {r : Round γ} (h : Ledger (table r.auction) r.accepted)
    (hf : FreshJoin r.auction op) : Ledger (table (r.next op).auction) (r.next op).accepted := by
  obtain ⟨a, accepted⟩ := r
  have hstep := table_step op a
  simp only [Round.next]
  generalize table (op.apply a) = t' at hstep ⊢
  cases hstep with
  | joined id =>
    refine h.kept fun k p hp hs => ⟨p, lookup_insert_some.mpr (.inr ⟨?_, hp⟩), hs⟩
    rintro rfl
    exact hf (mem_of_lookup hp)
  | ended _ => exact h.idle nofun
  | left hstay =>
    refine h.kept fun k p hp hs => ⟨p, lookup_erase_some.mpr ⟨?_, hp⟩, hs⟩
    rintro rfl
    simp [not_sealed_of_stays hstay p hp] at hs
  | published pk ek =>
    refine ⟨fun x hx => (h.past x hx).trans (Int.le_of_lt (Int.lt_succ _)), fun _ id hid => ?_⟩
    have := h.past _ hid
    simp only [table] at this
    omega
  | refused hrefused =>
    rw [acceptedBid, if_pos ((submitBid_rejected_iff ..).mpr hrefused)]
    exact h
  | @stored id p ct hp hb hphase _ =>
    rw [show (table a).keyID = a.keyID from rfl, acceptedBid_accepted hp hb hphase]
    exact h.bid hp
  | @completed id p ct hp hb hphase _ =>
    rw [show (table a).keyID = a.keyID from rfl, acceptedBid_accepted hp hb hphase]
    have hbid : Ledger ⟨sealPeer id a.peers, a.order, a.bids, a.phase, a.keyID⟩
        ((id, a.keyID) :: accepted) := h.bid hp
    exact hbid.idle nofun
  | cleared hop hne =>
    rw [acceptedBid_of_not_byTab hop]
    exact h.idle hne
  | offered hop =>
    rw [acceptedBid_of_not_byTab hop]
    exact h.idle nofun
  | kept hop =>
    rw [acceptedBid_of_not_byTab hop]
    exact h

/-- A round is never left in bidding with every buyer sealed exactly if no step takes away the last
buyer to wait for, and none seals the last buyer while a seat is shared. -/
theorem notStranded_run_iff (ops : List (Op γ))
    (hfresh : AllSteps Round.next (fun r op => FreshJoin r.auction op) Round.start ops) :
    (∀ r ∈ visited Round.next Round.start ops, NotStranded r) ↔
      AllSteps Round.next (fun r op => KeepsRound r.auction op) Round.start ops := by
  refine forall_visited_iff
    (I := fun r => Sound (table r.auction) ∧ Ledger (table r.auction) r.accepted)
    (fun r op h hf => ⟨sound_apply h.1 hf, ledger_step h.2 hf⟩) (fun r op h hn hf => ?_)
    ⟨sound_start, nofun, nofun⟩ nofun hfresh
  rw [notStranded_iff h.2] at hn
  rw [notStranded_iff (ledger_step h.2 hf)]
  exact unsealed_step h.1 hn hf

def twoRounds : List (Op UInt8) :=
  [.join "p1", .join "p2", .join "p3", .publishKeys [1] [2], .submitBid "p2" 1 [3],
    .submitBid "p3" 1 [4], .setMasks [[5]], .offer 1 7, .settle true "12:00:00",
    .publishKeys [6] [7], .submitBid "p2" 2 [8]]

theorem notStranded_run_twoRounds : NotStranded (last Round.next Round.start twoRounds) :=
  (notStranded_run_iff twoRounds (by decide)).mpr (by decide) _ last_mem_visited

theorem stranded_of_all_sealed {r : Round γ} (hphase : r.auction.phase = .bidding)
    (hpos : 0 < r.auction.buyerCount)
    (hall : ∀ p ∈ values r.auction.peers, p.role = .buyer → p.sealed = true) : ¬ NotStranded r := by
  intro h
  obtain ⟨⟨k, p, hp, hb, hs⟩, -⟩ := h hphase hpos
  simp [hall p (mem_values.mpr ⟨k, hp⟩) hb] at hs

/-- Both ways to strand a round: the buyer that had not sealed leaves, and two buyers
seal from one seat. -/
theorem stranded_rounds :
    let quits : List (Op UInt8) := [.join "p1", .join "p2", .join "p3", .publishKeys [1] [2],
      .submitBid "p2" 1 [3], .leave "p3"]
    let shares : List (Op UInt8) := [.join "p1", .join "p2", .join "p3", .leave "p2",
      .join "p4", .publishKeys [1] [2], .submitBid "p3" 1 [3], .submitBid "p4" 1 [4]]
    ∀ ops ∈ [quits, shares],
      AllSteps Round.next (fun r op => FreshJoin r.auction op) Round.start ops ∧
      ∃ r ∈ visited Round.next Round.start ops, ¬ NotStranded r := by
  intro quits shares ops hops
  refine ⟨?_, last Round.next Round.start ops, last_mem_visited, ?_⟩
  · revert ops
    decide
  · apply stranded_of_all_sealed <;> (revert ops; decide)

end EnergyAuctionRounds
