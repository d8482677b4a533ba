import Ares.EnergyRoundKeys

/-! A seller offers to a seat, settling the offer hands the seat back, and whoever is found at the
seat is told it won. -/
namespace EnergySettlement

open InterleavedPrograms FiniteMaps EnergyAuction EnergyAuction.Auction EnergyRelay
  EnergyRelayConnections EnergyRoundKeys EnergyAuctionRounds

variable {γ : Type} {ι : Type} {Q R : Hub ι γ} {x : Step γ} {env : Env γ} {ω : PeerOrder} {i : ι}
  {id : String} {w w' : Work γ}

def offered : Step γ → Option ℤ
  | .relay (.method (.offer seat _)) => some seat
  | _ => none

def settles (a : Auction γ) : Step γ → Bool
  | .relay (.settle _) => 0 ≤ a.winnerSeat
  | _ => false

def tells : Step γ → Option (String × ℤ)
  | .relay (.send dest m) => if m.type = .won then some (dest, m.seat) else none
  | _ => none

structure Bid (γ : Type) where
  tab : String
  seat : ℤ
  keyID : ℤ
  ct : List γ
  deriving DecidableEq

def accepts (a : Auction γ) : Step γ → Option (Bid γ)
  | .relay (.method (.submitBid id kid ct)) =>
    if (a.submitBid id kid ct).1 = .rejected then none
    else (a.peers.lookup id).map fun p => ⟨id, p.seat, kid, ct⟩
  | _ => none

section

def Offers (y : ι × RelayEvent γ) : Prop := (offered y.2.act).isSome = true

def Settles (i : ι) (y : ι × RelayEvent γ) : Prop :=
  y.1 = i ∧ settles y.2.pre.auction y.2.act = true

def Tells (i : ι) (dest : String) (seat : ℤ) (y : ι × RelayEvent γ) : Prop :=
  y.1 = i ∧ tells y.2.act = some (dest, seat)

def TellsAny (i : ι) (y : ι × RelayEvent γ) : Prop := y.1 = i ∧ (tells y.2.act).isSome = true

def Accepts (b : Bid γ) (y : ι × RelayEvent γ) : Prop := accepts y.2.pre.auction y.2.act = some b

def AcceptsAt (seat : ℤ) (y : ι × RelayEvent γ) : Prop :=
  (accepts y.2.pre.auction y.2.act).any (fun b => b.seat = seat) = true

def SettlesBid (b : Bid γ) (y : ι × RelayEvent γ) : Prop :=
  settles y.2.pre.auction y.2.act = true ∧ y.2.pre.auction.winnerSeat = b.seat ∧
    y.2.pre.auction.keyID = b.keyID ∧ y.2.pre.auction.bids.lookup b.seat = some b.ct

def StoredBy (h : List (ι × RelayEvent γ)) (t : ℕ) (b : Bid γ) : Prop :=
  ∃ n < t, Seen h (Accepts b) n ∧ NoneBetween h (AcceptsAt b.seat) n t

/-- Connection `i` settled at `t` the offer made at `o`. -/
structure Settlement (h : List (ι × RelayEvent γ)) (i : ι) (o t : ℕ) : Prop where
  offered : Seen h Offers o
  before : o < t
  current : NoneBetween h Offers o t
  settled : Seen h (Settles i) t

structure ToldOf (h : List (ι × RelayEvent γ)) (i : ι) (o t n : ℕ) : Prop
    extends Settlement h i o t where
  after : t < n
  latest : NoneBetween h (Settles i) t n

/-- A tab that is told it won had its own bid accepted for the seat that was settled, and its bid
was what the seat held in that round. Each offer has one tab told at most. -/
structure RightTabTold (h : List (ι × RelayEvent γ)) : Prop where
  right : ∀ n i dest seat, Seen h (Tells i dest seat) n →
    ∃ o t b, ToldOf h i o t n ∧ b.tab = dest ∧ b.seat = seat ∧ Seen h (SettlesBid b) t ∧
      StoredBy h t b
  once : ∀ n n' i i' dest dest' seat seat' o t t',
    Seen h (Tells i dest seat) n → Seen h (Tells i' dest' seat') n' →
    ToldOf h i o t n → ToldOf h i' o t' n' → n = n'

end

def looksFor : Work γ → Option ℤ
  | .settled _ seat => some seat
  | _ => none

section

variable [DecidableEq ι]

def KeepsSeats (Q : Hub ι γ) (x : Step γ) : Prop :=
  (∀ seat ∈ offered x, 0 ≤ seat → seat ∈ Q.state.auction.bids) ∧
  (∀ id ∈ joins x, SeatFree Q.state.auction (.join id) ∧
    ((Q.state.auction.seatedAs id).role = .buyer →
      ∀ j, (Q.stage j).all (fun place => looksFor place.2 ≠ some (Q.state.auction.buyerCount : ℤ))
        = true))

def SeatsKept (Q : Hub ι γ) (i : ι) : Prop := ∀ x, Q.next i = some x → KeepsSeats Q x

end

theorem submitBid_cases (a : Auction γ) (id : String) (kid : ℤ) (ct : List γ) :
    ((a.submitBid id kid ct).1 = .rejected ∧ (a.submitBid id kid ct).2 = a) ∨
      ∃ p, a.peers.lookup id = some p ∧ p.role = .buyer ∧ a.phase = .bidding ∧ kid = a.keyID ∧
        (a.submitBid id kid ct).1 ≠ .rejected ∧
        (a.submitBid id kid ct).2.bids = a.bids.insert p.seat ct ∧
        (a.submitBid id kid ct).2.keyID = a.keyID ∧
        (a.submitBid id kid ct).2.peers = sealPeer id a.peers := by
  unfold Auction.submitBid
  split
  · exact .inl ⟨rfl, rfl⟩
  · rename_i p hp
    dsimp only
    split_ifs with hrole hkey hsize
    · exact .inl ⟨rfl, rfl⟩
    · exact .inl ⟨rfl, rfl⟩
    all_goals
      obtain ⟨hb, hphase⟩ : p.role = .buyer ∧ a.phase = .bidding := by
        simpa using hrole
      exact .inr ⟨p, hp, hb, hphase, not_not.mp hkey, by rintro ⟨⟩, rfl, rfl, rfl⟩

section

def BuyerAt (Q : Hub ι γ) (k : String) (seat : ℤ) : Prop :=
  ∃ p, Q.state.auction.peers.lookup k = some p ∧ p.role = .buyer ∧ p.seat = seat

def SealedBy (Q : Hub ι γ) (k : String) (seat : ℤ) : Prop :=
  ∃ p, Q.state.auction.peers.lookup k = some p ∧ p.role = .buyer ∧ p.seat = seat ∧
    p.sealed = true

def Stored (h : List (ι × RelayEvent γ)) (b : Bid γ) : Prop :=
  ∃ n, Seen h (Accepts b) n ∧ NoneAfter h (AcceptsAt b.seat) n

def BidsStored (Q : Hub ι γ) : Prop :=
  ∀ seat ct, Q.state.auction.bids.lookup seat = some ct →
    ∃ k, SealedBy Q k seat ∧ Stored Q.history ⟨k, seat, Q.state.auction.keyID, ct⟩

inductive BidsStep (Q : Hub ι γ) (x : Step γ) (R : Hub ι γ) : Prop where
  | dropped (hbids : R.state.auction.bids = ∅)
  | kept (hx : accepts Q.state.auction x = none)
      (hbids : R.state.auction.bids = Q.state.auction.bids)
      (hkey : R.state.auction.keyID = Q.state.auction.keyID)
      (hsealed : ∀ k seat, SealedBy Q k seat → SealedBy R k seat)
  | accepted (b : Bid γ) (hx : accepts Q.state.auction x = some b)
      (hbuyer : BuyerAt Q b.tab b.seat) (hphase : Q.state.auction.phase = .bidding)
      (hkid : b.keyID = Q.state.auction.keyID)
      (hbids : R.state.auction.bids = Q.state.auction.bids.insert b.seat b.ct)
      (hkey : R.state.auction.keyID = Q.state.auction.keyID)
      (hself : SealedBy R b.tab b.seat)
      (hsealed : ∀ k seat, SealedBy Q k seat → SealedBy R k seat)

theorem bidsStep_table {op : Op γ} (hx : accepts Q.state.auction x = none)
    (hop : ∀ k kid ct, op ≠ .submitBid k kid ct) (hfresh : FreshJoin Q.state.auction op)
    (hstate : R.state.auction = op.apply Q.state.auction) : BidsStep Q x R := by
  have hstep := table_step op Q.state.auction
  rw [← hstate] at hstep
  generalize ht : table R.state.auction = t at hstep
  have hbids : R.state.auction.bids = t.bids := by rw [← ht]; rfl
  have hkey : R.state.auction.keyID = t.keyID := by rw [← ht]; rfl
  have hpeers : R.state.auction.peers = t.peers := by rw [← ht]; rfl
  cases hstep with
  | joined id =>
    refine .kept hx hbids hkey ?_
    rintro k seat ⟨p, hp, hsealed⟩
    have hne : k ≠ id := fun heq => hfresh (heq ▸ mem_of_lookup hp)
    refine ⟨p, ?_, hsealed⟩
    rw [hpeers]
    exact lookup_insert_some.mpr (.inr ⟨hne, hp⟩)
  | ended | published | cleared => exact .dropped hbids
  | left hstay =>
    rename_i id
    refine .kept hx hbids hkey ?_
    rintro k seat ⟨p, hp, hbuyer, hseat, hsealed⟩
    -- a tab that has sealed does not leave without ending the round
    have hne : k ≠ id := by
      rintro rfl
      have hopen := not_sealed_of_stays hstay p hp
      rw [hsealed] at hopen
      cases hopen
    refine ⟨p, ?_, hbuyer, hseat, hsealed⟩
    rw [hpeers]
    exact lookup_erase_some.mpr ⟨hne, hp⟩
  | refused | stored | completed => exact (hop _ _ _ rfl).elim
  | offered | kept =>
    refine .kept hx hbids hkey ?_
    rintro k seat ⟨p, hp, hsealed⟩
    refine ⟨p, ?_, hsealed⟩
    rw [hpeers]
    exact hp

theorem bidsStored_start (env : Env γ) (frames : ι → List (Msg γ)) :
    BidsStored (Hub.start env frames) := by
  intro seat ct hct
  cases hct

variable [DecidableEq ι]

theorem bidsStep_bid {k : String} {kid : ℤ} {ct : List γ}
    (ht : Taken env ω Q i (.relay (.method (.submitBid k kid ct))) R) :
    BidsStep Q (.relay (.method (.submitBid k kid ct))) R := by
  have hstate : R.state.auction = (Q.state.auction.submitBid k kid ct).2 := by
    rw [ht.state]
    rfl
  rcases submitBid_cases Q.state.auction k kid ct with
    ⟨hrejected, hsame⟩ | ⟨p, hp, hb, hphase, hkid, haccepted, hbids, hkey, hpeers⟩
  · rw [hsame] at hstate
    refine .kept (if_pos hrejected) (by rw [hstate]) (by rw [hstate]) ?_
    intro k seat h
    unfold SealedBy
    rw [hstate]
    exact h
  · have hx : accepts Q.state.auction (.relay (.method (.submitBid k kid ct))) =
        some ⟨k, p.seat, kid, ct⟩ := by
      simp only [accepts, if_neg haccepted, hp, Option.map_some]
    rw [← hstate] at hbids hkey hpeers
    refine .accepted _ hx ⟨p, hp, hb, rfl⟩ hphase hkid hbids hkey ?_ ?_
    · refine ⟨{ p with sealed := true }, ?_, hb, rfl, rfl⟩
      rw [hpeers, lookup_sealPeer]
      exact ⟨p, hp, by simp⟩
    · rintro k' seat ⟨q, hq, hbuyer, hseat, hsealed⟩
      refine ⟨if k' = k then { q with sealed := true } else q, ?_, ?_, ?_, ?_⟩
      · rw [hpeers, lookup_sealPeer]
        exact ⟨q, hq, rfl⟩
      · split <;> exact hbuyer
      · split <;> exact hseat
      · split
        · rfl
        · exact hsealed

theorem bidsStep (hm : Members Q) (ht : Taken env ω Q i x R) (hi : Q.stage i = some (id, w))
    (hgoes : Goes env id w x (stepSem env ω x Q.state).1 w') : BidsStep Q x R := by
  by_cases hbid : ∃ k kid ct, x = .relay (.method (.submitBid k kid ct))
  · obtain ⟨k, kid, ct, rfl⟩ := hbid
    exact bidsStep_bid ht
  have hnot := fun k kid ct heq => hbid ⟨k, kid, ct, heq⟩
  have hx : accepts Q.state.auction x = none := by
    unfold accepts
    split
    · exact (hnot _ _ _ rfl).elim
    · rfl
  have hauction := auction_step env ω x Q.state
  rw [← ht.state] at hauction
  cases hc : called env x Q.state with
  | none =>
    rw [hc] at hauction
    have hsame : R.state.auction = Q.state.auction := hauction
    refine .kept hx (by rw [hsame]) (by rw [hsame]) ?_
    intro k seat h
    unfold SealedBy
    rw [hsame]
    exact h
  | some op =>
    rw [hc] at hauction
    refine bidsStep_table hx ?_ (freshJoin_called hm hi hgoes hc) hauction
    rintro k kid ct rfl
    exact hnot k kid ct (called_eq_method hc (by rintro _ _ ⟨⟩))

theorem Stored.taken {b : Bid γ} (h : Stored Q.history b) (ht : Taken env ω Q i x R)
    (hx : ∀ b', accepts Q.state.auction x = some b' → b'.seat ≠ b.seat) : Stored R.history b := by
  obtain ⟨n, hn, hlast⟩ := h
  rw [ht.history]
  refine ⟨n, hn.snoc _, hlast.snoc ?_⟩
  intro hat
  simp only [AcceptsAt, Option.any_eq_true, decide_eq_true_eq] at hat
  obtain ⟨b', hb', hseat⟩ := hat
  exact hx b' hb' hseat

theorem bidsStored_step (hB : BidsStored Q) (ht : Taken env ω Q i x R) (hstep : BidsStep Q x R) :
    BidsStored R := by
  intro seat ct hct
  cases hstep with
  | dropped hbids =>
    rw [hbids] at hct
    cases hct
  | kept hx hbids hkey hsealed =>
    rw [hbids] at hct
    rw [hkey]
    obtain ⟨k, hk, hstored⟩ := hB seat ct hct
    refine ⟨k, hsealed k seat hk, hstored.taken ht ?_⟩
    intro b' hb'
    rw [hx] at hb'
    cases hb'
  | accepted b hx hbuyer hphase hkid hbids hkey hself hsealed =>
    rw [hbids] at hct
    rw [hkey]
    by_cases hseat : seat = b.seat
    · subst hseat
      rw [AList.lookup_insert] at hct
      cases hct
      refine ⟨b.tab, hself, ?_⟩
      rw [← hkid, ht.history]
      exact ⟨_, seen_length hx, noneAfter_length⟩
    · rw [AList.lookup_insert_ne hseat] at hct
      obtain ⟨k, hk, hstored⟩ := hB seat ct hct
      refine ⟨k, hsealed k seat hk, hstored.taken ht ?_⟩
      intro b' hb'
      rw [hx] at hb'
      cases hb'
      exact Ne.symm hseat

theorem bidsStored_register (hB : BidsStored Q) (ht : Taken env ω Q i .register R) :
    BidsStored R := by
  have hauction : R.state.auction = Q.state.auction := by
    rw [ht.state]
    rfl
  intro seat ct hct
  rw [hauction] at hct ⊢
  obtain ⟨k, hk, hstored⟩ := hB seat ct hct
  refine ⟨k, ?_, hstored.taken ht (by rintro b' ⟨⟩)⟩
  unfold SealedBy
  rw [hauction]
  exact hk

end

section

variable {h : List (ι × RelayEvent γ)} {b : Bid γ} {o t n : ℕ}

def SettlesAny (y : ι × RelayEvent γ) : Prop := settles y.2.pre.auction y.2.act = true

theorem StoredBy.snoc (hb : StoredBy h t b) (ht : t ≤ h.length) (y : ι × RelayEvent γ) :
    StoredBy (h ++ [y]) t b := by
  obtain ⟨n, hn, hseen, hnone⟩ := hb
  exact ⟨n, hn, hseen.snoc y, hnone.snoc ht y⟩

theorem Settlement.snoc (hs : Settlement h i o t) (y : ι × RelayEvent γ) :
    Settlement (h ++ [y]) i o t where
  offered := hs.offered.snoc y
  before := hs.before
  current := hs.current.snoc hs.settled.lt.le y
  settled := hs.settled.snoc y

theorem ToldOf.snoc (hs : ToldOf h i o t n) (hn : n ≤ h.length) (y : ι × RelayEvent γ) :
    ToldOf (h ++ [y]) i o t n where
  toSettlement := hs.toSettlement.snoc y
  after := hs.after
  latest := hs.latest.snoc hn y

def Pending (h : List (ι × RelayEvent γ)) (i : ι) (b : Bid γ) : Prop :=
  ∃ o t, Settlement h i o t ∧ Seen h (SettlesBid b) t ∧ StoredBy h t b ∧
    NoneAfter h (Settles i) t ∧ NoneAfter h (TellsAny i) t

theorem Pending.snoc (hp : Pending h i b) {y : ι × RelayEvent γ} (hs : ¬ Settles i y)
    (ht : ¬ TellsAny i y) : Pending (h ++ [y]) i b := by
  obtain ⟨o, t, hsettlement, hbid, hstored, hlast, hsilent⟩ := hp
  exact ⟨o, t, hsettlement.snoc y, hbid.snoc y, hstored.snoc hsettlement.settled.lt.le y,
    hlast.snoc hs, hsilent.snoc ht⟩

def Told (h : List (ι × RelayEvent γ)) (i : ι) (n : ℕ) (b : Bid γ) : Prop :=
  ∃ o t, ToldOf h i o t n ∧ Seen h (SettlesBid b) t ∧ StoredBy h t b ∧
    NoneBetween h (TellsAny i) t n

theorem Told.snoc (ht : Told h i n b) (hn : n ≤ h.length) (y : ι × RelayEvent γ) :
    Told (h ++ [y]) i n b := by
  obtain ⟨o, t, htold, hbid, hstored, hsilent⟩ := ht
  exact ⟨o, t, htold.snoc hn y, hbid.snoc y, hstored.snoc htold.settled.lt.le y,
    hsilent.snoc hn y⟩

theorem Pending.told (hp : Pending h i b) (y : ι × RelayEvent γ) :
    Told (h ++ [y]) i h.length b := by
  obtain ⟨o, t, hsettlement, hbid, hstored, hlast, hsilent⟩ := hp
  refine ⟨o, t, ⟨hsettlement.snoc y, hsettlement.settled.lt, hlast.upto y⟩, hbid.snoc y,
    hstored.snoc hsettlement.settled.lt.le y, hsilent.upto y⟩

def SettledApart (h : List (ι × RelayEvent γ)) : Prop :=
  ∀ t, Seen h SettlesAny t → ∃ o < t, Seen h Offers o ∧ NoneBetween h Offers o t ∧
    NoneBetween h SettlesAny o t

theorem SettledApart.unique {i' : ι} {t' : ℕ} (ha : SettledApart h) (hs : Settlement h i o t)
    (hs' : Settlement h i' o t') : t = t' := by
  have hle : ∀ {i i' : ι} {t t' : ℕ}, Settlement h i o t → Settlement h i' o t' → t' ≤ t := by
    intro i i' t t' hs hs'
    by_contra hlt
    obtain ⟨o', ho', hseen, hcurrent, hnone⟩ := ha t' (hs'.settled.mono fun y hy => hy.2)
    obtain rfl : o' = o := NoneBetween.unique hseen hs'.offered ho' hs'.before hcurrent hs'.current
    exact hnone t hs.before (not_le.mp hlt) (hs.settled.mono fun y hy => hy.2)
  exact le_antisymm (hle hs' hs) (hle hs hs')

end

theorem winnerSeat_settle (a : Auction γ) (accepted : Bool) (clock : String) :
    (a.settle accepted clock).2.winnerSeat < 0 := by
  unfold Auction.settle
  split
  · assumption
  · exact Int.negSucc_lt_zero 0

theorem settle_seat {a : Auction γ} {accepted : Bool} {clock : String}
    (h : 0 ≤ (a.settle accepted clock).1) :
    (a.settle accepted clock).1 = a.winnerSeat ∧ 0 ≤ a.winnerSeat := by
  unfold Auction.settle at h ⊢
  split at h
  · exact absurd (show (0 : ℤ) ≤ -1 from h) (by decide)
  · rename_i hseat
    rw [if_neg hseat]
    exact ⟨rfl, h⟩

section

def OfferOpen (Q : Hub ι γ) : Prop :=
  0 ≤ Q.state.auction.winnerSeat → Q.state.auction.phase = .offer ∧
    Q.state.auction.winnerSeat ∈ Q.state.auction.bids ∧
    ∃ o, Seen Q.history Offers o ∧ NoneAfter Q.history Offers o ∧
      NoneAfter Q.history SettlesAny o

def Holds (Q : Hub ι γ) (i : ι) : Work γ → Prop
  | .settled _ seat => ∃ b, Pending Q.history i b ∧ b.seat = seat ∧
      ∀ k, BuyerAt Q k seat → k = b.tab
  | .telling _ seat winner => ∃ b, Pending Q.history i b ∧ b.seat = seat ∧ b.tab = winner
  | _ => True

variable [DecidableEq ι] {i j : ι} {seat : ℤ}

structure Awards (Q : Hub ι γ) : Prop where
  distinct : DistinctSeats Q.state.auction.peers
  stored : BidsStored Q
  offer : OfferOpen Q
  apart : SettledApart Q.history
  holds : ∀ i id w, Q.stage i = some (id, w) → Holds Q i w
  told : ∀ n i dest seat, Seen Q.history (Tells i dest seat) n →
    ∃ b, Told Q.history i n b ∧ b.tab = dest ∧ b.seat = seat

theorem offer_kept (ht : Taken env ω Q i x R)
    (hoff : ∀ seat price, x ≠ .relay (.method (.offer seat price)))
    (hseat : 0 ≤ R.state.auction.winnerSeat) :
    R.state.auction.winnerSeat = Q.state.auction.winnerSeat ∧
      (Q.state.auction.phase = .offer → R.state.auction.phase = .offer ∧
        R.state.auction.bids = Q.state.auction.bids) := by
  obtain ⟨t, hpart, rfl | ⟨op, hcalled, hstep⟩⟩ := roundStep_taken ht
  · have hfield := RoundPart.mk.inj hpart
    exact ⟨hfield.2.2.2.2.2.1, fun hphase => ⟨hfield.1.trans hphase, hfield.2.2.2.1⟩⟩
  · have hwinner : R.state.auction.winnerSeat = t.winnerSeat := hpart ▸ rfl
    have hphase : R.state.auction.phase = t.phase := hpart ▸ rfl
    have hbids : R.state.auction.bids = t.bids := hpart ▸ rfl
    rw [hwinner] at hseat
    rw [hwinner, hphase, hbids]
    cases hstep with
    | published | cleared | settled => exact absurd (show (0 : ℤ) ≤ -1 from hseat) (by decide)
    | sealed hp hb hbidding =>
      refine ⟨rfl, fun hoffer => ?_⟩
      have hboth : Q.state.auction.phase = .bidding := hbidding
      rw [hoffer] at hboth
      cases hboth
    | refused | kept => exact ⟨rfl, fun hoffer => ⟨hoffer, rfl⟩⟩
    | masked => exact ⟨rfl, fun _ => ⟨rfl, rfl⟩⟩
    | offered seat price =>
      exact (hoff seat price (called_eq_method hcalled (by rintro _ _ ⟨⟩))).elim

theorem offerOpen_step (hO : OfferOpen Q)
    (hg : ∀ seat ∈ offered x, 0 ≤ seat → seat ∈ Q.state.auction.bids)
    (ht : Taken env ω Q i x R) : OfferOpen R := by
  intro hseat
  by_cases hset : ∃ accepted, x = .relay (.settle accepted)
  · obtain ⟨accepted, rfl⟩ := hset
    have hneg : R.state.auction.winnerSeat < 0 := by
      rw [ht.state]
      exact winnerSeat_settle ..
    omega
  by_cases hoff : ∃ seat price, x = .relay (.method (.offer seat price))
  · obtain ⟨seat, price, rfl⟩ := hoff
    have hauction : R.state.auction = Q.state.auction.offer seat price := by
      rw [ht.state]
      rfl
    rw [hauction] at hseat ⊢
    refine ⟨rfl, hg seat rfl hseat, Q.history.length, ?_⟩
    rw [ht.history]
    exact ⟨seen_length rfl, noneAfter_length, noneAfter_length⟩
  · have hnotSet : ∀ accepted, x ≠ .relay (.settle accepted) := fun accepted h => hset ⟨accepted, h⟩
    have hnotOff := fun seat price h => hoff ⟨seat, price, h⟩
    obtain ⟨hwinner, hkept⟩ := offer_kept ht hnotOff hseat
    rw [hwinner] at hseat ⊢
    obtain ⟨hphase, hbid, o, ho, hlast, hopen⟩ := hO hseat
    obtain ⟨hphase', hbids⟩ := hkept hphase
    refine ⟨hphase', by rw [hbids]; exact hbid, o, ?_⟩
    rw [ht.history]
    refine ⟨ho.snoc _, hlast.snoc ?_, hopen.snoc ?_⟩
    · intro hoffers
      unfold Offers offered at hoffers
      split at hoffers
      · rename_i heq
        exact hnotOff _ _ heq
      · cases hoffers
    · intro hsettles
      unfold SettlesAny settles at hsettles
      split at hsettles
      · rename_i heq
        exact hnotSet _ heq
      · cases hsettles

theorem settledApart_step (hA : SettledApart Q.history) (hO : OfferOpen Q)
    (ht : Taken env ω Q i x R) : SettledApart R.history := by
  intro t hseen
  rw [ht.history] at hseen ⊢
  rcases seen_snoc.mp hseen with hold | ⟨rfl, hnew⟩
  · obtain ⟨o, hot, hseen, hcurrent, hnone⟩ := hA t hold
    exact ⟨o, hot, hseen.snoc _, hcurrent.snoc hold.lt.le _, hnone.snoc hold.lt.le _⟩
  · have hseat : 0 ≤ Q.state.auction.winnerSeat := by
      unfold SettlesAny settles at hnew
      split at hnew
      · exact of_decide_eq_true hnew
      · cases hnew
    obtain ⟨-, -, o, ho, hlast, hopen⟩ := hO hseat
    exact ⟨o, ho.lt, ho.snoc _, hlast.upto _, hopen.upto _⟩

theorem distinctSeats_taken (hm : Members Q) (hd : DistinctSeats Q.state.auction.peers)
    (hg : ∀ id ∈ joins x, SeatFree Q.state.auction (.join id)) (ht : Taken env ω Q i x R)
    (hi : Q.stage i = some (id, w)) (hgoes : Goes env id w x (stepSem env ω x Q.state).1 w') :
    DistinctSeats R.state.auction.peers := by
  rw [ht.state, auction_step]
  cases hc : called env x Q.state with
  | none => exact hd
  | some op =>
    refine (distinctSeats_step hd (freshJoin_called hm hi hgoes hc)).mpr ?_
    cases op with
    | join k =>
      obtain rfl := called_eq_method hc (by rintro _ _ ⟨⟩)
      exact hg k rfl
    | _ => trivial

theorem BuyerAt.back {k : String} (h : BuyerAt R k seat) (ht : Taken env ω Q i x R)
    (hjoin : x ≠ .relay (.method (.join k))) : BuyerAt Q k seat := by
  obtain ⟨q, hq, hbuyer, hseat⟩ := h
  obtain ⟨p, hp, hsame⟩ := ht.lookup_back hq hjoin
  exact ⟨p, hp, hsame.role.symm.trans hbuyer, hsame.seat.symm.trans hseat⟩

theorem holds_other {k : String} {v : Work γ} (hW : Holds Q j v) (hg : KeepsSeats Q x)
    (ht : Taken env ω Q i x R) (hj : Q.stage j = some (k, v)) (hji : j ≠ i) : Holds R j v := by
  have hpending : ∀ b, Pending Q.history j b → Pending R.history j b := by
    intro b hb
    rw [ht.history]
    exact hb.snoc (fun h => hji h.1.symm) (fun h => hji h.1.symm)
  cases v with
  | settled m seat =>
    obtain ⟨b, hb, hseat, hwho⟩ := hW
    refine ⟨b, hpending b hb, hseat, fun k' hk' => ?_⟩
    by_cases hjoin : x = .relay (.method (.join k'))
    · -- the seat is not given away while its tab is looked up
      subst hjoin
      obtain ⟨p, hp, hbuyer, hpseat⟩ := hk'
      rw [ht.state] at hp
      have hpeer : p = newPeer Q.state.auction.peers k' :=
        Option.some.inj (hp.symm.trans (AList.lookup_insert _))
      rw [hpeer] at hbuyer hpseat
      rw [(newPeer_buyer hbuyer).1] at hpseat
      have hfree := (hg.2 k' rfl).2 hbuyer j
      rw [hj] at hfree
      simp only [Option.all_some, looksFor, decide_eq_true_eq, ne_eq, Option.some.injEq] at hfree
      exact (hfree hpseat.symm).elim
    · exact hwho k' (hk'.back ht hjoin)
  | telling m seat winner =>
    obtain ⟨b, hb, hrest⟩ := hW
    exact ⟨b, hpending b hb, hrest⟩
  | _ => trivial

theorem peerAtSeat_buyer (hm : Members Q) {listing : List Peer}
    (hlisting : listing.Perm (values Q.state.auction.peers))
    (hne : Auction.peerAtSeat listing seat ≠ "") :
    BuyerAt Q (Auction.peerAtSeat listing seat) seat := by
  unfold Auction.peerAtSeat at hne ⊢
  cases hfind : listing.find? fun p => isBuyer p && p.seat = seat with
  | none =>
    rw [hfind] at hne
    exact (hne rfl).elim
  | some p =>
    have hfound := List.find?_some hfind
    simp only [isBuyer, Bool.and_eq_true, decide_eq_true_eq] at hfound
    obtain ⟨k, hk⟩ := mem_values.mp (hlisting.mem_iff.mp (List.mem_of_find?_eq_some hfind))
    have hid : p.id = k := hm.sound.people.named k p hk
    refine ⟨p, ?_, hfound.1, hfound.2⟩
    change Q.state.auction.peers.lookup p.id = some p
    rw [hid]
    exact hk

theorem holds_sell (hA : Awards Q) {m : Msg γ} {accepted : Bool}
    (ht : Taken env ω Q i (.relay (.settle accepted)) R)
    (hseat : 0 ≤ (Q.state.auction.settle accepted (env.clock Q.state.draws)).1) :
    Holds R i (.settled m (Q.state.auction.settle accepted (env.clock Q.state.draws)).1) := by
  obtain ⟨hwinner, hpos⟩ := settle_seat hseat
  obtain ⟨-, hbid, o, ho, hlast, -⟩ := hA.offer hpos
  obtain ⟨ct, hct⟩ := Option.isSome_iff_exists.mp (AList.lookup_isSome.mpr hbid)
  obtain ⟨k, ⟨p, hp, hbuyer, hpseat, -⟩, n, hn, hstored⟩ := hA.stored _ ct hct
  refine ⟨⟨k, Q.state.auction.winnerSeat, Q.state.auction.keyID, ct⟩, ?_, hwinner.symm, ?_⟩
  · rw [ht.history]
    refine ⟨o, Q.history.length, ⟨ho.snoc _, ho.lt, hlast.upto _, ?_⟩, ?_,
      ⟨n, hn.lt, hn.snoc _, hstored.upto _⟩, noneAfter_length, noneAfter_length⟩
    · exact seen_length ⟨rfl, decide_eq_true hpos⟩
    · exact seen_length ⟨decide_eq_true hpos, rfl, rfl, hct⟩
  · intro k' hk'
    obtain ⟨q, hq, hqbuyer, hqseat⟩ := hk'.back ht (by rintro ⟨⟩)
    exact hA.distinct k' k q p hq hp hqbuyer hbuyer (by rw [hqseat, hpseat, hwinner])

theorem holds_goes (hA : Awards Q) (hm : Members Q) (ht : Taken env ω Q i x R)
    (hi : Q.stage i = some (id, w))
    (hgoes : Goes env id w x (stepSem env ω x Q.state).1 w') : Holds R i w' := by
  cases hgoes with
  | light hw ha => cases w <;> trivial
  | sell _ seat hs => exact holds_sell hA ht hs.1
  | look winner hw =>
    obtain ⟨b, hb, hseat, hwho⟩ := hA.holds i id _ hi
    refine ⟨b, ?_, hseat, (hwho _ (peerAtSeat_buyer hm (ω.perm _ _) hw)).symm⟩
    rw [ht.history]
    exact hb.snoc (fun h => Bool.false_ne_true h.2) (fun h => Bool.false_ne_true h.2)
  | _ => trivial

theorem tells_light {a : EnergyRelay.Action γ} (h : light a = true) : tells (.relay a) = none := by
  cases a with
  | send dest m =>
    refine if_neg fun hm => ?_
    have hlight : lightMsg m = true := h
    simp [lightMsg, hm] at hlight
  | _ => rfl

theorem goes_tells {r : x.Res} (h : Goes env id w x r w') {dest : String}
    (hx : tells x = some (dest, seat)) : ∃ m, w = .telling m seat dest := by
  cases h with
  | tell =>
    cases hx
    exact ⟨_, rfl⟩
  | light _ ha =>
    rw [tells_light ha] at hx
    cases hx
  | _ => cases hx

theorem awards_step {guard : Hub ι γ → ι → Prop} {frames : ι → List (Msg γ)}
    (hrun : Pool.Run (stepSem env ω) guard (Hub.start env frames) Q) (hA : Awards Q)
    (hg : SeatsKept Q i) (hs : Q.step (stepSem env ω) i = some R) : Awards R := by
  have hm := members hrun
  obtain ⟨x, ht, ⟨hi, rfl, hi'⟩ | ⟨id, w, w', hi, hi', hgoes⟩⟩ := step_cases hrun hs
  all_goals have hkeeps := hg _ ht.next
  · refine ⟨by rw [ht.state]; exact hA.distinct, bidsStored_register hA.stored ht,
      offerOpen_step hA.offer hkeeps.1 ht, settledApart_step hA.apart hA.offer ht, ?_, ?_⟩
    · intro j k v hj
      by_cases hji : j = i
      · subst hji
        rw [hi'] at hj
        cases hj
        trivial
      · rw [ht.others j hji] at hj
        exact holds_other (hA.holds j k v hj) hkeeps ht hj hji
    · intro n j dest seat hseen
      rw [ht.history] at hseen ⊢
      rcases seen_snoc.mp hseen with hold | ⟨-, -, hnew⟩
      · obtain ⟨b, htold, hb⟩ := hA.told n j dest seat hold
        exact ⟨b, htold.snoc hold.lt.le _, hb⟩
      · cases hnew
  · refine ⟨distinctSeats_taken hm hA.distinct (fun k hk => (hkeeps.2 k hk).1) ht hi hgoes,
      bidsStored_step hA.stored ht (bidsStep hm ht hi hgoes), offerOpen_step hA.offer hkeeps.1 ht,
      settledApart_step hA.apart hA.offer ht, ?_, ?_⟩
    · intro j k v hj
      by_cases hji : j = i
      · subst hji
        rw [hi'] at hj
        cases hj
        exact holds_goes hA hm ht hi hgoes
      · rw [ht.others j hji] at hj
        exact holds_other (hA.holds j k v hj) hkeeps ht hj hji
    · intro n j dest seat hseen
      rw [ht.history] at hseen ⊢
      rcases seen_snoc.mp hseen with hold | ⟨rfl, hij, hnew⟩
      · obtain ⟨b, htold, hb⟩ := hA.told n j dest seat hold
        exact ⟨b, htold.snoc hold.lt.le _, hb⟩
      · obtain rfl : i = j := hij
        obtain ⟨m, rfl⟩ := goes_tells hgoes hnew
        obtain ⟨b, hpending, hseat, htab⟩ := hA.holds i id _ hi
        exact ⟨b, hpending.told _, htab, hseat⟩

theorem awards_start (env : Env γ) (frames : ι → List (Msg γ)) : Awards (Hub.start env frames) where
  distinct := by
    intro k l p q hp
    cases hp
  stored := bidsStored_start env frames
  offer := fun h => absurd (show (0 : ℤ) ≤ -1 from h) (by decide)
  apart := by
    rintro t ⟨y, hy, -⟩
    cases hy
  holds := by
    intro i id w hi
    cases hi
  told := by
    rintro n i dest seat ⟨y, hy, -⟩
    cases hy

theorem once_of_told (hA : Awards Q) {n n' : ℕ} {i i' : ι} {o t t' : ℕ} {dest dest' : String}
    {seat seat' : ℤ} (hn : Seen Q.history (Tells i dest seat) n)
    (hn' : Seen Q.history (Tells i' dest' seat') n') (ho : ToldOf Q.history i o t n)
    (ho' : ToldOf Q.history i' o t' n') : n ≤ n' := by
  obtain rfl := hA.apart.unique ho.toSettlement ho'.toSettlement
  obtain ⟨y, hy, hy'⟩ := ho.settled.both ho'.settled
  obtain rfl : i = i' := hy.1.symm.trans hy'.1
  obtain ⟨b, ⟨o₁, t₁, htold, -, -, hsilent⟩, -⟩ := hA.told n i dest seat hn
  obtain rfl := NoneBetween.unique htold.settled ho.settled htold.after ho.after htold.latest
    ho.latest
  by_contra hlt
  refine hsilent n' ho'.after (not_le.mp hlt) (hn'.mono ?_)
  rintro y ⟨hyi, htells⟩
  exact ⟨hyi, by rw [htells]; rfl⟩

end

/-- In runs that keep to the condition the tab that is told it won is the one whose bid the settled
seat held, and every offer has at most one tab told. -/
theorem right_tab_told {ι : Type} [DecidableEq ι] (env : Env γ) (ω : PeerOrder)
    (frames : ι → List (Msg γ)) {Q : Hub ι γ}
    (hrun : Pool.Run (stepSem env ω) SeatsKept (Hub.start env frames) Q) :
    RightTabTold Q.history := by
  have hA : Awards Q := by
    induction hrun with
    | refl => exact awards_start ..
    | tail hrun hg hs ih => exact awards_step hrun ih hg hs
  constructor
  · intro n i dest seat hn
    obtain ⟨b, ⟨o, t, htold, hbid, hstored, -⟩, htab, hseat⟩ := hA.told n i dest seat hn
    exact ⟨o, t, b, htold, htab, hseat, hbid, hstored⟩
  · intro n n' i i' dest dest' seat seat' o t t' hn hn' ho ho'
    exact le_antisymm (once_of_told hA hn hn' ho ho') (once_of_told hA hn' hn ho' ho)

section

variable [DecidableEq ι] [Fintype ι]

instance (Q : Hub ι γ) (x : Step γ) : Decidable (KeepsSeats Q x) :=
  inferInstanceAs (Decidable ((∀ _ ∈ _, _ → _) ∧ (∀ _ ∈ _, _ ∧ (_ → ∀ _, _))))

instance (Q : Hub ι γ) (i : ι) : Decidable (SeatsKept Q i) :=
  inferInstanceAs (Decidable (∀ x ∈ Q.next i, KeepsSeats Q x))

instance (i : ι) (dest : String) (seat : ℤ) :
    DecidablePred (Tells i dest seat : ι × RelayEvent γ → Prop) :=
  fun y => inferInstanceAs (Decidable (y.1 = i ∧ tells y.2.act = some (dest, seat)))

end

def seatEnv : Env ℕ := ⟨fun _ => "", fun seats => seats.map Int.toNat⟩

def sellerFrames (seat : ℤ) : List (Msg ℕ) :=
  [{ type := .keys, blob := [5], note := [6] }, { type := .offer, seat := seat, price := 7 },
    { type := .settle, ok := true, price := 7 }]

def buyerFrames : List (Msg ℕ) :=
  [{ type := .bid, blob := [5, 9], keyID := 1 }, { type := .masks, blobs := [[1]] }]

def saleFrames : Tab → List (Msg ℕ)
  | .first => sellerFrames 0
  | .second => buyerFrames
  | _ => []

def saleSchedule : List Tab :=
  turns [(.first, 5), (.second, 6), (.first, 12), (.second, 18), (.first, 10)]

def saleRun : Hub Tab ℕ :=
  (Hub.start seatEnv saleFrames).runSchedule (stepSem seatEnv .listed) saleSchedule

theorem right_tab_told_sale :
    RightTabTold saleRun.history ∧ Seen saleRun.history (Tells .first "p2" 0) 50 :=
  ⟨right_tab_told seatEnv .listed saleFrames (Pool.Guarded.run _ (by decide +kernel)),
    by decide +kernel⟩

def lateFrames : Tab → List (Msg ℕ)
  | .first => sellerFrames 1
  | .third => buyerFrames
  | _ => []

def lateSchedule : List Tab :=
  turns [(.first, 5), (.second, 6), (.third, 7), (.second, 6), (.first, 12), (.third, 18),
    (.first, 6), (.fourth, 7), (.first, 4)]

def lateRun : Hub Tab ℕ :=
  (Hub.start seatEnv lateFrames).runSchedule (stepSem seatEnv .listed) lateSchedule

/-- The seller was handed the one bid with its seat and offers to that seat; the tab that is
told it won never had a bid accepted. -/
theorem bystander_told :
    Pool.Run (stepSem seatEnv .listed) (fun _ _ => True) (Hub.start seatEnv lateFrames) lateRun ∧
      ("p1", masksMsg seatEnv [[1]] ([[5, 9]], [1])) ∈ lateRun.state.sent ∧
      ¬ RightTabTold lateRun.history := by
  have htold : Seen lateRun.history (Tells .first "p4" 1) 70 := by decide +kernel
  have hnone : ∀ y ∈ lateRun.history,
      (accepts y.2.pre.auction y.2.act).all (fun b => b.tab ≠ "p4") = true := by decide +kernel
  refine ⟨Pool.runSchedule_run _ _ _, by decide +kernel, fun h => ?_⟩
  obtain ⟨o, t, b, -, htab, -, -, n, -, ⟨y, hy, haccepts⟩, -⟩ := h.right 70 .first "p4" 1 htold
  have hb := hnone y (List.mem_of_getElem? hy)
  rw [show accepts y.2.pre.auction y.2.act = some b from haccepts] at hb
  simp [htab] at hb

end EnergySettlement
