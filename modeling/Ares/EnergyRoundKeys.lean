import Ares.EnergyRelayConnections

/-! The relay numbers the key pair of a round, pushes the public key with its number to the tabs and
the evaluation key to the evaluator, and takes a bid only under the current number. -/
namespace EnergyRoundKeys

open InterleavedPrograms FiniteMaps EnergyAuction EnergyAuction.Auction EnergyRelay
  EnergyRelayConnections List

variable {γ : Type} {ι : Type} {env : Env γ} {ω : PeerOrder} {Q R : Hub ι γ} {i : ι} {x : Step γ}
  {w w' : Work γ}

structure RoundPart (γ : Type) where
  phase : Phase
  pubKey : List γ
  evalKey : List γ
  bids : FinMap ℤ (List γ)
  keyID : ℤ
  winnerSeat : ℤ
  priceCt : ℚ

def roundPart (a : Auction γ) : RoundPart γ :=
  ⟨a.phase, a.pubKey, a.evalKey, a.bids, a.keyID, a.winnerSeat, a.priceCt⟩

def RoundPart.cleared (t : RoundPart γ) (phase : Phase) : RoundPart γ :=
  ⟨phase, [], [], ∅, t.keyID, -1, 0⟩

def clearsRound (peers : FinMap String Peer) : Op γ → Bool
  | .leave id => (peers.lookup id).any endsRound
  | .reset | .setHour _ | .newEpoch => true
  | _ => false

def onRound : Op γ → Bool
  | .publishKeys .. | .submitBid .. | .setMasks _ | .offer .. => true
  | _ => false

inductive RoundStep (peers : FinMap String Peer) (t : RoundPart γ) : Op γ → RoundPart γ → Prop where
  | published (pk ek) : RoundStep peers t (.publishKeys pk ek)
      ⟨.bidding, pk, ek, ∅, t.keyID + 1, -1, t.priceCt⟩
  | sealed {id p ct phase} (hp : peers.lookup id = some p) (hb : p.role = .buyer)
      (hphase : t.phase = .bidding) (hphase' : phase = .bidding ∨ phase = .evaluating) :
      RoundStep peers t (.submitBid id t.keyID ct)
        { t with bids := t.bids.insert p.seat ct, phase := phase }
  | refused {id keyID ct} : RoundStep peers t (.submitBid id keyID ct) t
  | masked (masks) : RoundStep peers t (.setMasks masks) { t with phase := .offer }
  | offered (seat price) : RoundStep peers t (.offer seat price)
      { t with winnerSeat := seat, priceCt := price, phase := .offer }
  | settled {accepted clock} (h : 0 ≤ t.winnerSeat) :
      RoundStep peers t (.settle accepted clock) (t.cleared .settled)
  | cleared {op} (h : clearsRound peers op = true) : RoundStep peers t op (t.cleared .waiting)
  | kept {op} (h : clearsRound peers op = false) (hop : onRound op = false) : RoundStep peers t op t

theorem roundStep_leave (a : Auction γ) (id : String) :
    RoundStep a.peers (roundPart a) (.leave id) (roundPart (a.leave id)) := by
  have habort : ∀ b : Auction γ,
      roundPart (if b.epoch = .audit ∧ id ∈ b.epochParty then b.abortAudit else b) =
        roundPart b := by
    intro b
    split <;> rfl
  simp only [Auction.leave, habort]
  cases h : (a.peers.lookup id).any endsRound with
  | true => exact .cleared h
  | false => exact .kept h rfl

theorem roundStep_submitBid (a : Auction γ) (id : String) (keyID : ℤ) (ct : List γ) :
    RoundStep a.peers (roundPart a) (.submitBid id keyID ct)
      (roundPart (a.submitBid id keyID ct).2) := by
  unfold Auction.submitBid
  split
  · exact .refused
  · rename_i p hp
    dsimp only
    split_ifs with hrole hkey hsize
    · exact .refused
    · exact .refused
    all_goals
      obtain ⟨hb, hphase⟩ : p.role = .buyer ∧ a.phase = .bidding := by
        simpa using hrole
      obtain rfl : keyID = a.keyID := not_not.mp hkey
    · exact .sealed hp hb hphase (.inl hphase)
    · exact .sealed hp hb hphase (.inr rfl)

theorem roundStep (op : Op γ) (a : Auction γ) :
    RoundStep a.peers (roundPart a) op (roundPart (op.apply a)) := by
  cases op with
  | leave id => exact roundStep_leave a id
  | publishKeys pk ek => exact .published ..
  | submitBid id keyID ct => exact roundStep_submitBid ..
  | setMasks masks => exact .masked masks
  | offer seat price => exact .offered ..
  | settle accepted clock =>
    simp only [Op.apply, Op.run, Auction.settle]
    split
    · exact .kept rfl rfl
    · rename_i h
      exact RoundStep.settled (show 0 ≤ a.winnerSeat from not_lt.mp h)
  | reset | setHour _ | newEpoch => exact .cleared rfl
  | startEpochChain =>
    simp only [Op.apply, Op.run, Auction.startEpochChain]
    split <;> exact .kept rfl rfl
  | advanceEpochChain pk =>
    simp only [Op.apply, Op.run, Auction.advanceEpochChain]
    split <;> exact .kept rfl rfl
  | submitEpochTotal id ct =>
    simp only [Op.apply, Op.run, Auction.submitEpochTotal]
    split <;> exact .kept rfl rfl
  | _ => exact .kept rfl rfl

theorem roundStep_taken [DecidableEq ι] (ht : Taken env ω Q i x R) :
    ∃ t, roundPart R.state.auction = t ∧
      (t = roundPart Q.state.auction ∨ ∃ op, called env x Q.state = some op ∧
        RoundStep Q.state.auction.peers (roundPart Q.state.auction) op t) := by
  rw [ht.state, auction_step]
  cases hc : called env x Q.state with
  | none => exact ⟨_, rfl, .inl rfl⟩
  | some op => exact ⟨_, rfl, .inr ⟨op, rfl, roundStep op Q.state.auction⟩⟩

section

def PublishedAs (h : List (ι × RelayEvent γ)) (n : ℤ) (pk ek : List γ) : Prop :=
  ∃ y ∈ h, y.2.act = .relay (.method (.publishKeys pk ek)) ∧ y.2.pre.auction.keyID + 1 = n

variable {h : List (ι × RelayEvent γ)} {y : ι × RelayEvent γ} {n : ℤ} {pk ek : List γ}

theorem PublishedAs.snoc (hp : PublishedAs h n pk ek) (y : ι × RelayEvent γ) :
    PublishedAs (h ++ [y]) n pk ek := by
  obtain ⟨z, hz, hact, hn⟩ := hp
  exact ⟨z, mem_append_left _ hz, hact, hn⟩

theorem publishedAs_snoc : PublishedAs (h ++ [y]) n pk ek ↔ PublishedAs h n pk ek ∨
    (y.2.act = .relay (.method (.publishKeys pk ek)) ∧ y.2.pre.auction.keyID + 1 = n) := by
  constructor
  · rintro ⟨z, hz, hact, hn⟩
    rcases mem_append.mp hz with hz | hz
    · exact .inl ⟨z, hz, hact, hn⟩
    · rw [mem_singleton.mp hz] at hact hn
      exact .inr ⟨hact, hn⟩
  · rintro (hp | ⟨hact, hn⟩)
    · exact hp.snoc y
    · exact ⟨y, by simp, hact, hn⟩

structure Numbers (Q : Hub ι γ) : Prop where
  le : ∀ n pk ek, PublishedAs Q.history n pk ek → n ≤ Q.state.auction.keyID
  unique : ∀ n pk ek pk' ek', PublishedAs Q.history n pk ek → PublishedAs Q.history n pk' ek' →
    pk = pk' ∧ ek = ek'
  bidding : Q.state.auction.phase = .bidding →
    PublishedAs Q.history Q.state.auction.keyID Q.state.auction.pubKey Q.state.auction.evalKey

theorem numbers_start (env : Env γ) (frames : ι → List (Msg γ)) :
    Numbers (Hub.start env frames) where
  le := by
    rintro n pk ek ⟨y, hy, -⟩
    cases hy
  unique := by
    rintro n pk ek pk' ek' ⟨y, hy, -⟩
    cases hy
  bidding := by rintro ⟨⟩

variable [DecidableEq ι]

theorem keys_of_not_published (ht : Taken env ω Q i x R)
    (hx : ∀ pk ek, x ≠ .relay (.method (.publishKeys pk ek))) :
    R.state.auction.keyID = Q.state.auction.keyID ∧
      (R.state.auction.phase = .bidding → Q.state.auction.phase = .bidding ∧
        R.state.auction.pubKey = Q.state.auction.pubKey ∧
        R.state.auction.evalKey = Q.state.auction.evalKey) := by
  obtain ⟨t, hpart, rfl | ⟨op, hcalled, hstep⟩⟩ := roundStep_taken ht
  · have hfield := RoundPart.mk.inj hpart
    exact ⟨hfield.2.2.2.2.1, fun hb => ⟨hfield.1 ▸ hb, hfield.2.1, hfield.2.2.1⟩⟩
  · have hkey : R.state.auction.keyID = t.keyID := hpart ▸ rfl
    have hphase : R.state.auction.phase = t.phase := hpart ▸ rfl
    have hpub : R.state.auction.pubKey = t.pubKey := hpart ▸ rfl
    have heval : R.state.auction.evalKey = t.evalKey := hpart ▸ rfl
    rw [hkey, hphase, hpub, heval]
    cases hstep with
    | published pk ek => exact (hx pk ek (called_eq_method hcalled (by rintro _ _ ⟨⟩))).elim
    | sealed hp hb hbidding => exact ⟨rfl, fun _ => ⟨hbidding, rfl, rfl⟩⟩
    | refused | kept => exact ⟨rfl, fun hb => ⟨hb, rfl, rfl⟩⟩
    | masked | offered | settled | cleared => exact ⟨rfl, by rintro ⟨⟩⟩

theorem numbers_step (hN : Numbers Q) (ht : Taken env ω Q i x R) : Numbers R := by
  by_cases hx : ∃ pk ek, x = .relay (.method (.publishKeys pk ek))
  · obtain ⟨pk, ek, rfl⟩ := hx
    have hkey : R.state.auction.keyID = Q.state.auction.keyID + 1 := by rw [ht.state]; rfl
    have hcases : ∀ n pk' ek', PublishedAs R.history n pk' ek' →
        (PublishedAs Q.history n pk' ek' ∧ n ≤ Q.state.auction.keyID) ∨
          (n = Q.state.auction.keyID + 1 ∧ pk' = pk ∧ ek' = ek) := by
      intro n pk' ek' hp
      rw [ht.history] at hp
      rcases publishedAs_snoc.mp hp with hp | ⟨hact, hn⟩
      · exact .inl ⟨hp, hN.le n pk' ek' hp⟩
      · cases hact
        exact .inr ⟨hn.symm, rfl, rfl⟩
    refine ⟨?_, ?_, ?_⟩
    · intro n pk' ek' hp
      rcases hcases n pk' ek' hp with ⟨-, hn⟩ | ⟨hn, -, -⟩ <;> omega
    · intro n pk₁ ek₁ pk₂ ek₂ h₁ h₂
      rcases hcases n pk₁ ek₁ h₁ with ⟨h₁, hn₁⟩ | ⟨hn₁, rfl, rfl⟩ <;>
        rcases hcases n pk₂ ek₂ h₂ with ⟨h₂, hn₂⟩ | ⟨hn₂, rfl, rfl⟩
      · exact hN.unique n _ _ _ _ h₁ h₂
      · omega
      · omega
      · exact ⟨rfl, rfl⟩
    · intro _
      rw [hkey, ht.history, ht.state]
      exact publishedAs_snoc.mpr (.inr ⟨rfl, rfl⟩)
  · have hnot := fun pk ek heq => hx ⟨pk, ek, heq⟩
    obtain ⟨hkey, hbidding⟩ := keys_of_not_published ht hnot
    have hpub : ∀ {n pk ek}, PublishedAs R.history n pk ek ↔ PublishedAs Q.history n pk ek := by
      intro n pk ek
      rw [ht.history, publishedAs_snoc]
      exact or_iff_left fun h => hnot pk ek h.1
    refine ⟨?_, ?_, ?_⟩
    · intro n pk ek hp
      rw [hkey]
      exact hN.le n pk ek (hpub.mp hp)
    · intro n pk ek pk' ek' hp hp'
      exact hN.unique n pk ek pk' ek' (hpub.mp hp) (hpub.mp hp')
    · intro hb
      obtain ⟨hb, hpk, hek⟩ := hbidding hb
      rw [hkey, hpk, hek, hpub]
      exact hN.bidding hb

end

section

variable [DecidableEq ι] {role : Role} {k k' : String}

def HasRole (Q : Hub ι γ) (role : Role) (k : String) : Prop :=
  ∃ p, Q.state.auction.peers.lookup k = some p ∧ p.role = role

theorem HasRole.step (h : HasRole Q role k) (ht : Taken env ω Q i x R)
    (hjoin : x ≠ .relay (.method (.join k))) (hleave : x ≠ .relay (.method (.leave k))) :
    HasRole R role k := by
  obtain ⟨p, hp, hrole⟩ := h
  obtain ⟨q, hq, hsame⟩ := ht.lookup hp hjoin hleave
  exact ⟨q, hq, hsame.role.trans hrole⟩

theorem HasRole.back (h : HasRole R role k) (ht : Taken env ω Q i x R)
    (hjoin : x ≠ .relay (.method (.join k))) : HasRole Q role k := by
  obtain ⟨q, hq, hrole⟩ := h
  obtain ⟨p, hp, hsame⟩ := ht.lookup_back hq hjoin
  exact ⟨p, hp, hsame.role.symm.trans hrole⟩

theorem seller_unique (hm : Members Q) (h : HasRole Q .seller k) (h' : HasRole Q .seller k') :
    k = k' := by
  obtain ⟨p, hp, hrole⟩ := h
  obtain ⟨p', hp', hrole'⟩ := h'
  exact hm.sound.people.seller_unique hp hp' hrole hrole'

end

section

variable {id k : String} {r : x.Res} (h : Goes env id w x r w')

include h

theorem goes_join (hx : x = .relay (.method (.join k))) : k = id ∧ w = .joining := by
  cases h.presence with
  | join hw hx' =>
    cases hx'.symm.trans hx
    exact ⟨rfl, hw⟩
  | deregister hw hx' | leave hw hx' => cases hx'.symm.trans hx
  | stay hs =>
    rw [hx] at hs
    cases hs

theorem goes_leave (hx : x = .relay (.method (.leave k))) : k = id ∧ w = .leaving := by
  cases h.presence with
  | join hw hx' | deregister hw hx' => cases hx'.symm.trans hx
  | leave hw hx' =>
    cases hx'.symm.trans hx
    exact ⟨rfl, hw⟩
  | stay hs =>
    rw [hx] at hs
    cases hs

end

theorem freshJoin_called [DecidableEq ι] {Q : Hub ι γ} {id : String} (hm : Members Q)
    (hi : Q.stage i = some (id, w))
    (hgoes : Goes env id w x (stepSem env ω x Q.state).1 w') {op : Op γ}
    (hc : called env x Q.state = some op) : EnergyAuctionRounds.FreshJoin Q.state.auction op := by
  cases op with
  | join k =>
    obtain ⟨rfl, rfl⟩ := goes_join hgoes (called_eq_method hc (by rintro _ _ ⟨⟩))
    change k ∉ Q.state.auction.peers
    rw [hm.seated, hm.has_self hi]
    exact Bool.false_ne_true
  | _ => trivial

section

variable [DecidableEq ι] (seals : List γ → List γ → Prop)

def HonestFrame (Q : Hub ι γ) (id : String) (m : Msg γ) : Prop :=
  (m.type = .keys → HasRole Q .seller id) ∧
    (m.type = .bid → HasRole Q .buyer id →
      ∃ pk, (id, pubkeyMsg pk m.keyID) ∈ Q.state.sent ∧ seals m.blob pk)

/-- What the tabs keep to: a `keys` frame is the seated seller's, and a buyer's bid is
sealed under the key that came to it with the number the bid carries. `seals ct pk` is
that `ct` is sealed under `pk`. -/
def Honest (Q : Hub ι γ) (i : ι) : Prop :=
  ∀ m, Q.next i = some (.read m) → ∀ place ∈ Q.stage i, HonestFrame seals Q place.1 m

def Trusted (Q : Hub ι γ) (id : String) : Work γ → Prop
  | .opened m => (m.type = .keys → HasRole Q .seller id) ∧
      (m.type = .bid → HasRole Q .buyer id →
        ∃ pk ek, PublishedAs Q.history m.keyID pk ek ∧ seals m.blob pk)
  | .published pk ek => HasRole Q .seller id ∧ PublishedAs Q.history Q.state.auction.keyID pk ek
  | .numbered pk ek kid | .pushing pk ek kid _ => PublishedAs Q.history kid pk ek
  | .collected bids | .evaluating bids _ => ∃ pk, ∀ ct ∈ bids.1, seals ct pk
  | _ => True

structure Sealed (Q : Hub ι γ) : Prop where
  numbers : Numbers Q
  trusted : ∀ i id w, Q.stage i = some (id, w) → Trusted seals Q id w
  sent : ∀ dest m, (dest, m) ∈ Q.state.sent → m.type = .pubkey →
    ∃ ek, PublishedAs Q.history m.keyID m.blob ek
  bids : ∀ seat ct, Q.state.auction.bids.lookup seat = some ct → seals ct Q.state.auction.pubKey
  evaluate : ∀ y ∈ Q.history, ∀ dest m, y.2.act = .relay (.send dest m) → m.type = .evaluate →
    ∃ pk, ∀ ct ∈ m.blobs, seals ct pk

variable {seals} {i j : ι} {id : String}

theorem PublishedAs.taken {n : ℤ} {pk ek : List γ} (hp : PublishedAs Q.history n pk ek)
    (ht : Taken env ω Q i x R) : PublishedAs R.history n pk ek := by
  rw [ht.history]
  exact hp.snoc _

theorem Trusted.stay (hw : Trusted seals Q id w) (ht : Taken env ω Q i x R)
    (hjoin : x ≠ .relay (.method (.join id))) (hleave : x ≠ .relay (.method (.leave id)))
    (hpublish : ∀ pk ek, w = .published pk ek →
      ∀ pk' ek', x ≠ .relay (.method (.publishKeys pk' ek'))) :
    Trusted seals R id w := by
  cases w with
  | opened m =>
    refine ⟨fun hm => (hw.1 hm).step ht hjoin hleave, fun hm hbuyer => ?_⟩
    obtain ⟨pk, ek, hp, hseals⟩ := hw.2 hm (hbuyer.back ht hjoin)
    exact ⟨pk, ek, hp.taken ht, hseals⟩
  | published pk ek =>
    obtain ⟨hkey, -⟩ := keys_of_not_published ht (hpublish pk ek rfl)
    refine ⟨hw.1.step ht hjoin hleave, ?_⟩
    rw [hkey]
    exact hw.2.taken ht
  | numbered pk ek kid | pushing pk ek kid ids => exact PublishedAs.taken hw ht
  | collected bids | evaluating bids ev => exact hw
  | _ => trivial

theorem sealed_orderedBids (hS : Sealed seals Q) :
    ∀ ct ∈ Q.state.auction.orderedBids.1, seals ct Q.state.auction.pubKey := by
  intro ct hct
  simp only [orderedBids, mem_filterMap] at hct
  obtain ⟨seat, -, hlookup⟩ := hct
  exact hS.bids seat ct hlookup

theorem trusted_goes (hS : Sealed seals Q) (hg : Honest seals Q i) (ht : Taken env ω Q i x R)
    (hi : Q.stage i = some (id, w))
    (hgoes : Goes env id w x (stepSem env ω x Q.state).1 w') : Trusted seals R id w' := by
  have hw := hS.trusted i id w hi
  cases hgoes with
  | light hw' ha =>
    refine hw.stay ht ?_ ?_ ?_
    · rintro ⟨⟩
      cases ha
    · rintro ⟨⟩
      cases ha
    · rintro _ _ _ _ _ ⟨⟩
      cases ha
  | read hm =>
    rename_i m a
    obtain ⟨hkeys, hbid⟩ := hg m ht.next _ hi
    refine ⟨fun hm => (hkeys hm).step ht (by rintro ⟨⟩) (by rintro ⟨⟩), fun hm hbuyer => ?_⟩
    obtain ⟨pk, hsent, hseals⟩ := hbid hm (hbuyer.back ht (by rintro ⟨⟩))
    obtain ⟨ek, hp⟩ := hS.sent id _ hsent rfl
    exact ⟨pk, ek, PublishedAs.taken hp ht, hseals⟩
  | publish hm =>
    refine ⟨(hw.1 hm).step ht (by rintro ⟨⟩) (by rintro ⟨⟩), ?_⟩
    rw [ht.history, ht.state]
    exact publishedAs_snoc.mpr (.inr ⟨rfl, rfl⟩)
  | number => exact PublishedAs.taken hw.2 ht
  | list | push => exact PublishedAs.taken hw ht
  | collect => exact ⟨_, sealed_orderedBids hS⟩
  | pick => exact hw
  | _ => trivial

theorem sent_step (ht : Taken env ω Q i x R) {dest : String} {m : Msg γ}
    (h : (dest, m) ∈ R.state.sent) : (dest, m) ∈ Q.state.sent ∨ x = .relay (.send dest m) := by
  rw [ht.state] at h
  cases x with
  | register | read m => exact .inl h
  | relay a =>
    cases a with
    | send dest' m' =>
      change (dest, m) ∈ (Q.state.deliver dest' m').sent at h
      unfold RelayState.deliver at h
      split at h
      · rcases mem_append.mp h with h | h
        · exact .inl h
        · cases mem_singleton.mp h
          exact .inr rfl
      · exact .inl h
    | _ => exact .inl h

theorem lightMsg_of_light {a : EnergyRelay.Action γ} {dest : String} {m : Msg γ}
    (h : light a = true) (ha : Step.relay a = .relay (.send dest m)) : lightMsg m = true := by
  cases ha
  exact h

section

variable {r : x.Res} (h : Goes env id w x r w')

include h

theorem goes_pubkey {dest : String} {m : Msg γ} (hx : x = .relay (.send dest m))
    (hm : m.type = .pubkey) :
    ∃ pk ek kid ids, w = .pushing pk ek kid (dest :: ids) ∧ m = pubkeyMsg pk kid := by
  cases h with
  | push =>
    cases hx
    exact ⟨_, _, _, _, rfl, rfl⟩
  | light _ ha =>
    have hlight := lightMsg_of_light ha hx
    simp [lightMsg, hm] at hlight
  | _ => cases hx <;> cases hm

theorem goes_evaluate {dest : String} {m : Msg γ} (hx : x = .relay (.send dest m))
    (hm : m.type = .evaluate) :
    ∃ bids ev, w = .evaluating bids ev ∧ dest = ev.id ∧ m = evaluateMsg env bids := by
  cases h with
  | evaluate =>
    cases hx
    exact ⟨_, _, rfl, rfl, rfl⟩
  | light _ ha =>
    have hlight := lightMsg_of_light ha hx
    simp [lightMsg, hm] at hlight
  | _ => cases hx <;> cases hm

theorem goes_publish {pk ek : List γ} (hx : x = .relay (.method (.publishKeys pk ek))) :
    ∃ m, w = .opened m ∧ m.type = .keys := by
  cases h with
  | publish hm => exact ⟨_, rfl, hm⟩
  | light _ ha =>
    cases hx
    cases ha
  | call _ hop =>
    cases hx
    cases hop
  | _ => cases hx

theorem goes_submitBid {k : String} {kid : ℤ} {ct : List γ}
    (hx : x = .relay (.method (.submitBid k kid ct))) :
    ∃ m, w = .opened m ∧ m.type = .bid ∧ k = id ∧ kid = m.keyID ∧ ct = m.blob := by
  cases h with
  | bid hm | complete hm =>
    cases hx
    exact ⟨_, rfl, hm, rfl, rfl, rfl⟩
  | light _ ha =>
    cases hx
    cases ha
  | call _ hop =>
    cases hx
    cases hop
  | _ => cases hx

end

theorem bids_of_not_bid (ht : Taken env ω Q i x R)
    (hx : ∀ k kid ct, x ≠ .relay (.method (.submitBid k kid ct))) :
    R.state.auction.bids = ∅ ∨ (R.state.auction.bids = Q.state.auction.bids ∧
      R.state.auction.pubKey = Q.state.auction.pubKey) := by
  have hbids : R.state.auction.bids = (roundPart R.state.auction).bids := rfl
  have hkey : R.state.auction.pubKey = (roundPart R.state.auction).pubKey := rfl
  rw [hbids, hkey]
  obtain ⟨t, hpart, rfl | ⟨op, hcalled, hstep⟩⟩ := roundStep_taken ht
  · rw [hpart]
    exact .inr ⟨rfl, rfl⟩
  · rw [hpart]
    cases hstep with
    | published | settled | cleared => exact .inl rfl
    | sealed | refused => exact (hx _ _ _ (called_eq_method hcalled (by rintro _ _ ⟨⟩))).elim
    | masked | offered | kept => exact .inr ⟨rfl, rfl⟩

theorem bids_of_bid {k : String} {kid : ℤ} {ct : List γ}
    (ht : Taken env ω Q i (.relay (.method (.submitBid k kid ct))) R) :
    R.state.auction.bids = Q.state.auction.bids ∧ R.state.auction.pubKey = Q.state.auction.pubKey ∨
      ∃ p, Q.state.auction.peers.lookup k = some p ∧ p.role = .buyer ∧
        Q.state.auction.phase = .bidding ∧ kid = Q.state.auction.keyID ∧
        R.state.auction.bids = Q.state.auction.bids.insert p.seat ct ∧
        R.state.auction.pubKey = Q.state.auction.pubKey := by
  have hbids : R.state.auction.bids = (roundPart R.state.auction).bids := rfl
  have hkey : R.state.auction.pubKey = (roundPart R.state.auction).pubKey := rfl
  have hstate : roundPart R.state.auction =
      roundPart ((Op.submitBid k kid ct).apply Q.state.auction) := by
    rw [ht.state]
    rfl
  rw [hbids, hkey, hstate]
  have hstep := roundStep (.submitBid k kid ct) Q.state.auction
  generalize roundPart ((Op.submitBid k kid ct).apply Q.state.auction) = t at hstep
  cases hstep with
  | sealed hp hb hphase => exact .inr ⟨_, hp, hb, hphase, rfl, rfl, rfl⟩
  | refused => exact .inl ⟨rfl, rfl⟩
  | cleared h => cases h
  | kept _ hop => cases hop

theorem bids_step (hS : Sealed seals Q) (ht : Taken env ω Q i x R) (hi : Q.stage i = some (id, w))
    (hgoes : Goes env id w x (stepSem env ω x Q.state).1 w') (seat : ℤ) (ct : List γ)
    (hct : R.state.auction.bids.lookup seat = some ct) : seals ct R.state.auction.pubKey := by
  by_cases hx : ∃ k kid ct, x = .relay (.method (.submitBid k kid ct))
  · obtain ⟨k, kid, ct', rfl⟩ := hx
    obtain ⟨m, rfl, hm, rfl, rfl, rfl⟩ := goes_submitBid hgoes rfl
    rcases bids_of_bid ht with ⟨hbids, hkey⟩ | ⟨p, hp, hb, hphase, hkid, hbids, hkey⟩
    · rw [hbids] at hct
      rw [hkey]
      exact hS.bids seat ct hct
    · rw [hkey]
      rw [hbids] at hct
      by_cases hseat : seat = p.seat
      · subst hseat
        rw [AList.lookup_insert] at hct
        cases hct
        obtain ⟨pk, ek, hpub, hseals⟩ := (hS.trusted i k _ hi).2 hm ⟨p, hp, hb⟩
        rw [hkid] at hpub
        rw [← (hS.numbers.unique _ _ _ _ _ hpub (hS.numbers.bidding hphase)).1]
        exact hseals
      · rw [AList.lookup_insert_ne hseat] at hct
        exact hS.bids seat ct hct
  · have hnot := fun k kid ct heq => hx ⟨k, kid, ct, heq⟩
    rcases bids_of_not_bid ht hnot with hbids | ⟨hbids, hkey⟩
    · rw [hbids] at hct
      cases hct
    · rw [hbids] at hct
      rw [hkey]
      exact hS.bids seat ct hct

theorem sealed_start (env : Env γ) (frames : ι → List (Msg γ)) :
    Sealed seals (Hub.start env frames) where
  numbers := numbers_start env frames
  trusted := by
    intro i id w hi
    cases hi
  sent := by
    intro dest m h
    cases h
  bids := by
    intro seat ct hct
    cases hct
  evaluate := by
    intro y hy
    cases hy

section

variable {guard : Hub ι γ → ι → Prop} {frames : ι → List (Msg γ)}
  (hrun : Pool.Run (stepSem env ω) guard (Hub.start env frames) Q) (hS : Sealed seals Q)

include hrun hS

theorem trusted_other {k : String} {v : Work γ} (ht : Taken env ω Q i x R)
    (hi : Q.stage i = some (id, w)) (hgoes : Goes env id w x (stepSem env ω x Q.state).1 w')
    (hj : Q.stage j = some (k, v)) (hji : j ≠ i) : Trusted seals R k v := by
  have hmem := members hrun
  have hk : k ≠ id := by
    rintro rfl
    exact hji (hmem.distinct j i k v w hj hi)
  refine (hS.trusted j k v hj).stay ht ?_ ?_ ?_
  · intro hx
    exact hk (goes_join hgoes hx).1
  · intro hx
    exact hk (goes_leave hgoes hx).1
  · rintro pk ek rfl pk' ek' rfl
    -- keys are the seller's, and there is one seller
    obtain ⟨m, rfl, hm⟩ := goes_publish hgoes rfl
    exact hk (seller_unique hmem (hS.trusted j k _ hj).1 ((hS.trusted i id _ hi).1 hm))

theorem sealed_step (hg : Honest seals Q i) (hs : Q.step (stepSem env ω) i = some R) :
    Sealed seals R := by
  obtain ⟨x, ht, ⟨hi, rfl, hi'⟩ | ⟨id, w, w', hi, hi', hgoes⟩⟩ := step_cases hrun hs
  · have hstate := ht.state
    refine ⟨numbers_step hS.numbers ht, ?_, ?_, ?_, ?_⟩
    · intro j k v hj
      by_cases hji : j = i
      · subst hji
        rw [hi'] at hj
        cases hj
        trivial
      · rw [ht.others j hji] at hj
        exact (hS.trusted j k v hj).stay ht (by rintro ⟨⟩) (by rintro ⟨⟩)
          (by rintro _ _ _ _ _ ⟨⟩)
    · intro dest m hsent hm
      rw [hstate] at hsent
      obtain ⟨ek, hp⟩ := hS.sent dest m hsent hm
      exact ⟨ek, hp.taken ht⟩
    · rw [hstate]
      exact hS.bids
    · intro y hy dest m hact hm
      rw [ht.history] at hy
      rcases mem_append.mp hy with hy | hy
      · exact hS.evaluate y hy dest m hact hm
      · rw [mem_singleton.mp hy] at hact
        cases hact
  · refine ⟨numbers_step hS.numbers ht, ?_, ?_, bids_step hS ht hi hgoes, ?_⟩
    · intro j k v hj
      by_cases hji : j = i
      · subst hji
        rw [hi'] at hj
        cases hj
        exact trusted_goes hS hg ht hi hgoes
      · rw [ht.others j hji] at hj
        exact trusted_other hrun hS ht hi hgoes hj hji
    · intro dest m hsent hm
      rcases sent_step ht hsent with hsent | hx
      · obtain ⟨ek, hp⟩ := hS.sent dest m hsent hm
        exact ⟨ek, hp.taken ht⟩
      · obtain ⟨pk, ek, kid, ids, rfl, rfl⟩ := goes_pubkey hgoes hx hm
        exact ⟨ek, PublishedAs.taken (hS.trusted i id _ hi) ht⟩
    · intro y hy dest m hact hm
      rw [ht.history] at hy
      rcases mem_append.mp hy with hy | hy
      · exact hS.evaluate y hy dest m hact hm
      · rw [mem_singleton.mp hy] at hact
        obtain ⟨bids, ev, rfl, -, rfl⟩ := goes_evaluate hgoes hact hm
        exact hS.trusted i id _ hi

end

end

/-- In every state that honest tabs can bring about, the bids held are under the key held, and every
`evaluate` that was sent is under one key. -/
theorem one_key_per_round {ι : Type} [DecidableEq ι] (env : Env γ) (ω : PeerOrder)
    (frames : ι → List (Msg γ)) (seals : List γ → List γ → Prop) {Q : Hub ι γ}
    (hrun : Pool.Run (stepSem env ω) (Honest seals) (Hub.start env frames) Q) :
    (∀ seat ct, Q.state.auction.bids.lookup seat = some ct → seals ct Q.state.auction.pubKey) ∧
      ∀ y ∈ Q.history, ∀ dest m, y.2.act = .relay (.send dest m) → m.type = .evaluate →
        ∃ pk, ∀ ct ∈ m.blobs, seals ct pk := by
  have hS : Sealed seals Q := by
    induction hrun with
    | refl => exact sealed_start ..
    | tail hrun hg hs ih => exact sealed_step hrun ih hg hs
  exact ⟨hS.bids, hS.evaluate⟩

section

variable [DecidableEq ι] (Q : Hub ι γ)

instance (role : Role) (k : String) : Decidable (HasRole Q role k) :=
  decidable_of_iff ((Q.state.auction.peers.lookup k).any (fun p => p.role = role) = true) (by
    simp [HasRole, Option.any_eq_true])

instance [DecidableEq γ] (seals : List γ → List γ → Prop) [∀ ct pk, Decidable (seals ct pk)]
    (id : String) (kid : ℤ) (ct : List γ) :
    Decidable (∃ pk, (id, pubkeyMsg pk kid) ∈ Q.state.sent ∧ seals ct pk) :=
  decidable_of_iff (∃ e ∈ Q.state.sent, e = (id, pubkeyMsg e.2.blob kid) ∧ seals ct e.2.blob) (by
    constructor
    · rintro ⟨e, he, heq, hs⟩
      exact ⟨e.2.blob, heq ▸ he, hs⟩
    · rintro ⟨pk, he, hs⟩
      exact ⟨_, he, rfl, hs⟩)

instance [DecidableEq γ] (seals : List γ → List γ → Prop) [∀ ct pk, Decidable (seals ct pk)]
    (id : String) (m : Msg γ) : Decidable (HonestFrame seals Q id m) :=
  inferInstanceAs (Decidable ((_ → _) ∧ (_ → _ → ∃ _, _)))

instance [DecidableEq γ] (seals : List γ → List γ → Prop) [∀ ct pk, Decidable (seals ct pk)]
    (i : ι) : Decidable (Honest seals Q i) :=
  match hx : Q.next i with
  | some (.read m) =>
    decidable_of_iff (∀ place ∈ Q.stage i, HonestFrame seals Q place.1 m) (by
      simp only [Honest, hx, Option.some.injEq, Step.read.injEq, forall_eq'])
  | some .register | some (.relay _) | none => .isTrue (by simp [Honest, hx])

end

def startsWith (ct pk : List ℕ) : Prop := pk <+: ct

instance (ct pk : List ℕ) : Decidable (startsWith ct pk) := inferInstanceAs (Decidable (_ <+: _))

def roundFrames : Tab → List (Msg ℕ)
  | .first => [{ type := .keys, blob := [5], note := [6] }]
  | .second => [{ type := .bid, blob := [5, 9], keyID := 1 }]
  | _ => []

def roundSchedule : List Tab :=
  turns [(.first, 5), (.second, 6), (.first, 12), (.second, 9)]

def roundRun : Hub Tab ℕ :=
  (Hub.start testEnv roundFrames).runSchedule (stepSem testEnv .listed) roundSchedule

theorem one_key_per_round_bid :
    roundRun.state.auction.bids.lookup 0 = some [5, 9] ∧
      startsWith [5, 9] roundRun.state.auction.pubKey :=
  ⟨by decide +kernel, (one_key_per_round testEnv .listed roundFrames startsWith
    (Pool.Guarded.run _ (by decide +kernel))).1 0 [5, 9] (by decide +kernel)⟩

end EnergyRoundKeys
