import Ares.FiniteMaps

/-! The state behind the relay of the energy demo: one seller, up to five buyers, one sealed round
at a time, and the epoch audit over the settled trades. -/
namespace EnergyAuction

open FiniteMaps

def maxBuyers : ℕ := 5

def epochSize : ℕ := 5

inductive Role where
  | seller | buyer | full
  deriving DecidableEq

inductive Phase where
  | waiting | bidding | evaluating | offer | settled
  deriving DecidableEq

inductive EpochPhase where
  | «open» | ready | audit | done
  deriving DecidableEq

structure Peer where
  id : String
  role : Role
  seat : ℤ
  sealed : Bool
  deriving DecidableEq

structure Trade where
  clock : String
  slot : ℤ
  priceCt : ℚ
  accepted : Bool
  bidders : ℕ
  seat : ℤ
  deriving DecidableEq

structure Auction (γ : Type) where
  hour : ℤ
  phase : Phase
  peers : FinMap String Peer
  order : List String
  pubKey : List γ
  evalKey : List γ
  bids : FinMap ℤ (List γ)
  masks : List (List γ)
  keyID : ℤ
  winnerSeat : ℤ
  priceCt : ℚ
  trades : List Trade
  epoch : EpochPhase
  epochKey : List γ
  epochTotals : FinMap String (List γ)
  epochNet : ℚ
  epochOK : Bool
  epochOpened : Bool
  chainPos : ℕ
  epochPartials : FinMap String (List γ)
  epochParty : List String
  epochAbort : String

variable {γ : Type}

def newAuction : Auction γ where
  hour := 13
  phase := .waiting
  peers := ∅
  order := []
  pubKey := []
  evalKey := []
  bids := ∅
  masks := []
  keyID := 0
  winnerSeat := -1
  priceCt := 0
  trades := []
  epoch := .open
  epochKey := []
  epochTotals := ∅
  epochNet := 0
  epochOK := false
  epochOpened := false
  chainPos := 0
  epochPartials := ∅
  epochParty := []
  epochAbort := ""

namespace Auction

variable (a : Auction γ)

def isBuyer (p : Peer) : Bool := p.role = .buyer

def isSeller (p : Peer) : Bool := p.role = .seller

def isSealedBuyer (p : Peer) : Bool := p.role = .buyer && p.sealed

def seller (listing : List Peer) : Option Peer := listing.find? isSeller

def buyerCount : ℕ := count isBuyer a.peers

def evaluator : Option Peer := (a.order.filterMap a.peers.lookup).find? isBuyer

def sellerID (listing : List Peer) : String := ((seller listing).map Peer.id).getD ""

def peerAtSeat (listing : List Peer) (seat : ℤ) : String :=
  ((listing.find? fun p => isBuyer p && p.seat = seat).map Peer.id).getD ""

def unsealed (peers : FinMap String Peer) : FinMap String Peer :=
  mapValues (fun _ p => { p with sealed := false }) peers

def sealPeer (id : String) (peers : FinMap String Peer) : FinMap String Peer :=
  mapValues (fun k p => if k = id then { p with sealed := true } else p) peers

def seatedAs (id : String) : Peer :=
  if (seller (values a.peers)).isNone then ⟨id, .seller, -1, false⟩
  else if a.buyerCount < maxBuyers then ⟨id, .buyer, a.buyerCount, false⟩
  else ⟨id, .full, -1, false⟩

def join (id : String) : Peer × Auction γ :=
  (a.seatedAs id,
    { a with peers := a.peers.insert id (a.seatedAs id), order := a.order ++ [id] })

def resetLocked : Auction γ :=
  { a with
    phase := .waiting
    pubKey := []
    evalKey := []
    bids := ∅
    masks := []
    winnerSeat := -1
    priceCt := 0
    peers := unsealed a.peers }

def endsRound (p : Peer) : Bool := isSeller p || p.sealed

def removed (id : String) : Auction γ :=
  { a with peers := a.peers.erase id, order := a.order.erase id }

def abortAudit : Auction γ :=
  { a with
    epochAbort := "a participant left mid-audit"
    epoch := .ready
    epochParty := []
    epochTotals := ∅
    epochPartials := ∅
    chainPos := 0 }

def leave (id : String) : Auction γ :=
  let b := if (a.peers.lookup id).any endsRound then (a.removed id).resetLocked else a.removed id
  if b.epoch = .audit ∧ id ∈ b.epochParty then b.abortAudit else b

def reset : Auction γ := a.resetLocked

def setHour (h : ℤ) : Auction γ :=
  { a with hour := (h.tmod 24 + 24).tmod 24 }.resetLocked

def publishKeys (pk ek : List γ) : Auction γ :=
  { a with
    pubKey := pk
    evalKey := ek
    keyID := a.keyID + 1
    bids := ∅
    masks := []
    winnerSeat := -1
    peers := unsealed a.peers
    phase := .bidding }

end Auction

inductive BidResult where
  | rejected | stored | complete
  deriving DecidableEq

namespace Auction

variable (a : Auction γ)

def withBid (id : String) (seat : ℤ) (ct : List γ) : Auction γ :=
  { a with bids := a.bids.insert seat ct, peers := sealPeer id a.peers }

def submitBid (id : String) (keyID : ℤ) (ct : List γ) : BidResult × Auction γ :=
  match a.peers.lookup id with
  | none => (.rejected, a)
  | some p =>
    if p.role ≠ .buyer ∨ a.phase ≠ .bidding then (.rejected, a)
    else if keyID ≠ a.keyID then (.rejected, a)
    else
      let b := a.withBid id p.seat ct
      if size b.bids < b.buyerCount ∨ b.buyerCount = 0 then (.stored, b)
      else (.complete, { b with phase := .evaluating })

def orderedBids : List (List γ) × List ℤ :=
  let seats := (List.range maxBuyers).map (fun n : ℕ => (n : ℤ)) |>.filter (· ∈ a.bids)
  (seats.filterMap a.bids.lookup, seats)

def setMasks (masks : List (List γ)) : Auction γ := { a with masks := masks, phase := .offer }

def offer (seat : ℤ) (price : ℚ) : Auction γ :=
  { a with winnerSeat := seat, priceCt := price, phase := .offer }

def trade (accepted : Bool) (clock : String) : Trade :=
  ⟨clock, a.hour, a.priceCt, accepted, size a.bids, a.winnerSeat⟩

def settle (accepted : Bool) (clock : String) : ℤ × Auction γ :=
  if a.winnerSeat < 0 then (-1, a)
  else
    let b := { a with
      trades := a.trade accepted clock :: a.trades
      hour := (a.hour + 1).tmod 24 }.resetLocked
    (a.winnerSeat,
      { b with
        phase := .settled
        epoch := if b.epoch = .open ∧ epochSize ≤ b.trades.length then .ready else b.epoch })

def startEpochChain : String × Auction γ :=
  if a.epoch = .audit then ("", a)
  else
    (a.order.head?.getD "",
      { a with
        epoch := .audit
        epochParty := a.order
        epochAbort := ""
        epochKey := []
        epochTotals := ∅
        epochPartials := ∅
        epochOpened := false
        chainPos := 0 })

def advanceEpochChain (pk : List γ) : (String × Bool) × Auction γ :=
  let b := { a with epochKey := pk, chainPos := a.chainPos + 1 }
  match b.epochParty[b.chainPos]? with
  | none => (("", true), b)
  | some next => ((next, false), b)

def haveAllLocked (m : FinMap String (List γ)) : Bool :=
  a.epochParty.all (· ∈ m) && 0 < a.epochParty.length

def submitEpochPartial (id : String) (ct : List γ) : Bool × Auction γ :=
  let b := { a with epochPartials := a.epochPartials.insert id ct }
  (b.haveAllLocked b.epochPartials, b)

def epochPartialsInOrder : List (List γ) :=
  a.epochParty.filterMap a.epochPartials.lookup

def submitEpochTotal (id : String) (ct : List γ) : Bool × Auction γ :=
  if a.epoch ≠ .audit then (false, a)
  else
    let b := { a with epochTotals := a.epochTotals.insert id ct }
    (b.haveAllLocked b.epochTotals, b)

def epochCiphertexts : List (List γ) :=
  a.epochParty.filterMap a.epochTotals.lookup

def closeEpoch (net : ℚ) (ok : Bool) : Auction γ :=
  { a with epochNet := net, epochOK := ok, epochOpened := true, epoch := .done }

def newEpoch : Auction γ :=
  { a with
    trades := []
    epoch := .open
    epochKey := []
    epochTotals := ∅
    epochNet := 0
    epochOK := false
    epochOpened := false
    chainPos := 0
    epochPartials := ∅
    epochParty := []
    epochAbort := "" }.resetLocked

end Auction

/-- A trade as it is serialised: the winning seat stays behind. -/
structure PublicTrade where
  clock : String
  slot : ℤ
  priceCt : ℚ
  accepted : Bool
  bidders : ℕ
  deriving DecidableEq

def Trade.public (t : Trade) : PublicTrade := ⟨t.clock, t.slot, t.priceCt, t.accepted, t.bidders⟩

structure Snapshot where
  hour : ℤ
  phase : Phase
  peers : List Peer
  buyers : ℕ
  maxBuyers : ℕ
  sealed : ℕ
  evaluator : String
  winnerSeat : ℤ
  priceCt : ℚ
  trades : List PublicTrade
  hasKeys : Bool
  keyID : ℤ
  epoch : EpochPhase
  epochSize : ℕ
  epochNet : ℚ
  epochOK : Bool
  epochOpen : Bool
  epochHave : ℕ
  epochChain : ℕ
  epochParts : ℕ
  epochParty : ℕ
  epochAbort : String
  deriving DecidableEq

/-- The tariff band in the source's snapshot is a function of the hour and is left out. -/
def Auction.snapshot (a : Auction γ) : Snapshot where
  hour := a.hour
  phase := a.phase
  peers := a.order.filterMap a.peers.lookup
  buyers := a.buyerCount
  maxBuyers := EnergyAuction.maxBuyers
  sealed := size a.bids
  evaluator := (a.evaluator.map Peer.id).getD ""
  winnerSeat := a.winnerSeat
  priceCt := a.priceCt
  trades := a.trades.map Trade.public
  hasKeys := 0 < a.pubKey.length
  keyID := a.keyID
  epoch := a.epoch
  epochSize := EnergyAuction.epochSize
  epochNet := a.epochNet
  epochOK := a.epochOK
  epochOpen := a.epochOpened
  epochHave := size a.epochTotals
  epochChain := a.chainPos
  epochParts := size a.epochPartials
  epochParty := a.epochParty.length
  epochAbort := a.epochAbort

inductive Op (γ : Type) where
  | join (id : String)
  | leave (id : String)
  | reset
  | setHour (h : ℤ)
  | publishKeys (pk ek : List γ)
  | submitBid (id : String) (keyID : ℤ) (ct : List γ)
  | setMasks (masks : List (List γ))
  | offer (seat : ℤ) (price : ℚ)
  | settle (accepted : Bool) (clock : String)
  | startEpochChain
  | advanceEpochChain (pk : List γ)
  | submitEpochPartial (id : String) (ct : List γ)
  | submitEpochTotal (id : String) (ct : List γ)
  | closeEpoch (net : ℚ) (ok : Bool)
  | newEpoch
  deriving DecidableEq

def Op.Res : Op γ → Type
  | .join _ => Peer
  | .submitBid .. => BidResult
  | .settle .. => ℤ
  | .startEpochChain => String
  | .advanceEpochChain _ => String × Bool
  | .submitEpochPartial .. | .submitEpochTotal .. => Bool
  | _ => Unit

def Op.run : (op : Op γ) → Auction γ → op.Res × Auction γ
  | .join id, a => a.join id
  | .leave id, a => ((), a.leave id)
  | .reset, a => ((), a.reset)
  | .setHour h, a => ((), a.setHour h)
  | .publishKeys pk ek, a => ((), a.publishKeys pk ek)
  | .submitBid id keyID ct, a => a.submitBid id keyID ct
  | .setMasks masks, a => ((), a.setMasks masks)
  | .offer seat price, a => ((), a.offer seat price)
  | .settle accepted clock, a => a.settle accepted clock
  | .startEpochChain, a => a.startEpochChain
  | .advanceEpochChain pk, a => a.advanceEpochChain pk
  | .submitEpochPartial id ct, a => a.submitEpochPartial id ct
  | .submitEpochTotal id ct, a => a.submitEpochTotal id ct
  | .closeEpoch net ok, a => ((), a.closeEpoch net ok)
  | .newEpoch, a => ((), a.newEpoch)

def Op.apply (op : Op γ) (a : Auction γ) : Auction γ := (op.run a).2

end EnergyAuction
