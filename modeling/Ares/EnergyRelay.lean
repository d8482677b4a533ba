import Ares.InterleavedPrograms
import Ares.EnergyAuction

/-! The relay serves every connection in a goroutine of its own. A handler is a program over the
atomic steps it takes: one auction method, one locked section of the hub, one send. -/
namespace EnergyRelay

open InterleavedPrograms FiniteMaps EnergyAuction

inductive MsgType where
  | keys | pubkey | evalkey | bid | bidrejected | evaluate | masks | offer | settle | won
  | epochstart | epochchain | epochchained | epochkey | epochtotal | epochsum | epochsummed
  | epochdecrypt | epochPartial | epochfuse | epochresult | newepoch | epochreset
  | reset | hour | state
  | other (type : String)
  deriving DecidableEq

/-- The wire shape. Keys, ciphertexts and notes are opaque; fields left out are zero. -/
structure Msg (γ : Type) where
  type : MsgType
  blob : List γ := []
  blobs : List (List γ) := []
  bids : List (List γ) := []
  seat : ℤ := 0
  price : ℚ := 0
  hour : ℤ := 0
  keyID : ℤ := 0
  ok : Bool := false
  you : String := ""
  state : Option Snapshot := none
  note : List γ := []
  deriving DecidableEq

structure RelayState (γ : Type) where
  auction : Auction γ
  conns : List String
  order : List String
  nextID : ℕ
  sent : List (String × Msg γ)
  draws : ℕ

variable {γ : Type}

def RelayState.fresh : RelayState γ := ⟨newAuction, [], [], 0, [], 0⟩

def tabID (n : ℕ) : String := "p" ++ n.repr

theorem tabID_injective : Function.Injective tabID := by
  intro n k h
  have hrepr := (String.append_right_inj "p").mp h
  have hdigits := String.ofList_injective hrepr
  rw [← Nat.ofDigitChars_ten_toDigits (n := n), hdigits, Nat.ofDigitChars_ten_toDigits]

/-- What the relay takes from its surroundings: the wall clock at a settlement and the text of a
list of seats. -/
structure Env (γ : Type) where
  clock : ℕ → String
  seatJSON : List ℤ → List γ

def testEnv : Env γ := ⟨fun _ => "", fun _ => []⟩

/-- Go leaves the iteration order of a map open: the order of the `n`-th iteration over
the peers. -/
structure PeerOrder where
  order : ℕ → List Peer → List Peer
  perm : ∀ n l, (order n l).Perm l

def PeerOrder.listed : PeerOrder := ⟨fun _ l => l, fun _ _ => .refl _⟩

inductive Action (γ : Type) where
  | method (op : Op γ)
  | settle (accepted : Bool)
  | snapshot
  | keyID
  | evaluator
  | orderedBids
  | sellerID
  | peerAtSeat (seat : ℤ)
  | epochCiphertexts
  | epochPartials
  | peerIDs
  | deregister (id : String)
  | send (dest : String) (m : Msg γ)
  deriving DecidableEq

def Action.Res : Action γ → Type
  | .method op => op.Res
  | .settle _ => ℤ
  | .snapshot => Snapshot
  | .keyID => ℤ
  | .evaluator => Option Peer
  | .orderedBids => List (List γ) × List ℤ
  | .sellerID | .peerAtSeat _ => String
  | .epochCiphertexts | .epochPartials => List (List γ)
  | .peerIDs => List String
  | .deregister _ | .send .. => Unit

namespace RelayState

variable (s : RelayState γ)

def withAuction (a : Auction γ) : RelayState γ := { s with auction := a }

def drawn : RelayState γ := { s with draws := s.draws + 1 }

def deliver (dest : String) (m : Msg γ) : RelayState γ :=
  if dest ∈ s.conns then { s with sent := s.sent ++ [(dest, m)] } else s

def register : RelayState γ :=
  { s with
    nextID := s.nextID + 1
    conns := s.conns ++ [tabID (s.nextID + 1)]
    order := s.order ++ [tabID (s.nextID + 1)] }

def deregister (id : String) : RelayState γ :=
  { s with conns := s.conns.filter (· ≠ id), order := s.order.erase id }

section

variable (dest : String) (m : Msg γ)

include dest m

@[simp] theorem deliver_auction : (s.deliver dest m).auction = s.auction := by
  unfold deliver
  split <;> rfl

@[simp] theorem deliver_conns : (s.deliver dest m).conns = s.conns := by
  unfold deliver
  split <;> rfl

@[simp] theorem deliver_order : (s.deliver dest m).order = s.order := by
  unfold deliver
  split <;> rfl

@[simp] theorem deliver_nextID : (s.deliver dest m).nextID = s.nextID := by
  unfold deliver
  split <;> rfl

@[simp] theorem deliver_draws : (s.deliver dest m).draws = s.draws := by
  unfold deliver
  split <;> rfl

end

def received (id : String) : List (Msg γ) := (s.sent.filter (·.1 = id)).map Prod.snd

end RelayState

theorem received_deliver {b : String} (s : RelayState γ) (dest : String) (m : Msg γ) :
    (s.deliver dest m).received b =
      s.received b ++ if dest ∈ s.conns ∧ dest = b then [m] else [] := by
  unfold RelayState.deliver
  by_cases hd : dest ∈ s.conns
  · rw [if_pos hd]
    by_cases hb : dest = b
    · simp [RelayState.received, hb, hb ▸ hd]
    · simp [RelayState.received, hb]
  · simp [hd]

def sem (env : Env γ) (ω : PeerOrder) : (a : Action γ) → RelayState γ → a.Res × RelayState γ
  | .method op, s => ((op.run s.auction).1, s.withAuction (op.run s.auction).2)
  | .settle accepted, s =>
    let r := s.auction.settle accepted (env.clock s.draws)
    (r.1, (s.withAuction r.2).drawn)
  | .snapshot, s => (s.auction.snapshot, s)
  | .keyID, s => (s.auction.keyID, s)
  | .evaluator, s => (s.auction.evaluator, s)
  | .orderedBids, s => (s.auction.orderedBids, s)
  | .sellerID, s => (Auction.sellerID (ω.order s.draws (values s.auction.peers)), s.drawn)
  | .peerAtSeat seat, s =>
    (Auction.peerAtSeat (ω.order s.draws (values s.auction.peers)) seat, s.drawn)
  | .epochCiphertexts, s => (s.auction.epochCiphertexts, s)
  | .epochPartials, s => (s.auction.epochPartialsInOrder, s)
  | .peerIDs, s => (s.order, s)
  | .deregister id, s => ((), s.deregister id)
  | .send dest m, s => ((), s.deliver dest m)

abbrev RelayM (γ : Type) := Prog (Action γ) Action.Res

def ask (a : Action γ) : RelayM γ a.Res := Prog.call a

def sendEach (f : String → Msg γ) : List String → RelayM γ Unit
  | [] => pure ()
  | id :: ids => do
    ask (.send id (f id))
    sendEach f ids

def stateMsg (snap : Snapshot) (id : String) : Msg γ :=
  { type := .state, you := id, state := some snap }

def broadcast : RelayM γ Unit := do
  let snap : Snapshot ← ask .snapshot
  let ids : List String ← ask .peerIDs
  sendEach (stateMsg snap) ids

def sendAll (m : Msg γ) : RelayM γ Unit := do
  let ids : List String ← ask .peerIDs
  sendEach (fun _ => m) ids

def sendEvaluator (m : Msg γ) : RelayM γ Unit := do
  let ev : Option Peer ← ask .evaluator
  match ev with
  | some p => ask (.send p.id m)
  | none => pure ()

def perform (op : Op γ) : RelayM γ Unit := do
  let _ ← ask (.method op)
  broadcast

def handleKeys (m : Msg γ) : RelayM γ Unit := do
  perform (.publishKeys m.blob m.note)
  let kid : ℤ ← ask .keyID
  sendAll { type := .pubkey, blob := m.blob, keyID := kid }
  sendEvaluator { type := .evalkey, blob := m.note }

def handleBid (env : Env γ) (id : String) (m : Msg γ) : RelayM γ Unit := do
  let result : BidResult ← ask (.method (.submitBid id m.keyID m.blob))
  match result with
  | .rejected =>
    let kid : ℤ ← ask .keyID
    ask (.send id { type := .bidrejected, keyID := kid })
    broadcast
  | .stored => broadcast
  | .complete =>
    broadcast
    let bids : List (List γ) × List ℤ ← ask .orderedBids
    sendEvaluator { type := .evaluate, blobs := bids.1, note := env.seatJSON bids.2 }

def sendMasks (env : Env γ) (m : Msg γ) (seller : String) : RelayM γ Unit :=
  if seller ≠ "" then do
    let bids : List (List γ) × List ℤ ← ask .orderedBids
    ask (.send seller
      { type := .masks, blobs := m.blobs, bids := bids.1, note := env.seatJSON bids.2 })
    broadcast
  else broadcast

def handleMasks (env : Env γ) (m : Msg γ) : RelayM γ Unit := do
  let _ ← ask (.method (.setMasks m.blobs))
  let seller : String ← ask .sellerID
  sendMasks env m seller

def sendWon (m : Msg γ) (seat : ℤ) (winner : String) : RelayM γ Unit :=
  if winner ≠ "" then do
    ask (.send winner { type := .won, seat := seat, price := m.price })
    broadcast
  else broadcast

def handleSettle (m : Msg γ) : RelayM γ Unit := do
  let seat : ℤ ← ask (.settle m.ok)
  if 0 ≤ seat ∧ m.ok then
    let winner : String ← ask (.peerAtSeat seat)
    sendWon m seat winner
  else broadcast

def handleEpochstart : RelayM γ Unit := do
  let first : String ← ask (.method .startEpochChain)
  if first ≠ "" then
    ask (.send first { type := .epochchain })
    broadcast
  else broadcast

def handleEpochchained (m : Msg γ) : RelayM γ Unit := do
  let step : String × Bool ← ask (.method (.advanceEpochChain m.blob))
  if step.2 then
    broadcast
    sendAll { type := .epochkey, blob := m.blob }
  else
    ask (.send step.1 { type := .epochchain, blob := m.blob })
    broadcast

def handleEpochtotal (id : String) (m : Msg γ) : RelayM γ Unit := do
  let all : Bool ← ask (.method (.submitEpochTotal id m.blob))
  if all then
    let cts : List (List γ) ← ask .epochCiphertexts
    sendEvaluator { type := .epochsum, blobs := cts }
    broadcast
  else broadcast

def handleEpochPartial (id : String) (m : Msg γ) : RelayM γ Unit := do
  let all : Bool ← ask (.method (.submitEpochPartial id m.blob))
  if all then
    let parts : List (List γ) ← ask .epochPartials
    sendAll { type := .epochfuse, blobs := parts }
    broadcast
  else broadcast

def handleNewepoch : RelayM γ Unit := do
  let _ ← ask (.method .newEpoch)
  sendAll { type := .epochreset }
  broadcast

def handle (env : Env γ) (id : String) (m : Msg γ) : RelayM γ Unit :=
  match m.type with
  | .keys => handleKeys m
  | .bid => handleBid env id m
  | .masks => handleMasks env m
  | .offer => perform (.offer m.seat m.price)
  | .settle => handleSettle m
  | .epochstart => handleEpochstart
  | .epochchained => handleEpochchained m
  | .epochtotal => handleEpochtotal id m
  | .epochsummed => sendAll { type := .epochdecrypt, blob := m.blob }
  | .epochPartial => handleEpochPartial id m
  | .epochresult => perform (.closeEpoch m.price m.ok)
  | .newepoch => handleNewepoch
  | .reset => perform .reset
  | .hour => perform (.setHour m.hour)
  | _ => pure ()

def connected (id : String) : RelayM γ Unit := perform (.join id)

def disconnected (id : String) : RelayM γ Unit := do
  ask (.deregister id)
  perform (.leave id)

end EnergyRelay
