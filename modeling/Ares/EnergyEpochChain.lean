import Ares.EnergyAuctionRounds
import Ares.EnergyRelay

/-! The relay and its tabs as one system. -/
namespace EnergyEpochChain

open InterleavedPrograms OperationRuns EnergyAuction EnergyAuctionRounds EnergyRelay List Function

structure Link where
  tab : String
  time : ℕ
  deriving DecidableEq

abbrev Key := List Link

inductive Status where
  | plain
  | mustJoin
  | mustAdvance (k : Key)
  | mustSend (dest : String) (k : Key)
  | announcing (k : Key)
  deriving DecidableEq

def chainMsg (k : Key) : Msg Link := { type := .epochchain, blob := k }

def offChain (m : Msg Link) : Bool :=
  match m.type with
  | .epochchain | .epochkey => false
  | _ => true

def after : Status → (a : Action Link) → a.Res → Status
  | .mustJoin, .method (.join _), _ => .plain
  | .plain, .method .startEpochChain, first =>
    if (show String from first) = "" then .plain else .mustSend first []
  | .mustAdvance k, .method (.advanceEpochChain _), step =>
    if (show String × Bool from step).2 then .announcing k
    else .mustSend (show String × Bool from step).1 k
  | .mustSend _ _, .send _ _, _ => .plain
  | x, _, _ => x

def ok (id : String) : Status → Action Link → Prop
  | .plain, .method (.join _) => False
  | .plain, .method (.advanceEpochChain _) => False
  | .plain, .send _ m => offChain m = true
  | .plain, _ => True
  | .mustJoin, a => a = .method (.join id)
  | .mustAdvance k, a => a = .method (.advanceEpochChain k)
  | .mustSend dest k, a => a = .send dest (chainMsg k)
  | .announcing k, .send _ m => offChain m = true ∨ m = { type := .epochkey, blob := k }
  | .announcing _, a => a = .snapshot ∨ a = .peerIDs

def ends : Status → Unit → Prop
  | .plain, _ | .announcing _, _ => True
  | _, _ => False

def opening (m : Msg Link) : Status :=
  if m.type = .epochchained then .mustAdvance m.blob else .plain

variable {x : Status} {m : Msg Link} {S S' : System} {loc : Option Loc} {env : Env Link}
  {ω : PeerOrder}

section

variable (id : String)

abbrev Keeps (x : Status) (p : RelayM Link Unit) : Prop := p.Follows after (ok id) ends x

abbrev Steady (x : Status) (p : RelayM Link Unit) : Prop :=
  p.Follows after (ok id) (fun y _ => y = x) x

variable {id} {p q : RelayM Link Unit}

theorem Steady.seq (hp : Steady id x p) (hq : Keeps id x q) : Keeps id x (p >>= fun _ => q) := by
  refine Prog.Follows.bind hp ?_
  rintro y _ rfl
  exact hq

theorem Steady.keeps (hp : Steady id x p) (hx : ends x ()) : Keeps id x p := by
  have hseq := hp.seq (q := .ret ()) hx
  have hret : ∀ p : RelayM Link Unit, (p >>= fun _ => .ret ()) = p := by
    intro p
    induction p with
    | ret a => rfl
    | act a k ih => exact congrArg (Prog.act a) (funext ih)
  rwa [hret] at hseq

variable {f : String → Msg Link}

theorem steady_sendEach (hok : ∀ dest, ok id x (.send dest (f dest)))
    (hafter : ∀ dest m r, after x (.send dest m) r = x) (ids : List String) :
    Steady id x (sendEach f ids) := by
  induction ids with
  | nil => rfl
  | cons dest ids ih =>
    refine ⟨hok dest, fun r => ?_⟩
    rw [hafter]
    exact ih

theorem steady_plain_sendEach (hf : ∀ dest, offChain (f dest) = true) (ids : List String) :
    Steady id .plain (sendEach f ids) :=
  steady_sendEach (x := .plain) hf (fun _ _ _ => rfl) ids

theorem steady_broadcast : Steady id .plain (broadcast : RelayM Link Unit) :=
  ⟨trivial, fun _ => ⟨trivial, steady_plain_sendEach fun _ => rfl⟩⟩

theorem steady_sendAll (hm : offChain m = true) :
    Steady id .plain (sendAll m) := ⟨trivial, steady_plain_sendEach fun _ => hm⟩

theorem steady_sendEvaluator (hm : offChain m = true) : Steady id .plain (sendEvaluator m) := by
  refine ⟨trivial, fun ev => ?_⟩
  cases ev with
  | none => rfl
  | some p => exact ⟨hm, fun _ => rfl⟩

theorem announce_broadcast (k : Key) :
    Steady id (.announcing k) (broadcast : RelayM Link Unit) := by
  refine ⟨.inl rfl, fun snap => ⟨.inr rfl, fun ids => ?_⟩⟩
  exact steady_sendEach (x := .announcing k) (fun _ => .inl rfl) (fun _ _ _ => rfl) ids

theorem announce_sendAll (k : Key) :
    Steady id (.announcing k) (sendAll { type := .epochkey, blob := k }) := by
  refine ⟨.inr rfl, fun ids => ?_⟩
  exact steady_sendEach (x := .announcing k) (fun _ => .inr rfl) (fun _ _ _ => rfl) ids

def free : Action Link → Bool
  | .method (.join _) | .method (.advanceEpochChain _) | .method .startEpochChain => false
  | .send _ m => offChain m
  | _ => true

variable (id) in
theorem free_ok {a : Action Link} (h : free a = true) :
    ok id .plain a ∧ ∀ r, after .plain a r = .plain := by
  cases a with
  | method op => cases op <;> first | exact ⟨trivial, fun _ => rfl⟩ | cases h
  | send dest m => exact ⟨h, fun _ => rfl⟩
  | _ => exact ⟨trivial, fun _ => rfl⟩

theorem keeps_ask {a : Action Link} (ha : free a = true) {k : a.Res → RelayM Link Unit}
    (hk : ∀ r, Keeps id .plain (k r)) : Keeps id .plain (ask a >>= k) := by
  obtain ⟨hok, hafter⟩ := free_ok id ha
  refine ⟨hok, fun r => ?_⟩
  rw [hafter]
  exact hk r

theorem keeps_broadcast : Keeps id .plain (broadcast : RelayM Link Unit) :=
  steady_broadcast.keeps trivial

theorem keeps_perform {op : Op Link} (hop : free (.method op) = true) :
    Keeps id .plain (perform op) := keeps_ask hop fun _ => keeps_broadcast

theorem keeps_send (dest : String) (hm : offChain m = true) (hp : Keeps id .plain p) :
    Keeps id .plain (ask (.send dest m) >>= fun _ => p) :=
  keeps_ask (a := .send dest m) hm fun _ => hp

variable (m : Msg Link)

theorem keeps_handleKeys : Keeps id .plain (handleKeys m) := by
  refine keeps_ask rfl fun _ => ?_
  refine steady_broadcast.seq (keeps_ask rfl fun kid => ?_)
  exact (steady_sendAll rfl).seq
    ((steady_sendEvaluator rfl).keeps trivial)

theorem keeps_handleBid (env : Env Link) (m : Msg Link) : Keeps id .plain (handleBid env id m) := by
  refine keeps_ask rfl fun result => ?_
  cases result with
  | rejected =>
    refine keeps_ask rfl fun kid => ?_
    exact keeps_send id rfl keeps_broadcast
  | stored => exact keeps_broadcast
  | complete =>
    refine steady_broadcast.seq (keeps_ask rfl fun bids => ?_)
    exact (steady_sendEvaluator rfl).keeps trivial

theorem keeps_handleMasks (env : Env Link) (m : Msg Link) :
    Keeps id .plain (handleMasks env m) := by
  refine keeps_ask rfl fun _ => keeps_ask rfl fun seller => ?_
  unfold sendMasks
  split
  · refine keeps_ask rfl fun bids => ?_
    exact keeps_send _ rfl keeps_broadcast
  · exact keeps_broadcast

theorem keeps_handleSettle : Keeps id .plain (handleSettle m) := by
  refine keeps_ask rfl fun seat => ?_
  split
  · refine keeps_ask rfl fun winner => ?_
    unfold sendWon
    split
    · exact keeps_send _ rfl keeps_broadcast
    · exact keeps_broadcast
  · exact keeps_broadcast

theorem keeps_handleEpochstart : Keeps id .plain (handleEpochstart : RelayM Link Unit) := by
  refine ⟨trivial, fun first => ?_⟩
  change Keeps id (if (show String from first) = "" then .plain else .mustSend first [])
    (if (show String from first) ≠ "" then
      (ask (.send first { type := .epochchain }) >>= fun _ => broadcast) else broadcast)
  by_cases hfirst : (show String from first) = ""
  · rw [if_pos hfirst, if_neg (not_not.mpr hfirst)]
    exact keeps_broadcast
  · rw [if_neg hfirst, if_pos hfirst]
    exact ⟨rfl, fun _ => keeps_broadcast⟩

theorem keeps_handleEpochchained : Keeps id (.mustAdvance m.blob) (handleEpochchained m) := by
  refine ⟨rfl, fun step => ?_⟩
  obtain ⟨next, done⟩ := step
  cases done with
  | true => exact (announce_broadcast m.blob).seq ((announce_sendAll m.blob).keeps trivial)
  | false => exact ⟨rfl, fun _ => keeps_broadcast⟩

theorem keeps_handleEpochtotal : Keeps id .plain (handleEpochtotal id m) := by
  refine keeps_ask rfl fun all => ?_
  split
  · refine keeps_ask rfl fun cts => ?_
    exact (steady_sendEvaluator rfl).seq keeps_broadcast
  · exact keeps_broadcast

theorem keeps_handleEpochPartial : Keeps id .plain (handleEpochPartial id m) := by
  refine keeps_ask rfl fun all => ?_
  split
  · refine keeps_ask rfl fun parts => ?_
    exact (steady_sendAll rfl).seq keeps_broadcast
  · exact keeps_broadcast

theorem keeps_handleNewepoch : Keeps id .plain (handleNewepoch : RelayM Link Unit) :=
  keeps_ask rfl fun _ => (steady_sendAll rfl).seq keeps_broadcast

theorem keeps_handle (env : Env Link) (m : Msg Link) : Keeps id (opening m) (handle env id m) := by
  unfold opening handle
  cases hm : m.type
  case keys => exact keeps_handleKeys m
  case bid => exact keeps_handleBid ..
  case masks => exact keeps_handleMasks ..
  case settle => exact keeps_handleSettle m
  case epochstart => exact keeps_handleEpochstart
  case epochchained => exact keeps_handleEpochchained m
  case epochtotal => exact keeps_handleEpochtotal m
  case epochPartial => exact keeps_handleEpochPartial m
  case newepoch => exact keeps_handleNewepoch
  case epochsummed => exact (steady_sendAll rfl).keeps trivial
  case offer | epochresult | reset | hour => exact keeps_perform rfl
  all_goals exact trivial

theorem keeps_connected : Keeps id .mustJoin (connected id : RelayM Link Unit) :=
  ⟨rfl, fun _ => keeps_broadcast⟩

theorem keeps_disconnected : Keeps id .plain (disconnected id : RelayM Link Unit) :=
  keeps_ask rfl fun _ => keeps_perform rfl

end

inductive Frame where
  | msg (m : Msg Link)
  | closed
  deriving DecidableEq

/-- `outbox` is what a tab has sent and its handler has not read; `seen` is how many of
the messages sent to it a tab has read. The clock counts steps, and `startedAt` is the
time at which the party of the audit was frozen. -/
structure System where
  relay : RelayState Link
  handlers : String → RelayM Link Unit
  status : String → Status
  outbox : String → List Frame
  seen : String → ℕ
  isOpen : String → Bool
  clock : ℕ
  startedAt : ℕ

def System.start : System :=
  ⟨.fresh, fun _ => .ret (), fun _ => .plain, fun _ => [], fun _ => 0, fun _ => false, 1, 0⟩

inductive Move where
  | connect
  | act (id : String)
  | read (id : String)
  | receive (id : String)
  | press (id : String) (m : Msg Link)
  | close (id : String)

namespace System

variable (S : System)

def auction : Auction Link := S.relay.auction

def unread (id : String) : List (Msg Link) := (S.relay.received id).drop (S.seen id)

def newID : String := tabID (S.relay.nextID + 1)

def connect : System :=
  { S with
    relay := S.relay.register
    handlers := update S.handlers S.newID (connected S.newID)
    status := update S.status S.newID .mustJoin
    isOpen := update S.isOpen S.newID true
    clock := S.clock + 1 }

def freezes (a : Action Link) : Bool := a = .method .startEpochChain && S.auction.epoch ≠ .audit

def statusAfter (x : Status) : RelayM Link Unit → Status
  | .ret _ => .plain
  | .act _ _ => x

def act (env : Env Link) (ω : PeerOrder) (id : String) (a : Action Link)
    (k : a.Res → RelayM Link Unit) : System :=
  let r := sem env ω a S.relay
  { S with
    relay := r.2
    handlers := update S.handlers id (k r.1)
    status := update S.status id (statusAfter (after (S.status id) a r.1) (k r.1))
    clock := S.clock + 1
    startedAt := if S.freezes a then S.clock else S.startedAt }

def serve (env : Env Link) (id : String) (m : Msg Link) (rest : List Frame) : System :=
  { S with
    handlers := update S.handlers id (handle env id m)
    status := update S.status id (opening m)
    outbox := update S.outbox id rest
    clock := S.clock + 1 }

def hangUp (id : String) (rest : List Frame) : System :=
  { S with
    handlers := update S.handlers id (disconnected id)
    outbox := update S.outbox id rest
    clock := S.clock + 1 }

def push (id : String) (fs : List Frame) : System :=
  { S with outbox := update S.outbox id (S.outbox id ++ fs), clock := S.clock + 1 }

def answer (id : String) (m : Msg Link) : List Frame :=
  if m.type = .epochchain then
    [.msg { type := .epochchained, blob := m.blob ++ [⟨id, S.clock⟩] }]
  else []

def receive (id : String) (m : Msg Link) : System :=
  { S.push id (S.answer id m) with seen := update S.seen id (S.seen id + 1) }

def close (id : String) : System :=
  { S.push id [.closed] with isOpen := update S.isOpen id false }

end System

def step (env : Env Link) (ω : PeerOrder) (S : System) : Move → Option System
  | .connect => some S.connect
  | .act id =>
    match S.handlers id with
    | .ret _ => none
    | .act a k => some (S.act env ω id a k)
  | .read id =>
    match S.handlers id, S.outbox id with
    | .ret _, .msg m :: rest => some (S.serve env id m rest)
    | .ret _, .closed :: rest => some (S.hangUp id rest)
    | _, _ => none
  | .receive id =>
    match S.isOpen id, S.unread id with
    | true, m :: _ => some (S.receive id m)
    | _, _ => none
  | .press id m => if S.isOpen id ∧ m.type ≠ .epochchained then some (S.push id [.msg m]) else none
  | .close id => if S.isOpen id then some (S.close id) else none

def chainKeys (ms : List (Msg Link)) : List Key :=
  ms.filterMap fun m => if m.type = .epochchain then some m.blob else none

def answers (fs : List Frame) : List Key :=
  fs.filterMap fun f => match f with
    | .msg m => if m.type = .epochchained then some m.blob else none
    | .closed => none

def Status.busy : Status → Bool
  | .plain | .mustJoin => false
  | _ => true

def InFlight (S : System) : Prop :=
  (∃ id, (S.status id).busy = true) ∨
    (∃ id, S.isOpen id = true ∧ chainKeys (S.unread id) ≠ []) ∨ ∃ id, answers (S.outbox id) ≠ []

def cuts (a : Auction Link) : Action Link → Bool
  | .method (.leave id) => a.epoch = .audit && a.epochParty.contains id
  | .method (.closeEpoch ..) | .method .newEpoch => a.epoch = .audit
  | _ => false

def System.pending (S : System) (id : String) : Option (Action Link) :=
  match S.handlers id with
  | .ret _ => none
  | .act a _ => some a

def cutsNext (S : System) : Move → Bool
  | .act id => (S.pending id).any (cuts S.auction)
  | _ => false

def Undisturbed (S : System) (m : Move) : Prop := cutsNext S m = true → ¬ InFlight S

section

variable {a b : Auction Link} {t : ℕ} {dest : String} {k : Key}

/-- The party up to the chain's position has folded in its links since `t`, and it is the turn of
`dest`. -/
structure Turn (a : Auction Link) (t : ℕ) (dest : String) (k : Key) : Prop where
  audit : a.epoch = .audit
  names : k.map Link.tab = a.epochParty.take a.chainPos
  turn : a.epochParty[a.chainPos]? = some dest
  times : ∀ l ∈ k, t < l.time

/-- The member whose turn it is has folded in its link. -/
structure Answered (a : Auction Link) (t : ℕ) (k : Key) : Prop where
  audit : a.epoch = .audit
  pos : a.chainPos < a.epochParty.length
  names : k.map Link.tab = a.epochParty.take (a.chainPos + 1)
  times : ∀ l ∈ k, t < l.time

/-- The whole party has folded in its links. -/
structure Complete (a : Auction Link) (t : ℕ) (k : Key) : Prop where
  audit : a.epoch = .audit
  names : k.map Link.tab = a.epochParty
  times : ∀ l ∈ k, t < l.time

/-- The two auctions are at the same point of the same audit. -/
structure SameChain (a b : Auction Link) : Prop where
  epoch : b.epoch = a.epoch
  party : b.epochParty = a.epochParty
  pos : b.chainPos = a.chainPos

theorem Turn.congr (h : Turn a t dest k) (hs : SameChain a b) : Turn b t dest k := by
  refine ⟨hs.epoch.trans h.audit, ?_, ?_, h.times⟩
  · rw [hs.party, hs.pos, h.names]
  · rw [hs.party, hs.pos, h.turn]

theorem Answered.congr (h : Answered a t k) (hs : SameChain a b) : Answered b t k := by
  refine ⟨hs.epoch.trans h.audit, ?_, ?_, h.times⟩
  · rw [hs.party, hs.pos]
    exact h.pos
  · rw [hs.party, hs.pos, h.names]

theorem Complete.congr (h : Complete a t k) (hs : SameChain a b) : Complete b t k :=
  ⟨hs.epoch.trans h.audit, by rw [hs.party, h.names], h.times⟩

theorem Turn.answered (h : Turn a t dest k) {now : ℕ} (hnow : t < now) :
    Answered a t (k ++ [⟨dest, now⟩]) := by
  obtain ⟨hlt, hget⟩ := List.getElem?_eq_some_iff.mp h.turn
  refine ⟨h.audit, hlt, ?_, ?_⟩
  · rw [map_append, h.names, take_add_one, h.turn]
    rfl
  · intro l hl
    rcases mem_append.mp hl with hl | hl
    · exact h.times l hl
    · rw [mem_singleton.mp hl]
      exact hnow

theorem Answered.advance (h : Answered a t k) :
    ((a.advanceEpochChain k).1.2 = true ∧ Complete (a.advanceEpochChain k).2 t k) ∨
      ((a.advanceEpochChain k).1.2 = false ∧
        Turn (a.advanceEpochChain k).2 t (a.advanceEpochChain k).1.1 k) := by
  unfold Auction.advanceEpochChain
  dsimp only
  cases hnext : a.epochParty[a.chainPos + 1]? with
  | none =>
    have hlen := List.getElem?_eq_none_iff.mp hnext
    exact .inl ⟨rfl, h.audit, by rw [h.names, take_of_length_le hlen], h.times⟩
  | some next => exact .inr ⟨rfl, h.audit, h.names, hnext, h.times⟩

theorem turn_start (ha : a.epoch ≠ .audit) (hfirst : a.startEpochChain.1 ≠ "") (t : ℕ) :
    Turn a.startEpochChain.2 t a.startEpochChain.1 [] := by
  unfold Auction.startEpochChain at hfirst ⊢
  rw [if_neg ha] at hfirst ⊢
  refine ⟨rfl, rfl, ?_, nofun⟩
  cases horder : a.order with
  | nil => simp [horder] at hfirst
  | cons id ids => simp

theorem sameChain_apply (ha : a.epoch = .audit) {op : Op Link}
    (hadvance : ∀ pk, op ≠ .advanceEpochChain pk) (hcut : cuts a (.method op) = false) :
    SameChain a (op.apply a) := by
  cases op with
  | advanceEpochChain pk => exact absurd rfl (hadvance pk)
  | leave id =>
    have hout : id ∉ a.epochParty := by simpa [cuts, ha] using hcut
    simp only [Op.apply, Op.run, Auction.leave]
    split_ifs with hany haudit haudit
    · exact absurd haudit.2 hout
    · exact ⟨rfl, rfl, rfl⟩
    · exact absurd haudit.2 hout
    · exact ⟨rfl, rfl, rfl⟩
  | submitBid id keyID ct =>
    change SameChain a (a.submitBid id keyID ct).2
    unfold Auction.submitBid
    split
    · exact ⟨rfl, rfl, rfl⟩
    · dsimp only
      split_ifs <;> exact ⟨rfl, rfl, rfl⟩
  | settle accepted clock =>
    simp only [Op.apply, Op.run, Auction.settle]
    split
    · exact ⟨rfl, rfl, rfl⟩
    · exact ⟨by simp [Auction.resetLocked, ha], rfl, rfl⟩
  | startEpochChain =>
    simp only [Op.apply, Op.run, Auction.startEpochChain, if_pos ha]
    exact ⟨rfl, rfl, rfl⟩
  | submitEpochTotal id ct =>
    simp only [Op.apply, Op.run, Auction.submitEpochTotal]
    split <;> exact ⟨rfl, rfl, rfl⟩
  | closeEpoch net ok | newEpoch => simp [cuts, ha] at hcut
  | _ => exact ⟨rfl, rfl, rfl⟩

end

inductive Loc where
  | handler (id : String)
  | tab (id : String)
  | frame (id : String)

def StatusHolds (a : Auction Link) (t : ℕ) : Status → Prop
  | .mustAdvance k => Answered a t k
  | .mustSend dest k => Turn a t dest k
  | .announcing k => Complete a t k
  | _ => False

def Holds (S : System) : Loc → Prop
  | .handler id => StatusHolds S.auction S.startedAt (S.status id)
  | .tab id => S.isOpen id = true ∧
      ∃ k, chainKeys (S.unread id) = [k] ∧ Turn S.auction S.startedAt id k
  | .frame id => ∃ k, answers (S.outbox id) = [k] ∧ Answered S.auction S.startedAt k

/-- If there is an extension at all it is at `loc`, and it is of the running audit. -/
structure Placed (S : System) (loc : Option Loc) : Prop where
  busy : ∀ id, loc ≠ some (.handler id) → (S.status id).busy = false
  unread : ∀ id, loc ≠ some (.tab id) → S.isOpen id = true → chainKeys (S.unread id) = []
  answer : ∀ id, loc ≠ some (.frame id) → answers (S.outbox id) = []
  holds : ∀ l, loc = some l → Holds S l

def Issued (S : System) (id : String) : Prop := ∃ n ≤ S.relay.nextID, id = tabID n

/-- Nothing is going on with a connection that does not exist yet. -/
structure Blank (S : System) (id : String) : Prop where
  handler : S.handlers id = .ret ()
  status : S.status id = .plain
  outbox : S.outbox id = []
  isOpen : S.isOpen id = false
  received : S.relay.received id = []

structure Books (S : System) : Prop where
  order_nodup : S.auction.order.Nodup
  party_nodup : S.auction.epochParty.Nodup
  listed : ∀ id ∈ S.auction.order, Issued S id
  conns : ∀ id ∈ S.relay.conns, Issued S id
  joining : ∀ id, S.status id = .mustJoin → id ∉ S.auction.order
  follows : ∀ id, Keeps id (S.status id) (S.handlers id)
  idle : ∀ id, S.handlers id = .ret () → S.status id = .plain
  blank : ∀ id, ¬ Issued S id → Blank S id
  seen_le : ∀ id, S.seen id ≤ (S.relay.received id).length
  clock : S.startedAt < S.clock

section

theorem StatusHolds.audit {a : Auction Link} {t : ℕ} (h : StatusHolds a t x) :
    a.epoch = .audit := by
  cases x with
  | plain | mustJoin => exact absurd h id
  | mustAdvance k => exact Answered.audit h
  | mustSend dest k => exact Turn.audit h
  | announcing k => exact Complete.audit h

theorem StatusHolds.congr {a b : Auction Link} {t : ℕ} (h : StatusHolds a t x)
    (hs : SameChain a b) : StatusHolds b t x := by
  cases x with
  | plain | mustJoin => exact absurd h id
  | mustAdvance k => exact Answered.congr h hs
  | mustSend dest k => exact Turn.congr h hs
  | announcing k => exact Complete.congr h hs

theorem Holds.audit {l : Loc} (h : Holds S l) : S.auction.epoch = .audit := by
  cases l with
  | handler id => exact StatusHolds.audit h
  | tab id =>
    obtain ⟨-, k, -, hturn⟩ := h
    exact hturn.audit
  | frame id =>
    obtain ⟨k, -, hanswered⟩ := h
    exact hanswered.audit

theorem Holds.inFlight {l : Loc} (h : Holds S l) : InFlight S := by
  cases l with
  | handler id =>
    refine .inl ⟨id, ?_⟩
    cases hx : S.status id <;> simp_all [Holds, StatusHolds, Status.busy]
  | tab id =>
    obtain ⟨hopen, k, hk, -⟩ := h
    exact .inr (.inl ⟨id, hopen, by simp [hk]⟩)
  | frame id =>
    obtain ⟨k, hk, -⟩ := h
    exact .inr (.inr ⟨id, by simp [hk]⟩)

theorem Placed.of_same (h : Placed S loc)
    (hchain : ∀ l, loc = some l → SameChain S.auction S'.auction ∧ S'.startedAt = S.startedAt)
    (hstatus : ∀ id, S'.status id = S.status id ∨
      ((S'.status id).busy = false ∧ (S.status id).busy = false))
    (hopen : ∀ id, S'.isOpen id = S.isOpen id ∨ chainKeys (S'.unread id) = [])
    (hunread : ∀ id, chainKeys (S'.unread id) = chainKeys (S.unread id))
    (hanswers : ∀ id, answers (S'.outbox id) = answers (S.outbox id)) : Placed S' loc := by
  refine ⟨fun id hl => ?_, fun id hl ho => ?_, fun id hl => ?_, ?_⟩
  · rcases hstatus id with heq | ⟨hfree, -⟩
    · rw [heq]
      exact h.busy id hl
    · exact hfree
  · rcases hopen id with heq | hnone
    · rw [hunread]
      exact h.unread id hl (heq ▸ ho)
    · exact hnone
  · rw [hanswers]
    exact h.answer id hl
  · rintro l rfl
    obtain ⟨hs, ht⟩ := hchain l rfl
    have hl := h.holds l rfl
    cases l with
    | handler id =>
      rcases hstatus id with heq | ⟨-, hfree⟩
      · simp only [Holds, heq, ht]
        exact StatusHolds.congr hl hs
      · cases hx : S.status id <;> simp_all [Holds, StatusHolds, Status.busy]
    | tab id =>
      obtain ⟨ho, k, hk, hturn⟩ := hl
      rcases hopen id with heq | hnone
      · exact ⟨heq.trans ho, k, (hunread id).trans hk, by rw [ht]; exact hturn.congr hs⟩
      · rw [hunread, hk] at hnone
        cases hnone
    | frame id =>
      obtain ⟨k, hk, hanswered⟩ := hl
      exact ⟨k, (hanswers id).trans hk, by rw [ht]; exact hanswered.congr hs⟩

end

section

variable {id : String}

theorem books_start : Books System.start where
  order_nodup := nodup_nil
  party_nodup := nodup_nil
  listed := nofun
  conns := nofun
  joining := nofun
  follows := fun _ => trivial
  idle := fun _ _ => rfl
  blank := fun _ _ => ⟨rfl, rfl, rfl, rfl, rfl⟩
  seen_le := fun _ => Nat.zero_le _
  clock := Nat.zero_lt_one

theorem placed_start : Placed System.start none :=
  ⟨fun _ _ => rfl, fun _ _ _ => rfl, fun _ _ => rfl, nofun⟩

theorem Books.local (h : Books S) (hissued : Issued S id) (hrelay : S'.relay = S.relay)
    (hothers : ∀ j, j ≠ id → S'.handlers j = S.handlers j ∧ S'.status j = S.status j ∧
      S'.outbox j = S.outbox j ∧ S'.isOpen j = S.isOpen j)
    (hfollows : Keeps id (S'.status id) (S'.handlers id))
    (hidle : S'.handlers id = .ret () → S'.status id = .plain)
    (hjoin : S'.status id = .mustJoin → S.status id = .mustJoin)
    (hseen : ∀ j, S'.seen j ≤ (S.relay.received j).length) (hclock : S'.startedAt < S'.clock) :
    Books S' := by
  obtain ⟨relay, handlers, status, outbox, seen, isOpen, clock, startedAt⟩ := S'
  dsimp only at *
  subst hrelay
  refine ⟨h.order_nodup, h.party_nodup, h.listed, h.conns, fun j hj => ?_, fun j => ?_,
    fun j hj => ?_, fun j hj => ?_, hseen, hclock⟩
  · by_cases hjid : j = id
    · exact hjid ▸ h.joining id (hjoin (hjid ▸ hj))
    · exact h.joining j ((hothers j hjid).2.1 ▸ hj)
  · by_cases hjid : j = id
    · exact hjid ▸ hfollows
    · simpa only [hothers j hjid] using h.follows j
  · by_cases hjid : j = id
    · exact hjid ▸ hidle (hjid ▸ hj)
    · exact (hothers j hjid).2.1.trans (h.idle j ((hothers j hjid).1 ▸ hj))
  · obtain ⟨hh, hst, ho, hop⟩ := hothers j fun hjid => hj (hjid ▸ hissued)
    have hb := h.blank j hj
    exact ⟨hh.trans hb.handler, hst.trans hb.status, ho.trans hb.outbox, hop.trans hb.isOpen,
      hb.received⟩

theorem issued_of_outbox (h : Books S) (hne : S.outbox id ≠ []) : Issued S id :=
  by_contra fun hno => hne (h.blank id hno).outbox

theorem issued_of_open (h : Books S) (ho : S.isOpen id = true) : Issued S id := by
  by_contra hno
  rw [(h.blank id hno).isOpen] at ho
  cases ho

theorem Books.newID_not_issued : ¬ Issued S S.newID := by
  rintro ⟨n, hn, heq⟩
  have := tabID_injective heq
  omega

theorem Books.connect (h : Books S) : Books S.connect := by
  have hnew : ¬ Issued S S.newID := Books.newID_not_issued
  have hmono : ∀ j, Issued S j → Issued S.connect j :=
    fun j ⟨n, hn, hj⟩ => ⟨n, Nat.le_succ_of_le hn, hj⟩
  have hself : Issued S.connect S.newID := ⟨S.relay.nextID + 1, le_refl _, rfl⟩
  refine ⟨h.order_nodup, h.party_nodup, fun j hj => hmono j (h.listed j hj), ?_, ?_, ?_, ?_, ?_,
    h.seen_le, Nat.lt_succ_of_lt h.clock⟩
  · intro j hj
    rcases mem_append.mp hj with hj | hj
    · exact hmono j (h.conns j hj)
    · rw [mem_singleton.mp hj]
      exact hself
  · intro j hj
    by_cases hjn : j = S.newID
    · subst hjn
      exact fun hmem => hnew (h.listed _ hmem)
    · exact h.joining j (by simpa [System.connect, hjn] using hj)
  · intro j
    by_cases hjn : j = S.newID
    · subst hjn
      simpa [System.connect] using keeps_connected
    · simpa [System.connect, hjn] using h.follows j
  · intro j hj
    by_cases hjn : j = S.newID
    · subst hjn
      simp [System.connect, connected, perform, ask] at hj
    · simpa [System.connect, hjn] using h.idle j (by simpa [System.connect, hjn] using hj)
  · intro j hj
    have hjn : j ≠ S.newID := by
      rintro rfl
      exact hj hself
    have hb := h.blank j fun hji => hj (hmono j hji)
    exact ⟨by simpa [System.connect, hjn] using hb.handler,
      by simpa [System.connect, hjn] using hb.status, hb.outbox,
      by simpa [System.connect, hjn] using hb.isOpen, hb.received⟩

theorem Placed.connect (hb : Books S) (h : Placed S loc) : Placed S.connect loc := by
  have hblank := hb.blank S.newID Books.newID_not_issued
  refine h.of_same (fun l _ => ⟨⟨rfl, rfl, rfl⟩, rfl⟩) (fun j => ?_) (fun j => ?_)
    (fun _ => rfl) (fun _ => rfl)
  · by_cases hj : j = S.newID
    · subst hj
      exact .inr ⟨by simp [System.connect, Status.busy], by simp [hblank.status, Status.busy]⟩
    · exact .inl (by simp [System.connect, hj])
  · by_cases hj : j = S.newID
    · subst hj
      have hunread : S.connect.unread S.newID = S.unread S.newID := rfl
      rw [hunread, System.unread, hblank.received]
      simp [chainKeys]
    · exact .inl (by simp [System.connect, hj])

variable {rest : List Frame}

theorem opening_of_ret (h : handle env id m = .ret ()) : opening m = .plain := by
  by_cases hm : m.type = .epochchained
  · have hact : handle env id m = handleEpochchained m := by simp only [handle, hm]
    rw [hact] at h
    cases congrArg (System.statusAfter .mustJoin) h
  · simp [opening, hm]

theorem Books.serve (h : Books S)
    (hout : S.outbox id = .msg m :: rest) : Books (S.serve env id m rest) := by
  have hissued : Issued S id := issued_of_outbox h (by simp [hout])
  refine h.local hissued rfl (fun j hj => ?_) ?_ ?_ ?_ h.seen_le
    (Nat.lt_succ_of_lt h.clock)
  · simp [System.serve, hj]
  · simpa [System.serve] using keeps_handle env m
  · intro hret
    simpa [System.serve] using opening_of_ret (by simpa [System.serve] using hret)
  · intro hjoin
    simp only [System.serve, update_self, opening] at hjoin
    split at hjoin <;> cases hjoin

theorem Placed.serve (h : Placed S loc) (hidle : S.status id = .plain)
    (hout : S.outbox id = .msg m :: rest) : ∃ loc', Placed (S.serve env id m rest) loc' := by
  by_cases hm : m.type = .epochchained
  · have hans : answers (S.outbox id) = m.blob :: answers rest := by
      simp [hout, answers, hm]
    obtain rfl : loc = some (.frame id) := by
      by_contra hl
      rw [h.answer id hl] at hans
      cases hans
    obtain ⟨k, hk, hanswered⟩ := h.holds _ rfl
    rw [hans] at hk
    obtain ⟨rfl, hrest⟩ := List.cons.inj hk
    refine ⟨some (.handler id), fun j hj => ?_, fun j _ ho => h.unread j nofun ho,
      fun j _ => ?_, ?_⟩
    · have hne : j ≠ id := fun heq => hj (by rw [heq])
      simpa [System.serve, hne] using h.busy j nofun
    · by_cases hji : j = id
      · subst hji
        simpa [System.serve] using hrest
      · simpa [System.serve, hji] using h.answer j fun heq => hji (by cases heq; rfl)
    · rintro l hl
      obtain rfl : Loc.handler id = l := Option.some.inj hl
      have hst : (S.serve env id m rest).status id = .mustAdvance m.blob := by
        simp [System.serve, opening, hm]
      simp only [Holds, hst]
      exact hanswered
  · refine ⟨loc, h.of_same (fun _ _ => ⟨⟨rfl, rfl, rfl⟩, rfl⟩) (fun j => ?_) (fun _ => .inl rfl)
      (fun _ => rfl) (fun j => ?_)⟩
    · by_cases hji : j = id
      · subst hji
        exact .inl (by simp [System.serve, opening, hm, hidle])
      · exact .inl (by simp [System.serve, hji])
    · by_cases hji : j = id
      · subst hji
        simp [System.serve, hout, answers, hm]
      · simp [System.serve, hji]

theorem Books.hangUp (h : Books S) (hret : S.handlers id = .ret ())
    (hout : S.outbox id = .closed :: rest) : Books (S.hangUp id rest) := by
  have hplain := h.idle id hret
  have hissued : Issued S id := issued_of_outbox h (by simp [hout])
  refine h.local hissued rfl (fun j hj => ?_) ?_ ?_ ?_ h.seen_le
    (Nat.lt_succ_of_lt h.clock)
  · simp [System.hangUp, hj]
  · simpa [System.hangUp, hplain] using keeps_disconnected
  · exact fun _ => hplain
  · exact fun hjoin => hjoin

theorem Placed.hangUp (h : Placed S loc)
    (hout : S.outbox id = .closed :: rest) : Placed (S.hangUp id rest) loc := by
  refine h.of_same (fun _ _ => ⟨⟨rfl, rfl, rfl⟩, rfl⟩) (fun _ => .inl rfl) (fun _ => .inl rfl)
    (fun _ => rfl) (fun j => ?_)
  by_cases hji : j = id
  · subst hji
    simp [System.hangUp, hout, answers]
  · simp [System.hangUp, hji]

theorem Books.push (h : Books S) (ho : S.isOpen id = true) (fs : List Frame) :
    Books (S.push id fs) := by
  refine h.local (issued_of_open h ho) rfl (fun j hj => ?_) (h.follows id) (h.idle id)
    (fun hjoin => hjoin) h.seen_le (Nat.lt_succ_of_lt h.clock)
  simp [System.push, hj]

theorem answers_push {fs : List Frame} (hfs : answers fs = []) (j : String) :
    answers ((S.push id fs).outbox j) = answers (S.outbox j) := by
  by_cases hji : j = id
  · subst hji
    simp only [System.push, update_self, answers, filterMap_append] at hfs ⊢
    rw [hfs, append_nil]
  · simp [System.push, hji]

theorem Placed.push (h : Placed S loc) {fs : List Frame} (hfs : answers fs = []) :
    Placed (S.push id fs) loc :=
  h.of_same (fun _ _ => ⟨⟨rfl, rfl, rfl⟩, rfl⟩) (fun _ => .inl rfl) (fun _ => .inl rfl)
    (fun _ => rfl) (answers_push hfs)

theorem Books.close (h : Books S) (ho : S.isOpen id = true) : Books (S.close id) := by
  have hp := h.push ho [.closed]
  refine h.local (issued_of_open h ho) rfl (fun j hj => ?_) (h.follows id) (h.idle id)
    (fun hjoin => hjoin) h.seen_le hp.clock
  simp [System.close, System.push, hj]

theorem Placed.close (h : Placed S loc) : ∃ loc', Placed (S.close id) loc' := by
  have hans : ∀ j, answers ((S.close id).outbox j) = answers (S.outbox j) :=
    answers_push (rfl : answers [.closed] = [])
  have hopen : ∀ j, (S.close id).isOpen j = true → j ≠ id ∧ S.isOpen j = true := by
    intro j hj
    by_cases hji : j = id
    · subst hji
      simp [System.close] at hj
    · exact ⟨hji, by simpa [System.close, hji] using hj⟩
  by_cases hl : loc = some (.tab id)
  · subst hl
    refine ⟨none, fun j _ => h.busy j nofun, fun j _ ho => ?_, fun j _ => ?_, nofun⟩
    · obtain ⟨hji, ho⟩ := hopen j ho
      exact h.unread j (fun heq => hji (by cases heq; rfl)) ho
    · rw [hans]
      exact h.answer j nofun
  · refine ⟨loc, h.busy, fun j hj ho => h.unread j hj (hopen j ho).2, fun j hj => ?_, ?_⟩
    · rw [hans]
      exact h.answer j hj
    · rintro l rfl
      have hold := h.holds l rfl
      cases l with
      | handler j => exact hold
      | tab j =>
        obtain ⟨ho, hk⟩ := hold
        have hji : j ≠ id := fun heq => hl (by rw [heq])
        exact ⟨by simpa [System.close, hji] using ho, hk⟩
      | frame j =>
        obtain ⟨k, hk, hanswered⟩ := hold
        exact ⟨k, (hans j).trans hk, hanswered⟩

theorem unread_receive (m : Msg Link) (j : String) :
    (S.receive id m).unread j = if j = id then (S.unread j).tail else S.unread j := by
  by_cases hji : j = id
  · subst hji
    simp [System.receive, System.push, System.unread]
  · simp [System.receive, System.push, System.unread, hji]

theorem Books.receive (h : Books S) (ho : S.isOpen id = true)
    {rest : List (Msg Link)} (hunread : S.unread id = m :: rest) : Books (S.receive id m) := by
  refine h.local (issued_of_open h ho) rfl (fun j hj => ?_) (h.follows id) (h.idle id)
    (fun hjoin => hjoin) (fun j => ?_) (Nat.lt_succ_of_lt h.clock)
  · simp [System.receive, System.push, hj]
  · by_cases hji : j = id
    · subst hji
      have hlen := congrArg List.length hunread
      simp only [System.unread, length_drop, length_cons] at hlen
      simp only [System.receive, update_self]
      omega
    · simpa [System.receive, hji] using h.seen_le j

theorem Placed.receive (hb : Books S) (h : Placed S loc) (ho : S.isOpen id = true)
    {rest : List (Msg Link)} (hunread : S.unread id = m :: rest) :
    ∃ loc', Placed (S.receive id m) loc' := by
  have hrest : (S.receive id m).unread id = rest := by
    rw [unread_receive, if_pos rfl, hunread, tail_cons]
  have hothers : ∀ j, j ≠ id → (S.receive id m).unread j = S.unread j :=
    fun j hj => by rw [unread_receive, if_neg hj]
  by_cases hm : m.type = .epochchain
  · have hkeys : chainKeys (S.unread id) = m.blob :: chainKeys rest := by
      simp [hunread, chainKeys, hm]
    obtain rfl : loc = some (.tab id) := by
      by_contra hl
      rw [h.unread id hl ho] at hkeys
      cases hkeys
    obtain ⟨-, k, hk, hturn⟩ := h.holds _ rfl
    rw [hkeys] at hk
    obtain ⟨rfl, hempty⟩ := List.cons.inj hk
    have hout : ∀ j, answers ((S.receive id m).outbox j) =
        if j = id then [m.blob ++ [⟨id, S.clock⟩]] else [] := by
      intro j
      have hnone := h.answer j nofun
      by_cases hji : j = id
      · subst hji
        simp only [answers] at hnone
        simp [System.receive, System.push, System.answer, answers, hm, hnone]
      · simpa [System.receive, System.push, hji] using hnone
    refine ⟨some (.frame id), fun j _ => h.busy j nofun, fun j _ hj => ?_, fun j hj => ?_, ?_⟩
    · by_cases hji : j = id
      · subst hji
        rw [hrest, hempty]
      · rw [hothers j hji]
        exact h.unread j (fun heq => hji (by cases heq; rfl)) hj
    · rw [hout, if_neg fun heq => hj (by rw [heq])]
    · rintro l hl
      obtain rfl : Loc.frame id = l := Option.some.inj hl
      exact ⟨_, by rw [hout, if_pos rfl], hturn.answered hb.clock⟩
  · refine ⟨loc, h.of_same (fun _ _ => ⟨⟨rfl, rfl, rfl⟩, rfl⟩) (fun _ => .inl rfl)
      (fun _ => .inl rfl) (fun j => ?_) (answers_push ?_)⟩
    · by_cases hji : j = id
      · subst hji
        rw [hrest, hunread]
        simp [chainKeys, hm]
      · rw [hothers j hji]
    · simp [System.answer, hm, answers]

end

section

def delivered (s : RelayState Link) (a : Action Link) (j : String) : List (Msg Link) :=
  match a with
  | .send dest m => if dest ∈ s.conns ∧ dest = j then [m] else []
  | _ => []

def methodOf (env : Env Link) (s : RelayState Link) : Action Link → Option (Op Link)
  | .method op => some op
  | .settle accepted => some (.settle accepted (env.clock s.draws))
  | _ => none

variable {a : Action Link} {j : String}

theorem conns_sem {s : RelayState Link} (h : j ∈ (sem env ω a s).2.conns) : j ∈ s.conns := by
  cases a with
  | send dest m => simpa [sem] using h
  | deregister id => exact (mem_filter.mp h).1
  | _ => exact h

theorem order_apply (op : Op Link) (a : Auction Link) :
    (∃ id, op = .join id ∧ (op.apply a).order = a.order ++ [id]) ∨
      (∃ id, (op.apply a).order = a.order.erase id) ∨ (op.apply a).order = a.order := by
  have hstep := table_step op a
  generalize ht : table (op.apply a) = t' at hstep
  have horder : (op.apply a).order = t'.order := by rw [← ht]; rfl
  rw [horder]
  cases hstep with
  | joined id => exact .inl ⟨id, rfl, rfl⟩
  | @ended id _ | @left id _ => exact .inr (.inl ⟨id, rfl⟩)
  | _ => exact .inr (.inr rfl)

theorem party_apply (op : Op Link) (a : Auction Link) :
    (op.apply a).epochParty = a.epochParty ∨ (op.apply a).epochParty = [] ∨
      (op.apply a).epochParty = a.order := by
  cases op with
  | leave id =>
    simp only [Op.apply, Op.run, Auction.leave]
    split_ifs <;> simp [Auction.abortAudit, Auction.resetLocked, Auction.removed]
  | submitBid id keyID ct =>
    change (a.submitBid id keyID ct).2.epochParty = _ ∨ _
    unfold Auction.submitBid
    split
    · exact .inl rfl
    · dsimp only
      split_ifs <;> exact .inl rfl
  | settle accepted clock =>
    change (a.settle accepted clock).2.epochParty = _ ∨ _
    unfold Auction.settle
    split <;> exact .inl rfl
  | startEpochChain =>
    by_cases ha : a.epoch = .audit
    · exact .inl (by simp [Op.apply, Op.run, Auction.startEpochChain, ha])
    · exact .inr (.inr (by simp [Op.apply, Op.run, Auction.startEpochChain, ha]))
  | advanceEpochChain pk =>
    change (a.advanceEpochChain pk).2.epochParty = _ ∨ _
    unfold Auction.advanceEpochChain
    dsimp only
    split <;> exact .inl rfl
  | submitEpochTotal id ct =>
    change (a.submitEpochTotal id ct).2.epochParty = _ ∨ _
    unfold Auction.submitEpochTotal
    split <;> exact .inl rfl
  | newEpoch => exact .inr (.inl rfl)
  | _ => exact .inl rfl

variable {id : String}

theorem ok_join (h : ok id x (.method (.join j))) : x = .mustJoin ∧ j = id := by
  cases x <;> simp_all [ok]

theorem after_plain (h : a ≠ .method .startEpochChain) (r : a.Res) : after .plain a r = .plain := by
  cases a with
  | method op =>
    cases op with
    | startEpochChain => exact absurd rfl h
    | _ => rfl
  | _ => rfl

theorem after_announcing {k : Key} (h : ok id (.announcing k) a) (r : a.Res) :
    after (.announcing k) a r = .announcing k := by
  cases a with
  | send dest m | snapshot | peerIDs => rfl
  | _ => rcases h with h | h <;> cases h

theorem after_ne_mustJoin (h : ok id x a) (r : a.Res) : after x a r ≠ .mustJoin := by
  cases x with
  | plain =>
    by_cases hstart : a = .method .startEpochChain
    · subst hstart
      simp only [after]
      split <;> nofun
    · rw [after_plain hstart]
      nofun
  | mustJoin =>
    obtain rfl : a = .method (.join id) := h
    nofun
  | mustAdvance k =>
    obtain rfl : a = .method (.advanceEpochChain k) := h
    simp only [after]
    split <;> nofun
  | mustSend dest k =>
    obtain rfl : a = .send dest (chainMsg k) := h
    nofun
  | announcing k => nofun

variable {S : System} {id : String} {a : Action Link} {k : a.Res → RelayM Link Unit}

theorem act_auction : (S.act env ω id a k).auction =
    ((methodOf env S.relay a).map fun op => op.apply S.auction).getD S.auction := by
  cases a with
  | send dest m => simp [System.act, System.auction, sem, methodOf]
  | _ => rfl

theorem status_act_other (hj : j ≠ id) : (S.act env ω id a k).status j = S.status j := by
  simp [System.act, hj]

theorem handlers_act_other (hj : j ≠ id) : (S.act env ω id a k).handlers j = S.handlers j := by
  simp [System.act, hj]

variable (env ω S id a k) in
theorem status_act : (S.act env ω id a k).status id =
    System.statusAfter (after (S.status id) a (sem env ω a S.relay).1)
      (k (sem env ω a S.relay).1) := by
  simp [System.act]

theorem received_act (j : String) : (S.act env ω id a k).relay.received j =
    S.relay.received j ++ delivered S.relay a j := by
  cases a with
  | send dest m => exact received_deliver ..
  | _ => exact (append_nil _).symm

theorem unread_act (h : Books S) (j : String) :
    (S.act env ω id a k).unread j = S.unread j ++ delivered S.relay a j := by
  have hseen : (S.act env ω id a k).seen j = S.seen j := rfl
  rw [System.unread, received_act, hseen, drop_append_of_le_length (h.seen_le j)]
  rfl

theorem order_act (env : Env Link) (ω : PeerOrder) (k : a.Res → RelayM Link Unit) (h : Books S)
    (hok : ok id (S.status id) a) :
    (S.act env ω id a k).auction.order.Nodup ∧
      ∀ j ∈ (S.act env ω id a k).auction.order, j ∈ S.auction.order ∨
        (j = id ∧ S.status id = .mustJoin) := by
  have hsame : ∀ j ∈ S.auction.order, j ∈ S.auction.order ∨ (j = id ∧ S.status id = .mustJoin) :=
    fun j hj => .inl hj
  rw [act_auction]
  cases hop : methodOf env S.relay a with
  | none => exact ⟨h.order_nodup, hsame⟩
  | some op =>
    simp only [Option.map_some, Option.getD_some]
    rcases order_apply op S.auction with ⟨j, rfl, horder⟩ | ⟨j, horder⟩ | horder
    · have hact : a = .method (.join j) := by
        cases a with
        | method op => exact congrArg Action.method (Option.some.inj hop)
        | settle accepted | _ => cases hop
      subst hact
      obtain ⟨hstatus, rfl⟩ := ok_join hok
      have hnew := h.joining j hstatus
      refine ⟨h.order_nodup.append (nodup_singleton j) (by simpa using hnew), fun i hi => ?_⟩
      rcases mem_append.mp hi with hi | hi
      · exact .inl hi
      · exact .inr ⟨mem_singleton.mp hi, hstatus⟩
    · rw [horder]
      exact ⟨h.order_nodup.erase j, fun i hi => .inl (mem_of_mem_erase hi)⟩
    · rw [horder]
      exact ⟨h.order_nodup, hsame⟩

theorem party_act (h : Books S) : (S.act env ω id a k).auction.epochParty.Nodup := by
  rw [act_auction]
  cases methodOf env S.relay a with
  | none => exact h.party_nodup
  | some op =>
    simp only [Option.map_some, Option.getD_some]
    rcases party_apply op S.auction with hp | hp | hp <;> rw [hp]
    exacts [h.party_nodup, nodup_nil, h.order_nodup]

theorem issued_act (j : String) : Issued (S.act env ω id a k) j ↔ Issued S j := by
  have hnext : (S.act env ω id a k).relay.nextID = S.relay.nextID := by
    cases a with
    | send dest m => simp [System.act, sem]
    | _ => rfl
  rw [Issued, hnext, Issued]

theorem issued_of_act (h : Books S) (hact : S.handlers id = .act a k) : Issued S id := by
  by_contra hno
  rw [(h.blank id hno).handler] at hact
  cases hact

theorem Books.step (h : Books S) (hact : S.handlers id = .act a k) :
    ok id (S.status id) a ∧ ∀ r, Keeps id (after (S.status id) a r) (k r) := by
  have hfollows := h.follows id
  rwa [hact] at hfollows

theorem joining_act (hok : ok id (S.status id) a) (hj : (S.act env ω id a k).status j = .mustJoin) :
    j ≠ id ∧ S.status j = .mustJoin := by
  by_cases hji : j = id
  · subst hji
    rw [status_act] at hj
    cases hk : k (sem env ω a S.relay).1 with
    | ret u => rw [hk] at hj; cases hj
    | act a' k' => rw [hk] at hj; exact absurd hj (after_ne_mustJoin hok _)
  · exact ⟨hji, status_act_other hji ▸ hj⟩

theorem keeps_act (h : Books S) (hact : S.handlers id = .act a k) (j : String) :
    Keeps j ((S.act env ω id a k).status j) ((S.act env ω id a k).handlers j) := by
  by_cases hji : j = id
  · subst hji
    have hk := (h.step hact).2 (sem env ω a S.relay).1
    simp only [System.act, update_self]
    cases hp : k (sem env ω a S.relay).1 with
    | ret u => exact trivial
    | act a' k' =>
      rw [hp] at hk
      exact hk
  · rw [status_act_other hji, handlers_act_other hji]
    exact h.follows j

theorem idle_act (h : Books S) (hj : (S.act env ω id a k).handlers j = .ret ()) :
    (S.act env ω id a k).status j = .plain := by
  by_cases hji : j = id
  · subst hji
    rw [status_act]
    simp only [System.act, update_self] at hj
    rw [hj]
    rfl
  · rw [status_act_other hji]
    exact h.idle j (handlers_act_other hji ▸ hj)

theorem blank_act (h : Books S) (hissued : Issued S id) (hj : ¬ Issued S j) :
    Blank (S.act env ω id a k) j := by
  have hji : j ≠ id := fun heq => hj (heq ▸ hissued)
  have hb := h.blank j hj
  refine ⟨handlers_act_other hji |>.trans hb.handler, status_act_other hji |>.trans hb.status,
    hb.outbox, hb.isOpen, ?_⟩
  have habsent : j ∉ S.relay.conns := fun hmem => hj (h.conns j hmem)
  rw [received_act, hb.received, nil_append]
  unfold delivered
  split
  · rw [if_neg]
    rintro ⟨hconn, rfl⟩
    exact habsent hconn
  · rfl

theorem Books.act (h : Books S) (hact : S.handlers id = .act a k) : Books (S.act env ω id a k) := by
  have hok := (h.step hact).1
  obtain ⟨hnodup, hnew⟩ := order_act env ω k h hok
  have hissued := issued_of_act h hact
  refine ⟨hnodup, party_act h, fun j hj => ?_, fun j hj => ?_, fun j hj hmem => ?_,
    keeps_act h hact, fun j => idle_act h, fun j hj => ?_, fun j => ?_, ?_⟩
  · rw [issued_act]
    rcases hnew j hj with hj | ⟨rfl, -⟩
    · exact h.listed j hj
    · exact hissued
  · rw [issued_act]
    exact h.conns j (conns_sem hj)
  · obtain ⟨hji, hjoin⟩ := joining_act hok hj
    rcases hnew j hmem with hmem | ⟨rfl, -⟩
    · exact h.joining j hjoin hmem
    · exact hji rfl
  · rw [issued_act] at hj
    exact blank_act h hissued hj
  · rw [received_act, length_append]
    exact (h.seen_le j).trans (Nat.le_add_right _ _)
  · simp only [System.act]
    split
    · exact Nat.lt_succ_self _
    · exact Nat.lt_succ_of_lt h.clock

def advances : Action Link → Bool
  | .method (.advanceEpochChain _) => true
  | _ => false

def handsOn : Action Link → Bool
  | .send _ m => m.type = .epochchain
  | _ => false

theorem placed_at_handler {S' : System} (id : String)
    (hbusy : ∀ j, j ≠ id → (S'.status j).busy = false)
    (hunread : ∀ j, S'.isOpen j = true → chainKeys (S'.unread j) = [])
    (hanswers : ∀ j, answers (S'.outbox j) = [])
    (hholds : (S'.status id).busy = false ∨
      StatusHolds S'.auction S'.startedAt (S'.status id)) : ∃ loc, Placed S' loc := by
  rcases hholds with hfree | hholds
  · refine ⟨none, fun j _ => ?_, fun j _ => hunread j, fun j _ => hanswers j, nofun⟩
    by_cases hj : j = id
    · subst hj
      exact hfree
    · exact hbusy j hj
  · refine ⟨some (.handler id), fun j hj => hbusy j fun heq => hj (by rw [heq]),
      fun j _ => hunread j, fun j _ => hanswers j, ?_⟩
    rintro l hl
    obtain rfl : Loc.handler id = l := Option.some.inj hl
    exact hholds

theorem chainKeys_append (ms ns : List (Msg Link)) :
    chainKeys (ms ++ ns) = chainKeys ms ++ chainKeys ns := filterMap_append

theorem type_of_offChain (h : offChain m = true) :
    m.type ≠ .epochchain ∧ m.type ≠ .epochkey := by
  constructor <;> intro heq <;> simp [offChain, heq] at h

theorem advances_of_ok (h : ok id .plain a) : advances a = false := by
  cases a with
  | method op =>
    cases op with
    | advanceEpochChain pk => exact (show False from h).elim
    | _ => rfl
  | _ => rfl

theorem handsOn_of_ok (h : ok id .plain a) : handsOn a = false := by
  cases a with
  | send dest m => exact decide_eq_false (type_of_offChain h).1
  | _ => rfl

theorem chainKeys_delivered (hsend : handsOn a = false) (s : RelayState Link) (j : String) :
    chainKeys (delivered s a j) = [] := by
  cases a with
  | send dest m =>
    simp only [delivered]
    split
    · simp [chainKeys, of_decide_eq_false hsend]
    · rfl
  | _ => rfl

theorem chainKeys_act (h : Books S) (hsend : handsOn a = false) (j : String) :
    chainKeys ((S.act env ω id a k).unread j) = chainKeys (S.unread j) := by
  rw [unread_act h, chainKeys_append, chainKeys_delivered hsend, append_nil]

theorem startedAt_act (h : S.auction.epoch = .audit) :
    (S.act env ω id a k).startedAt = S.startedAt := by
  simp [System.act, System.freezes, h]

theorem sameChain_act (haudit : S.auction.epoch = .audit) (hadvance : advances a = false)
    (hcut : cuts S.auction a = false) : SameChain S.auction (S.act env ω id a k).auction := by
  rw [act_auction]
  cases a with
  | method op => exact sameChain_apply haudit (by rintro pk rfl; cases hadvance) hcut
  | settle accepted => exact sameChain_apply haudit (fun pk heq => by cases heq) rfl
  | _ => exact ⟨rfl, rfl, rfl⟩

theorem Placed.act_free (hb : Books S) (h : Placed S loc)
    (hact : S.handlers id = .act a k) (hguard : Undisturbed S (.act id))
    (hfree : (S.status id).busy = false) (hstays : ((S.act env ω id a k).status id).busy = false)
    (hadvance : advances a = false) (hsend : handsOn a = false) :
    Placed (S.act env ω id a k) loc := by
  refine h.of_same (fun l hl => ?_) (fun j => ?_) (fun _ => .inl rfl) (chainKeys_act hb hsend)
    (fun _ => rfl)
  · have hholds := h.holds l hl
    have hcut : cuts S.auction a = false := by
      by_contra hcuts
      have hnext : cutsNext S (.act id) = true := by
        simpa [cutsNext, System.pending, hact] using hcuts
      exact hguard hnext hholds.inFlight
    exact ⟨sameChain_act hholds.audit hadvance hcut, startedAt_act hholds.audit⟩
  · by_cases hji : j = id
    · subst hji
      exact .inr ⟨hstays, hfree⟩
    · exact .inl (status_act_other hji)

theorem statusAfter_plain (p : RelayM Link Unit) : System.statusAfter .plain p = .plain := by
  cases p <;> rfl

theorem statusAfter_of_keeps {p : RelayM Link Unit} (h : Keeps id x p)
    (hx : ¬ ends x ()) : System.statusAfter x p = x := by
  cases p with
  | ret u => exact absurd h hx
  | act a' k' => rfl

theorem Placed.act_here (hb : Books S) (h : Placed S loc)
    (hloc : ∀ l, loc = some l → l = .handler id) (hsend : handsOn a = false)
    (hholds : ((S.act env ω id a k).status id).busy = false ∨
      StatusHolds (S.act env ω id a k).auction (S.act env ω id a k).startedAt
        ((S.act env ω id a k).status id)) : ∃ loc', Placed (S.act env ω id a k) loc' := by
  refine placed_at_handler id (fun j hj => ?_) (fun j ho => ?_) (fun j => ?_) hholds
  · rw [status_act_other hj]
    exact h.busy j fun hl => hj (Loc.handler.inj (hloc _ hl))
  · rw [chainKeys_act hb hsend]
    exact h.unread j (fun hl => nomatch hloc _ hl) ho
  · exact h.answer j fun hl => nomatch hloc _ hl

section

variable {loc : Option Loc} (hb : Books S) (h : Placed S loc) (hact : S.handlers id = .act a k)
  (hguard : Undisturbed S (.act id))

include hb h hact hguard

theorem Placed.act_plain (hplain : S.status id = .plain) : ∃ loc', Placed
    (S.act env ω id a k) loc' := by
  obtain ⟨hok, hnext⟩ := hb.step hact
  have hstatus := status_act env ω S id a k
  rw [hplain] at hok hnext hstatus
  have hfree : (S.status id).busy = false := by rw [hplain]; rfl
  by_cases hstart : a = .method .startEpochChain
  · subst hstart
    have hkeep := hnext (S.auction.startEpochChain.1)
    have hafter : after .plain (.method .startEpochChain) S.auction.startEpochChain.1 =
        if S.auction.startEpochChain.1 = "" then .plain
        else .mustSend S.auction.startEpochChain.1 [] := rfl
    change (S.act env ω id _ k).status id = System.statusAfter
      (after .plain (.method .startEpochChain) S.auction.startEpochChain.1)
      (k S.auction.startEpochChain.1) at hstatus
    rw [hafter] at hkeep hstatus
    by_cases hfirst : S.auction.startEpochChain.1 = ""
    · rw [if_pos hfirst, statusAfter_plain] at hstatus
      exact ⟨loc, h.act_free hb hact hguard hfree (by rw [hstatus]; rfl) rfl rfl⟩
    · have haudit : S.auction.epoch ≠ .audit := by
        intro haudit
        simp [Auction.startEpochChain, haudit] at hfirst
      rw [if_neg hfirst] at hkeep hstatus
      rw [statusAfter_of_keeps hkeep fun hend => hend] at hstatus
      -- no extension can be under way outside an audit
      refine h.act_here hb (fun l hl => absurd (h.holds l hl).audit haudit) rfl (.inr ?_)
      rw [hstatus]
      exact turn_start haudit hfirst _
  · rw [after_plain hstart, statusAfter_plain] at hstatus
    exact ⟨loc, h.act_free hb hact hguard hfree (by rw [hstatus]; rfl) (advances_of_ok hok)
      (handsOn_of_ok hok)⟩

theorem Placed.act_join (hjoin : S.status id = .mustJoin) : ∃ loc', Placed
    (S.act env ω id a k) loc' := by
  have hok := (hb.step hact).1
  have hstatus := status_act env ω S id a k
  rw [hjoin] at hok hstatus
  obtain rfl : a = .method (.join id) := hok
  change (S.act env ω id _ k).status id = System.statusAfter .plain _ at hstatus
  rw [statusAfter_plain] at hstatus
  exact ⟨loc, h.act_free hb hact hguard (by rw [hjoin]; rfl) (by rw [hstatus]; rfl) rfl rfl⟩

end

theorem Placed.at_handler (h : Placed S loc) (hstat : S.status id = x) (hbusy : x.busy = true) :
    loc = some (.handler id) ∧ StatusHolds S.auction S.startedAt x := by
  subst hstat
  have hloc : loc = some (.handler id) := by
    by_contra hl
    rw [h.busy id hl] at hbusy
    cases hbusy
  exact ⟨hloc, h.holds _ hloc⟩

section

variable {loc : Option Loc} (hb : Books S) (h : Placed S loc) (hact : S.handlers id = .act a k)

include hb h hact

theorem Placed.act_advance {key : Key} (hstat : S.status id = .mustAdvance key) :
    ∃ loc', Placed (S.act env ω id a k) loc' := by
  obtain ⟨rfl, hanswered⟩ := h.at_handler hstat rfl
  obtain ⟨hok, hnext⟩ := hb.step hact
  have hstatus := status_act env ω S id a k
  rw [hstat] at hok hnext hstatus
  obtain rfl : a = .method (.advanceEpochChain key) := hok
  have hkeep := hnext (S.auction.advanceEpochChain key).1
  change (S.act env ω id _ k).status id = System.statusAfter
    (if (S.auction.advanceEpochChain key).1.2 then .announcing key
      else .mustSend (S.auction.advanceEpochChain key).1.1 key)
    (k (S.auction.advanceEpochChain key).1) at hstatus
  change Keeps id (if (S.auction.advanceEpochChain key).1.2 then .announcing key
      else .mustSend (S.auction.advanceEpochChain key).1.1 key) _ at hkeep
  refine h.act_here hb (fun l hl => (Option.some.inj hl).symm) rfl ?_
  rw [startedAt_act (Answered.audit hanswered), hstatus]
  rcases Answered.advance hanswered with ⟨hdone, hcomplete⟩ | ⟨hmore, hturn⟩
  · rw [hdone, if_pos rfl]
    cases k (S.auction.advanceEpochChain key).1 with
    | ret u => exact .inl rfl
    | act a' k' => exact .inr hcomplete
  · rw [hmore] at hkeep ⊢
    rw [statusAfter_of_keeps hkeep fun hend => hend]
    exact .inr hturn

theorem Placed.act_send {dest : String} {key : Key} (hstat : S.status id = .mustSend dest key) :
    ∃ loc', Placed (S.act env ω id a k) loc' := by
  obtain ⟨rfl, hturn⟩ := h.at_handler hstat rfl
  have hok := (hb.step hact).1
  have hstatus := status_act env ω S id a k
  rw [hstat] at hok hstatus
  obtain rfl : a = .send dest (chainMsg key) := hok
  change (S.act env ω id _ k).status id = System.statusAfter .plain _ at hstatus
  rw [statusAfter_plain] at hstatus
  have hbusy : ∀ j, ((S.act env ω id _ k).status j).busy = false := by
    intro j
    by_cases hj : j = id
    · subst hj
      rw [hstatus]
      rfl
    · rw [status_act_other hj]
      exact h.busy j fun heq => hj (by cases heq; rfl)
  have hkeys : ∀ j, S.isOpen j = true → chainKeys ((S.act env ω id _ k).unread j) =
      if dest ∈ S.relay.conns ∧ dest = j then [key] else [] := by
    intro j ho
    rw [unread_act hb, chainKeys_append, h.unread j nofun ho, delivered]
    split <;> simp [chainKeys, chainMsg]
  by_cases hthere : dest ∈ S.relay.conns ∧ S.isOpen dest = true
  · refine ⟨some (.tab dest), fun j _ => hbusy j, fun j hj ho => ?_, fun j _ => h.answer j nofun,
      ?_⟩
    · rw [hkeys j ho, if_neg]
      rintro ⟨-, rfl⟩
      exact hj rfl
    · rintro l hl
      obtain rfl : Loc.tab dest = l := Option.some.inj hl
      refine ⟨hthere.2, key, by rw [hkeys dest hthere.2, if_pos ⟨hthere.1, rfl⟩], ?_⟩
      exact Turn.congr hturn (sameChain_act (Turn.audit hturn) rfl rfl)
  · refine placed_at_handler id (fun j _ => hbusy j) (fun j ho => ?_) (fun j => h.answer j nofun)
      (.inl (hbusy id))
    rw [hkeys j ho, if_neg]
    rintro ⟨hconn, rfl⟩
    exact hthere ⟨hconn, ho⟩

theorem Placed.act_announce {key : Key} (hstat : S.status id = .announcing key) :
    ∃ loc', Placed (S.act env ω id a k) loc' := by
  obtain ⟨rfl, hcomplete⟩ := h.at_handler hstat rfl
  have hok := (hb.step hact).1
  have hstatus := status_act env ω S id a k
  rw [hstat] at hok hstatus
  obtain ⟨hadvance, hsend, hcut⟩ : advances a = false ∧ handsOn a = false ∧
      cuts S.auction a = false := by
    cases a with
    | send dest m =>
      refine ⟨rfl, decide_eq_false ?_, rfl⟩
      rcases hok with hoff | rfl
      · exact (type_of_offChain hoff).1
      · nofun
    | snapshot | peerIDs => exact ⟨rfl, rfl, rfl⟩
    | _ => rcases hok with hok | hok <;> cases hok
  have haudit := Complete.audit hcomplete
  refine h.act_here hb (fun l hl => (Option.some.inj hl).symm) hsend ?_
  rw [startedAt_act haudit, hstatus, after_announcing hok]
  cases k (sem env ω a S.relay).1 with
  | ret u => exact .inl rfl
  | act a' k' => exact .inr (Complete.congr hcomplete (sameChain_act haudit hadvance hcut))

theorem Placed.act (hguard : Undisturbed S (.act id)) :
    ∃ loc', Placed (S.act env ω id a k) loc' := by
  cases hstat : S.status id with
  | plain => exact h.act_plain hb hact hguard hstat
  | mustJoin => exact h.act_join hb hact hguard hstat
  | mustAdvance key => exact h.act_advance hb hact hstat
  | mustSend dest key => exact h.act_send hb hact hstat
  | announcing key => exact h.act_announce hb hact hstat

end

end

section

structure Inv (S : System) : Prop where
  books : Books S
  placed : ∃ loc, Placed S loc

theorem inv_start : Inv System.start := ⟨books_start, none, placed_start⟩

theorem inv_step {m : Move} (h : Inv S) (hguard : Undisturbed S m)
    (hstep : step env ω S m = some S') : Inv S' := by
  obtain ⟨hb, loc, hp⟩ := h
  revert hstep
  fun_cases step env ω S m with
  | case1 =>
    rintro ⟨⟩
    exact ⟨hb.connect, loc, hp.connect hb⟩
  | case3 id a k hact =>
    rintro ⟨⟩
    exact ⟨hb.act hact, hp.act hb hact hguard⟩
  | case4 id u m rest hout hret =>
    rintro ⟨⟩
    exact ⟨hb.serve hout, hp.serve (hb.idle id hret) hout⟩
  | case5 id u rest hout hret =>
    rintro ⟨⟩
    exact ⟨hb.hangUp hret hout, loc, hp.hangUp hout⟩
  | case7 id m rest hunread hopen =>
    rintro ⟨⟩
    exact ⟨hb.receive hopen hunread, hp.receive hb hopen hunread⟩
  | case9 id m hpress =>
    rintro ⟨⟩
    exact ⟨hb.push hpress.1 _, loc, hp.push (by simp [answers, hpress.2])⟩
  | case11 id hopen =>
    rintro ⟨⟩
    exact ⟨hb.close hopen, hp.close⟩
  | _ => rintro ⟨⟩

theorem announcing_of_send {id dest : String}
    (h : ok id x (.send dest m)) (hm : m.type = .epochkey) : x = .announcing m.blob := by
  cases x with
  | plain => exact absurd hm (type_of_offChain h).2
  | mustJoin | mustAdvance k => cases h
  | mustSend dest' k =>
    obtain ⟨-, rfl⟩ := Action.send.inj h
    cases hm
  | announcing k =>
    rcases h with hoff | rfl
    · exact absurd hm (type_of_offChain hoff).2
    · rfl

end

/-- In a run that cuts no audit while an extension of its key is under way, a key is announced
during the audit only, and has one link of each member of the frozen party, in order, all of them
made after the party was frozen. -/
theorem announced_key (env : Env Link) (ω : PeerOrder) {S : System}
    (hrun : Run (step env ω) Undisturbed System.start S) {id dest : String} {m : Msg Link}
    (hsend : S.pending id = some (.send dest m)) (hm : m.type = .epochkey) :
    S.auction.epoch = .audit ∧ m.blob.map Link.tab = S.auction.epochParty ∧
      S.auction.epochParty.Nodup ∧ ∀ l ∈ m.blob, S.startedAt < l.time := by
  have hinv : Inv S :=
    hrun.invariant (fun _ _ _ h hguard hstep => inv_step h hguard hstep) inv_start
  obtain ⟨hb, loc, hp⟩ := hinv
  unfold System.pending at hsend
  split at hsend
  · cases hsend
  · rename_i a k hact
    obtain rfl : a = .send dest m := Option.some.inj hsend
    have hstat := announcing_of_send (hb.step hact).1 hm
    obtain ⟨-, hcomplete⟩ := hp.at_handler hstat rfl
    exact ⟨Complete.audit hcomplete, Complete.names hcomplete, hb.party_nodup,
      Complete.times hcomplete⟩

def acts (id : String) (n : ℕ) : List Move := List.replicate n (.act id)

def receives (id : String) (n : ℕ) : List Move := List.replicate n (.receive id)

def firstLink : List Move :=
  [.connect] ++ acts "p1" 4 ++ [.connect] ++ acts "p2" 5 ++
    [.press "p1" { type := .epochstart }, .read "p1"] ++ acts "p1" 6 ++ receives "p1" 3

def bothLinks : List Move :=
  firstLink ++ [.read "p1"] ++ acts "p1" 2 ++ receives "p2" 3 ++ [.read "p2"] ++ acts "p2" 6

theorem announced_key_both :
    let S := play (step testEnv .listed) System.start bothLinks
    S.auction.epoch = .audit ∧ ["p1", "p2"] = S.auction.epochParty ∧
      S.auction.epochParty.Nodup ∧ S.startedAt < 22 ∧ S.startedAt < 28 := by
  intro S
  have huncut : Guarded (step testEnv .listed) (fun S m => cutsNext S m = false) System.start
      bothLinks := by decide +kernel
  have hrun : Run (step testEnv .listed) Undisturbed System.start S :=
    huncut.run fun S m hno hcut => by rw [hno] at hcut; cases hcut
  have hsend : S.pending "p2" = some (.send "p1"
      { type := .epochkey, blob := [⟨"p1", 22⟩, ⟨"p2", 28⟩] }) := by decide +kernel
  obtain ⟨haudit, hnames, hnodup, htimes⟩ := announced_key testEnv .listed hrun hsend rfl
  exact ⟨haudit, hnames, hnodup, htimes ⟨"p1", 22⟩ (by simp), htimes ⟨"p2", 28⟩ (by simp)⟩

def lostParty : List Move :=
  firstLink ++ [.close "p2", .read "p2"] ++ acts "p2" 2 ++ [.read "p1"] ++ acts "p1" 5

/-- The late link then completes a chain that has no party: a key with one link is
announced after the audit was given up. -/
theorem key_announced_after_abort :
    ∃ S, Run (step testEnv .listed) (fun _ _ => True) System.start S ∧ ∃ m,
      S.pending "p1" = some (.send "p1" m) ∧ m.type = .epochkey ∧ S.auction.epoch = .ready ∧
        m.blob.map Link.tab ≠ S.auction.epochParty := by
  have henabled : Guarded (step testEnv .listed) (fun _ _ => True) System.start lostParty := by
    decide +kernel
  refine ⟨_, henabled.run fun _ _ _ => trivial,
    { type := .epochkey, blob := [⟨"p1", 22⟩] }, ?_⟩
  decide +kernel

end EnergyEpochChain
