import Ares.EnergyRelay
import Ares.EnergyAuctionRounds

/-! Every connection is served by a goroutine of its own: it registers, joins, handles one frame
after another and leaves. A pool of such programs is the relay under every interleaving. -/
namespace EnergyRelayConnections

open InterleavedPrograms FiniteMaps EnergyAuction EnergyRelay List

variable {γ : Type}

inductive Step (γ : Type) where
  | register
  | read (m : Msg γ)
  | relay (a : EnergyRelay.Action γ)
  deriving DecidableEq

def Step.Res : Step γ → Type
  | .register => String
  | .read _ => Unit
  | .relay a => a.Res

def stepSem (env : Env γ) (ω : PeerOrder) :
    (x : Step γ) → RelayState γ → x.Res × RelayState γ
  | .register, s => (tabID (s.nextID + 1), s.register)
  | .read _, s => ((), s)
  | .relay a, s => sem env ω a s

abbrev ConnM (γ : Type) := Prog (Step γ) Step.Res

def take (x : Step γ) : ConnM γ x.Res := Prog.call x

def lift {α : Type} : RelayM γ α → ConnM γ α
  | .ret a => .ret a
  | .act a k => .act (.relay a) fun r => lift (k r)

def serveFrames (env : Env γ) (id : String) : List (Msg γ) → ConnM γ Unit
  | [] => lift (disconnected id)
  | m :: ms => do
    take (.read m)
    lift (handle env id m)
    serveFrames env id ms

def serveWS (env : Env γ) (frames : List (Msg γ)) : ConnM γ Unit := do
  let id : String ← take .register
  lift (connected id)
  serveFrames env id frames

abbrev RelayEvent (γ : Type) := Event (RelayState γ) (Step γ) Step.Res

abbrev Hub (ι γ : Type) := Pool ι (RelayState γ) (Step γ) Step.Res Unit

def Hub.start {ι : Type} (env : Env γ) (frames : ι → List (Msg γ)) : Hub ι γ :=
  Pool.start .fresh fun i => serveWS env (frames i)

def pubkeyMsg (pk : List γ) (kid : ℤ) : Msg γ := { type := .pubkey, blob := pk, keyID := kid }

def evalkeyMsg (ek : List γ) : Msg γ := { type := .evalkey, blob := ek }

def evaluateMsg (env : Env γ) (bids : List (List γ) × List ℤ) : Msg γ :=
  { type := .evaluate, blobs := bids.1, note := env.seatJSON bids.2 }

def masksMsg (env : Env γ) (masks : List (List γ)) (bids : List (List γ) × List ℤ) : Msg γ :=
  { type := .masks, blobs := masks, bids := bids.1, note := env.seatJSON bids.2 }

def wonMsg (m : Msg γ) (seat : ℤ) : Msg γ := { type := .won, seat := seat, price := m.price }

def epochsumMsg (cts : List (List γ)) : Msg γ := { type := .epochsum, blobs := cts }

def epochfuseMsg (parts : List (List γ)) : Msg γ := { type := .epochfuse, blobs := parts }

def method (id : String) (m : Msg γ) : Option (EnergyRelay.Action γ) :=
  match m.type with
  | .keys => some (.method (.publishKeys m.blob m.note))
  | .bid => some (.method (.submitBid id m.keyID m.blob))
  | .masks => some (.method (.setMasks m.blobs))
  | .offer => some (.method (.offer m.seat m.price))
  | .settle => some (.settle m.ok)
  | .epochstart => some (.method .startEpochChain)
  | .epochchained => some (.method (.advanceEpochChain m.blob))
  | .epochtotal => some (.method (.submitEpochTotal id m.blob))
  | .epochPartial => some (.method (.submitEpochPartial id m.blob))
  | .epochresult => some (.method (.closeEpoch m.price m.ok))
  | .newepoch => some (.method .newEpoch)
  | .reset => some (.method .reset)
  | .hour => some (.method (.setHour m.hour))
  | _ => none

/-- The place in its code of a registered connection. `idle` is between frames and while
it spreads states; the other places are named after what comes next. -/
inductive Work (γ : Type) where
  | joining
  | idle
  | opened (m : Msg γ)
  | published (pk ek : List γ)
  | numbered (pk ek : List γ) (kid : ℤ)
  | pushing (pk ek : List γ) (kid : ℤ) (ids : List String)
  | arming (ek : List γ) (kid : ℤ) (ev : Peer)
  | completed
  | collected (bids : List (List γ) × List ℤ)
  | evaluating (bids : List (List γ) × List ℤ) (ev : Peer)
  | masked (m : Msg γ)
  | pairing (m : Msg γ) (seller : String)
  | handing (m : Msg γ) (seller : String) (bids : List (List γ) × List ℤ)
  | settled (m : Msg γ) (seat : ℤ)
  | telling (m : Msg γ) (seat : ℤ) (winner : String)
  | gatheredTotals
  | summing (cts : List (List γ))
  | handingSum (cts : List (List γ)) (ev : Peer)
  | gatheredPartials
  | fusing (parts : List (List γ))
  | spreadingFuse (parts : List (List γ)) (dest : String) (ids : List String)
  | leaving
  | gone

def lightMsg (m : Msg γ) : Bool :=
  match m.type with
  | .pubkey | .evalkey | .evaluate | .masks | .won | .epochsum | .epochfuse => false
  | _ => true

def light : EnergyRelay.Action γ → Bool
  | .snapshot | .peerIDs => true
  | .send _ m => lightMsg m
  | _ => false

namespace Work

def opening (id : String) (m : Msg γ) : Work γ :=
  if (method id m).isSome then .opened m else .idle

def afterBid : BidResult → Work γ
  | .complete => .completed
  | _ => .idle

def afterSettle (m : Msg γ) (seat : ℤ) : Work γ :=
  if 0 ≤ seat ∧ m.ok then .settled m seat else .idle

def afterTotal (all : Bool) : Work γ := if all then .gatheredTotals else .idle

def afterPartial (all : Bool) : Work γ := if all then .gatheredPartials else .idle

def afterMethod (m : Msg γ) : (a : EnergyRelay.Action γ) → a.Res → Work γ
  | .method (.publishKeys pk ek), _ => .published pk ek
  | .method (.submitBid ..), result => afterBid result
  | .method (.setMasks _), _ => .masked m
  | .method (.submitEpochTotal ..), all => afterTotal all
  | .method (.submitEpochPartial ..), all => afterPartial all
  | .settle _, seat => afterSettle m seat
  | _, _ => .idle

def afterEvaluator (next : Peer → Work γ) : (a : EnergyRelay.Action γ) → a.Res → Work γ
  | .evaluator, some p => next p
  | _, _ => .idle

def named (next : String → Work γ) (id : String) : Work γ := if id ≠ "" then next id else .idle

def spread (parts : List (List γ)) : List String → Work γ
  | [] => .idle
  | dest :: ids => .spreadingFuse parts dest ids

def after : Work γ → (a : EnergyRelay.Action γ) → a.Res → Work γ
  | .joining, _, _ => .idle
  | .idle, .deregister _, _ => .leaving
  | .idle, _, _ => .idle
  | .opened m, a, r => afterMethod m a r
  | .published pk ek, .keyID, kid => .numbered pk ek kid
  | .published pk ek, _, _ => .published pk ek
  | .numbered pk ek kid, .peerIDs, ids => .pushing pk ek kid ids
  | .numbered .., _, _ => .idle
  | .pushing _ ek kid [], a, r => afterEvaluator (.arming ek kid) a r
  | .pushing pk ek kid (_ :: ids), _, _ => .pushing pk ek kid ids
  | .completed, .orderedBids, bids => .collected bids
  | .completed, _, _ => .completed
  | .collected bids, a, r => afterEvaluator (.evaluating bids) a r
  | .masked m, .sellerID, seller => named (.pairing m) seller
  | .masked _, _, _ => .idle
  | .pairing m seller, .orderedBids, bids => .handing m seller bids
  | .pairing .., _, _ => .idle
  | .settled m seat, .peerAtSeat _, winner => named (.telling m seat) winner
  | .settled .., _, _ => .idle
  | .gatheredTotals, .epochCiphertexts, cts => .summing cts
  | .gatheredTotals, _, _ => .idle
  | .summing cts, a, r => afterEvaluator (.handingSum cts) a r
  | .gatheredPartials, .epochPartials, parts => .fusing parts
  | .gatheredPartials, _, _ => .idle
  | .fusing parts, .peerIDs, ids => spread parts ids
  | .fusing _, _, _ => .idle
  | .spreadingFuse parts _ ids, _, _ => spread parts ids
  | .leaving, _, _ => .gone
  | .gone, _, _ => .gone
  | _, _, _ => .idle

def ok (env : Env γ) (id : String) : Work γ → EnergyRelay.Action γ → Prop
  | .joining, a => a = .method (.join id)
  | .idle, a => light a = true ∨ a = .keyID ∨ a = .deregister id
  | .opened m, a => method id m = some a
  | .published .., a => light a = true ∨ a = .keyID
  | .numbered .., a => a = .peerIDs
  | .pushing _ _ _ [], a => a = .evaluator
  | .pushing pk _ kid (dest :: _), a => a = .send dest (pubkeyMsg pk kid)
  | .arming ek _ ev, a => a = .send ev.id (evalkeyMsg ek)
  | .completed, a => light a = true ∨ a = .orderedBids
  | .collected _, a => a = .evaluator
  | .evaluating bids ev, a => a = .send ev.id (evaluateMsg env bids)
  | .masked _, a => a = .sellerID
  | .pairing .., a => a = .orderedBids
  | .handing m seller bids, a => a = .send seller (masksMsg env m.blobs bids)
  | .settled _ seat, a => a = .peerAtSeat seat
  | .telling m seat winner, a => a = .send winner (wonMsg m seat)
  | .gatheredTotals, a => a = .epochCiphertexts
  | .summing _, a => a = .evaluator
  | .handingSum cts ev, a => a = .send ev.id (epochsumMsg cts)
  | .gatheredPartials, a => a = .epochPartials
  | .fusing _, a => a = .peerIDs
  | .spreadingFuse parts dest _, a => a = .send dest (epochfuseMsg parts)
  | .leaving, a => a = .method (.leave id)
  | .gone, a => light a = true

def spreading : Work γ → Bool
  | .idle | .published .. | .completed | .gone => true
  | _ => false

end Work

variable {w : Work γ} {env : Env γ} {id : String} {ι : Type} {ω : PeerOrder}
  {frames : ι → List (Msg γ)}

section

variable (env : Env γ) (id : String)

abbrev Keeps (w : Work γ) (p : RelayM γ Unit) : Prop :=
  p.Follows Work.after (Work.ok env id) (fun w' _ => w' = .idle) w

abbrev Stays (w : Work γ) (p : RelayM γ Unit) : Prop :=
  p.Follows Work.after (Work.ok env id) (fun w' _ => w' = w) w

variable {env id} {p q : RelayM γ Unit}

theorem Stays.seq (hp : Stays env id w p) (hq : Keeps env id w q) :
    Keeps env id w (p >>= fun _ => q) := by
  refine hp.bind fun w' _ hw => ?_
  subst hw
  exact hq

/-- Where light steps are in order and change nothing, a broadcast is. -/
structure Spreads (env : Env γ) (id : String) (w : Work γ) : Prop where
  ok : ∀ a, light a = true → w.ok env id a
  after : ∀ a, light a = true → ∀ r, w.after a r = w

theorem spreads_of_spreading (h : w.spreading = true) : Spreads env id w where
  ok := by
    intro a ha
    cases w <;> first | exact .inl ha | exact ha | cases h
  after := by
    intro a ha r
    cases w with
    | idle | published | completed => cases a <;> first | rfl | cases ha
    | gone => rfl
    | _ => cases h

theorem spreads_idle : Spreads env id (.idle : Work γ) := spreads_of_spreading rfl

theorem Spreads.sendEach (h : Spreads env id w) {f : String → Msg γ}
    (hf : ∀ dest, lightMsg (f dest) = true) (ids : List String) :
    Stays env id w (sendEach f ids) := by
  induction ids with
  | nil => rfl
  | cons dest ids ih =>
    refine ⟨h.ok _ (hf dest), fun r => ?_⟩
    rw [h.after (.send dest (f dest)) (hf dest)]
    exact ih

theorem Spreads.sendAll (h : Spreads env id w) {m : Msg γ} (hm : lightMsg m = true) :
    Stays env id w (sendAll m) := by
  refine ⟨h.ok _ rfl, fun ids => ?_⟩
  rw [h.after _ rfl]
  exact h.sendEach (fun _ => hm) ids

theorem Spreads.broadcast (h : Spreads env id w) : Stays env id w broadcast := by
  refine ⟨h.ok _ rfl, fun snap => ?_⟩
  rw [h.after _ rfl]
  refine ⟨h.ok _ rfl, fun ids => ?_⟩
  rw [h.after _ rfl]
  exact h.sendEach (fun _ => rfl) ids

theorem keeps_broadcast : Keeps env id .idle broadcast := spreads_idle.broadcast

variable {m : Msg γ}

theorem keeps_send (dest : String) (hm : lightMsg m = true) (hp : Keeps env id .idle p) :
    Keeps env id .idle (ask (.send dest m) >>= fun _ => p) :=
  ⟨.inl hm, fun _ => hp⟩

theorem keeps_handleKeys (hm : m.type = .keys) : Keeps env id (.opened m) (handleKeys m) := by
  refine ⟨by simp [Work.ok, method, hm], fun _ => ?_⟩
  refine (spreads_of_spreading (w := .published m.blob m.note) rfl).broadcast.seq
    ⟨.inr rfl, fun kid => ⟨rfl, fun ids => ?_⟩⟩
  induction (show List String from ids) with
  | nil =>
    refine ⟨rfl, fun ev => ?_⟩
    cases ev with
    | none => rfl
    | some p => exact ⟨rfl, fun _ => rfl⟩
  | cons dest ids ih => exact ⟨rfl, fun _ => ih⟩

theorem keeps_handleBid (hm : m.type = .bid) : Keeps env id (.opened m) (handleBid env id m) := by
  refine ⟨by simp [Work.ok, method, hm], fun result => ?_⟩
  cases result with
  | rejected => exact ⟨.inr (.inl rfl), fun kid => keeps_send id rfl keeps_broadcast⟩
  | stored => exact keeps_broadcast
  | complete =>
    refine (spreads_of_spreading rfl).broadcast.seq ⟨.inr rfl, fun bids => ⟨rfl, fun ev => ?_⟩⟩
    cases ev with
    | none => rfl
    | some p => exact ⟨rfl, fun _ => rfl⟩

theorem keeps_handleMasks (hm : m.type = .masks) :
    Keeps env id (.opened m) (handleMasks env m) := by
  refine ⟨by simp [Work.ok, method, hm], fun _ => ⟨rfl, fun seller => ?_⟩⟩
  change Keeps env id (Work.named (.pairing m) seller) (sendMasks env m seller)
  unfold Work.named sendMasks
  split
  · exact ⟨rfl, fun bids => ⟨rfl, fun _ => keeps_broadcast⟩⟩
  · exact keeps_broadcast

theorem keeps_handleSettle (hm : m.type = .settle) : Keeps env id (.opened m) (handleSettle m) := by
  refine ⟨by simp [Work.ok, method, hm], fun seat => ?_⟩
  change Keeps env id (Work.afterSettle m seat)
    (if 0 ≤ (show ℤ from seat) ∧ m.ok then
      (ask (.peerAtSeat seat) >>= (sendWon m seat)) else broadcast)
  unfold Work.afterSettle
  split
  · refine ⟨rfl, fun winner => ?_⟩
    change Keeps env id (Work.named (.telling m seat) winner) (sendWon m seat winner)
    unfold Work.named sendWon
    split
    · exact ⟨rfl, fun _ => keeps_broadcast⟩
    · exact keeps_broadcast
  · exact keeps_broadcast

theorem keeps_handleEpochstart (hm : m.type = .epochstart) :
    Keeps env id (.opened m) handleEpochstart := by
  refine ⟨by simp [Work.ok, method, hm], fun first => ?_⟩
  change Keeps env id .idle (if (show String from first) ≠ "" then
    (ask (.send first { type := .epochchain }) >>= fun _ => broadcast) else broadcast)
  split
  · exact keeps_send _ rfl keeps_broadcast
  · exact keeps_broadcast

theorem keeps_handleEpochchained (hm : m.type = .epochchained) :
    Keeps env id (.opened m) (handleEpochchained m) := by
  refine ⟨by simp [Work.ok, method, hm], fun step => ?_⟩
  obtain ⟨next, done⟩ := step
  cases done with
  | true => exact spreads_idle.broadcast.seq (spreads_idle.sendAll rfl)
  | false => exact keeps_send _ rfl keeps_broadcast

theorem keeps_handleEpochtotal (hm : m.type = .epochtotal) :
    Keeps env id (.opened m) (handleEpochtotal id m) := by
  refine ⟨by simp [Work.ok, method, hm], fun all => ?_⟩
  cases all with
  | false => exact keeps_broadcast
  | true =>
    refine ⟨rfl, fun cts => ⟨rfl, fun ev => ?_⟩⟩
    cases ev with
    | none => exact keeps_broadcast
    | some p => exact ⟨rfl, fun _ => keeps_broadcast⟩

theorem keeps_handleEpochPartial (hm : m.type = .epochPartial) :
    Keeps env id (.opened m) (handleEpochPartial id m) := by
  refine ⟨by simp [Work.ok, method, hm], fun all => ?_⟩
  cases all with
  | false => exact keeps_broadcast
  | true =>
    refine ⟨rfl, fun parts => ⟨rfl, fun ids => ?_⟩⟩
    induction (show List String from ids) with
    | nil => exact keeps_broadcast
    | cons dest ids ih => exact ⟨rfl, fun _ => ih⟩

theorem keeps_perform {op : Op γ} (hm : method id m = some (.method op))
    (hop : ∀ r, Work.afterMethod m (.method op) r = .idle) :
    Keeps env id (.opened m) (perform op) := by
  refine ⟨hm, fun r => ?_⟩
  change Keeps env id (Work.afterMethod m (.method op) r) broadcast
  rw [hop]
  exact keeps_broadcast

theorem keeps_handleNewepoch (hm : m.type = .newepoch) : Keeps env id (.opened m) handleNewepoch :=
  ⟨by simp [Work.ok, method, hm], fun _ => (spreads_idle.sendAll rfl).seq keeps_broadcast⟩

variable (env id) in
theorem keeps_handle (m : Msg γ) : Keeps env id (Work.opening id m) (handle env id m) := by
  unfold Work.opening
  cases hm : m.type <;> simp only [method, hm, handle]
  case keys => exact keeps_handleKeys hm
  case bid => exact keeps_handleBid hm
  case masks => exact keeps_handleMasks hm
  case settle => exact keeps_handleSettle hm
  case epochstart => exact keeps_handleEpochstart hm
  case epochchained => exact keeps_handleEpochchained hm
  case epochtotal => exact keeps_handleEpochtotal hm
  case epochPartial => exact keeps_handleEpochPartial hm
  case newepoch => exact keeps_handleNewepoch hm
  case epochsummed => exact spreads_idle.sendAll rfl
  case offer | epochresult | reset | hour =>
    exact keeps_perform (by simp only [method, hm]) fun _ => rfl
  all_goals rfl

end

abbrev Stage (γ : Type) := Option (String × Work γ)

namespace Stage

def after : Stage γ → (x : Step γ) → x.Res → Stage γ
  | none, .register, id => some (id, .joining)
  | none, _, _ => none
  | some (id, _), .read m, _ => some (id, .opening id m)
  | some (id, w), .relay a, r => some (id, w.after a r)
  | some (id, w), .register, _ => some (id, w)

def ok (env : Env γ) : Stage γ → Step γ → Prop
  | none, x => x = .register
  | some (_, w), .read _ => w = .idle
  | some (id, w), .relay a => w.ok env id a
  | some _, .register => False

end Stage

variable {env : Env γ}

variable {id : String}

theorem follows_lift {α : Type} {post : Work γ → α → Prop}
    {p : RelayM γ α} (hp : p.Follows Work.after (Work.ok env id) post w) :
    (lift p).Follows Stage.after (Stage.ok env)
      (fun x r => ∃ w', x = some (id, w') ∧ post w' r) (some (id, w)) := by
  induction p generalizing w with
  | ret r => exact ⟨w, rfl, hp⟩
  | act a k ih => exact ⟨hp.1, fun r => ih r (hp.2 r)⟩

theorem follows_serveFrames (env : Env γ) (id : String) (frames : List (Msg γ)) :
    (serveFrames env id frames).Follows Stage.after (Stage.ok env) (fun _ _ => True)
      (some (id, .idle)) := by
  induction frames with
  | nil =>
    have hgone : (disconnected id).Follows Work.after (Work.ok env id) (fun _ _ => True) .idle := by
      refine ⟨.inr (.inr rfl), fun _ => ⟨rfl, fun _ => ?_⟩⟩
      exact (spreads_of_spreading rfl).broadcast.mono fun _ _ _ => trivial
    exact (follows_lift hgone).mono fun _ _ _ => trivial
  | cons m frames ih =>
    refine ⟨rfl, fun _ => (follows_lift (keeps_handle env id m)).bind ?_⟩
    rintro x r ⟨w, rfl, rfl⟩
    exact ih

theorem follows_serveWS (env : Env γ) (frames : List (Msg γ)) :
    (serveWS env frames).Follows Stage.after (Stage.ok env) (fun _ _ => True) none := by
  refine ⟨rfl, fun id => ?_⟩
  have hjoin : (connected id).Follows Work.after (Work.ok env id) (fun w _ => w = .idle)
      .joining := ⟨rfl, fun _ => keeps_broadcast⟩
  refine (follows_lift hjoin).bind ?_
  rintro x r ⟨w, rfl, rfl⟩
  exact follows_serveFrames ..

def unanswered : Op γ → Bool
  | .startEpochChain | .advanceEpochChain _ | .closeEpoch .. | .newEpoch | .reset
  | .setHour _ => true
  | _ => false

inductive Goes (env : Env γ) (id : String) : Work γ → (x : Step γ) → x.Res → Work γ → Prop where
  | join (r) : Goes env id .joining (.relay (.method (.join id))) r .idle
  | light {w : Work γ} {a} (hw : w.spreading = true) (ha : light a = true) (r) :
      Goes env id w (.relay a) r w
  | refused (r) : Goes env id .idle (.relay .keyID) r .idle
  | skip {m} (hm : method id m = none) (r) : Goes env id .idle (.read m) r .idle
  | read {m a} (hm : method id m = some a) (r) : Goes env id .idle (.read m) r (.opened m)
  | call {m op} (hm : method id m = some (.method op)) (hop : unanswered op = true) (r) :
      Goes env id (.opened m) (.relay (.method op)) r .idle
  | publish {m : Msg γ} (hm : m.type = .keys) (r) :
      Goes env id (.opened m) (.relay (.method (.publishKeys m.blob m.note))) r
        (.published m.blob m.note)
  | number {pk ek} (kid) : Goes env id (.published pk ek) (.relay .keyID) kid (.numbered pk ek kid)
  | list {pk ek kid} (ids) :
      Goes env id (.numbered pk ek kid) (.relay .peerIDs) ids (.pushing pk ek kid ids)
  | push {pk ek kid dest ids} (r) :
      Goes env id (.pushing pk ek kid (dest :: ids)) (.relay (.send dest (pubkeyMsg pk kid))) r
        (.pushing pk ek kid ids)
  | unchosen {pk ek kid} (ev : Option Peer) (hev : ev = none) :
      Goes env id (.pushing pk ek kid []) (.relay .evaluator) ev .idle
  | choose {pk ek kid p} (ev : Option Peer) (hev : ev = some p) :
      Goes env id (.pushing pk ek kid []) (.relay .evaluator) ev (.arming ek kid p)
  | arm {ek kid ev} (r) :
      Goes env id (.arming ek kid ev) (.relay (.send ev.id (evalkeyMsg ek))) r .idle
  | bid {m : Msg γ} (hm : m.type = .bid) (result : BidResult) (hr : result ≠ .complete) :
      Goes env id (.opened m) (.relay (.method (.submitBid id m.keyID m.blob))) result .idle
  | complete {m : Msg γ} (hm : m.type = .bid) (result : BidResult) (hr : result = .complete) :
      Goes env id (.opened m) (.relay (.method (.submitBid id m.keyID m.blob))) result .completed
  | collect (bids) : Goes env id .completed (.relay .orderedBids) bids (.collected bids)
  | unpicked {bids} (ev : Option Peer) (hev : ev = none) :
      Goes env id (.collected bids) (.relay .evaluator) ev .idle
  | pick {bids p} (ev : Option Peer) (hev : ev = some p) :
      Goes env id (.collected bids) (.relay .evaluator) ev (.evaluating bids p)
  | evaluate {bids ev} (r) :
      Goes env id (.evaluating bids ev) (.relay (.send ev.id (evaluateMsg env bids))) r .idle
  | mask {m : Msg γ} (hm : m.type = .masks) (r) :
      Goes env id (.opened m) (.relay (.method (.setMasks m.blobs))) r (.masked m)
  | nobody {m} (seller : String) (hs : seller = "") :
      Goes env id (.masked m) (.relay .sellerID) seller .idle
  | seller {m} (seller : String) (hs : seller ≠ "") :
      Goes env id (.masked m) (.relay .sellerID) seller (.pairing m seller)
  | pair {m seller} (bids) : Goes env id (.pairing m seller) (.relay .orderedBids) bids
      (.handing m seller bids)
  | hand {m seller bids} (r) : Goes env id (.handing m seller bids)
      (.relay (.send seller (masksMsg env m.blobs bids))) r .idle
  | offer {m : Msg γ} (hm : m.type = .offer) (r) :
      Goes env id (.opened m) (.relay (.method (.offer m.seat m.price))) r .idle
  | settle {m : Msg γ} (hm : m.type = .settle) (seat : ℤ) (hs : ¬ (0 ≤ seat ∧ m.ok = true)) :
      Goes env id (.opened m) (.relay (.settle m.ok)) seat .idle
  | sell {m : Msg γ} (hm : m.type = .settle) (seat : ℤ) (hs : 0 ≤ seat ∧ m.ok = true) :
      Goes env id (.opened m) (.relay (.settle m.ok)) seat (.settled m seat)
  | empty {m seat} (winner : String) (hw : winner = "") :
      Goes env id (.settled m seat) (.relay (.peerAtSeat seat)) winner .idle
  | look {m seat} (winner : String) (hw : winner ≠ "") :
      Goes env id (.settled m seat) (.relay (.peerAtSeat seat)) winner (.telling m seat winner)
  | tell {m seat winner} (r) :
      Goes env id (.telling m seat winner) (.relay (.send winner (wonMsg m seat))) r .idle
  | total {m : Msg γ} (hm : m.type = .epochtotal) (all : Bool) (ha : all = false) :
      Goes env id (.opened m) (.relay (.method (.submitEpochTotal id m.blob))) all .idle
  | lastTotal {m : Msg γ} (hm : m.type = .epochtotal) (all : Bool) (ha : all = true) :
      Goes env id (.opened m) (.relay (.method (.submitEpochTotal id m.blob))) all
        .gatheredTotals
  | totals (cts) : Goes env id .gatheredTotals (.relay .epochCiphertexts) cts (.summing cts)
  | unsummed {cts} (ev : Option Peer) (hev : ev = none) :
      Goes env id (.summing cts) (.relay .evaluator) ev .idle
  | pickSum {cts p} (ev : Option Peer) (hev : ev = some p) :
      Goes env id (.summing cts) (.relay .evaluator) ev (.handingSum cts p)
  | handSum {cts ev} (r) :
      Goes env id (.handingSum cts ev) (.relay (.send ev.id (epochsumMsg cts))) r .idle
  | part {m : Msg γ} (hm : m.type = .epochPartial) (all : Bool) (ha : all = false) :
      Goes env id (.opened m) (.relay (.method (.submitEpochPartial id m.blob))) all .idle
  | lastPart {m : Msg γ} (hm : m.type = .epochPartial) (all : Bool) (ha : all = true) :
      Goes env id (.opened m) (.relay (.method (.submitEpochPartial id m.blob))) all
        .gatheredPartials
  | parts (parts) : Goes env id .gatheredPartials (.relay .epochPartials) parts (.fusing parts)
  | unlisted {parts} (ids : List String) (hids : ids = []) :
      Goes env id (.fusing parts) (.relay .peerIDs) ids .idle
  | listFuse {parts dest rest} (ids : List String) (hids : ids = dest :: rest) :
      Goes env id (.fusing parts) (.relay .peerIDs) ids (.spreadingFuse parts dest rest)
  | fuse {parts dest next rest} (r) : Goes env id (.spreadingFuse parts dest (next :: rest))
      (.relay (.send dest (epochfuseMsg parts))) r (.spreadingFuse parts next rest)
  | lastFuse {parts dest} (r) : Goes env id (.spreadingFuse parts dest [])
      (.relay (.send dest (epochfuseMsg parts))) r .idle
  | deregister (r) : Goes env id .idle (.relay (.deregister id)) r .leaving
  | leave (r) : Goes env id .leaving (.relay (.method (.leave id))) r .gone

section

variable {a : EnergyRelay.Action γ}

theorem goes_opened {m : Msg γ} (h : method id m = some a) (r : a.Res) :
    Goes env id (.opened m) (.relay a) r (.afterMethod m a r) := by
  have hm := h
  unfold method at h
  split at h
  case h_1 ht => cases h; exact .publish ht r
  case h_2 ht =>
    cases h
    cases r with
    | rejected => exact .bid ht .rejected (by rintro ⟨⟩)
    | stored => exact .bid ht .stored (by rintro ⟨⟩)
    | complete => exact .complete ht .complete rfl
  case h_3 ht => cases h; exact .mask ht r
  case h_4 ht => cases h; exact .offer ht r
  case h_5 ht =>
    cases h
    simp only [Work.afterMethod, Work.afterSettle]
    split
    · exact .sell ht r ‹_›
    · exact .settle ht r ‹_›
  case h_8 ht =>
    cases h
    cases r with
    | true => exact .lastTotal ht true rfl
    | false => exact .total ht false rfl
  case h_9 ht =>
    cases h
    cases r with
    | true => exact .lastPart ht true rfl
    | false => exact .part ht false rfl
  case h_14 => cases h
  all_goals cases h; exact .call hm rfl r

theorem goes_light (hw : w.spreading = true) (ha : light a = true) (r : a.Res) :
    Goes env id w (.relay a) r (w.after a r) := by
  have hspreads : Spreads env id w := spreads_of_spreading hw
  rw [hspreads.after a ha r]
  exact .light hw ha r

theorem goes_relay (h : w.ok env id a) (r : a.Res) : Goes env id w (.relay a) r (w.after a r) := by
  cases w with
  | joining => cases h; exact .join r
  | idle =>
    rcases h with h | rfl | rfl
    · exact goes_light rfl h r
    · exact .refused r
    · exact .deregister r
  | opened m => exact goes_opened h r
  | published pk ek =>
    rcases h with h | rfl
    · exact goes_light rfl h r
    · exact .number r
  | numbered pk ek kid => cases h; exact .list r
  | pushing pk ek kid ids =>
    cases ids with
    | nil =>
      cases h
      cases r with
      | none => exact .unchosen none rfl
      | some p => exact .choose (some p) rfl
    | cons dest ids => cases h; exact .push r
  | arming ek kid ev => cases h; exact .arm r
  | completed =>
    rcases h with h | rfl
    · exact goes_light rfl h r
    · exact .collect r
  | collected bids =>
    cases h
    cases r with
    | none => exact .unpicked none rfl
    | some p => exact .pick (some p) rfl
  | evaluating bids ev => cases h; exact .evaluate r
  | masked m =>
    cases h
    simp only [Work.after, Work.named]
    split
    · exact .seller r ‹_›
    · exact .nobody r (not_not.mp ‹_›)
  | pairing m seller => cases h; exact .pair r
  | handing m seller bids => cases h; exact .hand r
  | settled m seat =>
    cases h
    simp only [Work.after, Work.named]
    split
    · exact .look r ‹_›
    · exact .empty r (not_not.mp ‹_›)
  | telling m seat winner => cases h; exact .tell r
  | gatheredTotals => cases h; exact .totals r
  | summing cts =>
    cases h
    cases r with
    | none => exact .unsummed none rfl
    | some p => exact .pickSum (some p) rfl
  | handingSum cts ev => cases h; exact .handSum r
  | gatheredPartials => cases h; exact .parts r
  | fusing parts =>
    cases h
    cases r with
    | nil => exact .unlisted [] rfl
    | cons dest rest => exact .listFuse (dest :: rest) rfl
  | spreadingFuse parts dest ids =>
    cases h
    cases ids with
    | nil => exact .lastFuse r
    | cons next rest => exact .fuse r
  | leaving => cases h; exact .leave r
  | gone => exact goes_light rfl h r

theorem goes_of_ok {x : Step γ} (h : Stage.ok env (some (id, w)) x) (r : x.Res) :
    ∃ w', Stage.after (some (id, w)) x r = some (id, w') ∧ Goes env id w x r w' := by
  cases x with
  | register => exact h.elim
  | read m =>
    cases h
    refine ⟨_, rfl, ?_⟩
    unfold Work.opening
    cases hm : method id m with
    | none => exact .skip hm r
    | some a => exact .read hm r
  | relay a => exact ⟨_, rfl, goes_relay h r⟩

end

section

variable [DecidableEq ι]

namespace Hub

def next (Q : Hub ι γ) (i : ι) : Option (Step γ) :=
  match Q.threads i with
  | .ret _ => none
  | .act x _ => some x

def stage (Q : Hub ι γ) (i : ι) : Stage γ := Pool.status Stage.after none Q.history i

end Hub

theorem exists_step (env : Env γ) (ω : PeerOrder) {Q : Hub ι γ} {i : ι} {x : Step γ}
    (h : Q.next i = some x) : ∃ R, Q.step (stepSem env ω) i = some R := by
  unfold Hub.next at h
  unfold Pool.step
  cases hthread : Q.threads i with
  | ret r =>
    rw [hthread] at h
    cases h
  | act y k => exact ⟨_, rfl⟩

structure Taken (env : Env γ) (ω : PeerOrder) (Q : Hub ι γ) (i : ι) (x : Step γ)
    (R : Hub ι γ) : Prop where
  next : Q.next i = some x
  state : R.state = (stepSem env ω x Q.state).2
  history : R.history = Q.history ++ [(i, ⟨Q.state, x, (stepSem env ω x Q.state).1⟩)]
  others : ∀ j, j ≠ i → R.stage j = Q.stage j

theorem step_cases {guard : Hub ι γ → ι → Prop} {Q R : Hub ι γ} {i : ι}
    (hrun : Pool.Run (stepSem env ω) guard (Hub.start env frames) Q)
    (hs : Q.step (stepSem env ω) i = some R) :
    ∃ x, Taken env ω Q i x R ∧
      ((Q.stage i = none ∧ x = .register ∧
          R.stage i = some (tabID (Q.state.nextID + 1), .joining)) ∨
        ∃ id w w', Q.stage i = some (id, w) ∧ R.stage i = some (id, w') ∧
          Goes env id w x (stepSem env ω x Q.state).1 w') := by
  have hfollows := Pool.follows_run (stepSem env ω) Stage.after (Stage.ok env)
    (fun j => follows_serveWS env (frames j)) hrun i
  obtain ⟨x, k, hk, rfl⟩ := Pool.step_eq_some _ hs
  rw [hk] at hfollows
  have hok : (Q.stage i).ok env x := hfollows.1
  refine ⟨x, ⟨by simp [Hub.next, hk], rfl, rfl, ?_⟩, ?_⟩
  · intro j hj
    exact Pool.status_append_of_ne _ _ _ hj _
  · have hself : Hub.stage ⟨(stepSem env ω x Q.state).2,
        Function.update Q.threads i (k (stepSem env ω x Q.state).1),
        Q.history ++ [(i, ⟨Q.state, x, (stepSem env ω x Q.state).1⟩)]⟩ i =
        (Q.stage i).after x (stepSem env ω x Q.state).1 :=
      Pool.status_append_self _ _ _ _ _
    rw [hself]
    cases hstage : Q.stage i with
    | none =>
      rw [hstage] at hok
      have hx := hok
      subst hx
      exact .inl ⟨rfl, rfl, rfl⟩
    | some place =>
      obtain ⟨id, w⟩ := place
      rw [hstage] at hok
      obtain ⟨w', hw', hgoes⟩ := goes_of_ok hok (stepSem env ω x Q.state).1
      exact .inr ⟨id, w, w', rfl, hw', hgoes⟩

end

def called (env : Env γ) : Step γ → RelayState γ → Option (Op γ)
  | .relay (.method op), _ => some op
  | .relay (.settle accepted), s => some (.settle accepted (env.clock s.draws))
  | _, _ => none

def publishes : Step γ → Bool
  | .relay (.method (.publishKeys ..)) => true
  | _ => false

def joins : Step γ → Option String
  | .relay (.method (.join id)) => some id
  | _ => none

def leaves : Step γ → Option String
  | .relay (.method (.leave id)) => some id
  | _ => none

def hangsUp : Step γ → Option String
  | .relay (.deregister id) => some id
  | _ => none

def bidOf : Step γ → Option (String × ℤ × List γ)
  | .relay (.method (.submitBid id kid ct)) => some (id, kid, ct)
  | _ => none

theorem auction_step (env : Env γ) (ω : PeerOrder) (x : Step γ) (s : RelayState γ) :
    (stepSem env ω x s).2.auction =
    ((called env x s).elim s.auction fun op => op.apply s.auction) := by
  cases x with
  | register | read m => rfl
  | relay a =>
    cases a with
    | send dest m => exact s.deliver_auction ..
    | _ => rfl

def joinOrLeave : Op γ → Bool
  | .join _ | .leave _ => true
  | _ => false

variable {op : Op γ} {x : Step γ}

theorem mem_peers_apply (h : joinOrLeave op = false) (a : Auction γ) (k : String) :
    k ∈ (op.apply a).peers ↔ k ∈ a.peers := by
  have hstep := EnergyAuctionRounds.table_step op a
  change k ∈ (EnergyAuctionRounds.table (op.apply a)).peers ↔
    k ∈ (EnergyAuctionRounds.table a).peers
  generalize EnergyAuctionRounds.table (op.apply a) = t' at hstep ⊢
  cases hstep with
  | joined | ended | left => cases h
  | published | stored | completed | cleared => exact mem_mapValues ..
  | _ => exact .rfl

theorem mem_peers_leave (a : Auction γ) (id k : String) :
    k ∈ (a.leave id).peers ↔ k ≠ id ∧ k ∈ a.peers := by
  have hstep := EnergyAuctionRounds.leave_step a id
  change k ∈ (EnergyAuctionRounds.table (a.leave id)).peers ↔
    k ≠ id ∧ k ∈ (EnergyAuctionRounds.table a).peers
  generalize EnergyAuctionRounds.table (a.leave id) = t' at hstep ⊢
  cases hstep with
  | ended => exact (mem_mapValues _ _ k).trans AList.mem_erase
  | left => exact AList.mem_erase
  | cleared h | offered h | kept h => cases h

structure SameTab (p q : Peer) : Prop where
  id : q.id = p.id
  role : q.role = p.role
  seat : q.seat = p.seat

theorem SameTab.unseal (p : Peer) : SameTab p { p with sealed := false } := ⟨rfl, rfl, rfl⟩

theorem SameTab.seal (k id : String) (p : Peer) :
    SameTab p (if k = id then { p with sealed := true } else p) := by
  split <;> exact ⟨rfl, rfl, rfl⟩

theorem lookup_of_apply {a : Auction γ} {k : String} {q : Peer}
    (hk : (op.apply a).peers.lookup k = some q) (hjoin : op ≠ .join k) :
    ∃ p, a.peers.lookup k = some p ∧ SameTab p q := by
  have hstep := EnergyAuctionRounds.table_step op a
  change (EnergyAuctionRounds.table (op.apply a)).peers.lookup k = some q at hk
  generalize EnergyAuctionRounds.table (op.apply a) = t' at hstep hk
  cases hstep with
  | joined id =>
    rcases EnergyAuctionRounds.lookup_insert_some.mp hk with ⟨rfl, -⟩ | ⟨-, hk⟩
    · exact (hjoin rfl).elim
    · exact ⟨q, hk, rfl, rfl, rfl⟩
  | ended h =>
    obtain ⟨p, hp, rfl⟩ := EnergyAuctionRounds.lookup_unsealed.mp hk
    exact ⟨p, (EnergyAuctionRounds.lookup_erase_some.mp hp).2, .unseal p⟩
  | left h => exact ⟨q, (EnergyAuctionRounds.lookup_erase_some.mp hk).2, rfl, rfl, rfl⟩
  | published | cleared =>
    obtain ⟨p, hp, rfl⟩ := EnergyAuctionRounds.lookup_unsealed.mp hk
    exact ⟨p, hp, .unseal p⟩
  | stored | completed =>
    obtain ⟨p, hp, rfl⟩ := EnergyAuctionRounds.lookup_sealPeer.mp hk
    exact ⟨p, hp, .seal k _ p⟩
  | refused | offered | kept => exact ⟨q, hk, rfl, rfl, rfl⟩

theorem lookup_apply {a : Auction γ} {k : String} {p : Peer} (hk : a.peers.lookup k = some p)
    (hjoin : op ≠ .join k) (hleave : op ≠ .leave k) :
    ∃ q, (op.apply a).peers.lookup k = some q ∧ SameTab p q := by
  have hmem : k ∈ (op.apply a).peers := by
    have hk' := mem_of_lookup hk
    cases op with
    | join id => exact AList.mem_insert _ |>.mpr (.inr hk')
    | leave id => exact (mem_peers_leave a id k).mpr ⟨fun h => hleave (by rw [h]), hk'⟩
    | _ => exact (mem_peers_apply rfl a k).mpr hk'
  obtain ⟨q, hq⟩ := Option.isSome_iff_exists.mp (AList.lookup_isSome.mpr hmem)
  obtain ⟨p', hp', hsame⟩ := lookup_of_apply hq hjoin
  rw [hk] at hp'
  cases hp'
  exact ⟨q, hq, hsame⟩

namespace Work

def seated : Work γ → Bool
  | .joining | .gone => false
  | _ => true

def registered : Work γ → Bool
  | .leaving | .gone => false
  | _ => true

def present (w : Work γ) : Prop := w.seated = true ∧ w.registered = true

end Work

def leavesSeats : Step γ → Bool
  | .register => false
  | .read _ => true
  | .relay (.method op) => !joinOrLeave op
  | .relay (.deregister _) => false
  | .relay _ => true

/-- How a step bears on who is registered and who is seated. -/
inductive Presence (id : String) (w : Work γ) (x : Step γ) (w' : Work γ) : Prop where
  | join (hw : w = .joining) (hx : x = .relay (.method (.join id))) (hw' : w' = .idle)
  | deregister (hw : w = .idle) (hx : x = .relay (.deregister id)) (hw' : w' = .leaving)
  | leave (hw : w = .leaving) (hx : x = .relay (.method (.leave id))) (hw' : w' = .gone)
  | stay (hx : leavesSeats x = true) (hs : w'.seated = w.seated)
      (hr : w'.registered = w.registered)

theorem Presence.at_work {w w' : Work γ}
    (hx : leavesSeats x = true) (hw : w.present) (hw' : w'.present) : Presence id w x w' :=
  .stay hx (hw'.1.trans hw.1.symm) (hw'.2.trans hw.2.symm)

theorem leavesSeats_of_light {a : EnergyRelay.Action γ} (h : light a = true) :
    leavesSeats (.relay a) = true := by
  cases a <;> first | rfl | cases h

theorem leavesSeats_of_unanswered (h : unanswered op = true) :
    leavesSeats (.relay (.method op)) = true := by
  cases op <;> first | rfl | cases h

theorem Goes.presence {w w' : Work γ} {r : x.Res}
    (h : Goes env id w x r w') : Presence id w x w' := by
  cases h with
  | join => exact .join rfl rfl rfl
  | deregister => exact .deregister rfl rfl rfl
  | leave => exact .leave rfl rfl rfl
  | light hw ha => exact .stay (leavesSeats_of_light ha) rfl rfl
  | call hm hop => exact .at_work (leavesSeats_of_unanswered hop) ⟨rfl, rfl⟩ ⟨rfl, rfl⟩
  | _ => exact .at_work rfl ⟨rfl, rfl⟩ ⟨rfl, rfl⟩

theorem leavesSeats_called {s : RelayState γ} (h : leavesSeats x = true)
    (hc : called env x s = some op) : joinOrLeave op = false := by
  cases x with
  | relay a =>
    cases a with
    | method op' =>
      cases hc
      simpa [leavesSeats] using h
    | settle accepted =>
      cases hc
      rfl
    | _ => cases hc
  | _ => cases hc

structure SameSeats (s s' : RelayState γ) : Prop where
  conns : s'.conns = s.conns
  order : s'.order = s.order
  nextID : s'.nextID = s.nextID
  peers : ∀ k, k ∈ s'.auction.peers ↔ k ∈ s.auction.peers

theorem sameSeats_of_leavesSeats (env : Env γ) (ω : PeerOrder)
    (h : leavesSeats x = true) (s : RelayState γ) : SameSeats s (stepSem env ω x s).2 := by
  have hpeers : ∀ k, k ∈ (stepSem env ω x s).2.auction.peers ↔ k ∈ s.auction.peers := by
    intro k
    rw [auction_step]
    cases hc : called env x s with
    | none => exact .rfl
    | some op => exact mem_peers_apply (leavesSeats_called h hc) s.auction k
  cases x with
  | register => cases h
  | read m => exact ⟨rfl, rfl, rfl, hpeers⟩
  | relay a =>
    cases a with
    | send dest m =>
      exact ⟨s.deliver_conns dest m, s.deliver_order dest m, s.deliver_nextID dest m, hpeers⟩
    | deregister id => cases h
    | _ => exact ⟨rfl, rfl, rfl, hpeers⟩

section

variable [DecidableEq ι]

def Hub.has (Q : Hub ι γ) (P : Work γ → Bool) (k : String) : Prop :=
  ∃ i w, Q.stage i = some (k, w) ∧ P w = true

structure Members (Q : Hub ι γ) : Prop where
  issued : ∀ i id w, Q.stage i = some (id, w) → ∃ n ≤ Q.state.nextID, id = tabID n
  distinct : ∀ i j id w w', Q.stage i = some (id, w) → Q.stage j = some (id, w') → i = j
  seated : ∀ k, k ∈ Q.state.auction.peers ↔ Q.has Work.seated k
  registered : ∀ k, k ∈ Q.state.conns ↔ Q.has Work.registered k
  order : Q.state.order = Q.state.conns
  conns_nodup : Q.state.conns.Nodup
  sound : EnergyAuctionRounds.Sound (EnergyAuctionRounds.table Q.state.auction)

variable {Q R : Hub ι γ} {i : ι} {w w' : Work γ} {P : Work γ → Bool}

theorem Members.has_self (h : Members Q) (hi : Q.stage i = some (id, w)) :
    Q.has P id ↔ P w = true := by
  constructor
  · rintro ⟨j, v, hj, hv⟩
    have hij := h.distinct i j id w v hi hj
    subst hij
    rw [hi] at hj
    cases hj
    exact hv
  · intro hw
    exact ⟨i, w, hi, hw⟩

theorem Members.has_only (h : Members Q) {P' : Work γ → Bool} {v : Work γ}
    (only : ∀ w, P w = true ∧ P' w = false ↔ w = v) (k : String) :
    Q.has P k ∧ ¬ Q.has P' k ↔ ∃! i, Q.stage i = some (k, v) := by
  constructor
  · rintro ⟨⟨i, w, hi, hw⟩, hno⟩
    rw [h.has_self hi, Bool.not_eq_true] at hno
    obtain rfl := (only w).mp ⟨hw, hno⟩
    exact ⟨i, hi, fun j hj => h.distinct j i k _ _ hj hi⟩
  · rintro ⟨i, hi, -⟩
    rw [h.has_self hi, h.has_self hi, Bool.not_eq_true]
    exact (only v).mpr rfl

theorem Members.fresh (h : Members Q) (i : ι) (w : Work γ) :
    Q.stage i ≠ some (tabID (Q.state.nextID + 1), w) := by
  intro hi
  obtain ⟨n, hn, heq⟩ := h.issued i _ w hi
  have := tabID_injective heq
  omega

theorem Members.placed (h : Members Q) (hi' : R.stage i = some (id, w'))
    (hothers : ∀ j, j ≠ i → R.stage j = Q.stage j)
    (hown : ∀ j k v, Q.stage j = some (k, v) → (j = i ↔ k = id))
    (hid : ∃ n ≤ R.state.nextID, id = tabID n) (hnext : Q.state.nextID ≤ R.state.nextID)
    (hpeers : ∀ k, k ≠ id → (k ∈ R.state.auction.peers ↔ k ∈ Q.state.auction.peers))
    (hseated : id ∈ R.state.auction.peers ↔ w'.seated = true)
    (hconns : ∀ k, k ≠ id → (k ∈ R.state.conns ↔ k ∈ Q.state.conns))
    (hregistered : id ∈ R.state.conns ↔ w'.registered = true)
    (horder : R.state.order = R.state.conns) (hnodup : R.state.conns.Nodup)
    (hsound : EnergyAuctionRounds.Sound (EnergyAuctionRounds.table R.state.auction)) :
    Members R := by
  have hcases : ∀ j k v, R.stage j = some (k, v) ↔
      (j = i ∧ k = id ∧ v = w') ∨ (j ≠ i ∧ k ≠ id ∧ Q.stage j = some (k, v)) := by
    intro j k v
    by_cases hji : j = i
    · subst hji
      simp [hi', eq_comm]
    · rw [hothers j hji]
      have hk : Q.stage j = some (k, v) → k ≠ id := fun hj hk => hji ((hown j k v hj).mpr hk)
      simpa [hji] using hk
  have hhas : ∀ (P : Work γ → Bool) k, R.has P k ↔ if k = id then P w' = true else Q.has P k := by
    intro P k
    simp only [Hub.has, hcases]
    split_ifs with hk
    · simp [hk]
    · have hne : ∀ {j v}, Q.stage j = some (k, v) → j ≠ i :=
        fun hj hji => hk ((hown _ k _ hj).mp hji)
      constructor
      · rintro ⟨j, v, ⟨-, hk', -⟩ | ⟨-, -, hj⟩, hv⟩
        · exact absurd hk' hk
        · exact ⟨j, v, hj, hv⟩
      · rintro ⟨j, v, hj, hv⟩
        exact ⟨j, v, .inr ⟨hne hj, hk, hj⟩, hv⟩
  refine ⟨?_, ?_, ?_, ?_, horder, hnodup, hsound⟩
  · intro j k v hj
    rcases (hcases j k v).mp hj with ⟨-, rfl, -⟩ | ⟨-, -, hj⟩
    · exact hid
    · obtain ⟨n, hn, hk⟩ := h.issued j k v hj
      exact ⟨n, hn.trans hnext, hk⟩
  · intro j j' k v v' hj hj'
    rcases (hcases j k v).mp hj with ⟨rfl, hk, -⟩ | ⟨-, hk, hj⟩ <;>
      rcases (hcases j' k v').mp hj' with ⟨rfl, hk', -⟩ | ⟨-, hk', hj'⟩
    · rfl
    · exact absurd hk hk'
    · exact absurd hk' hk
    · exact h.distinct j j' k v v' hj hj'
  · intro k
    rw [hhas]
    split_ifs with hk
    · rw [hk, hseated]
    · rw [hpeers k hk, h.seated]
  · intro k
    rw [hhas]
    split_ifs with hk
    · rw [hk, hregistered]
    · rw [hconns k hk, h.registered]

theorem Members.register (h : Members Q) (hi : Q.stage i = none)
    (hi' : R.stage i = some (tabID (Q.state.nextID + 1), .joining))
    (hothers : ∀ j, j ≠ i → R.stage j = Q.stage j) (hstate : R.state = Q.state.register) :
    Members R := by
  have hnew : ∀ P, ¬ Q.has P (tabID (Q.state.nextID + 1)) := by
    rintro P ⟨j, v, hj, -⟩
    exact h.fresh j v hj
  have hplaced := h.placed hi' hothers
  rw [hstate] at hplaced
  refine hplaced ?_ ⟨_, le_rfl, rfl⟩ (Nat.le_succ _) (fun k _ => .rfl) ?_ ?_ ?_ ?_ ?_ h.sound
  · rintro j k v hj
    refine iff_of_false ?_ ?_
    · rintro rfl
      cases hi.symm.trans hj
    · rintro rfl
      exact h.fresh j v hj
  · exact iff_of_false ((h.seated _).not.mpr (hnew _)) Bool.false_ne_true
  · intro k hk
    simp [RelayState.register, hk]
  · simp [RelayState.register, Work.registered]
  · simp [RelayState.register, h.order]
  · rw [RelayState.register, ← concat_eq_append]
    exact h.conns_nodup.concat ((h.registered _).not.mpr (hnew _))

variable {guard : Hub ι γ → ι → Prop}

theorem members_step
    (hrun : Pool.Run (stepSem env ω) guard (Hub.start env frames) Q) (h : Members Q)
    (hs : Q.step (stepSem env ω) i = some R) : Members R := by
  obtain ⟨x, htaken, ⟨hi, rfl, hi'⟩ | ⟨id, w, w', hi, hi', hgoes⟩⟩ := step_cases hrun hs
  · exact h.register hi hi' htaken.others htaken.state
  have hpeer : id ∈ Q.state.auction.peers ↔ w.seated = true := by rw [h.seated, h.has_self hi]
  have hconn : id ∈ Q.state.conns ↔ w.registered = true := by
    rw [h.registered, h.has_self hi]
  have hown : ∀ j k v, Q.stage j = some (k, v) → (j = i ↔ k = id) := by
    intro j k v hj
    constructor
    · rintro rfl
      cases hi.symm.trans hj
      rfl
    · rintro rfl
      exact h.distinct j i k v w hj hi
  have hissued := h.issued i id w hi
  have hmoved := h.placed hi' htaken.others hown
  rw [htaken.state] at hmoved
  cases hgoes.presence with
  | join hw hx hw' =>
    subst hw hx hw'
    have hid := hpeer.not.mpr Bool.false_ne_true
    have hmem : ∀ k, k ∈ (Q.state.auction.join id).2.peers ↔ k = id ∨ k ∈ Q.state.auction.peers :=
      fun k => AList.mem_insert _
    have hsound : EnergyAuctionRounds.Sound (EnergyAuctionRounds.table
        ((Op.join id).apply Q.state.auction)) := EnergyAuctionRounds.sound_apply h.sound hid
    refine hmoved hissued le_rfl ?_ ?_ (fun k _ => .rfl) hconn h.order h.conns_nodup hsound
    · intro k hk
      exact (hmem k).trans (or_iff_right hk)
    · exact iff_of_true ((hmem id).mpr (.inl rfl)) rfl
  | deregister hw hx hw' =>
    subst hw hx hw'
    refine hmoved hissued le_rfl (fun k _ => .rfl) hpeer ?_ ?_ ?_ (h.conns_nodup.filter _) h.sound
    · intro k hk
      simp [stepSem, sem, RelayState.deregister, hk]
    · simp [stepSem, sem, RelayState.deregister, Work.registered]
    · change Q.state.order.erase id = Q.state.conns.filter (· ≠ id)
      rw [h.order, h.conns_nodup.erase_eq_filter]
      refine filter_congr fun k _ => ?_
      by_cases hk : k = id <;> simp [hk]
  | leave hw hx hw' =>
    subst hw hx hw'
    have hmem := mem_peers_leave Q.state.auction id
    have hsound : EnergyAuctionRounds.Sound (EnergyAuctionRounds.table
        ((Op.leave id).apply Q.state.auction)) := EnergyAuctionRounds.sound_apply h.sound trivial
    refine hmoved hissued le_rfl ?_ ?_ (fun k _ => .rfl) hconn h.order h.conns_nodup hsound
    · intro k hk
      exact (hmem k).trans (and_iff_right hk)
    · exact iff_of_false (fun hid => ((hmem id).mp hid).1 rfl) Bool.false_ne_true
  | stay hx hseated hregistered =>
    have hsame := sameSeats_of_leavesSeats env ω hx Q.state
    rw [hsame.nextID] at hmoved
    refine hmoved hissued le_rfl (fun k _ => hsame.peers k) ?_ ?_ ?_ ?_ ?_ ?_
    · rw [hsame.peers, hpeer, hseated]
    · intro k _
      rw [hsame.conns]
    · rw [hsame.conns, hconn, hregistered]
    · rw [hsame.order, hsame.conns, h.order]
    · rw [hsame.conns]
      exact h.conns_nodup
    · rw [auction_step]
      cases hc : called env x Q.state with
      | none => exact h.sound
      | some op =>
        refine EnergyAuctionRounds.sound_apply h.sound ?_
        have hop := leavesSeats_called hx hc
        cases op <;> trivial

theorem members_start : Members (Hub.start env frames) where
  issued := by
    intro i id w hi
    cases hi
  distinct := by
    intro i j id w w' hi
    cases hi
  seated := by
    intro k
    refine iff_of_false (AList.notMem_empty k) ?_
    rintro ⟨i, w, hi, -⟩
    cases hi
  registered := by
    intro k
    refine iff_of_false not_mem_nil ?_
    rintro ⟨i, w, hi, -⟩
    cases hi
  order := rfl
  conns_nodup := nodup_nil
  sound := EnergyAuctionRounds.sound_start

theorem members (hrun : Pool.Run (stepSem env ω) guard (Hub.start env frames) Q) : Members Q := by
  induction hrun with
  | refl => exact members_start
  | tail hrun _ hs ih => exact members_step hrun ih hs

theorem called_eq_method {s : RelayState γ}
    (hc : called env x s = some op) (hop : ∀ accepted clock, op ≠ .settle accepted clock) :
    x = .relay (.method op) := by
  cases x with
  | relay a =>
    cases a with
    | method op' =>
      cases hc
      rfl
    | settle accepted =>
      cases hc
      exact (hop accepted _ rfl).elim
    | _ => cases hc
  | _ => cases hc

variable {x : Step γ} {k : String} {p q : Peer}

theorem Taken.lookup_back (ht : Taken env ω Q i x R) (hk : R.state.auction.peers.lookup k = some q)
    (hjoin : x ≠ .relay (.method (.join k))) :
    ∃ p, Q.state.auction.peers.lookup k = some p ∧ SameTab p q := by
  rw [ht.state, auction_step] at hk
  cases hc : called env x Q.state with
  | none =>
    rw [hc] at hk
    exact ⟨q, hk, rfl, rfl, rfl⟩
  | some op =>
    rw [hc] at hk
    refine lookup_of_apply hk ?_
    rintro rfl
    exact hjoin (called_eq_method hc (by rintro _ _ ⟨⟩))

theorem Taken.lookup (ht : Taken env ω Q i x R) (hk : Q.state.auction.peers.lookup k = some p)
    (hjoin : x ≠ .relay (.method (.join k))) (hleave : x ≠ .relay (.method (.leave k))) :
    ∃ q, R.state.auction.peers.lookup k = some q ∧ SameTab p q := by
  rw [ht.state, auction_step]
  cases hc : called env x Q.state with
  | none => exact ⟨p, hk, rfl, rfl, rfl⟩
  | some op =>
    refine lookup_apply hk ?_ ?_
    · rintro rfl
      exact hjoin (called_eq_method hc (by rintro _ _ ⟨⟩))
    · rintro rfl
      exact hleave (called_eq_method hc (by rintro _ _ ⟨⟩))

end

inductive Tab where
  | first | second | third | fourth
  deriving DecidableEq

instance : Fintype Tab := ⟨{.first, .second, .third, .fourth}, by rintro ⟨⟩ <;> decide⟩

def turns (steps : List (Tab × ℕ)) : List Tab := steps.flatMap fun t => List.replicate t.2 t.1

/-- A tab is a connection before it joins the auction, and no longer one when it leaves it. -/
theorem roster_follows_connections [DecidableEq ι] {guard : Hub ι γ → ι → Prop} {Q : Hub ι γ}
    (hrun : Pool.Run (stepSem env ω) guard (Hub.start env frames) Q) (k : String) :
    (k ∈ Q.state.conns ∧ k ∉ Q.state.auction.peers ↔ ∃! i, Q.stage i = some (k, .joining)) ∧
      (k ∈ Q.state.auction.peers ∧ k ∉ Q.state.conns ↔ ∃! i, Q.stage i = some (k, .leaving)) := by
  have h := members hrun
  rw [h.registered, h.seated]
  refine ⟨h.has_only (fun w => ?_) k, h.has_only (fun w => ?_) k⟩
  · cases w <;> simp [Work.registered, Work.seated]
  · cases w <;> simp [Work.registered, Work.seated]

def joiningTab : Hub Tab ℕ :=
  (Hub.start ⟨fun _ => "", fun _ => []⟩ fun _ => []).runSchedule
    (stepSem ⟨fun _ => "", fun _ => []⟩ .listed) [.first]

theorem roster_follows_joining : ∃! i, joiningTab.stage i = some ("p1", .joining) :=
  (roster_follows_connections (Q := joiningTab) (Pool.runSchedule_run ..) "p1").1.mp
    (by decide +kernel)

end EnergyRelayConnections
