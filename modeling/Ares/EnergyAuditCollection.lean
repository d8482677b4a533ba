import Ares.EnergyRelayConnections

/-! An audit collects two rounds of ciphertexts from its frozen party: the encrypted totals, which
go to the evaluator in one `epochsum`, and the shares of the decryption, which go to everyone in one
`epochfuse`. -/
namespace EnergyAuditCollection

open InterleavedPrograms FiniteMaps EnergyAuction EnergyRelay EnergyRelayConnections List

variable {γ : Type}

inductive Kind where
  | totals | partials
  deriving DecidableEq

instance : Fintype Kind := ⟨{.totals, .partials}, fun kind => by cases kind <;> decide⟩

variable {x : Step γ} {id : String} {a : EnergyRelay.Action γ} {ι : Type}
  {h : List (ι × RelayEvent γ)} {y : ι × RelayEvent γ} {kind : Kind} {i : ι} {blobs : List (List γ)}

namespace Kind

def table : Kind → Auction γ → FinMap String (List γ)
  | .totals, a => a.epochTotals
  | .partials, a => a.epochPartials

def counts : Kind → Auction γ → Prop
  | .totals, a => a.epoch = .audit
  | .partials, _ => True

instance (kind : Kind) (a : Auction γ) : Decidable (kind.counts a) := by
  cases kind <;> simp only [counts] <;> infer_instance

def type : Kind → MsgType
  | .totals => .epochsum
  | .partials => .epochfuse

def submission : Kind → Step γ → Option (String × List γ)
  | .totals, .relay (.method (.submitEpochTotal id ct)) => some (id, ct)
  | .partials, .relay (.method (.submitEpochPartial id ct)) => some (id, ct)
  | _, _ => none

def answered : Kind → (x : Step γ) → x.Res → Bool
  | .totals, .relay (.method (.submitEpochTotal ..)), all => all
  | .partials, .relay (.method (.submitEpochPartial ..)), all => all
  | _, _, _ => false

def readBack : Kind → (x : Step γ) → x.Res → Option (List (List γ))
  | .totals, .relay .epochCiphertexts, cts => some cts
  | .partials, .relay .epochPartials, parts => some parts
  | _, _, _ => none

def dests : Kind → (x : Step γ) → x.Res → Option (List String)
  | .totals, .relay .evaluator, ev => some ((Option.toList ev).map Peer.id)
  | .partials, .relay .peerIDs, ids => some ids
  | _, _, _ => none

def message : Kind → Step γ → Option (String × List (List γ))
  | kind, .relay (.send dest m) => if m.type = kind.type then some (dest, m.blobs) else none
  | _, _ => none

end Kind

def freezes (a : Auction γ) : Step γ → Bool
  | .relay (.method .startEpochChain) => a.epoch ≠ .audit
  | _ => false

section

def Starts (x : ι × RelayEvent γ) : Prop := freezes x.2.pre.auction x.2.act = true

def StartsWith (party : List String) (x : ι × RelayEvent γ) : Prop :=
  Starts x ∧ x.2.pre.auction.order = party

def Submits (kind : Kind) (id : String) (ct : List γ) (x : ι × RelayEvent γ) : Prop :=
  kind.submission x.2.act = some (id, ct)

def Completes (kind : Kind) (i : ι) (x : ι × RelayEvent γ) : Prop :=
  x.1 = i ∧ kind.answered x.2.act x.2.res = true

def Sends (kind : Kind) (i : ι) (dest : String) (blobs : List (List γ)) (x : ι × RelayEvent γ) :
    Prop := x.1 = i ∧ kind.message x.2.act = some (dest, blobs)

instance : DecidablePred (Starts : ι × RelayEvent γ → Prop) :=
  fun x => inferInstanceAs (Decidable (freezes x.2.pre.auction x.2.act = true))

instance [DecidableEq ι] (kind : Kind) (i : ι) :
    DecidablePred (Completes kind i : ι × RelayEvent γ → Prop) :=
  fun x => inferInstanceAs (Decidable (x.1 = i ∧ kind.answered x.2.act x.2.res = true))

instance [DecidableEq ι] [DecidableEq γ] (kind : Kind) (i : ι) (dest : String)
    (blobs : List (List γ)) : DecidablePred (Sends kind i dest blobs : ι × RelayEvent γ → Prop) :=
  fun x => inferInstanceAs (Decidable (x.1 = i ∧ kind.message x.2.act = some (dest, blobs)))

/-- Connection `i` completed a collection at `c`, in the audit started at `s`. -/
structure Collection (h : List (ι × RelayEvent γ)) (kind : Kind) (i : ι) (s c : ℕ) : Prop where
  started : Seen h Starts s
  before : s < c
  current : ∀ k, s < k → k < c → ¬ Seen h Starts k
  completed : Seen h (Completes kind i) c

/-- What connection `i` sends at `n` is of the collection it completed at `c`. -/
structure SentFor (h : List (ι × RelayEvent γ)) (kind : Kind) (i : ι) (s c n : ℕ) : Prop
    extends Collection h kind i s c where
  after : c < n
  latest : ∀ k, c < k → k < n → ¬ Seen h (Completes kind i) k

def Carries (h : List (ι × RelayEvent γ)) (kind : Kind) (s c : ℕ) (blobs : List (List γ)) : Prop :=
  ∃ party, Seen h (StartsWith party) s ∧
    List.Forall₂ (fun id ct => ∃ k, s < k ∧ k ≤ c ∧ Seen h (Submits kind id ct) k) party blobs

/-- Every message of an audit carries what its party submitted for it, and every audit
sends it once: an `epochsum` to one tab, an `epochfuse` to each tab. -/
structure Collects (h : List (ι × RelayEvent γ)) (kind : Kind) : Prop where
  carried : ∀ n i dest blobs, Seen h (Sends kind i dest blobs) n →
    ∃ s c, SentFor h kind i s c n ∧ Carries h kind s c blobs
  once : ∀ n n' i i' dest dest' blobs blobs' s c c',
    Seen h (Sends kind i dest blobs) n → Seen h (Sends kind i' dest' blobs') n' →
    SentFor h kind i s c n → SentFor h kind i' s c' n' →
    c = c' ∧ (kind = .totals ∨ dest = dest' → n = n')

end

def reading : Work γ → Bool
  | .gatheredTotals | .gatheredPartials => true
  | _ => false

def clears (a : Auction γ) : Step γ → Bool
  | .relay (.method (.leave id)) => a.epoch = .audit && id ∈ a.epochParty
  | .relay (.method .newEpoch) => true
  | .relay (.method .startEpochChain) => a.epoch ≠ .audit
  | _ => false

section

variable [DecidableEq ι]

def NobodyReading (Q : Hub ι γ) : Prop := ∀ j, (Q.stage j).all
    (fun place => !reading place.2) = true

def OrderlyStep (Q : Hub ι γ) (x : Step γ) : Prop :=
  (∀ kind : Kind, (kind.submission x).isSome = true → kind.counts Q.state.auction →
    Q.state.auction.haveAllLocked (kind.table Q.state.auction) = false) ∧
  (clears Q.state.auction x = true → NobodyReading Q)

def Orderly (Q : Hub ι γ) (i : ι) : Prop := ∀ x, Q.next i = some x → OrderlyStep Q x

instance [Fintype ι] (Q : Hub ι γ) (x : Step γ) : Decidable (OrderlyStep Q x) :=
  inferInstanceAs (Decidable ((∀ _, _ → _ → _) ∧ (_ → ∀ _, _)))

instance [Fintype ι] (Q : Hub ι γ) (i : ι) : Decidable (Orderly Q i) :=
  inferInstanceAs (Decidable (∀ x ∈ Q.next i, OrderlyStep Q x))

end

/-- Free of the collection, about to read it back, or holding it with the tabs it is still to be
sent to, once they are known. -/
inductive Duty (γ : Type) where
  | free
  | gathered
  | bound (blobs : List (List γ)) (dests : Option (List String))

namespace Duty

def rest (blobs : List (List γ)) : List String → Duty γ
  | [] => .free
  | dest :: ids => .bound blobs (some (dest :: ids))

end Duty

def duty : Kind → Work γ → Duty γ
  | .totals, .gatheredTotals => .gathered
  | .totals, .summing cts => .bound cts none
  | .totals, .handingSum cts ev => .bound cts (some [ev.id])
  | .partials, .gatheredPartials => .gathered
  | .partials, .fusing parts => .bound parts none
  | .partials, .spreadingFuse parts dest ids => .bound parts (some (dest :: ids))
  | _, _ => .free

inductive DutyStep (kind : Kind) (id : String) : Duty γ → (x : Step γ) → x.Res → Duty γ → Prop where
  | submit {x r ct} (hx : kind.submission x = some (id, ct)) :
      DutyStep kind id .free x r (if kind.answered x r then .gathered else .free)
  | readBack {x r blobs} (hx : kind.readBack x r = some blobs) :
      DutyStep kind id .gathered x r (.bound blobs none)
  | choose {x r blobs ids} (hx : kind.dests x r = some ids) :
      DutyStep kind id (.bound blobs none) x r (.rest blobs ids)
  | send {x r blobs dest ids} (hx : kind.message x = some (dest, blobs)) :
      DutyStep kind id (.bound blobs (some (dest :: ids))) x r (.rest blobs ids)
  | other {x r} (hx : kind.submission x = none) (hm : kind.message x = none) :
      DutyStep kind id .free x r .free

theorem dutyStep_free {r : x.Res} {w w' : Work γ}
    (hw : duty kind w = .free) (hw' : duty kind w' = .free) (hx : kind.submission x = none)
    (hm : kind.message x = none) : DutyStep kind id (duty kind w) x r (duty kind w') := by
  rw [hw, hw']
  exact .other hx hm

theorem duty_spreading (kind : Kind) {w : Work γ} (h : w.spreading = true) :
    duty kind w = .free := by
  cases kind <;> cases w <;> first | rfl | cases h

theorem message_of_light (kind : Kind) (h : light a = true) : kind.message (.relay a) = none := by
  cases a with
  | send dest m =>
    refine if_neg fun hm => ?_
    have hlight : lightMsg m = true := h
    cases kind <;> simp [lightMsg, hm, Kind.type] at hlight
  | _ => rfl

theorem submission_of_light (kind : Kind) (h : light a = true) :
    kind.submission (.relay a) = none := by
  cases kind <;> cases a <;> first | rfl | cases h

theorem submission_of_unanswered (kind : Kind) {op : Op γ} (h : unanswered op = true) :
    kind.submission (.relay (.method op)) = none := by
  cases kind <;> cases op <;> first | rfl | cases h

theorem dutyStep_goes {env : Env γ} {w w' : Work γ} {r : x.Res}
    (kind : Kind) (h : Goes env id w x r w') :
    DutyStep kind id (duty kind w) x r (duty kind w') := by
  cases h with
  | light hw ha =>
    exact dutyStep_free (duty_spreading kind hw) (duty_spreading kind hw)
      (submission_of_light kind ha) (message_of_light kind ha)
  | call hm hop =>
    have hsub := submission_of_unanswered kind hop
    cases kind <;> exact dutyStep_free rfl rfl hsub rfl
  | total hm all ha | lastTotal hm all ha =>
    cases ha
    cases kind with
    | totals => exact .submit rfl
    | partials => exact dutyStep_free rfl rfl rfl rfl
  | totals cts =>
    cases kind with
    | totals => exact .readBack rfl
    | partials => exact dutyStep_free rfl rfl rfl rfl
  | unsummed ev hev =>
    cases hev
    cases kind with
    | totals => exact show DutyStep .totals id _ _ _ (.rest _ []) from .choose rfl
    | partials => exact dutyStep_free rfl rfl rfl rfl
  | pickSum ev hev =>
    cases hev
    cases kind with
    | totals => exact show DutyStep .totals id _ _ _ (.rest _ [_]) from .choose rfl
    | partials => exact dutyStep_free rfl rfl rfl rfl
  | handSum =>
    cases kind with
    | totals => exact show DutyStep .totals id _ _ _ (.rest _ []) from .send rfl
    | partials => exact dutyStep_free rfl rfl rfl rfl
  | part hm all ha | lastPart hm all ha =>
    cases ha
    cases kind with
    | totals => exact dutyStep_free rfl rfl rfl rfl
    | partials => exact .submit rfl
  | parts parts =>
    cases kind with
    | totals => exact dutyStep_free rfl rfl rfl rfl
    | partials => exact .readBack rfl
  | unlisted ids hids =>
    cases hids
    cases kind with
    | totals => exact dutyStep_free rfl rfl rfl rfl
    | partials => exact show DutyStep .partials id _ _ _ (.rest _ []) from .choose rfl
  | listFuse ids hids =>
    cases hids
    cases kind with
    | totals => exact dutyStep_free rfl rfl rfl rfl
    | partials => exact show DutyStep .partials id _ _ _ (.rest _ (_ :: _)) from .choose rfl
  | fuse =>
    cases kind with
    | totals => exact dutyStep_free rfl rfl rfl rfl
    | partials => exact show DutyStep .partials id _ _ _ (.rest _ (_ :: _)) from .send rfl
  | lastFuse =>
    cases kind with
    | totals => exact dutyStep_free rfl rfl rfl rfl
    | partials => exact show DutyStep .partials id _ _ _ (.rest _ []) from .send rfl
  | _ => cases kind <;> exact dutyStep_free rfl rfl rfl rfl

inductive Effect (kind : Kind) (a a' : Auction γ) (x : Step γ) : Prop where
  | kept (hx : freezes a x = false) (hepoch : a'.epoch = .audit → a.epoch = .audit)
      (hparty : a'.epochParty = a.epochParty) (htable : kind.table a' = kind.table a)
  | cleared (hx : freezes a x = false) (hclears : clears a x = true) (hparty : a'.epochParty = [])
      (htable : kind.table a' = ∅)
  | started (hx : freezes a x = true) (hclears : clears a x = true)
      (hparty : a'.epochParty = a.order) (htable : kind.table a' = ∅)

theorem effect_of_eq {a : Auction γ} (hx : freezes a x = false) :
    Effect kind a a x := .kept hx (fun h => h) rfl rfl

theorem effect_leave (kind : Kind) (a : Auction γ) (id : String) :
    Effect kind a (a.leave id) (.relay (.method (.leave id))) := by
  have habort : ∀ b : Auction γ, b.epoch = a.epoch → b.epochParty = a.epochParty →
      kind.table b = kind.table a →
      Effect kind a (if b.epoch = .audit ∧ id ∈ b.epochParty then b.abortAudit else b)
        (.relay (.method (.leave id))) := by
    intro b hepoch hparty htable
    split
    · rename_i h
      rw [hepoch, hparty] at h
      refine .cleared rfl ?_ rfl (by cases kind <;> rfl)
      simpa [clears] using h
    · exact .kept rfl (fun h => hepoch ▸ h) hparty htable
  unfold Auction.leave
  split <;> exact habort _ rfl rfl (by cases kind <;> rfl)

theorem effect_settle (kind : Kind) (a : Auction γ) (accepted : Bool) (clock : String) :
    Effect kind a (a.settle accepted clock).2 (.relay (.settle accepted)) := by
  unfold Auction.settle
  split
  · exact effect_of_eq rfl
  · have hready : ∀ (p : Prop) [Decidable p], (if p then EpochPhase.ready else a.epoch) = .audit →
        a.epoch = .audit := by
      intro p _ h
      split at h
      · cases h
      · exact h
    exact .kept rfl ((hready _)) rfl (by cases kind <;> rfl)

theorem effect_method {op : Op γ}
    (hsub : kind.submission (.relay (.method op)) = none) (a : Auction γ) :
    Effect kind a (op.apply a) (.relay (.method op)) := by
  cases op with
  | leave id => exact effect_leave ..
  | settle accepted clock =>
    have heffect := effect_settle kind a accepted clock
    cases heffect with
    | kept hx hepoch hparty htable => exact .kept rfl hepoch hparty htable
    | cleared hx hclears => cases hclears
    | started hx => cases hx
  | startEpochChain =>
    by_cases ha : a.epoch = .audit
    · have happly : (Op.startEpochChain).apply a = a := by
        simp [Op.apply, Op.run, Auction.startEpochChain, ha]
      rw [happly]
      exact effect_of_eq (by simp [freezes, ha])
    · have hparty : ((Op.startEpochChain).apply a).epochParty = a.order := by
        simp [Op.apply, Op.run, Auction.startEpochChain, ha]
      refine .started (by simp [freezes, ha]) (by simp [clears, ha]) hparty ?_
      cases kind <;> simp [Op.apply, Op.run, Auction.startEpochChain, ha, Kind.table]
  | advanceEpochChain pk =>
    have hsame : ∃ b : Auction γ, (Op.advanceEpochChain pk).apply a = b ∧ b.epoch = a.epoch ∧
        b.epochParty = a.epochParty ∧ kind.table b = kind.table a := by
      simp only [Op.apply, Op.run, Auction.advanceEpochChain]
      split <;> exact ⟨_, rfl, rfl, rfl, by cases kind <;> rfl⟩
    obtain ⟨b, hb, hepoch, hparty, htable⟩ := hsame
    rw [hb]
    exact .kept rfl (fun h => hepoch ▸ h) hparty htable
  | submitEpochPartial id ct =>
    cases kind with
    | totals => exact .kept rfl (fun h => h) rfl rfl
    | partials => cases hsub
  | submitEpochTotal id ct =>
    cases kind with
    | totals => cases hsub
    | partials =>
      simp only [Op.apply, Op.run, Auction.submitEpochTotal]
      split <;> exact .kept rfl (fun h => h) rfl rfl
  | submitBid id keyID ct =>
    have hsame : ∃ b : Auction γ, (Op.submitBid id keyID ct).apply a = b ∧ b.epoch = a.epoch ∧
        b.epochParty = a.epochParty ∧ kind.table b = kind.table a := by
      simp only [Op.apply, Op.run, Auction.submitBid]
      split
      · exact ⟨_, rfl, rfl, rfl, rfl⟩
      · split_ifs <;> exact ⟨_, rfl, rfl, rfl, by cases kind <;> rfl⟩
    obtain ⟨b, hb, hepoch, hparty, htable⟩ := hsame
    rw [hb]
    exact .kept rfl (fun h => hepoch ▸ h) hparty htable
  | newEpoch => exact .cleared rfl rfl rfl (by cases kind <;> rfl)
  | closeEpoch net ok => exact .kept rfl (fun h => by cases h) rfl (by cases kind <;> rfl)
  | _ => exact .kept rfl (fun h => h) rfl (by cases kind <;> rfl)

theorem effect_step (env : Env γ) (ω : PeerOrder)
    (hsub : kind.submission x = none) (s : RelayState γ) :
    Effect kind s.auction (stepSem env ω x s).2.auction x := by
  cases x with
  | register | read m => exact effect_of_eq rfl
  | relay a =>
    cases a with
    | method op => exact effect_method hsub s.auction
    | settle accepted => exact effect_settle ..
    | send dest m =>
      rw [auction_step]
      exact effect_of_eq rfl
    | _ => exact effect_of_eq rfl

/-- What a submission does: it is recorded where it counts, and answered by the test. -/
inductive Recorded (kind : Kind) (id : String) (ct : List γ) (a a' : Auction γ) (all : Bool) :
    Prop where
  | stored (hcounts : kind.counts a) (hepoch : a'.epoch = a.epoch)
      (hparty : a'.epochParty = a.epochParty)
      (htable : kind.table a' = (kind.table a).insert id ct)
      (hall : all = a'.haveAllLocked (kind.table a'))
  | ignored (hcounts : ¬ kind.counts a) (ha : a' = a) (hall : all = false)

theorem recorded_step (env : Env γ) (ω : PeerOrder)
    {ct : List γ} (hsub : kind.submission x = some (id, ct)) (s : RelayState γ) :
    Recorded kind id ct s.auction (stepSem env ω x s).2.auction
      (kind.answered x (stepSem env ω x s).1) := by
  cases kind with
  | totals =>
    cases x with
    | relay a =>
      cases a with
      | method op =>
        cases op with
        | submitEpochTotal id' ct' =>
          cases hsub
          simp only [stepSem, sem, Op.run, Auction.submitEpochTotal]
          split
          · rename_i ha
            exact .ignored ha rfl rfl
          · rename_i ha
            exact .stored (not_not.mp ha) rfl rfl rfl rfl
        | _ => cases hsub
      | _ => cases hsub
    | _ => cases hsub
  | partials =>
    cases x with
    | relay a =>
      cases a with
      | method op =>
        cases op with
        | submitEpochPartial id' ct' =>
          cases hsub
          exact .stored trivial rfl rfl rfl rfl
        | _ => cases hsub
      | _ => cases hsub
    | _ => cases hsub

section

variable {s c n : ℕ}

theorem Collection.snoc (hc : Collection h kind i s c) (y : ι × RelayEvent γ) :
    Collection (h ++ [y]) kind i s c where
  started := hc.started.snoc y
  before := hc.before
  current := by
    intro k hsk hkc hseen
    have hlt := hc.completed.lt
    rcases seen_snoc.mp hseen with hseen | ⟨rfl, -⟩
    · exact hc.current k hsk hkc hseen
    · omega
  completed := hc.completed.snoc y

theorem SentFor.snoc (hs : SentFor h kind i s c n) (hn : n ≤ h.length) (y : ι × RelayEvent γ) :
    SentFor (h ++ [y]) kind i s c n where
  toCollection := hs.toCollection.snoc y
  after := hs.after
  latest := by
    intro k hck hkn hseen
    rcases seen_snoc.mp hseen with hseen | ⟨rfl, -⟩
    · exact hs.latest k hck hkn hseen
    · omega

theorem Carries.snoc (hc : Carries h kind s c blobs) (y : ι × RelayEvent γ) :
    Carries (h ++ [y]) kind s c blobs := by
  obtain ⟨party, hparty, hall⟩ := hc
  refine ⟨party, hparty.snoc y, hall.imp ?_⟩
  rintro id ct ⟨k, hsk, hkc, hseen⟩
  exact ⟨k, hsk, hkc, hseen.snoc y⟩

def Bound (h : List (ι × RelayEvent γ)) (kind : Kind) (i : ι) (blobs : List (List γ))
    (dests : Option (List String)) : Prop :=
  ∃ s c, Collection h kind i s c ∧ NoneAfter h (Completes kind i) c ∧ Carries h kind s c blobs ∧
    (∀ ids, dests = some ids → ids.Nodup) ∧
    ∀ n dest b, c < n → Seen h (Sends kind i dest b) n →
      kind = .partials ∧ ∃ ids, dests = some ids ∧ dest ∉ ids

theorem Bound.snoc {dests : Option (List String)} (hb : Bound h kind i blobs dests)
    (hc : ¬ Completes kind i y) (hs : ∀ dest b, ¬ Sends kind i dest b y) :
    Bound (h ++ [y]) kind i blobs dests := by
  obtain ⟨s, c, hcoll, hlast, hcarries, hnodup, hsent⟩ := hb
  refine ⟨s, c, hcoll.snoc y, hlast.snoc hc, hcarries.snoc y, hnodup, ?_⟩
  intro n dest b hn hseen
  rcases seen_snoc.mp hseen with hseen | ⟨-, hy⟩
  · exact hsent n dest b hn hseen
  · exact (hs dest b hy).elim

def Gathered (h : List (ι × RelayEvent γ)) (a : Auction γ) (kind : Kind) (i : ι) : Prop :=
  a.haveAllLocked (kind.table a) = true ∧ ∃ c, Seen h (Completes kind i) c ∧
    NoneAfter h Starts c ∧ NoneAfter h (Completes kind i) c ∧
    (∀ id ct, (kind.table a).lookup id = some ct →
      ∃ k, k ≤ c ∧ Seen h (Submits kind id ct) k ∧ NoneAfter h Starts k) ∧
    ∀ n dest b, c < n → ¬ Seen h (Sends kind i dest b) n

theorem Gathered.snoc {a a' : Auction γ} (hg : Gathered h a kind i)
    (hparty : a'.epochParty = a.epochParty) (htable : kind.table a' = kind.table a)
    (hstart : ¬ Starts y) (hc : ¬ Completes kind i y) (hs : ∀ dest b, ¬ Sends kind i dest b y) :
    Gathered (h ++ [y]) a' kind i := by
  obtain ⟨hall, c, hcompletes, hnone, hlast, hentries, hsent⟩ := hg
  have hall' : a'.haveAllLocked (kind.table a') = true := by
    rw [htable, Auction.haveAllLocked, hparty]
    exact hall
  refine ⟨hall', c, hcompletes.snoc y, hnone.snoc hstart, hlast.snoc hc, ?_, ?_⟩
  · intro id ct hlookup
    rw [htable] at hlookup
    obtain ⟨k, hkc, hseen, hk⟩ := hentries id ct hlookup
    exact ⟨k, hkc, hseen.snoc y, hk.snoc hstart⟩
  · intro n dest b hn hseen
    rcases seen_snoc.mp hseen with hseen | ⟨-, hy⟩
    · exact hsent n dest b hn hseen
    · exact hs dest b hy

end

section

variable {a a' : Auction γ}

/-- How the frozen party and the table of a collection come from the history. Where a collection has
been completed in the current audit, it is still complete. -/
structure Shared (kind : Kind) (a : Auction γ) (h : List (ι × RelayEvent γ)) : Prop where
  party : a.epochParty ≠ [] → ∃ s, Seen h (StartsWith a.epochParty) s ∧ NoneAfter h Starts s
  entries : ∀ id ct, (kind.table a).lookup id = some ct →
    ∃ k, Seen h (Submits kind id ct) k ∧ NoneAfter h Starts k
  full : ∀ i c, Seen h (Completes kind i) c → NoneAfter h Starts c → kind.counts a →
    a.epochParty ≠ [] → a.haveAllLocked (kind.table a) = true
  apart : ∀ i i' c c', c < c' → Seen h (Completes kind i) c → Seen h (Completes kind i') c' →
    ∃ s, c < s ∧ s < c' ∧ Seen h Starts s

theorem submission_of_answered {r : x.Res} (h : kind.answered x r = true) :
    (kind.submission x).isSome = true := by
  cases kind with
  | totals | partials =>
    cases x with
    | relay a =>
      cases a with
      | method op => cases op <;> first | rfl | cases h
      | _ => cases h
    | _ => cases h

theorem not_completes (hsub : kind.submission y.2.act = none) (i : ι) : ¬ Completes kind i y := by
  rintro ⟨-, hall⟩
  have hsome := submission_of_answered hall
  rw [hsub] at hsome
  cases hsome

theorem not_starts_of_submission {p : String × List γ}
    (hsub : kind.submission y.2.act = some p) : ¬ Starts y := by
  obtain ⟨i, pre, x, r⟩ := y
  intro hstart
  cases x with
  | relay a =>
    cases a with
    | method op =>
      cases op with
      | startEpochChain => cases kind <;> cases hsub
      | _ => cases hstart
    | _ => cases hstart
  | _ => cases hstart

theorem message_of_submission {p : String × List γ}
    (hsub : kind.submission x = some p) : kind.message x = none := by
  cases x with
  | relay a =>
    cases a with
    | send dest m => cases kind <;> cases hsub
    | _ => cases kind <;> rfl
  | _ => cases kind <;> rfl

theorem counts_of_kept (hepoch : a'.epoch = .audit → a.epoch = .audit) (h : kind.counts a') :
    kind.counts a := by
  cases kind with
  | totals => exact hepoch h
  | partials => trivial

theorem seen_completes_snoc (hsub : kind.submission y.2.act = none) {c : ℕ}
    (hc : Seen (h ++ [y]) (Completes kind i) c) : Seen h (Completes kind i) c := by
  rcases seen_snoc.mp hc with hc | ⟨-, hy⟩
  · exact hc
  · exact (not_completes hsub i hy).elim

theorem Shared.apart_silent (hs : Shared kind a h) (hsub : kind.submission y.2.act = none)
    (i i' : ι) (c c' : ℕ) (hlt : c < c') (hc : Seen (h ++ [y]) (Completes kind i) c)
    (hc' : Seen (h ++ [y]) (Completes kind i') c') :
    ∃ s, c < s ∧ s < c' ∧ Seen (h ++ [y]) Starts s := by
  obtain ⟨s, h1, h2, hseen⟩ := hs.apart i i' c c' hlt (seen_completes_snoc hsub hc)
    (seen_completes_snoc hsub hc')
  exact ⟨s, h1, h2, hseen.snoc y⟩

theorem Shared.silent (hs : Shared kind a h) (hsub : kind.submission y.2.act = none)
    (hpre : y.2.pre.auction = a) (heffect : Effect kind a a' y.2.act) :
    Shared kind a' (h ++ [y]) := by
  refine ⟨?_, ?_, ?_, hs.apart_silent hsub⟩
  · intro hne
    cases heffect with
    | kept hx hepoch hparty htable =>
      rw [hparty] at hne ⊢
      obtain ⟨s, hseen, hnone⟩ := hs.party hne
      refine ⟨s, hseen.snoc y, hnone.snoc ?_⟩
      simp [Starts, hpre, hx]
    | cleared hx hclears hparty htable => exact (hne hparty).elim
    | started hx hclears hparty htable =>
      refine ⟨h.length, seen_length ⟨?_, ?_⟩, noneAfter_length⟩
      · rw [Starts, hpre, hx]
      · rw [hpre, hparty]
  · intro id ct hlookup
    cases heffect with
    | kept hx hepoch hparty htable =>
      rw [htable] at hlookup
      obtain ⟨k, hseen, hnone⟩ := hs.entries id ct hlookup
      refine ⟨k, hseen.snoc y, hnone.snoc ?_⟩
      simp [Starts, hpre, hx]
    | cleared hx hclears hparty htable | started hx hclears hparty htable =>
      rw [htable] at hlookup
      simp at hlookup
  · intro i c hc hnone hcounts hne
    have hc' := seen_completes_snoc hsub hc
    cases heffect with
    | kept hx hepoch hparty htable =>
      rw [htable, Auction.haveAllLocked, hparty]
      rw [hparty] at hne
      exact hs.full i c hc' hnone.of_snoc (counts_of_kept hepoch hcounts) hne
    | cleared hx hclears hparty htable => exact (hne hparty).elim
    | started hx hclears hparty htable =>
      -- the audit that this step starts is later than every completion
      have hstart : Seen (h ++ [y]) Starts h.length := seen_length (by rw [Starts, hpre, hx])
      exact (hnone h.length hc'.lt hstart).elim

theorem Shared.submit (hs : Shared kind a h) {ct : List γ}
    (hsub : kind.submission y.2.act = some (id, ct)) (hstart : ¬ Starts y)
    (hrec : Recorded kind id ct a a' (kind.answered y.2.act y.2.res))
    (hmissing : kind.counts a → a.haveAllLocked (kind.table a) = false) :
    Shared kind a' (h ++ [y]) := by
  cases hrec with
  | ignored hcounts ha hall =>
    subst ha
    have hnot : ∀ i, ¬ Completes kind i y := by
      rintro i ⟨-, hy⟩
      rw [hall] at hy
      cases hy
    have hback : ∀ i c, Seen (h ++ [y]) (Completes kind i) c → Seen h (Completes kind i) c := by
      intro i c hc
      rcases seen_snoc.mp hc with hc | ⟨-, hy⟩
      · exact hc
      · exact (hnot i hy).elim
    refine ⟨?_, ?_, ?_, ?_⟩
    · intro hne
      obtain ⟨s, hseen, hnone⟩ := hs.party hne
      exact ⟨s, hseen.snoc y, hnone.snoc hstart⟩
    · intro id' ct' hlookup
      obtain ⟨k, hseen, hnone⟩ := hs.entries id' ct' hlookup
      exact ⟨k, hseen.snoc y, hnone.snoc hstart⟩
    · intro i c hc hnone hcounts' hne
      exact (hcounts hcounts').elim
    · intro i i' c c' hlt hc hc'
      obtain ⟨s, h1, h2, hseen⟩ := hs.apart i i' c c' hlt (hback i c hc) (hback i' c' hc')
      exact ⟨s, h1, h2, hseen.snoc y⟩
  | stored hcounts hepoch hparty htable hall =>
    -- a completed collection of this audit would leave nothing missing
    have hopen : ∀ i c, Seen h (Completes kind i) c → a.epochParty ≠ [] →
        ¬ NoneAfter h Starts c := by
      intro i c hc hne hnone
      have hfull := hs.full i c hc hnone hcounts hne
      rw [hmissing hcounts] at hfull
      cases hfull
    refine ⟨?_, ?_, ?_, ?_⟩
    · intro hne
      rw [hparty] at hne ⊢
      obtain ⟨s, hseen, hnone⟩ := hs.party hne
      exact ⟨s, hseen.snoc y, hnone.snoc hstart⟩
    · intro id' ct' hlookup
      rw [htable] at hlookup
      by_cases hid : id' = id
      · subst hid
        rw [AList.lookup_insert] at hlookup
        cases hlookup
        exact ⟨h.length, seen_length hsub, noneAfter_length⟩
      · rw [AList.lookup_insert_ne hid] at hlookup
        obtain ⟨k, hseen, hnone⟩ := hs.entries id' ct' hlookup
        exact ⟨k, hseen.snoc y, hnone.snoc hstart⟩
    · intro i c hc hnone hcounts' hne
      rw [hparty] at hne
      rcases seen_snoc.mp hc with hc | ⟨-, -, hy⟩
      · exact (hopen i c hc hne hnone.of_snoc).elim
      · rw [← hall]
        exact hy
    · intro i i' c c' hlt hc hc'
      rcases seen_snoc.mp hc' with hc' | ⟨rfl, -, hy⟩
      · rcases seen_snoc.mp hc with hc | ⟨rfl, -⟩
        · obtain ⟨s, h1, h2, hseen⟩ := hs.apart i i' c c' hlt hc hc'
          exact ⟨s, h1, h2, hseen.snoc y⟩
        · have := hc'.lt
          omega
      · have hcold : Seen h (Completes kind i) c := by
          rcases seen_snoc.mp hc with hc | ⟨rfl, -⟩
          · exact hc
          · omega
        have hne : a.epochParty ≠ [] := by
          rw [← hparty]
          rintro hnil
          rw [hall, Auction.haveAllLocked, hnil] at hy
          cases hy
        have hsome := hopen i c hcold hne
        simp only [NoneAfter, not_forall, not_not] at hsome
        obtain ⟨s, hcs, hseen⟩ := hsome
        exact ⟨s, hcs, hseen.lt, hseen.snoc y⟩

theorem Gathered.bound (hs : Shared kind a h)
    (hg : Gathered h a kind i) (hsub : kind.submission y.2.act = none)
    (hm : kind.message y.2.act = none) :
    Bound (h ++ [y]) kind i (a.epochParty.filterMap ((kind.table a).lookup)) none := by
  obtain ⟨hall, c, hcompletes, hnone, hlast, hentries, hsent⟩ := hg
  rw [Auction.haveAllLocked, Bool.and_eq_true, all_eq_true, decide_eq_true_eq] at hall
  have hne := ne_nil_of_length_pos hall.2
  obtain ⟨s, hstart, hsnone⟩ := hs.party hne
  have hstarts := hstart.mono fun _ hy => hy.1
  have hnotc : ¬ Seen h Starts c := by
    intro hboth
    obtain ⟨z, hz, -, hzc⟩ := hboth.both hcompletes
    obtain ⟨p, hp⟩ := Option.isSome_iff_exists.mp (submission_of_answered hzc)
    exact not_starts_of_submission hp hz
  have hsc : s < c := hstarts.before hnone hnotc
  refine ⟨s, c, Collection.snoc ⟨hstarts, hsc, fun k hk _ => hsnone k hk, hcompletes⟩ y,
    hlast.snoc (not_completes hsub i), ?_, by rintro _ ⟨⟩, ?_⟩
  · refine Carries.snoc ⟨a.epochParty, hstart, ?_⟩ y
    have hlookup : ∀ id ∈ a.epochParty, ((kind.table a).lookup id).isSome = true := by
      intro id hid
      exact AList.lookup_isSome.mpr (of_decide_eq_true (hall.1 id hid))
    refine (forall₂_filterMap hlookup).imp ?_
    intro id ct hct
    obtain ⟨k, hkc, hseen, hk⟩ := hentries id ct hct
    have hnotk : ¬ Seen h Starts k := by
      intro hboth
      obtain ⟨z, hz, hzk⟩ := hboth.both hseen
      exact not_starts_of_submission hzk hz
    exact ⟨k, hstarts.before hk hnotk, hkc, hseen⟩
  · intro n dest b hn hseen
    rcases seen_snoc.mp hseen with hseen | ⟨-, -, hy⟩
    · exact (hsent n dest b hn hseen).elim
    · rw [hm] at hy
      cases hy

theorem Bound.choose {ids : List String}
    (hb : Bound h kind i blobs none) (hids : ids.Nodup) (hsub : kind.submission y.2.act = none)
    (hm : kind.message y.2.act = none) : Bound (h ++ [y]) kind i blobs (some ids) := by
  obtain ⟨s, c, hcoll, hlast, hcarries, -, hsent⟩ := hb
  refine ⟨s, c, hcoll.snoc y, hlast.snoc (not_completes hsub i), hcarries.snoc y, ?_, ?_⟩
  · rintro _ ⟨⟩
    exact hids
  · intro n dest b hn hseen
    rcases seen_snoc.mp hseen with hseen | ⟨-, -, hy⟩
    · obtain ⟨-, _, hnone, -⟩ := hsent n dest b hn hseen
      cases hnone
    · rw [hm] at hy
      cases hy

theorem Bound.send {dest : String}
    {ids : List String} (hb : Bound h .partials i blobs (some (dest :: ids)))
    (hsub : Kind.partials.submission y.2.act = none)
    (hm : Kind.partials.message y.2.act = some (dest, blobs)) :
    Bound (h ++ [y]) .partials i blobs (some ids) := by
  obtain ⟨s, c, hcoll, hlast, hcarries, hnodup, hsent⟩ := hb
  have hcons := nodup_cons.mp (hnodup _ rfl)
  refine ⟨s, c, hcoll.snoc y, hlast.snoc (not_completes hsub i), hcarries.snoc y, ?_, ?_⟩
  · rintro _ ⟨⟩
    exact hcons.2
  · intro n dest' b hn hseen
    rcases seen_snoc.mp hseen with hseen | ⟨-, -, hy⟩
    · obtain ⟨-, _, ⟨⟩, hnot⟩ := hsent n dest' b hn hseen
      exact ⟨rfl, ids, rfl, fun hmem => hnot (mem_cons_of_mem dest hmem)⟩
    · rw [hm] at hy
      cases hy
      exact ⟨rfl, ids, rfl, hcons.1⟩

end

section

variable [DecidableEq ι]

def dutyOf (kind : Kind) (Q : Hub ι γ) (i : ι) : Duty γ :=
  (Q.stage i).elim .free fun place => duty kind place.2

structure Inv (kind : Kind) (Q : Hub ι γ) : Prop where
  shared : Shared kind Q.state.auction Q.history
  gathered : ∀ i, dutyOf kind Q i = .gathered → Gathered Q.history Q.state.auction kind i
  bound : ∀ i blobs dests, dutyOf kind Q i = .bound blobs dests →
    Bound Q.history kind i blobs dests
  carried : ∀ n i dest blobs, Seen Q.history (Sends kind i dest blobs) n →
    ∃ s c, SentFor Q.history kind i s c n ∧ Carries Q.history kind s c blobs
  single : ∀ n n' i dest dest' blobs blobs', n < n' → Seen Q.history (Sends kind i dest blobs) n →
    Seen Q.history (Sends kind i dest' blobs') n' → kind = .totals ∨ dest = dest' →
    ∃ c, n < c ∧ c < n' ∧ Seen Q.history (Completes kind i) c

variable {env : Env γ} {ω : PeerOrder} {Q R : Hub ι γ} {i j : ι} {x : Step γ}
  {frames : ι → List (Msg γ)} {ids : List String} {guard : Hub ι γ → ι → Prop}

theorem reading_of_gathered {w : Work γ} (hg : duty kind w = .gathered) : reading w = true := by
  cases kind <;> cases w <;> first | rfl | cases hg

theorem not_nobodyReading (hg : dutyOf kind Q j = .gathered) : ¬ NobodyReading Q := by
  intro hnobody
  have hj := hnobody j
  unfold dutyOf at hg
  cases hstage : Q.stage j with
  | none => simp [hstage] at hg
  | some place =>
    simp only [hstage] at hg
    simp [hstage, reading_of_gathered hg] at hj

section

variable (hI : Inv kind Q) (htaken : Taken env ω Q i x R)

include hI htaken

theorem gathered_other (hguard : OrderlyStep Q x) (hj : dutyOf kind Q j = .gathered) (hji : j ≠ i) :
    Gathered R.history R.state.auction kind j := by
  have hg := hI.gathered j hj
  have hc : ¬ Completes kind j (i, ⟨Q.state, x, (stepSem env ω x Q.state).1⟩) :=
    fun h => hji h.1.symm
  have hs : ∀ dest b, ¬ Sends kind j dest b (i, ⟨Q.state, x, (stepSem env ω x Q.state).1⟩) :=
    fun _ _ h => hji h.1.symm
  rw [htaken.history, htaken.state]
  cases hsub : kind.submission x with
  | none =>
    cases effect_step env ω hsub Q.state with
    | kept hx hepoch hparty htable => exact hg.snoc hparty htable (by simp [Starts, hx]) hc hs
    | cleared hx hclears hparty htable | started hx hclears hparty htable =>
      exact (not_nobodyReading hj (hguard.2 hclears)).elim
  | some p =>
    cases recorded_step env ω hsub Q.state with
    | stored hcounts hepoch hparty htable hall =>
      have hmissing := hguard.1 kind (by rw [hsub]; rfl) hcounts
      rw [hg.1] at hmissing
      cases hmissing
    | ignored hcounts ha hall =>
      exact hg.snoc (by rw [ha]) (by rw [ha]) (not_starts_of_submission hsub) hc hs

theorem carried_silent (hm : kind.message x = none) (n : ℕ) (j : ι) (dest : String)
    (blobs : List (List γ)) (hn : Seen R.history (Sends kind j dest blobs) n) :
    ∃ s c, SentFor R.history kind j s c n ∧ Carries R.history kind s c blobs := by
  rw [htaken.history] at hn ⊢
  rcases seen_snoc.mp hn with hn | ⟨-, -, hy⟩
  · obtain ⟨s, c, hsent, hcarries⟩ := hI.carried n j dest blobs hn
    exact ⟨s, c, hsent.snoc hn.lt.le _, hcarries.snoc _⟩
  · rw [hm] at hy
    cases hy

theorem single_silent (hm : kind.message x = none) (n n' : ℕ) (j : ι) (dest dest' : String)
    (blobs blobs' : List (List γ)) (hlt : n < n') (hn : Seen R.history (Sends kind j dest blobs) n)
    (hn' : Seen R.history (Sends kind j dest' blobs') n') (hd : kind = .totals ∨ dest = dest') :
    ∃ c, n < c ∧ c < n' ∧ Seen R.history (Completes kind j) c := by
  rw [htaken.history] at hn hn' ⊢
  rcases seen_snoc.mp hn with hn | ⟨-, -, hy⟩
  · rcases seen_snoc.mp hn' with hn' | ⟨-, -, hy⟩
    · obtain ⟨c, h1, h2, hc⟩ := hI.single n n' j dest dest' blobs blobs' hlt hn hn' hd
      exact ⟨c, h1, h2, hc.snoc _⟩
    · rw [hm] at hy
      cases hy
  · rw [hm] at hy
    cases hy

theorem bound_other (hji : j ≠ i) {dests : Option (List String)}
    (hj : dutyOf kind Q j = .bound blobs dests) : Bound R.history kind j blobs dests := by
  rw [htaken.history]
  exact (hI.bound j blobs dests hj).snoc (fun h => hji h.1.symm) fun _ _ h => hji h.1.symm

theorem shared_step (hguard : OrderlyStep Q x) : Shared kind R.state.auction R.history := by
  rw [htaken.history, htaken.state]
  cases hsub : kind.submission x with
  | none => exact hI.shared.silent hsub rfl (effect_step env ω hsub Q.state)
  | some p =>
    exact hI.shared.submit hsub (not_starts_of_submission hsub) (recorded_step env ω hsub Q.state)
      (hguard.1 kind (by rw [hsub]; rfl))

end

theorem readBack_step {s : RelayState γ} (hx : kind.readBack x (stepSem env ω x s).1 = some blobs) :
    blobs = s.auction.epochParty.filterMap (((kind.table s.auction).lookup)) ∧
      kind.submission x = none ∧ kind.message x = none := by
  cases x with
  | relay a =>
    cases kind with
    | totals =>
      cases a with
      | epochCiphertexts =>
        cases hx
        exact ⟨rfl, rfl, rfl⟩
      | _ => cases hx
    | partials =>
      cases a with
      | epochPartials =>
        cases hx
        exact ⟨rfl, rfl, rfl⟩
      | _ => cases hx
  | _ => cases kind <;> cases hx

theorem dests_step {s : RelayState γ} (hs : s.order.Nodup)
    (hx : kind.dests x (stepSem env ω x s).1 = some ids) :
    ids.Nodup ∧ kind.submission x = none ∧ kind.message x = none := by
  cases x with
  | relay a =>
    cases kind with
    | totals =>
      cases a with
      | evaluator =>
        cases hx
        refine ⟨?_, rfl, rfl⟩
        change (s.auction.evaluator.toList.map Peer.id).Nodup
        cases s.auction.evaluator <;> simp
      | _ => cases hx
    | partials =>
      cases a with
      | peerIDs =>
        cases hx
        exact ⟨hs, rfl, rfl⟩
      | _ => cases hx
  | _ => cases kind <;> cases hx

theorem dutyOf_some {w : Work γ} (hi : Q.stage i = some (id, w)) :
    dutyOf kind Q i = duty kind w := by
  rw [dutyOf, hi]
  rfl

theorem duty_step (hrun : Pool.Run (stepSem env ω) guard (Hub.start env frames) Q)
    (hs : Q.step (stepSem env ω) i = some R) (kind : Kind) :
    ∃ x id, Taken env ω Q i x R ∧
      DutyStep kind id (dutyOf kind Q i) x (stepSem env ω x Q.state).1 (dutyOf kind R i) := by
  obtain ⟨x, htaken, ⟨hi, rfl, hi'⟩ | ⟨id, w, w', hi, hi', hgoes⟩⟩ := step_cases hrun hs
  · refine ⟨.register, "", htaken, ?_⟩
    rw [dutyOf_some hi', dutyOf, hi]
    cases kind <;> exact .other rfl rfl
  · refine ⟨x, id, htaken, ?_⟩
    rw [dutyOf_some hi, dutyOf_some hi']
    exact dutyStep_goes kind hgoes

theorem Inv.silent (hI : Inv kind Q) (htaken : Taken env ω Q i x R) (hguard : OrderlyStep Q x)
    (hm : kind.message x = none)
    (hgathered : dutyOf kind R i = .gathered → Gathered R.history R.state.auction kind i)
    (hbound : ∀ blobs dests, dutyOf kind R i = .bound blobs dests →
      Bound R.history kind i blobs dests) : Inv kind R := by
  have hother : ∀ j, j ≠ i → dutyOf kind R j = dutyOf kind Q j := by
    intro j hj
    rw [dutyOf, dutyOf, htaken.others j hj]
  refine ⟨shared_step hI htaken hguard, ?_, ?_, carried_silent hI htaken hm,
    single_silent hI htaken hm⟩
  · intro j hj
    by_cases hji : j = i
    · subst hji
      exact hgathered hj
    · rw [hother j hji] at hj
      exact gathered_other hI htaken hguard hj hji
  · intro j blobs dests hj
    by_cases hji : j = i
    · subst hji
      exact hbound blobs dests hj
    · rw [hother j hji] at hj
      exact bound_other hI htaken hji hj

theorem gathered_submit (hI : Inv kind Q) (htaken : Taken env ω Q i x R)
    (hguard : OrderlyStep Q x) {ct : List γ}
    (hsub : kind.submission x = some (id, ct))
    (hall : kind.answered x (stepSem env ω x Q.state).1 = true) :
    Gathered R.history R.state.auction kind i := by
  have hshared := shared_step hI htaken hguard
  rw [htaken.history, htaken.state] at hshared ⊢
  refine ⟨?_, Q.history.length, seen_length ⟨rfl, hall⟩, noneAfter_length, noneAfter_length, ?_, ?_⟩
  · cases recorded_step env ω hsub Q.state with
    | stored hcounts hepoch hparty htable htest => rw [← htest, hall]
    | ignored hcounts ha htest =>
      rw [htest] at hall
      cases hall
  · intro id' ct' hlookup
    obtain ⟨k, hseen, hnone⟩ := hshared.entries id' ct' hlookup
    have hlt := hseen.lt
    simp only [length_append, length_singleton] at hlt
    exact ⟨k, by omega, hseen, hnone⟩
  · intro n dest b hn hseen
    have hlt := hseen.lt
    simp only [length_append, length_singleton] at hlt
    omega

theorem submission_of_message {p : String × List (List γ)} (hm : kind.message x = some p) :
    kind.submission x = none := by
  cases hsub : kind.submission x with
  | none => rfl
  | some q =>
    rw [message_of_submission hsub] at hm
    cases hm

theorem single_dest {dest : String}
    (hi : dutyOf kind Q i = .bound blobs (some (dest :: ids))) (hk : kind = .totals) :
    ids = [] := by
  subst hk
  unfold dutyOf at hi
  cases hstage : Q.stage i with
  | none => simp [hstage] at hi
  | some place =>
    obtain ⟨id, w⟩ := place
    simp only [hstage] at hi
    cases w with
    | handingSum cts ev =>
      cases hi
      rfl
    | _ => cases hi

theorem inv_send (hI : Inv kind Q) (htaken : Taken env ω Q i x R) (hguard : OrderlyStep Q x)
    {dest : String} (hi : dutyOf kind Q i = .bound blobs (some (dest :: ids)))
    (hi' : dutyOf kind R i = .rest blobs ids) (hlast : kind = .totals → ids = [])
    (hm : kind.message x = some (dest, blobs)) : Inv kind R := by
  have hsub := submission_of_message hm
  have hother : ∀ j, j ≠ i → dutyOf kind R j = dutyOf kind Q j := by
    intro j hj
    rw [dutyOf, dutyOf, htaken.others j hj]
  have hb := hI.bound i blobs _ hi
  have hcases : ∀ n j dest' b, Seen R.history (Sends kind j dest' b) n →
      Seen Q.history (Sends kind j dest' b) n ∨
        (n = Q.history.length ∧ j = i ∧ dest' = dest ∧ b = blobs) := by
    intro n j dest' b hn
    rw [htaken.history] at hn
    rcases seen_snoc.mp hn with hn | ⟨hlen, hj, hy⟩
    · exact .inl hn
    · rw [hm] at hy
      cases hy
      exact .inr ⟨hlen, hj.symm, rfl, rfl⟩
  refine ⟨shared_step hI htaken hguard, ?_, ?_, ?_, ?_⟩
  · intro j hj
    by_cases hji : j = i
    · subst hji
      rw [hi'] at hj
      cases ids <;> cases hj
    · rw [hother j hji] at hj
      exact gathered_other hI htaken hguard hj hji
  · intro j blobs' dests hj
    by_cases hji : j = i
    · subst hji
      rw [hi'] at hj
      cases ids with
      | nil => cases hj
      | cons d ids =>
        cases hj
        cases kind with
        | totals => cases hlast rfl
        | partials =>
          rw [htaken.history]
          exact hb.send hsub hm
    · rw [hother j hji] at hj
      exact bound_other hI htaken hji hj
  · intro n j dest' b hn
    rw [htaken.history]
    rcases hcases n j dest' b hn with hn | ⟨rfl, rfl, rfl, rfl⟩
    · obtain ⟨s, c, hsent, hcarries⟩ := hI.carried n j dest' b hn
      exact ⟨s, c, hsent.snoc hn.lt.le _, hcarries.snoc _⟩
    · obtain ⟨s, c, hcoll, hnone, hcarries, -, -⟩ := hb
      have hsent : SentFor Q.history kind j s c Q.history.length :=
        ⟨hcoll, hcoll.completed.lt, fun k hk _ => hnone k hk⟩
      exact ⟨s, c, hsent.snoc le_rfl _, hcarries.snoc _⟩
  · intro n n' j d d' b b' hlt hn hn' hd
    rw [htaken.history]
    rcases hcases n' j d' b' hn' with hn' | ⟨rfl, rfl, rfl, rfl⟩
    · rcases hcases n j d b hn with hn | ⟨rfl, -⟩
      · obtain ⟨c, h1, h2, hc⟩ := hI.single n n' j d d' b b' hlt hn hn' hd
        exact ⟨c, h1, h2, hc.snoc _⟩
      · have := hn'.lt
        omega
    · have hold : Seen Q.history (Sends kind j d b) n := by
        rcases hcases n j d b hn with hn | ⟨rfl, -⟩
        · exact hn
        · omega
      obtain ⟨s, c, hcoll, -, -, -, hsent⟩ := hb
      -- an earlier send of the same collection would have used the tab up
      have hnc : n < c := by
        rcases lt_trichotomy n c with hnc | rfl | hcn
        · exact hnc
        · obtain ⟨z, ⟨-, hz⟩, -, hzc⟩ := hold.both hcoll.completed
          have hnone := submission_of_message hz
          have hsome := submission_of_answered hzc
          rw [hnone] at hsome
          cases hsome
        · obtain ⟨rfl, _, ⟨⟩, hnot⟩ := hsent n d b hcn hold
          rcases hd with hd | rfl
          · cases hd
          · exact (hnot (mem_cons_self ..)).elim
      exact ⟨c, hnc, hcoll.completed.lt, hcoll.completed.snoc _⟩

theorem inv_step (hI : Inv kind Q)
    (hrun : Pool.Run (stepSem env ω) guard (Hub.start env frames) Q) (hguard : Orderly Q i)
    (hs : Q.step (stepSem env ω) i = some R) : Inv kind R := by
  obtain ⟨x, id, htaken, hduty⟩ := duty_step hrun hs kind
  have horderly := hguard x htaken.next
  have horder : Q.state.order.Nodup := by
    rw [(members hrun).order]
    exact (members hrun).conns_nodup
  generalize hi : dutyOf kind Q i = d at hduty
  generalize hi' : dutyOf kind R i = d' at hduty
  cases hduty with
  | submit hx =>
    refine hI.silent htaken horderly (message_of_submission hx) ?_ ?_
    · intro hg
      rw [hg] at hi'
      split at hi'
      · exact gathered_submit hI htaken horderly hx ‹_›
      · cases hi'
    · intro blobs dests hb
      rw [hb] at hi'
      split at hi' <;> cases hi'
  | readBack hx =>
    obtain ⟨rfl, hsub, hm⟩ := readBack_step hx
    refine hI.silent htaken horderly hm ?_ ?_
    · intro hg
      rw [hg] at hi'
      cases hi'
    · intro blobs dests hb
      rw [hb] at hi'
      cases hi'
      rw [htaken.history]
      exact (hI.gathered i hi).bound hI.shared hsub hm
  | choose hx =>
    rename_i blobs ids
    obtain ⟨hids, hsub, hm⟩ := dests_step horder hx
    refine hI.silent htaken horderly hm ?_ ?_
    · intro hg
      rw [hg] at hi'
      cases ids <;> cases hi'
    · intro blobs' dests hb
      rw [hb] at hi'
      cases ids with
      | nil => cases hi'
      | cons dest ids =>
        cases hi'
        rw [htaken.history]
        exact (hI.bound i blobs none hi).choose hids hsub hm
  | send hx => exact inv_send hI htaken horderly hi hi' (single_dest hi) hx
  | other hx hm =>
    refine hI.silent htaken horderly hm ?_ ?_
    · intro hg
      rw [hg] at hi'
      cases hi'
    · intro blobs dests hb
      rw [hb] at hi'
      cases hi'

theorem inv_start (env : Env γ) (frames : ι → List (Msg γ)) (kind : Kind) :
    Inv kind (Hub.start env frames) := by
  have hnone : ∀ (P : ι × RelayEvent γ → Prop) n, ¬ Seen [] P n := by
    rintro P n ⟨x, hx, -⟩
    simp at hx
  refine ⟨⟨?_, ?_, ?_, ?_⟩, ?_, ?_, ?_, ?_⟩
  · intro hne
    exact (hne rfl).elim
  · intro id ct hlookup
    cases kind <;> cases hlookup
  · intro i c hc
    exact (hnone _ c hc).elim
  · intro i i' c c' _ hc
    exact (hnone _ c hc).elim
  · intro i hi
    cases hi
  · intro i blobs dests hi
    cases hi
  · intro n i dest blobs hn
    exact (hnone _ n hn).elim
  · intro n n' i dest dest' blobs blobs' _ hn
    exact (hnone _ n hn).elim

theorem inv_run
    (hrun : Pool.Run (stepSem env ω) Orderly (Hub.start env frames) Q) : Inv kind Q := by
  induction hrun with
  | refl => exact inv_start ..
  | tail hrun hguard hs ih => exact inv_step ih hrun hguard hs

end

/-- Every interleaving all of whose steps are orderly sends each message of an audit once, with one
ciphertext of each member of the party the audit was started with. -/
theorem collects_of_orderly {ι : Type} [DecidableEq ι] (env : Env γ) (ω : PeerOrder)
    (frames : ι → List (Msg γ)) {Q : Hub ι γ}
    (hrun : Pool.Run (stepSem env ω) Orderly (Hub.start env frames) Q) (kind : Kind) :
    Collects Q.history kind := by
  have hI : Inv kind Q := inv_run hrun
  refine ⟨hI.carried, ?_⟩
  intro n n' i i' dest dest' blobs blobs' s c c' hn hn' hs hs'
  have hcc : c = c' := by
    rcases lt_trichotomy c c' with hlt | heq | hlt
    · obtain ⟨k, h1, h2, hk⟩ := hI.shared.apart i i' c c' hlt hs.completed hs'.completed
      exact (hs'.current k (hs.before.trans h1) h2 hk).elim
    · exact heq
    · obtain ⟨k, h1, h2, hk⟩ := hI.shared.apart i' i c' c hlt hs'.completed hs.completed
      exact (hs.current k (hs'.before.trans h1) h2 hk).elim
  refine ⟨hcc, fun hd => ?_⟩
  subst hcc
  obtain ⟨z, ⟨rfl, -⟩, ⟨rfl, -⟩⟩ := hs.completed.both hs'.completed
  rcases lt_trichotomy n n' with hlt | heq | hlt
  · obtain ⟨k, h1, h2, hk⟩ := hI.single n n' z.1 dest dest' blobs blobs' hlt hn hn' hd
    exact (hs'.latest k (hs.after.trans h1) h2 hk).elim
  · exact heq
  · have hd' := hd.imp_right Eq.symm
    obtain ⟨k, h1, h2, hk⟩ := hI.single n' n z.1 dest' dest blobs' blobs hlt hn' hn hd'
    exact (hs.latest k (hs'.after.trans h1) h2 hk).elim

def frame (type : MsgType) (blob : List ℕ) : Msg ℕ := { type := type, blob := blob }

def auditFrames : Fin 2 → List (Msg ℕ)
  | 0 => [frame .epochstart [], frame .epochtotal [1]]
  | 1 => [frame .epochtotal [2]]

def auditSchedule : List (Fin 2) :=
  List.replicate 5 0 ++ List.replicate 6 1 ++ List.replicate 13 0 ++ List.replicate 5 1

def auditRun : Hub (Fin 2) ℕ :=
  (Hub.start testEnv auditFrames).runSchedule (stepSem testEnv .listed) auditSchedule

theorem collects_of_orderly_audit :
    Collects auditRun.history .totals ∧
      Seen auditRun.history (Sends .totals 1 "p2" [[1], [2]]) 28 :=
  ⟨collects_of_orderly testEnv .listed auditFrames (Pool.Guarded.run _ (by decide +kernel)) .totals,
    by decide +kernel⟩

def lateFrames : Fin 3 → List (Msg ℕ)
  | 0 => [frame .epochstart [], frame .epochchained [7], frame .epochtotal [1]]
  | 1 => [frame .epochchained [8], frame .epochtotal [2]]
  | 2 => [frame .epochtotal [3]]

def lateSchedule : List (Fin 3) :=
  List.replicate 5 0 ++ List.replicate 6 1 ++ List.replicate 7 0 ++ List.replicate 7 2 ++
    List.replicate 8 0 ++ List.replicate 11 1 ++ List.replicate 7 0 ++ List.replicate 10 1 ++
    List.replicate 5 2

def lateRun : Hub (Fin 3) ℕ :=
  (Hub.start testEnv lateFrames).runSchedule (stepSem testEnv .listed) lateSchedule

theorem lateRun_starts : Seen lateRun.history Starts 12 ∧
    ∀ k < 66, 12 < k → ¬ Seen lateRun.history Starts k := by decide +kernel

theorem lateRun_first : Seen lateRun.history (Sends .totals 1 "p2" [[1], [2]]) 55 ∧
    SentFor lateRun.history .totals 1 12 52 55 := by
  have hcompletes : Seen lateRun.history (Completes .totals 1) 52 ∧
      ∀ k < 55, 52 < k → ¬ Seen lateRun.history (Completes .totals 1) k := by decide +kernel
  refine ⟨by decide +kernel, ⟨lateRun_starts.1, by decide, ?_, hcompletes.1⟩, by decide, ?_⟩
  · intro k hs hc
    exact lateRun_starts.2 k (by omega) hs
  · intro k hc hn
    exact hcompletes.2 k hn hc

theorem lateRun_second : Seen lateRun.history (Sends .totals 2 "p2" [[1], [2]]) 65 ∧
    SentFor lateRun.history .totals 2 12 62 65 := by
  have hcompletes : Seen lateRun.history (Completes .totals 2) 62 ∧
      ∀ k < 65, 62 < k → ¬ Seen lateRun.history (Completes .totals 2) k := by decide +kernel
  refine ⟨by decide +kernel, ⟨lateRun_starts.1, by decide, ?_, hcompletes.1⟩, by decide, ?_⟩
  · intro k hs hc
    exact lateRun_starts.2 k (by omega) hs
  · intro k hc hn
    exact hcompletes.2 k hn hc

/-- One audit, two sums: the latecomer's total is in neither, but it completed the second. -/
theorem audit_summed_twice :
    Pool.Run (stepSem testEnv .listed) (fun _ _ => True) (Hub.start testEnv lateFrames) lateRun ∧
      ¬ Collects lateRun.history .totals := by
  refine ⟨Pool.runSchedule_run _ _ _, fun h => ?_⟩
  have htwice := h.once 55 65 1 2 "p2" "p2" _ _ 12 52 62 lateRun_first.1 lateRun_second.1
    lateRun_first.2 lateRun_second.2
  omega

end EnergyAuditCollection
