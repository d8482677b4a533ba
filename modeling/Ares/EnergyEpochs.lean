import Ares.EnergyAuction
import Ares.OperationRuns

/-! Over any sequence of the auction's methods: whether the epoch is open says whether the log is
still short, an audit comes only after the epoch was ready, and while an audit is under way the log
stands still. -/

namespace EnergyEpochs

open EnergyAuction OperationRuns

variable {γ : Type}

/-- The auction with what the run has shown since the last `NewEpoch`: the log that stood when
`StartEpochChain` was first called, and whether the epoch has been ready. -/
structure Watch (γ : Type) where
  auction : Auction γ
  frozen : Option (List Trade)
  readied : Bool

namespace Watch

variable (w : Watch γ)

def frozenAfter : Op γ → Option (List Trade)
  | .newEpoch => none
  | .startEpochChain => some (w.frozen.getD w.auction.trades)
  | _ => w.frozen

def readiedAfter (op : Op γ) : Bool :=
  match op with
  | .newEpoch => false
  | _ => w.readied || (op.apply w.auction).epoch = .ready

structure Faithful (w : Watch γ) : Prop where
  short : w.auction.epoch = .open ↔ w.auction.trades.length < epochSize
  throughReady : w.auction.epoch = .audit ∨ w.auction.epoch = .done → w.readied = true
  frozen : ∀ log ∈ w.frozen, w.auction.trades = log

end Watch

def next (op : Op γ) (w : Watch γ) : Watch γ :=
  ⟨op.apply w.auction, w.frozenAfter op, w.readiedAfter op⟩

def start : Watch γ := ⟨newAuction, none, false⟩

/-- An audit is started, and closed, only over a full log, and no round is settled between
`StartEpochChain` and `NewEpoch`. -/
def Timely (w : Watch γ) : Op γ → Prop
  | .startEpochChain | .closeEpoch .. => w.auction.epoch ≠ .open
  | .settle .. => w.frozen ≠ none → w.auction.winnerSeat < 0
  | _ => True

instance (w : Watch γ) (op : Op γ) : Decidable (Timely w op) :=
  match op with
  | .startEpochChain | .closeEpoch .. => inferInstanceAs (Decidable (_ ≠ _))
  | .settle .. => inferInstanceAs (Decidable (_ → _))
  | .join _ | .leave _ | .reset | .setHour _ | .publishKeys .. | .submitBid .. | .setMasks _
  | .offer .. | .advanceEpochChain _ | .submitEpochPartial .. | .submitEpochTotal ..
  | .newEpoch => isTrue trivial

def Aside : Op γ → Prop
  | .settle .. | .startEpochChain | .closeEpoch .. | .newEpoch | .leave _ => False
  | _ => True

theorem aside_kept {op : Op γ} (aside : Aside op) (a : Auction γ) :
    (op.apply a).epoch = a.epoch ∧ (op.apply a).trades = a.trades := by
  cases op with
  | settle | startEpochChain | closeEpoch | newEpoch | leave => cases aside
  | join | reset | setHour | publishKeys | setMasks | offer | submitEpochPartial => exact ⟨rfl, rfl⟩
  | submitBid id keyID ct =>
    simp only [Op.apply, Op.run, Auction.submitBid]
    split
    · exact ⟨rfl, rfl⟩
    · split_ifs <;> exact ⟨rfl, rfl⟩
  | advanceEpochChain pk =>
    simp only [Op.apply, Op.run, Auction.advanceEpochChain]
    split <;> exact ⟨rfl, rfl⟩
  | submitEpochTotal id ct =>
    simp only [Op.apply, Op.run, Auction.submitEpochTotal]
    split_ifs <;> exact ⟨rfl, rfl⟩

theorem leave_kept (a : Auction γ) (id : String) :
    (a.leave id).trades = a.trades ∧
      ((a.leave id).epoch = a.epoch ∨ (a.epoch = .audit ∧ (a.leave id).epoch = .ready)) := by
  have left : ∃ b : Auction γ, b.trades = a.trades ∧ b.epoch = a.epoch ∧ a.leave id =
      if b.epoch = .audit ∧ id ∈ b.epochParty then b.abortAudit else b := by
    rw [Auction.leave]
    by_cases ends : (a.peers.lookup id).any Auction.endsRound
    · exact ⟨(a.removed id).resetLocked, rfl, rfl, by rw [if_pos ends]⟩
    · exact ⟨a.removed id, rfl, rfl, by rw [if_neg ends]⟩
  obtain ⟨b, trades, epoch, eq⟩ := left
  rw [eq]
  by_cases aborts : b.epoch = .audit ∧ id ∈ b.epochParty
  · rw [if_pos aborts]
    exact ⟨trades, .inr ⟨epoch ▸ aborts.1, rfl⟩⟩
  · rw [if_neg aborts]
    exact ⟨trades, .inl epoch⟩

theorem settle_cases (a : Auction γ) (accepted : Bool) (clock : String) :
    (a.winnerSeat < 0 ∧ (a.settle accepted clock).2 = a) ∨
      (0 ≤ a.winnerSeat ∧ (a.settle accepted clock).2.trades = a.trade accepted clock :: a.trades ∧
        (a.settle accepted clock).2.epoch =
          if a.epoch = .open ∧ epochSize ≤ a.trades.length + 1 then .ready else a.epoch) := by
  by_cases noWinner : a.winnerSeat < 0
  · exact .inl ⟨noWinner, by rw [Auction.settle, if_pos noWinner]⟩
  · refine .inr ⟨by omega, ?_, ?_⟩
    · rw [Auction.settle, if_neg noWinner]
      rfl
    · rw [Auction.settle, if_neg noWinner]
      rfl

def Seen (w : Watch γ) : Prop := w.auction.epoch = .ready → w.readied = true

theorem seen_next (op : Op γ) (w : Watch γ) : Seen (next op w) := by
  intro ready
  cases op with
  | newEpoch => cases ready
  | _ => simp only [next, Watch.readiedAfter, Bool.or_eq_true, decide_eq_true_eq] at ready ⊢
         exact .inr ready

theorem Watch.Faithful.readied_of_closed {w : Watch γ} (faithful : w.Faithful) (seen : Seen w)
    (closed : w.auction.epoch ≠ .open) : w.readied = true := by
  cases phase : w.auction.epoch with
  | «open» => exact absurd phase closed
  | ready => exact seen phase
  | audit => exact faithful.throughReady (.inl phase)
  | done => exact faithful.throughReady (.inr phase)

section

variable {w : Watch γ}

theorem readied_kept {op : Op γ} (watched : op ≠ .newEpoch) (readied : w.readied = true) :
    (next op w).readied = true := by
  cases op with
  | newEpoch => exact absurd rfl watched
  | _ => exact Bool.or_eq_true_iff.mpr (.inl readied)

section

variable {op : Op γ} (faithful : w.Faithful) (seen : Seen w)
  (trades : (op.apply w.auction).trades = w.auction.trades)

include faithful seen trades

theorem faithful_of_kept (epoch : (op.apply w.auction).epoch = .open ↔ w.auction.epoch = .open)
    (watched : op ≠ .newEpoch) : (next op w).Faithful := by
  refine ⟨?_, ?_, ?_⟩
  · show (op.apply w.auction).epoch = .open ↔ (op.apply w.auction).trades.length < epochSize
    rw [epoch, trades]
    exact faithful.short
  · intro late
    apply readied_kept watched
    apply faithful.readied_of_closed seen
    rw [ne_eq, ← epoch]
    rcases late with audit | done
    · simp [show (op.apply w.auction).epoch = _ from audit]
    · simp [show (op.apply w.auction).epoch = _ from done]
  · intro log frozen
    show (op.apply w.auction).trades = log
    rw [trades]
    cases op with
    | newEpoch => cases frozen
    | startEpochChain =>
      cases stood : w.frozen with
      | none => simpa [next, Watch.frozenAfter, stood] using frozen
      | some old =>
        have same : old = log := by simpa [next, Watch.frozenAfter, stood] using frozen
        rw [← same]
        exact faithful.frozen old stood
    | _ => exact faithful.frozen log frozen

theorem faithful_closing_iff (closes : (op.apply w.auction).epoch ≠ .open)
    (watched : op ≠ .newEpoch) : (next op w).Faithful ↔ w.auction.epoch ≠ .open := by
  constructor
  · intro after wasOpen
    apply closes
    apply after.short.mpr
    show (op.apply w.auction).trades.length < epochSize
    rw [trades]
    exact faithful.short.mp wasOpen
  · intro closed
    exact faithful_of_kept faithful seen trades (iff_of_false closes closed) watched

end

theorem startEpochChain_kept (a : Auction γ) :
    (a.startEpochChain).2.trades = a.trades ∧ (a.startEpochChain).2.epoch ≠ .open := by
  rw [Auction.startEpochChain]
  by_cases audit : a.epoch = .audit
  · rw [if_pos audit]
    refine ⟨rfl, ?_⟩
    rw [audit]
    exact EpochPhase.noConfusion
  · rw [if_neg audit]
    exact ⟨rfl, EpochPhase.noConfusion⟩

theorem settled_short {phase : EpochPhase} {logged : ℕ}
    (short : phase = .open ↔ logged < epochSize) :
    (if phase = .open ∧ epochSize ≤ logged + 1 then .ready else phase) = .open ↔
      logged + 1 < epochSize := by
  by_cases fills : phase = .open ∧ epochSize ≤ logged + 1
  · rw [if_pos fills]
    exact iff_of_false EpochPhase.noConfusion (Nat.not_lt.mpr fills.2)
  · rw [if_neg fills]
    constructor
    · intro isOpen
      by_contra full
      exact fills ⟨isOpen, Nat.not_lt.mp full⟩
    · intro room
      exact short.mpr (Nat.lt_of_succ_lt room)

theorem faithful_settled {accepted : Bool} {clock : String} (faithful : w.Faithful)
    (seen : Seen w) (notStarted : w.frozen = none) (winner : 0 ≤ w.auction.winnerSeat) :
    (next (.settle accepted clock) w).Faithful := by
  obtain ⟨noWinner, -⟩ | ⟨-, trades, epoch⟩ := settle_cases w.auction accepted clock
  · omega
  refine ⟨?_, ?_, ?_⟩
  · show (w.auction.settle accepted clock).2.epoch = .open ↔
      (w.auction.settle accepted clock).2.trades.length < epochSize
    rw [trades, epoch]
    exact settled_short faithful.short
  · intro late
    have closed : w.auction.epoch ≠ .open := by
      intro isOpen
      rw [show (next (.settle accepted clock) w).auction.epoch = _ from epoch, isOpen] at late
      split_ifs at late <;> simp at late
    exact readied_kept (by simp) (faithful.readied_of_closed seen closed)
  · intro log frozen
    rw [show (next (.settle accepted clock) w).frozen = w.frozen from rfl, notStarted] at frozen
    cases frozen

theorem faithful_settle_iff (faithful : w.Faithful) (seen : Seen w) (accepted : Bool)
    (clock : String) :
    (next (.settle accepted clock) w).Faithful ↔ (w.frozen ≠ none → w.auction.winnerSeat < 0) := by
  obtain ⟨noWinner, same⟩ | ⟨winner, trades, -⟩ := settle_cases w.auction accepted clock
  · refine iff_of_true ?_ fun _ => noWinner
    have kept : (Op.settle accepted clock).apply w.auction = w.auction := same
    exact faithful_of_kept faithful seen (by rw [kept]) (by rw [kept]) (by simp)
  · constructor
    · intro after started
      obtain ⟨log, stood⟩ := Option.ne_none_iff_exists'.mp started
      have now := after.frozen log stood
      rw [show (next (.settle accepted clock) w).auction.trades = _ from trades,
        ← faithful.frozen log stood] at now
      exact absurd now (List.cons_ne_self _ _)
    · intro timely
      have notStarted : w.frozen = none := by
        by_contra started
        have noWinner := timely started
        omega
      exact faithful_settled faithful seen notStarted winner

theorem faithful_newEpoch : (next .newEpoch w).Faithful := by
  refine ⟨iff_of_true rfl (by decide : 0 < epochSize), ?_, ?_⟩
  · rintro (audit | done)
    · cases audit
    · cases done
  · intro log frozen
    cases frozen

theorem faithful_next_iff (op : Op γ) (seen : Seen w) (faithful : w.Faithful) :
    (next op w).Faithful ↔ Timely w op := by
  have ofAside (aside : Aside op) : (next op w).Faithful := by
    obtain ⟨epoch, trades⟩ := aside_kept aside w.auction
    refine faithful_of_kept faithful seen trades (by rw [epoch]) ?_
    rintro rfl
    exact aside
  cases op with
  | startEpochChain =>
    obtain ⟨trades, closes⟩ := startEpochChain_kept w.auction
    exact faithful_closing_iff faithful seen trades closes (by simp)
  | closeEpoch => exact faithful_closing_iff faithful seen rfl EpochPhase.noConfusion (by simp)
  | settle accepted clock => exact faithful_settle_iff faithful seen accepted clock
  | newEpoch => exact iff_of_true faithful_newEpoch trivial
  | leave id =>
    obtain ⟨trades, epoch⟩ := leave_kept w.auction id
    refine iff_of_true (faithful_of_kept faithful seen trades ?_ (by simp)) trivial
    rcases epoch with same | ⟨audit, ready⟩
    · rw [show (Op.leave id).apply w.auction = w.auction.leave id from rfl, same]
    · rw [show (Op.leave id).apply w.auction = w.auction.leave id from rfl, ready, audit]
      decide
  | _ => exact iff_of_true (ofAside trivial) trivial

end

theorem start_faithful : (start : Watch γ).Faithful := by
  refine ⟨iff_of_true rfl (by decide : 0 < epochSize), ?_, ?_⟩
  · rintro (audit | done)
    · cases audit
    · cases done
  · intro log frozen
    cases frozen

/-- The epoch, its audit and the log stay in step along a run exactly when every audit is started
and closed over a full log and no round is settled after it was started. -/
theorem epochs_faithful_iff (ops : List (Op γ)) :
    (∀ w ∈ visited next start ops, Watch.Faithful w) ↔ AllSteps next Timely start ops := by
  refine forall_visited_iff
    (fun w op _ _ => seen_next op w) ?_ ?_ start_faithful
    (AllSteps.of_forall (fun _ _ => trivial) _ _)
  · intro w op seen faithful _
    exact faithful_next_iff op seen faithful
  · intro ready
    cases ready

/-- An audit of a new auction, and a round settled while it runs: the epoch is in its audit with no
trade logged and without having been ready, and then with a trade that was not there when the audit
was started. -/
theorem audit_of_no_trades :
    let audited := last next start [(Op.startEpochChain : Op ℕ)]
    let settled := last next audited [.offer 0 3, .settle true "12:00:00"]
    (audited.auction.epoch = .audit ∧ audited.auction.trades = [] ∧ audited.readied = false ∧
        ¬ audited.Faithful) ∧
      settled.frozen = some [] ∧ settled.auction.trades.length = 1 ∧
        settled.auction.epoch = .audit ∧ ¬ settled.Faithful := by
  refine ⟨⟨rfl, rfl, rfl, ?_⟩, rfl, rfl, rfl, ?_⟩
  · intro faithful
    exact Bool.noConfusion (faithful.throughReady (.inl rfl))
  · intro faithful
    exact absurd (faithful.frozen [] rfl) (List.cons_ne_nil _ _)

end EnergyEpochs
