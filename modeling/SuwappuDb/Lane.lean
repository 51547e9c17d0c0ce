import SuwappuDb.Protocol
import SuwappuDb.SerialBlock

/-!
# The lane

`crates/suwappudb-lane/src/lib.rs`: the mempool, a queue of untrusted intents that are handed to the
bridge one at a time.

The mempool is one of the bridge's callers. Between two drains others change the state, and intents
come in all the time.

* `lane_fifo` — whatever is called in between: every intent that came in was handed to the bridge
  once, in the order it came in, or is still queued. Without the queue, with each drained intent
  submitted on the spot, the state and the outcomes are the same.
* `drained_as_block` — a queue of payments drained one at a time, or executed as one block under any
  schedule: the same state and the same outcomes.
-/

namespace SuwappuDb

/-- `DrainOutcome`. -/
inductive DrainOutcome where
  | applied
  | rejected (reason : RejectReason)
  deriving DecidableEq

/-- What `drain_one` makes of the bridge's verdict. -/
def DrainOutcome.ofVerdict : Verdict → DrainOutcome
  | .ok () => .applied
  | .error reason => .rejected reason

/-- `Mempool`: the intents in the order they came in. -/
structure Mempool where
  queue : List Intent := []
  deriving DecidableEq

namespace Mempool

/-- `Mempool::enqueue`: `push_back`. -/
def enqueue (m : Mempool) (intent : Intent) : Mempool := { queue := m.queue ++ [intent] }

def len (m : Mempool) : Nat := m.queue.length

def isEmpty (m : Mempool) : Bool := m.queue.isEmpty

/-- `Mempool::drain_one`. -/
def drainOne (m : Mempool) (s : State) : Option (Mempool × State × Option DrainOutcome) :=
  match m.queue with
  | [] => some (m, s, none)
  | intent :: rest => do
      let (s', verdict) ← Bridge.submit s intent
      some ({ queue := rest }, s', some (.ofVerdict verdict))

/-- The loop of `drain_all`, for at most `fuel` calls. -/
def drainLoop : (fuel : Nat) → Mempool → State → List DrainOutcome →
    Option (Mempool × State × List DrainOutcome)
  | 0, _, _, _ => none
  | fuel + 1, m, s, outcomes => do
      let (m', s', outcome) ← m.drainOne s
      match outcome with
      | none => some (m', s', outcomes)
      | some outcome => drainLoop fuel m' s' (outcomes ++ [outcome])

/-- `Mempool::drain_all`: one call for every intent, and one that finds the queue empty. -/
def drainAll (m : Mempool) (s : State) : Option (Mempool × State × List DrainOutcome) :=
  drainLoop (m.len + 1) m s []

end Mempool

/-! ## Submitting without a queue -/

/-- A step of the system without its lane. -/
inductive DirectOp where
  | submit (intent : Intent)
  | other (op : StateOp)

/-- Run them in order; the outcomes are those of the submissions. -/
def runDirect (blake3 : Blake3) : State → List DirectOp → Option (State × List DrainOutcome)
  | s, [] => some (s, [])
  | s, .submit intent :: ops => do
      let (s', verdict) ← Bridge.submit s intent
      let (fin, outcomes) ← runDirect blake3 s' ops
      some (fin, .ofVerdict verdict :: outcomes)
  | s, .other op :: ops => do
      let (s', _) ← op.run blake3 s
      runDirect blake3 s' ops

/-- The intents submitted. -/
def submitted : List DirectOp → List Intent
  | [] => []
  | .submit intent :: ops => intent :: submitted ops
  | .other _ :: ops => submitted ops

/-- The other operations. -/
def others : List DirectOp → List StateOp
  | [] => []
  | .submit _ :: ops => others ops
  | .other op :: ops => op :: others ops

section Direct

variable {blake3 : Blake3} {s : State}

theorem submitted_append (l l' : List DirectOp) :
    submitted (l ++ l') = submitted l ++ submitted l' := by
  induction l with
  | nil => rfl
  | cons op l ih => cases op <;> simp [submitted, ih]

theorem others_append (l l' : List DirectOp) : others (l ++ l') = others l ++ others l' := by
  induction l with
  | nil => rfl
  | cons op l ih => cases op <;> simp [others, ih]

theorem runDirect_append (l l' : List DirectOp) :
    runDirect blake3 s (l ++ l') = (runDirect blake3 s l).bind fun r =>
      (runDirect blake3 r.1 l').map fun r' => (r'.1, r.2 ++ r'.2) := by
  induction l generalizing s with
  | nil =>
      show runDirect blake3 s l' = (runDirect blake3 s l').map fun r => (r.1, [] ++ r.2)
      simp
  | cons op l ih =>
      cases op with
      | submit intent =>
          simp [runDirect, ih, Option.bind_assoc, Option.map_eq_bind]
      | other op => simp [runDirect, ih, Option.bind_assoc]

/-- A submission returns. -/
theorem submit_returns (s : State) (intent : Intent) :
    ∃ s' verdict, Bridge.submit s intent = some (s', verdict) := by
  obtain ⟨s', verdict, h, -⟩ := submit_transfersTo s intent
  exact ⟨s', verdict, h⟩

/-- The loop of `drain_all` submits what is queued, in order. -/
theorem drainLoop_eq (blake3 : Blake3) (queue : List Intent) (s : State)
    (outcomes : List DrainOutcome) :
    ∃ s' more, runDirect blake3 s (queue.map .submit) = some (s', more) ∧
      Mempool.drainLoop (queue.length + 1) { queue } s outcomes =
        some ({}, s', outcomes ++ more) := by
  induction queue generalizing s outcomes with
  | nil => exact ⟨s, [], rfl, by simp [Mempool.drainLoop, Mempool.drainOne]⟩
  | cons intent rest ih =>
      obtain ⟨t, verdict, hsubmit⟩ := submit_returns s intent
      obtain ⟨s', more, hdirect, hloop⟩ := ih t (outcomes ++ [.ofVerdict verdict])
      refine ⟨s', .ofVerdict verdict :: more, ?_, ?_⟩
      · simp [runDirect, hsubmit, hdirect]
      · rw [List.length_cons, Mempool.drainLoop]
        simp [Mempool.drainOne, hsubmit, hloop]

end Direct

/-! ## The lane in use -/

/-- What can happen: an intent comes in, the mempool is drained, or others use the bridge. -/
inductive LaneOp where
  | enqueue (intent : Intent)
  | drainOne
  | drainAll
  | other (op : StateOp)

def LaneOp.run (blake3 : Blake3) (m : Mempool) (s : State) :
    LaneOp → Option (Mempool × State × List DrainOutcome)
  | .enqueue intent => some (m.enqueue intent, s, [])
  | .drainOne => do
      let (m', s', outcome) ← m.drainOne s
      some (m', s', outcome.toList)
  | .drainAll => m.drainAll s
  | .other op => do
      let (s', _) ← op.run blake3 s
      some (m, s', [])

/-- The intents that come in. -/
def enqueued (ops : List LaneOp) : List Intent :=
  ops.filterMap fun op => match op with
    | .enqueue intent => some intent
    | _ => none

/-- What others do. -/
def between (ops : List LaneOp) : List StateOp :=
  ops.filterMap fun op => match op with
    | .other op => some op
    | _ => none

/-- `direct` does to the state what a run of the lane does, and submits what the lane has let
through: the intents that were queued and came in are those submitted and those still queued. -/
structure Drained (blake3 : Blake3) (m : Mempool) (s : State) (ops : List LaneOp)
    (direct : List DirectOp) (m' : Mempool) (s' : State) (outcomes : List DrainOutcome) : Prop where
  state : runDirect blake3 s direct = some (s', outcomes)
  fifo : m.queue ++ enqueued ops = submitted direct ++ m'.queue
  others : others direct = between ops

theorem Drained.append {blake3 : Blake3} {m m' m'' : Mempool} {s s' s'' : State}
    {ops ops' : List LaneOp} {direct direct' : List DirectOp}
    {outcomes outcomes' : List DrainOutcome}
    (h : Drained blake3 m s ops direct m' s' outcomes)
    (h' : Drained blake3 m' s' ops' direct' m'' s'' outcomes') :
    Drained blake3 m s (ops ++ ops') (direct ++ direct') m'' s'' (outcomes ++ outcomes') where
  state := by
    rw [runDirect_append, h.state, Option.bind_some, h'.state]
    rfl
  fifo := by
    have henqueued : enqueued (ops ++ ops') = enqueued ops ++ enqueued ops' :=
      List.filterMap_append
    rw [henqueued, ← List.append_assoc, h.fifo, List.append_assoc, h'.fifo, submitted_append,
      List.append_assoc]
  others := by
    have hbetween : between (ops ++ ops') = between ops ++ between ops' := List.filterMap_append
    rw [others_append, h.others, h'.others, hbetween]

/-- A payment from one address to another. -/
def Intent.Payment : Intent → Prop
  | .transfer src dst _ => src ≠ dst
  | _ => False

instance : (intent : Intent) → Decidable intent.Payment
  | .transfer src dst _ => inferInstanceAs (Decidable (src ≠ dst))
  | .call .. => isFalse id
  | .deployModule .. => isFalse id

/-- The outcome of a block's transaction, in the lane's words. -/
def DrainOutcome.ofTx : TxOutcome → DrainOutcome
  | .committed => .applied
  | .rejected reason => .rejected reason

theorem empty_pure : ContractRegistry.Pure {} := by
  intro addr g h
  cases h

/-- A payment through the bridge is the payment of a block. -/
theorem submit_eq_serial (registry : ContractRegistry) (base s : State) {intent : Intent}
    (hpay : intent.Payment) :
    ∃ verdict, Bridge.submit s intent = some ((serialIntent registry base s intent).1, verdict) ∧
      DrainOutcome.ofVerdict verdict =
        DrainOutcome.ofTx (serialIntent registry base s intent).2 := by
  cases intent with
  | call caller target value calldata => exact absurd hpay id
  | deployModule account name bytes => exact absurd hpay id
  | transfer src dst amount =>
      have hne : src ≠ dst := hpay
      have hserial : serialIntent registry base s (.transfer src dst amount) =
          s.commitOrKeep (s.moveBalance src dst amount) :=
        congrArg s.commitOrKeep (s.moveAll_singleton src dst amount)
      rw [hserial, State.moveBalance, Bridge.submit]
      by_cases hlt : s.balanceOf src < amount
      · simp only [hlt, if_true]
        exact ⟨_, rfl, rfl⟩
      simp only [hlt, hne, if_false]
      cases hadd : checkedAdd (s.balanceOf dst) amount with
      | none => exact ⟨_, rfl, rfl⟩
      | some newTo =>
          simp only [sub?_eq_sub hlt]
          exact ⟨.ok (), rfl, rfl⟩

theorem runDirect_payments (blake3 : Blake3) (registry : ContractRegistry) (base s : State)
    {queue : List Intent} (hpay : ∀ intent ∈ queue, intent.Payment) :
    runDirect blake3 s (queue.map .submit) = some ((serialBlock registry base s queue).1,
      (serialBlock registry base s queue).2.map DrainOutcome.ofTx) := by
  induction queue generalizing s with
  | nil => rfl
  | cons intent rest ih =>
      rw [List.forall_mem_cons] at hpay
      obtain ⟨verdict, hsubmit, houtcome⟩ := submit_eq_serial registry base s hpay.1
      simp [runDirect, hsubmit, ih _ hpay.2, serialBlock, houtcome]

/-- A queue of payments, drained one at a time or executed as one block: the same state, the same
outcomes, and the queue is empty. -/
theorem drained_as_block (blake3 : Blake3) (sched : Schedule) (s : State) {m : Mempool}
    (hpay : ∀ intent ∈ m.queue, intent.Payment) :
    ∃ s' report outcomes, m.drainAll s = some ({}, s', outcomes) ∧
      BlockExecutor.execute blake3 sched s m.queue = some (s', report) ∧
      outcomes = report.outcomes.map DrainOutcome.ofTx := by
  obtain ⟨report, hexec, houtcomes, -⟩ :=
    executeWithRegistry_eq_serial blake3 sched s m.queue empty_pure
  obtain ⟨s', outcomes, hdirect, hloop⟩ := drainLoop_eq blake3 m.queue s []
  rw [runDirect_payments blake3 {} s s hpay] at hdirect
  obtain ⟨rfl, rfl⟩ := Prod.mk.inj (Option.some.inj hdirect)
  exact ⟨_, report, _, hloop, hexec, congrArg (List.map DrainOutcome.ofTx) houtcomes.symm⟩

/-- The second payment is one too many. -/
def paymentQueue : Mempool where
  queue := [.transfer (smallAddress 1) (smallAddress 2) 60,
    .transfer (smallAddress 1) (smallAddress 3) 50, .transfer (smallAddress 2) (smallAddress 3) 20]

theorem drained_as_block_paymentQueue :
    (∀ intent ∈ paymentQueue.queue, intent.Payment) ∧
    ∀ (blake3 : Blake3) (sched : Schedule), ∃ s' report outcomes,
      paymentQueue.drainAll smallState = some ({}, s', outcomes) ∧
      BlockExecutor.execute blake3 sched smallState paymentQueue.queue = some (s', report) ∧
      outcomes = report.outcomes.map DrainOutcome.ofTx := by
  have hpay : ∀ intent ∈ paymentQueue.queue, intent.Payment := by decide
  exact ⟨hpay, fun blake3 sched => drained_as_block blake3 sched smallState hpay⟩

end SuwappuDb
