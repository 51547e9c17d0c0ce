import SuwappuDb.Lib.Prog
import SuwappuDb.StateTree
import SuwappuDb.Bundle
import SuwappuDb.MvStore

/-!
# The block executor

`crates/suwappudb-bridge/src/occ/block_executor.rs`: speculative execution of one intent, and the
loop that runs the pending intents of a block in parallel, validates every transaction, and runs
the stale ones again.

A speculative run is a program over the three atomic operations of the `MvStore`
(`executeOne`), and a parallel pass is a pool of such programs over one store. Everything a run
of the block takes from its surroundings is in a `Schedule`: for each pass the order of the
pool's store operations, the order in which each run's `HashMap` is visited and the invocation
its generator sees; and the visiting orders of the two `HashMap`s read after the loop.
`executeWithRegistry` is a function of the schedule, so a statement about all schedules is about
every interleaving.

`none` stands for a panic: the loop's assertion, or a subtraction that would wrap.
-/

namespace SuwappuDb

/-! ## Operations on the store -/

/-- An atomic operation of the `MvStore`. -/
inductive MvOp where
  | read (addr : Address) (idx : TxnIdx)
  | write (addr : Address) (slot : BalanceSlot) (idx : TxnIdx)
  | clearWrites (idx : TxnIdx)

/-- What an operation returns. -/
def MvOp.Res : MvOp → Type
  | .read .. => BalanceSlot × ReadSource
  | .write .. => Unit
  | .clearWrites _ => Unit

/-- What an operation does. -/
def mvSem (s : State) : (op : MvOp) → MvStore → op.Res × MvStore
  | .read addr idx, mv => (mv.read s addr idx, mv)
  | .write addr slot idx, mv => ((), mv.write addr slot idx)
  | .clearWrites idx, mv => ((), mv.clearWrites idx)

/-- A speculative run: its recorded transaction, or a panic. -/
abbrev MvProg := Prog MvOp MvOp.Res (Option Txn)

/-- What one run takes from its surroundings. -/
structure RunEnv where
  /-- The order in which the run visits its `HashMap`. -/
  order : IterOrder := default
  /-- The invocation its generator sees. -/
  tick : Nat := 0

instance : Inhabited RunEnv := ⟨{}⟩

/-! ## Executing one intent -/

/-- The checks and the arithmetic of every speculative transfer: the new balances of the two
sides. -/
def transferLegs (fromBalance toBalance amount : U128) :
    Option (Except RejectReason (U128 × U128)) :=
  if fromBalance < amount then some (.error .insufficientBalance)
  else
    match checkedAdd toBalance amount with
    | none => some (.error .amountOverflow)
    | some newTo => do
        let newFrom ← sub? fromBalance amount
        some (.ok (newFrom, newTo))

/-- The body that the `Transfer` arm of `execute_one` and `execute_transfer_into` share. -/
def transferBody (src dst : Address) (amount : U128) (idx : TxnIdx) : MvProg :=
  .call (.read src idx) fun (fromSlot, fromSrc) =>
  .call (.read dst idx) fun (toSlot, toSrc) =>
    let readSet : List ReadEntry := [⟨src, fromSrc⟩, ⟨dst, toSrc⟩]
    match transferLegs fromSlot.canonical toSlot.canonical amount with
    | none => .ret none
    | some (.error reason) => .ret (some { idx, readSet, rejected := some reason })
    | some (.ok (newFrom, newTo)) =>
        if src = dst then
          let newValue := BalanceSlot.new fromSlot.canonical
          .call (.write src newValue idx) fun _ =>
            .ret (some { idx, readSet, writeSet := [⟨src, newValue⟩] })
        else
          let newFromSlot := BalanceSlot.new newFrom
          let newToSlot := BalanceSlot.new newTo
          .call (.write src newFromSlot idx) fun _ =>
          .call (.write dst newToSlot idx) fun _ =>
            .ret (some { idx, readSet, writeSet := [⟨src, newFromSlot⟩, ⟨dst, newToSlot⟩] })

/-- `execute_transfer_into`. -/
def executeTransferInto (src dst : Address) (amount : U128) (idx : TxnIdx) : MvProg :=
  transferBody src dst amount idx

/-- The transfer a bundle step is for the block executor; the others are skipped. -/
def stepTransfer : BundleStep → Option (Address × Address × U128)
  | .evm tx => some (tx.src, tx.dst, tx.value)
  | .move tx => some (tx.signer, tx.recipient, tx.amount)
  | .moveCall _ => none
  | .deployModule .. => none

/-- `local_or_mv`: the bundle's own value of an address, else a read of the store. The source is
`none` for a value of the bundle's own. -/
def localOrMv (loc : OrdMap Address BalanceSlot) (addr : Address) (idx : TxnIdx)
    (k : BalanceSlot → Option ReadSource → MvProg) : MvProg :=
  match loc.get? addr with
  | some slot => k slot none
  | none => .call (.read addr idx) fun (slot, src) => k slot (some src)

/-- Only a read of the store goes into the read set. -/
def pushRead (readSet : List ReadEntry) (addr : Address) : Option ReadSource → List ReadEntry
  | some source => readSet ++ [⟨addr, source⟩]
  | none => readSet

/-- Publish a bundle's accumulated values, in the order they are visited. -/
def publish (idx : TxnIdx) (readSet : List ReadEntry) :
    List (Address × BalanceSlot) → List WriteEntry → MvProg
  | [], writeSet => .ret (some { idx, readSet, writeSet })
  | (addr, slot) :: rest, writeSet =>
      .call (.write addr slot idx) fun _ => publish idx readSet rest (writeSet ++ [⟨addr, slot⟩])

/-- The step loop of `execute_call`, with the bundle's own values and the read set so far. -/
def callSteps (env : RunEnv) (idx : TxnIdx) :
    List BundleStep → OrdMap Address BalanceSlot → List ReadEntry → MvProg
  | [], loc, readSet => publish idx readSet (env.order.arrange loc.entries) []
  | step :: steps, loc, readSet =>
      match stepTransfer step with
      | none => callSteps env idx steps loc readSet
      | some (src, dst, amount) =>
          localOrMv loc src idx fun fromSlot fromSrc =>
          localOrMv loc dst idx fun toSlot toSrc =>
            let readSet := pushRead (pushRead readSet src fromSrc) dst toSrc
            match transferLegs fromSlot.canonical toSlot.canonical amount with
            | none => .ret none
            | some (.error reason) =>
                .call (.clearWrites idx) fun _ =>
                  .ret (some { idx, readSet, rejected := some reason })
            | some (.ok (newFrom, newTo)) =>
                if src = dst then
                  callSteps env idx steps
                    (loc.insert src (BalanceSlot.new fromSlot.canonical)) readSet
                else
                  callSteps env idx steps
                    ((loc.insert src (BalanceSlot.new newFrom)).insert dst (BalanceSlot.new newTo))
                    readSet

/-- The bundle a registered contract answers a call with. -/
def callBundle (env : RunEnv) (g : BundleGenerator) (caller target : Address) (value : U128)
    (calldata : List Byte) (s : State) : Bundle :=
  g.generate env.tick { caller, target, value, calldata, state := s, depth := 0 }

/-- `execute_call`. -/
def executeCall (env : RunEnv) (caller target : Address) (value : U128) (calldata : List Byte)
    (idx : TxnIdx) (s : State) (registry : ContractRegistry) : MvProg :=
  match registry.get target with
  | none => executeTransferInto caller target value idx
  | some g => callSteps env idx (callBundle env g caller target value calldata s).steps ∅ []

/-- `execute_one`. Deployments have no effect here. -/
def executeOne (env : RunEnv) (intent : Intent) (idx : TxnIdx) (s : State)
    (registry : ContractRegistry) : MvProg :=
  match intent with
  | .call caller target value calldata =>
      executeCall env caller target value calldata idx s registry
  | .deployModule .. => .ret (some { idx })
  | .transfer src dst amount => transferBody src dst amount idx

/-! ## The loop -/

/-- What a parallel pass takes from its surroundings. -/
structure PassSchedule where
  /-- Which pending transaction, by its position in the pending list, makes the next store
  operation. When the list is used up, the unfinished ones run to the end one by one. -/
  picks : List Nat := []
  env : TxnIdx → RunEnv := fun _ => {}

/-- What the execution of a block takes from its surroundings. -/
structure Schedule where
  /-- Pass by pass. -/
  pass : Nat → PassSchedule := fun _ => {}
  /-- The runs after a collapse. -/
  collapse : TxnIdx → RunEnv := fun _ => {}
  /-- The visit of the versions at consolidation. -/
  finalise : IterOrder := default
  /-- The visit of the state's slots for the root. -/
  entries : IterOrder := default

instance : Inhabited Schedule := ⟨{}⟩

/-- Telemetry of one block. -/
structure BlockReport where
  outcomes : List TxOutcome
  iterations : Nat
  aborts : Nat
  stateRoot : Commitment
  collapsedToSequential : Option Address
  deriving DecidableEq

/-- The loop's variables. -/
structure Loop where
  mv : MvStore := {}
  txns : List Txn
  pending : List TxnIdx
  iterations : Nat := 0
  aborts : Nat := 0
  collapsedHotAddr : Option Address := none

def COLLAPSE_THRESHOLD_NUM : Nat := 1
def COLLAPSE_THRESHOLD_DEN : Nat := 4

section Block

variable (s : State) (block : List Intent) (registry : ContractRegistry)

/-- The run of the block's transaction `idx`. -/
def executeAt (env : RunEnv) (idx : TxnIdx) : MvProg :=
  match block[idx]? with
  | some intent => executeOne env intent idx s registry
  | none => .ret none

/-- The parallel re-execution of the pending transactions: their records, in pending order. -/
def executePass (sched : PassSchedule) (mv : MvStore) (pending : List TxnIdx) :
    Option (List Txn × MvStore) := do
  let threads := pending.map fun idx => executeAt s block registry (sched.env idx) idx
  let (runs, mv') := Pool.run (mvSem s) sched.picks ⟨threads, mv⟩
  let txns ← runs.mapM id
  some (txns, mv')

/-- The validation pass's variables. -/
structure Validation where
  mv : MvStore
  nextPending : List TxnIdx := []
  aborts : Nat
  abortsByAddr : OrdMap Address Nat := ∅

/-- `*aborts_by_addr.entry(addr).or_insert(0) += 1` for every address written. -/
def tallyAborts (tally : OrdMap Address Nat) (writes : List WriteEntry) : OrdMap Address Nat :=
  writes.foldl (fun tally w => tally.insert w.addr ((tally.get? w.addr).getD 0 + 1)) tally

/-- The validation pass, from transaction `idx` on. A stale transaction's writes are cleared
before the next transaction is looked at. -/
def validateFrom : TxnIdx → List Txn → Validation → Validation
  | _, [], v => v
  | idx, txn :: rest, v =>
      if Validator.isValid txn v.mv then validateFrom (idx + 1) rest v
      else validateFrom (idx + 1) rest {
        mv := v.mv.clearWrites idx
        nextPending := v.nextPending ++ [idx]
        aborts := v.aborts + 1
        abortsByAddr := tallyAborts v.abortsByAddr txn.writeSet }

/-- The first address whose aborts cross the threshold. -/
def hotAddr (tally : OrdMap Address Nat) (prevPendingCount : Nat) : Option Address :=
  (tally.entries.find? fun p =>
    p.2 * COLLAPSE_THRESHOLD_DEN ≥ prevPendingCount * COLLAPSE_THRESHOLD_NUM &&
      p.2 ≥ 2).map Prod.fst

/-- Run the transactions `idxs` one after another, recording each. -/
def runSequential (env : TxnIdx → RunEnv) :
    List TxnIdx → MvStore → List Txn → Option (MvStore × List Txn)
  | [], mv, txns => some (mv, txns)
  | idx :: idxs, mv, txns => do
      let (txn, mv') := (executeAt s block registry (env idx) idx).run (mvSem s) mv
      runSequential env idxs mv' (txns.set idx (← txn))

/-- Clear every write. -/
def clearAll (mv : MvStore) : MvStore :=
  (List.range block.length).foldl (fun mv idx => mv.clearWrites idx) mv

/-- One iteration of the loop, past its assertion: the variables after it, and whether it ended in
the collapse, which leaves the loop. -/
def iterate (sched : PassSchedule) (collapse : TxnIdx → RunEnv) (st : Loop) :
    Option (Loop × Bool) := do
  let (runs, mv) ← executePass s block registry sched st.mv st.pending
  let txns := (st.pending.zip runs).foldl (fun txns p => txns.set p.1 p.2) st.txns
  let v := validateFrom 0 txns { mv, aborts := st.aborts }
  let collapsedHotAddr :=
    if st.collapsedHotAddr.isNone && 0 < st.pending.length then
      hotAddr v.abortsByAddr st.pending.length
    else st.collapsedHotAddr
  let st' : Loop := {
    mv := v.mv
    txns
    pending := v.nextPending
    iterations := st.iterations + 1
    aborts := v.aborts
    collapsedHotAddr }
  if collapsedHotAddr.isSome then do
    let (mv, txns) ←
      runSequential s block registry collapse (List.range block.length) (clearAll block v.mv) txns
    some ({ st' with mv, txns }, true)
  else some (st', false)

/-- The loop. The fuel is what the assertion `iterations <= cap` leaves. -/
def loop (sched : Schedule) : (fuel : Nat) → Loop → Option Loop
  | 0, st => if st.pending.isEmpty then some st else none
  | fuel + 1, st =>
      if st.pending.isEmpty then some st
      else do
        let (st', broke) ← iterate s block registry (sched.pass st.iterations) sched.collapse st
        if broke then some st' else loop sched fuel st'

/-- The variables before the first iteration. -/
def Loop.start : Loop where
  txns := (List.range block.length).map fun idx => { idx }
  pending := List.range block.length

/-- The loop from its start, with the cap of the source. -/
def runLoop (sched : Schedule) : Option Loop :=
  loop s block registry sched (2 * block.length + 4) (Loop.start block)

end Block

/-- Write the final versions to the state. -/
def consolidate (s : State) (writes : List (Address × BalanceSlot)) : State :=
  writes.foldl (fun s p => s.apply (.setBalance p.1 p.2.canonical)) s

/-- The reported outcome of a transaction. -/
def Txn.outcome (t : Txn) : TxOutcome :=
  match t.rejected with
  | none => .committed
  | some reason => .rejected reason

namespace BlockExecutor

variable (blake3 : Blake3)

/-- `BlockExecutor::execute_with_registry`. -/
def executeWithRegistry (sched : Schedule) (s : State) (block : List Intent)
    (registry : ContractRegistry) : Option (State × BlockReport) :=
  if block.length = 0 then
    some (s, {
      outcomes := []
      iterations := 0
      aborts := 0
      stateRoot := (StateTree.fromState sched.entries s).root blake3
      collapsedToSequential := none })
  else do
    let st ← runLoop s block registry sched
    let s' := consolidate s (st.mv.finalise sched.finalise)
    some (s', {
      outcomes := st.txns.map Txn.outcome
      iterations := st.iterations
      aborts := st.aborts
      stateRoot := (StateTree.fromState sched.entries s').root blake3
      collapsedToSequential := st.collapsedHotAddr })

/-- `BlockExecutor::execute`: no contracts. -/
def execute (sched : Schedule) (s : State) (block : List Intent) : Option (State × BlockReport) :=
  executeWithRegistry blake3 sched s block {}

end BlockExecutor

end SuwappuDb
