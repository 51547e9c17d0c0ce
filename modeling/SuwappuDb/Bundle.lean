import SuwappuDb.Bridge

/-!
# Bundles

`crates/suwappudb-bridge/src/bundle/{types,registry,executor}.rs`. A bundle is a list of steps
that commits as a whole or not at all. `BundleExecutor.execute` runs transfer steps through the
bridge; `executeWithMoveRuntime` also runs Move calls and queues module deployments. Both take a
snapshot of the balances of the addresses the steps name before the first step, and on a failing
step write it back.

The order in which the snapshot's `HashMap` is visited on the way back is the `IterOrder`
argument.
-/

namespace SuwappuDb

/-! ## Types -/

/-- One step of a bundle. -/
inductive BundleStep where
  | evm (tx : EvmTx)
  | move (tx : MoveTx)
  | moveCall (call : MoveCall)
  | deployModule (account : MoveAddress) (name : Identifier) (bytes : List Byte)

structure Bundle where
  steps : List BundleStep := []

/-- What a contract's generator is told about the call. -/
structure CallCtx where
  caller : Address
  target : Address
  value : U128
  calldata : List Byte
  state : State
  depth : Fin 256

/-- A contract: a function from calls to bundles. The trait asks for no side effects but cannot
enforce it; `tick` names the invocation, so a generator that answers the same call differently
from one invocation to the next is one that looks at it. -/
structure BundleGenerator where
  generate : (tick : Nat) → CallCtx → Bundle

/-- The answer depends on the call alone. -/
def BundleGenerator.Pure (g : BundleGenerator) : Prop :=
  ∀ tick tick' ctx, g.generate tick ctx = g.generate tick' ctx

/-- Generators by address. -/
structure ContractRegistry where
  byAddress : OrdMap Address BundleGenerator := ∅

namespace ContractRegistry

def get (r : ContractRegistry) (addr : Address) : Option BundleGenerator := r.byAddress.get? addr

/-- Every registered generator is pure. -/
def Pure (r : ContractRegistry) : Prop := ∀ addr g, r.get addr = some g → g.Pure

end ContractRegistry

inductive BundleOutcome where
  | committed
  | reverted (failedStep : Nat)
  deriving DecidableEq

structure BundleResult where
  stepOutcomes : List TxOutcome
  outcome : BundleOutcome
  deriving DecidableEq

/-! ## Snapshots -/

/-- The transfer a step stands for, if it is one. -/
def stepToIntent : BundleStep → Option Intent
  | .evm tx => some (.transfer tx.toCanonical.src tx.toCanonical.dst tx.toCanonical.amount)
  | .move tx => some (.transfer tx.toCanonical.src tx.toCanonical.dst tx.toCanonical.amount)
  | .moveCall _ => none
  | .deployModule .. => none

/-- The last 20 bytes of a Move address, as `bundle/executor.rs` takes them. -/
def moveAddrToEvm (addr : MoveAddress) : Address := addr.toEvm

/-- The addresses recorded for a step. For a Move call that is the caller only. -/
def BundleStep.recorded : BundleStep → List Address
  | .evm tx => [tx.src, tx.dst]
  | .move tx => [tx.signer, tx.recipient]
  | .moveCall call => [moveAddrToEvm call.caller]
  | .deployModule account _ _ => [moveAddrToEvm account]

/-- `snap.entry(addr).or_insert_with(..)`. -/
def recordBalance (s : State) (snap : OrdMap Address Balance) (addr : Address) :
    OrdMap Address Balance :=
  match snap.get? addr with
  | some _ => snap
  | none => snap.insert addr (s.balanceOf addr)

/-- `collect_snapshot`. -/
def collectSnapshot (s : State) (bundle : Bundle) : OrdMap Address Balance :=
  (bundle.steps.flatMap BundleStep.recorded).foldl (recordBalance s) ∅

/-- `restore_snapshot`. -/
def restoreSnapshot (order : IterOrder) (s : State) (snap : OrdMap Address Balance) : State :=
  (order.arrange snap.entries).foldl (fun s p => s.apply (.setBalance p.1 p.2)) s

namespace BundleExecutor

/-! ## Transfer bundles -/

/-- The step loop of `execute`, from step `idx` on. -/
def executeFrom (order : IterOrder) (snapshot : OrdMap Address Balance) :
    Nat → List BundleStep → State → List TxOutcome → Option (State × BundleResult)
  | _, [], s, outcomes => some (s, ⟨outcomes, .committed⟩)
  | idx, step :: steps, s, outcomes =>
      match stepToIntent step with
      | none =>
          some (restoreSnapshot order s snapshot,
            ⟨outcomes ++ [.rejected .moveRuntimeRequired], .reverted idx⟩)
      | some intent => do
          let (s', verdict) ← Bridge.submit s intent
          match verdict with
          | .ok () => executeFrom order snapshot (idx + 1) steps s' (outcomes ++ [.committed])
          | .error reason =>
              some (restoreSnapshot order s' snapshot,
                ⟨outcomes ++ [.rejected reason], .reverted idx⟩)

/-- `BundleExecutor::execute`. -/
def execute (order : IterOrder) (s : State) (bundle : Bundle) : Option (State × BundleResult) :=
  if bundle.steps.isEmpty then some (s, ⟨[], .committed⟩)
  else executeFrom order (collectSnapshot s bundle) 0 bundle.steps s []

/-! ## Bundles with a Move runtime -/

/-- `apply_resource_writes`. The nonce of a write is not applied. -/
def applyResourceWrites (s : State) (writes : List ResourceWrite) : State :=
  writes.foldl (fun s w => s.apply (.setBalance (moveAddrToEvm w.addr) w.coinValue)) s

/-- The derived debug text of a Move address. -/
def debugMoveAddress (addr : MoveAddress) : String :=
  "MoveAddress([" ++ ", ".intercalate (addr.val.map fun b => toString b.val) ++ "])"

def identifierText (name : Identifier) : String :=
  String.ofList (name.val.map fun b => Char.ofNat b.val)

/-- Deployments waiting for the bundle to commit. -/
abbrev Queue := List (ModuleId × CompiledModule)

section Runtime

variable (exec : MoveExecutor) (modules : InMemoryModuleStore) (view : MoveBalanceView)

/-- One step of the loop of `execute_with_move_runtime`. -/
def runtimeStep (s : State) (queued : Queue) : BundleStep → Option (State × Queue × Verdict)
  | .evm tx => do
      let (s', verdict) ←
        Bridge.submit s (.transfer tx.toCanonical.src tx.toCanonical.dst tx.toCanonical.amount)
      some (s', queued, verdict)
  | .move tx => do
      let (s', verdict) ←
        Bridge.submit s (.transfer tx.toCanonical.src tx.toCanonical.dst tx.toCanonical.amount)
      some (s', queued, verdict)
  | .moveCall call => do
      match ← exec call modules view with
      | .ok outcome => some (applyResourceWrites s outcome.resourceWrites, queued, .ok ())
      | .error e => some (s, queued, .error (.moveCallFailed e))
  | .deployModule account name bytes =>
      let id : ModuleId := ⟨account, name⟩
      if modules.contains id || queued.any fun q => q.1 == id then
        some (s, queued, .error (.moduleDeployFailed ("module " ++ debugMoveAddress account ++
          "::" ++ identifierText name ++ " already deployed (or queued)")))
      else some (s, queued ++ [(id, ⟨bytes⟩)], .ok ())

/-- Flush the queue; a rejected `put` is ignored. -/
def flush (modules : InMemoryModuleStore) (queued : Queue) : InMemoryModuleStore :=
  queued.foldl (fun store q => match store.put q.1 q.2 with
    | .ok store' => store'
    | .error _ => store) modules

/-- The step loop of `execute_with_move_runtime`, from step `idx` on. -/
def runtimeFrom (order : IterOrder) (snapshot : OrdMap Address Balance) :
    Nat → List BundleStep → State → Queue → List TxOutcome →
      Option (State × InMemoryModuleStore × BundleResult)
  | _, [], s, queued, outcomes => some (s, flush modules queued, ⟨outcomes, .committed⟩)
  | idx, step :: steps, s, queued, outcomes => do
      let (s', queued', verdict) ← runtimeStep exec modules view s queued step
      match verdict with
      | .ok () => runtimeFrom order snapshot (idx + 1) steps s' queued' (outcomes ++ [.committed])
      | .error reason =>
          some (restoreSnapshot order s' snapshot, modules,
            ⟨outcomes ++ [.rejected reason], .reverted idx⟩)

/-- `BundleExecutor::execute_with_move_runtime`. -/
def executeWithMoveRuntime (order : IterOrder) (s : State) (bundle : Bundle) :
    Option (State × InMemoryModuleStore × BundleResult) :=
  if bundle.steps.isEmpty then some (s, modules, ⟨[], .committed⟩)
  else runtimeFrom exec modules view order (collectSnapshot s bundle) 0 bundle.steps s [] []

end Runtime

end BundleExecutor

end SuwappuDb
