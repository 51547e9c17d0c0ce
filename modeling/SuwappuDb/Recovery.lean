import SuwappuDb.BlockExecutor

/-!
# Recovery by replay

`crates/suwappudb-bridge/src/recovery/{block,store,replay}.rs`: blocks and their hash, the in-memory
block store with its two maps, and the replay that executes the stored blocks again and compares
the roots.

The block store is a trait in the source; `BlockStore` holds the two of its operations that replay
calls. What the replayed executions take from their surroundings is a `ReplaySchedule`.

The counter of the source's `(from..).zip(blocks)` is a natural number here. In the source it is a
`u64` that is advanced when it is read. A build with overflow checks panics when it reads
`u64::MAX`, whether or not there is a block left; that is not modelled. A build without them goes on
with 0 then, which no block is compared with: no height is above `u64::MAX`.
-/

namespace SuwappuDb

/-! ## Blocks -/

/-- A 32-byte block hash. -/
abbrev BlockHash := ByteArr 32

def GENESIS_PARENT : BlockHash := ⟨List.replicate 32 0, rfl⟩

/-- The inputs of one block execution, and the root it reached. -/
structure Block where
  height : U64
  parent : BlockHash
  stateRoot : Commitment
  intents : List Intent
  deriving DecidableEq

/-- `u32::try_from(len).unwrap_or(u32::MAX)`, as bytes. -/
def lenBytes (len : Nat) : List Byte := beBytes 4 (min len (2 ^ 32 - 1))

/-- `encode_intent`. -/
def encodeIntent : Intent → List Byte
  | .transfer src dst amount => 0 :: (src.val ++ dst.val ++ U128.toBeBytes amount)
  | .call caller target value calldata =>
      1 :: (caller.val ++ target.val ++ U128.toBeBytes value ++ lenBytes calldata.length ++
        calldata)
  | .deployModule account name bytes =>
      2 :: (account.val ++ lenBytes name.val.length ++ name.val ++ lenBytes bytes.length ++ bytes)

namespace Block

/-- What `Block::hash` feeds to the hasher. -/
def encoding (b : Block) : List Byte :=
  ascii "SUWAPPUDB-BLOCK/HASH" ++ (beBytes 8 b.height.val ++ (b.parent.val ++ (b.stateRoot.val ++
    (lenBytes b.intents.length ++ b.intents.flatMap encodeIntent))))

/-- `Block::hash`. -/
def hash (blake3 : Blake3) (b : Block) : BlockHash := blake3 b.encoding

end Block

/-! ## The block store -/

inductive BlockStoreError where
  | backend (text : String)
  deriving DecidableEq

/-- The operations of a block store that replay uses. -/
structure BlockStore where
  getByHeight : U64 → Except BlockStoreError (Option Block)
  iterFrom : U64 → Except BlockStoreError (List Block)

/-- `InMemoryBlockStore`. -/
structure InMemoryBlockStore where
  byHash : OrdMap BlockHash Block := ∅
  byHeight : OrdMap U64 BlockHash := ∅

namespace InMemoryBlockStore

variable (blake3 : Blake3) (store : InMemoryBlockStore)

def put (b : Block) : InMemoryBlockStore where
  byHash := store.byHash.insert (b.hash blake3) b
  byHeight := store.byHeight.insert b.height (b.hash blake3)

/-- A store filled by puts. -/
def ofBlocks (blocks : List Block) : InMemoryBlockStore := blocks.foldl (put blake3) {}

def getByHeight (height : U64) : Option Block :=
  (store.byHeight.get? height).bind store.byHash.get?

/-- The blocks in height order, from a height on. A height whose hash is gone is skipped. -/
def iterFrom (start : U64) : List Block :=
  (store.byHeight.entries.filter fun p => start ≤ p.1).filterMap fun p => store.byHash.get? p.2

/-- As a block store; it never fails. -/
def toBlockStore : BlockStore where
  getByHeight height := .ok (store.getByHeight height)
  iterFrom start := .ok (store.iterFrom start)

end InMemoryBlockStore

/-! ## Replay -/

inductive RecoveryError where
  | storage (e : BlockStoreError)
  | parentHashMismatch (height : U64) (got expected : BlockHash)
  | stateRootMismatch (height : U64) (recorded computed : Commitment)
  | heightGap (expected got : U64)
  deriving DecidableEq

/-- What a replay takes from its surroundings, height by height. -/
structure ReplaySchedule where
  block : Nat → Schedule := fun _ => default
  /-- The visit of the state's slots for the second root. -/
  liveRoot : Nat → IterOrder := fun _ => default

instance : Inhabited ReplaySchedule := ⟨{}⟩

section Replay

variable (blake3 : Blake3) (sched : ReplaySchedule) (registry : ContractRegistry)

/-- The checks that are made before a block is executed. -/
def checkNext (expectedHeight : Nat) (block : Block) (prevHash : BlockHash) :
    Except RecoveryError Unit :=
  if block.height.val ≠ expectedHeight then
    .error (.heightGap (Fin.ofNat (2 ^ 64) expectedHeight) block.height)
  else if block.parent ≠ prevHash then
    .error (.parentHashMismatch block.height block.parent prevHash)
  else .ok ()

/-- The execution of a block, and the comparison of the roots. `none` is a panic of the block
executor. -/
def reExecute (expectedHeight : Nat) (block : Block) (s : State) :
    Option (State × Except RecoveryError Unit) := do
  let (s', report) ← BlockExecutor.executeWithRegistry blake3 (sched.block expectedHeight) s
    block.intents registry
  if report.stateRoot ≠ block.stateRoot then
    some (s', .error (.stateRootMismatch block.height block.stateRoot report.stateRoot))
  else
    let liveRoot := (StateTree.fromState (sched.liveRoot expectedHeight) s').root blake3
    if liveRoot ≠ block.stateRoot then
      some (s', .error (.stateRootMismatch block.height block.stateRoot liveRoot))
    else some (s', .ok ())

/-- What comes after a success; an error is the end. -/
def andThen (next : State → Option (State × Except RecoveryError Unit)) :
    State × Except RecoveryError Unit → Option (State × Except RecoveryError Unit)
  | (s, .ok ()) => next s
  | (s, .error e) => some (s, .error e)

/-- The loop of `replay`. -/
def replayFrom : Nat → List Block → BlockHash → State → Option (State × Except RecoveryError Unit)
  | _, [], _, s => some (s, .ok ())
  | expectedHeight, block :: rest, prevHash, s =>
      match checkNext expectedHeight block prevHash with
      | .error e => some (s, .error e)
      | .ok () => (reExecute blake3 sched registry expectedHeight block s).bind
          (andThen (replayFrom (expectedHeight + 1) rest (block.hash blake3)))

/-- The hash the first replayed block must name as its parent. -/
def startHash (store : BlockStore) (start : U64) : Except BlockStoreError BlockHash :=
  if start = 0 then .ok GENESIS_PARENT
  else do
    match ← store.getByHeight (start - 1) with
    | some b => .ok (b.hash blake3)
    | none => .ok GENESIS_PARENT

/-- `replay`. -/
def replay (store : BlockStore) (s : State) (start : U64) :
    Option (State × Except RecoveryError Unit) :=
  match store.iterFrom start with
  | .error e => some (s, .error (.storage e))
  | .ok blocks =>
      match startHash blake3 store start with
      | .error e => some (s, .error (.storage e))
      | .ok prevHash => replayFrom blake3 sched registry start.val blocks prevHash s

end Replay

/-! ## Live execution -/

/-- Blocks executed live, one after another from height `i` on: the state they leave, and the root
after each. -/
def liveRun (blake3 : Blake3) (sched : Nat → Schedule) (registry : ContractRegistry) :
    Nat → State → List (List Intent) → Option (State × List Commitment)
  | _, s, [] => some (s, [])
  | i, s, intents :: rest => do
      let (s', report) ← BlockExecutor.executeWithRegistry blake3 (sched i) s intents registry
      let (t, roots) ← liveRun blake3 sched registry (i + 1) s' rest
      some (t, report.stateRoot :: roots)

end SuwappuDb
