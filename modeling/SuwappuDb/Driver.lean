import SuwappuDb.AnchorParity
import SuwappuDb.IncrementalRecovery
import SuwappuDb.MembershipProof
import SuwappuDb.SerialBlock

/-!
# The driver loop

The loop that `crates/suwappudb-bridge/tests/{recovery,cross_parity,e2e_shadow_testnet}.rs` run over
the crate: execute a block, store it with its root and the hash of the one before it, anchor the
root on all chains; and, after the state was lost, replay the store into the genesis state.

* `Driver.produce`, `Driver.recover` — the two steps, over the executor, the block store and the
  dispatcher as they are. Everything that can fail in a step makes it `none`.
* `stateAfter`, `chainFrom`, `driverAfter` — what the loop is for, with no schedule and no loss in
  it: the blocks' transactions one after another, and the chain of blocks with their roots.
* `chainFrom_append`, `replay_chainFrom` — more blocks on a chain, and a whole chain replayed.
* `recoveries_invisible` — a run with recoveries anywhere in it, under any schedules, is the run
  without them.
* `anchored_balances` — a root on which the chains agree proves the balances after that block, and
  no others, to somebody who has the root alone.
-/

namespace SuwappuDb

/-! ## The loop -/

/-- What the loop keeps between blocks. -/
structure Driver where
  state : State
  store : InMemoryBlockStore := {}
  dispatcher : AnchorDispatcher
  prevHash : BlockHash := GENESIS_PARENT
  /-- The number of the next block; it becomes a height by `u64::try_from(height).unwrap()`. -/
  height : Nat := 0

inductive DriverOp where
  | produce (sched : Schedule) (intents : List Intent)
  | recover (sched : ReplaySchedule)

namespace Driver

variable (crypto : AnchorCrypto) (registry : ContractRegistry) (genesis : State)

/-- Execute a block, store it, anchor its root. -/
def produce (sched : Schedule) (intents : List Intent) (d : Driver) : Option Driver := do
  let (state, report) ←
    BlockExecutor.executeWithRegistry crypto.blake3 sched d.state intents registry
  if h : d.height < 2 ^ 64 then
    let block : Block := ⟨⟨d.height, h⟩, d.prevHash, report.stateRoot, intents⟩
    match d.dispatcher.dispatch crypto block.height report.stateRoot with
    | (dispatcher, some (.ok _)) => some {
        state, dispatcher
        store := d.store.put crypto.blake3 block
        prevHash := block.hash crypto.blake3
        height := d.height + 1 }
    | (_, _) => none
  else none

/-- Rebuild the state from the stored blocks. -/
def recover (sched : ReplaySchedule) (d : Driver) : Option Driver := do
  match ← replay crypto.blake3 sched registry d.store.toBlockStore genesis 0 with
  | (state, .ok ()) => some { d with state }
  | (_, .error _) => none

def step (d : Driver) : DriverOp → Option Driver
  | .produce sched intents => d.produce crypto registry sched intents
  | .recover sched => d.recover crypto registry genesis sched

def run (d : Driver) (ops : List DriverOp) : Option Driver :=
  ops.foldlM (step crypto registry genesis) d

end Driver

/-- The blocks that a run produces. -/
def produced (ops : List DriverOp) : List (List Intent) :=
  ops.filterMap fun
    | .produce _ intents => some intents
    | .recover _ => none

/-! ## What it is for -/

/-- The state after blocks whose transactions are made one after another. -/
def stateAfter (registry : ContractRegistry) (s : State) (blocks : List (List Intent)) : State :=
  blocks.foldl (fun s intents => (serialBlock registry s s intents).1) s

section Chain

variable (blake3 : Blake3) (registry : ContractRegistry)

/-- The block that records the execution of `intents` in the state `s`. -/
def blockOn (height : Nat) (prevHash : BlockHash) (s : State) (intents : List Intent) : Block where
  height := Fin.ofNat (2 ^ 64) height
  parent := prevHash
  stateRoot := (StateTree.fromState default (stateAfter registry s [intents])).root blake3
  intents := intents

def chainFrom : Nat → BlockHash → State → List (List Intent) → List Block
  | _, _, _, [] => []
  | height, prevHash, s, intents :: rest =>
      let block := blockOn blake3 registry height prevHash s intents
      block :: chainFrom (height + 1) (block.hash blake3) (stateAfter registry s [intents]) rest

end Chain

/-- The loop after some blocks, when nothing was ever lost. -/
def driverAfter (crypto : AnchorCrypto) (registry : ContractRegistry) (genesis : State)
    (keys : List (ChainId × ByteArr 32)) (blocks : List (List Intent)) : Driver where
  state := stateAfter registry genesis blocks
  store := .ofBlocks crypto.blake3
    (chainFrom crypto.blake3 registry 0 GENESIS_PARENT genesis blocks)
  dispatcher := (DispatchRun.runDispatches crypto (registerKeys keys)
    ((chainFrom crypto.blake3 registry 0 GENESIS_PARENT genesis blocks).map fun b =>
      (b.height, b.stateRoot))).dispatcher
  prevHash := HashChain.tip (Block.hash crypto.blake3) GENESIS_PARENT
    (chainFrom crypto.blake3 registry 0 GENESIS_PARENT genesis blocks)
  height := blocks.length

theorem stateAfter_append (registry : ContractRegistry) (s : State) (blocks rest) :
    stateAfter registry s (blocks ++ rest) =
      stateAfter registry (stateAfter registry s blocks) rest :=
  List.foldl_append

theorem stateAfter_cons (registry : ContractRegistry) (s : State) (intents : List Intent) (rest) :
    stateAfter registry s (intents :: rest) =
      stateAfter registry (stateAfter registry s [intents]) rest := rfl

/-! ## The chain -/

section Chain

variable (blake3 : Blake3) (registry : ContractRegistry)

/-- More blocks stand on the state and on the hash that the chain before them leaves. -/
theorem chainFrom_append (height : Nat) (prevHash : BlockHash) (s : State)
    (blocks rest : List (List Intent)) :
    chainFrom blake3 registry height prevHash s (blocks ++ rest) =
      chainFrom blake3 registry height prevHash s blocks ++
        chainFrom blake3 registry (height + blocks.length)
          (HashChain.tip (Block.hash blake3) prevHash
            (chainFrom blake3 registry height prevHash s blocks))
          (stateAfter registry s blocks) rest := by
  induction blocks generalizing height prevHash s with
  | nil => rfl
  | cons first blocks ih =>
      rw [List.cons_append, chainFrom, chainFrom, ih, HashChain.tip_cons, List.length_cons,
        stateAfter_cons registry s first blocks, Nat.add_right_comm, ← Nat.add_assoc]
      rfl

@[simp] theorem length_chainFrom (height : Nat) (prevHash : BlockHash) (s : State) (blocks) :
    (chainFrom blake3 registry height prevHash s blocks).length = blocks.length := by
  induction blocks generalizing height prevHash s with
  | nil => rfl
  | cons intents rest ih => rw [chainFrom, List.length_cons, List.length_cons, ih]

theorem intents_chainFrom (height : Nat) (prevHash : BlockHash) (s : State) (blocks) :
    (chainFrom blake3 registry height prevHash s blocks).map Block.intents = blocks := by
  induction blocks generalizing height prevHash s with
  | nil => rfl
  | cons intents rest ih =>
      rw [chainFrom, List.map_cons, ih]
      rfl

theorem linked_chainFrom (height : Nat) (prevHash : BlockHash) (s : State) (blocks) :
    HashChain.Linked (Block.hash blake3) Block.parent prevHash
      (chainFrom blake3 registry height prevHash s blocks) := by
  induction blocks generalizing height prevHash s with
  | nil => exact HashChain.linked_nil
  | cons intents rest ih => exact HashChain.linked_cons.2 ⟨rfl, ih _ _ _⟩

theorem heights_chainFrom (prevHash : BlockHash) (s : State) {height : Nat}
    {blocks : List (List Intent)} (hlen : height + blocks.length ≤ 2 ^ 64) :
    (chainFrom blake3 registry height prevHash s blocks).map (fun b => b.height.val) =
      List.range' height blocks.length := by
  induction blocks generalizing height prevHash s with
  | nil => rfl
  | cons intents rest ih =>
      rw [List.length_cons] at hlen
      rw [chainFrom, List.map_cons, ih _ _ (by omega), List.length_cons, List.range'_succ]
      exact congrArg (· :: _) (Nat.mod_eq_of_lt (by omega))

/-- The recorded roots are those of the states on the way. -/
theorem getElem?_chainFrom (prevHash : BlockHash) (s : State) (blocks : List (List Intent))
    (height i : Nat) (hi : i < blocks.length) :
    ((chainFrom blake3 registry height prevHash s blocks).map Block.stateRoot)[i]? =
      some ((StateTree.fromState default
        (stateAfter registry s (blocks.take (i + 1)))).root blake3) := by
  induction blocks generalizing height prevHash s i with
  | nil => exact absurd hi (Nat.not_lt_zero i)
  | cons intents rest ih =>
      cases i with
      | zero => rfl
      | succ i =>
          rw [chainFrom, List.map_cons, List.getElem?_cons_succ,
            ih _ _ _ i (Nat.lt_of_succ_lt_succ hi), List.take_succ_cons]
          rfl

/-- There is a height for every block, and the hash tells the blocks apart. -/
structure Storable (s : State) (blocks : List (List Intent)) : Prop where
  length_le : blocks.length ≤ 2 ^ 64
  collisionFree : CollisionFree blake3
    ((chainFrom blake3 registry 0 GENESIS_PARENT s blocks).map Block.encoding)

variable {blake3 registry} in
theorem Storable.of_append {s : State} {blocks rest : List (List Intent)}
    (h : Storable blake3 registry s (blocks ++ rest)) : Storable blake3 registry s blocks where
  length_le := (List.length_append ▸ Nat.le_add_right _ _).trans h.length_le
  collisionFree x hx y hy := by
    have hall := h.collisionFree
    rw [chainFrom_append, List.map_append] at hall
    exact hall x (List.mem_append_left _ hx) y (List.mem_append_left _ hy)

variable {blake3 registry} in
/-- The blocks of the chain, in the order of their heights. -/
theorem Storable.sorted {s : State} {blocks : List (List Intent)}
    (h : Storable blake3 registry s blocks) :
    (chainFrom blake3 registry 0 GENESIS_PARENT s blocks).Pairwise
      fun b b' => b.height < b'.height := by
  have hheights := heights_chainFrom blake3 registry GENESIS_PARENT s
    ((Nat.zero_add _).trans_le h.length_le)
  have hvalues : (List.map (fun b : Block => b.height.val) _).Pairwise (· < ·) :=
    hheights ▸ List.pairwise_lt_range'
  exact (List.pairwise_map.1 hvalues).imp Fin.lt_def.2

variable {blake3 registry} in
theorem Storable.nodup {s : State} {blocks : List (List Intent)}
    (h : Storable blake3 registry s blocks) :
    ((chainFrom blake3 registry 0 GENESIS_PARENT s blocks).map Block.height).Nodup :=
  List.pairwise_map.2 (h.sorted.imp fun hlt => ne_of_lt hlt)

/-- The dispatches of a chain are at the heights from 0 on. -/
theorem heights_calls (s : State) {blocks : List (List Intent)} (hlen : blocks.length ≤ 2 ^ 64) :
    ((chainFrom blake3 registry 0 GENESIS_PARENT s blocks).map fun b =>
      (b.height, b.stateRoot)).map (fun call => call.1.val) =
    List.range ((chainFrom blake3 registry 0 GENESIS_PARENT s blocks).map fun b =>
      (b.height, b.stateRoot)).length := by
  rw [List.map_map, List.length_map, length_chainFrom, List.range_eq_range']
  exact heights_chainFrom blake3 registry GENESIS_PARENT s ((Nat.zero_add _).trans_le hlen)

variable {registry}

/-- A live run of the blocks, under any schedules. -/
theorem liveRun_chainFrom (hpure : registry.Pure) (live : Nat → Schedule) (height : Nat)
    (prevHash : BlockHash) (s : State) (blocks : List (List Intent)) :
    liveRun blake3 live registry height s blocks = some (stateAfter registry s blocks,
      (chainFrom blake3 registry height prevHash s blocks).map Block.stateRoot) := by
  induction blocks generalizing height prevHash s with
  | nil => rfl
  | cons intents rest ih =>
      obtain ⟨report, hexec, -, hroot⟩ :=
        executeWithRegistry_eq_serial blake3 (live height) s intents hpure
      rw [liveRun, hexec]
      simp only [Option.bind_eq_bind, Option.bind_some]
      rw [ih (height + 1) ((blockOn blake3 registry height prevHash s intents).hash blake3), hroot]
      rfl

/-- A chain in a store is replayed in full, and its replay is accepted. -/
theorem replay_chainFrom (hpure : registry.Pure) (sched : ReplaySchedule) {s : State}
    {blocks : List (List Intent)} (h : Storable blake3 registry s blocks) :
    replay blake3 sched registry (InMemoryBlockStore.ofBlocks blake3
        (chainFrom blake3 registry 0 GENESIS_PARENT s blocks)).toBlockStore s 0 =
      some (stateAfter registry s blocks, .ok ()) := by
  have hheights := heights_chainFrom blake3 registry GENESIS_PARENT s
    ((Nat.zero_add _).trans_le h.length_le)
  -- In height order the store holds the chain itself.
  have hiter := eq_of_heights_sorted
    (InMemoryBlockStore.pairwise_iterFrom (injOn_hash h.nodup h.collisionFree) 0) h.sorted
    fun b => (iterFrom_ofBlocks h.nodup h.collisionFree).mem_iff
  obtain ⟨s', verdict, t, roots, hreplay, hrun, hiff, hstate⟩ := replayFrom_spec blake3 sched
    (fun _ => default) (fun height s block => executeWithRegistry_agree blake3 s block hpure _ _)
    (chainFrom blake3 registry 0 GENESIS_PARENT s blocks) 0 GENESIS_PARENT s
  rw [intents_chainFrom, liveRun_chainFrom blake3 hpure _ 0 GENESIS_PARENT s blocks,
    Option.some.injEq, Prod.mk.injEq] at hrun
  obtain ⟨rfl, rfl⟩ := hrun
  have hok : verdict = .ok () := hiff.2 ⟨by rw [hheights, length_chainFrom],
    linked_chainFrom blake3 registry 0 GENESIS_PARENT s blocks, rfl⟩
  rw [← hstate hok, ← hok, ← hreplay]
  show replayFrom blake3 sched registry 0 _ GENESIS_PARENT s = _
  rw [hiter]

end Chain

/-! ## Anchoring in order -/

namespace DispatchRun

variable (crypto : AnchorCrypto) {keys : List (ChainId × ByteArr 32)}

theorem runDispatches_concat (d : AnchorDispatcher) (calls : List (U64 × Commitment))
    (call : U64 × Commitment) : runDispatches crypto d (calls ++ [call]) =
      (runDispatches crypto d calls).step crypto call :=
  List.foldl_append

/-- Dispatches at the heights from 0 on all succeed. -/
theorem roots_runDispatches (hkeys : keys ≠ []) {calls : List (U64 × Commitment)}
    (hheights : calls.map (fun call => call.1.val) = List.range calls.length) :
    (runDispatches crypto (registerKeys keys) calls).roots = calls.map Prod.snd := by
  induction calls using List.reverseRecOn with
  | nil => rfl
  | append_singleton calls call ih =>
      rw [List.map_append, List.length_append, List.length_singleton, List.range_succ] at hheights
      obtain ⟨hbefore, hcall⟩ := List.append_inj hheights (by simp)
      obtain ⟨d, roots, hrun, huniform, -⟩ := uniform_runDispatches crypto hkeys calls
      obtain rfl : roots = calls.map Prod.snd := by rw [← ih hbefore, hrun]
      obtain ⟨d', anchors, hdispatch, -⟩ := huniform.dispatch_next call.2 (by simpa using hcall)
      rw [runDispatches_concat, hrun, step, hdispatch, List.map_append]
      rfl

/-- The next dispatch of such a run. -/
theorem dispatch_runDispatches (hkeys : keys ≠ []) {calls : List (U64 × Commitment)}
    (hheights : calls.map (fun call => call.1.val) = List.range calls.length)
    {call : U64 × Commitment} (hcall : call.1.val = calls.length) :
    ∃ anchors,
      (runDispatches crypto (registerKeys keys) calls).dispatcher.dispatch crypto call.1 call.2 =
        ((runDispatches crypto (registerKeys keys) (calls ++ [call])).dispatcher,
          some (.ok anchors)) := by
  have hroots := roots_runDispatches crypto hkeys hheights
  obtain ⟨d, roots, hrun, huniform, -⟩ := uniform_runDispatches crypto hkeys calls
  obtain rfl : roots = calls.map Prod.snd := by rw [← hroots, hrun]
  obtain ⟨d', anchors, hdispatch, -⟩ := huniform.dispatch_next call.2 (by simpa using hcall)
  refine ⟨anchors, ?_⟩
  rw [runDispatches_concat, hrun, step, hdispatch]

end DispatchRun

/-! ## Runs -/

section Run

variable (crypto : AnchorCrypto) {registry : ContractRegistry} (hpure : registry.Pure)
  (genesis : State) {keys : List (ChainId × ByteArr 32)} (hkeys : keys ≠ [])

theorem height_blockOn (blake3 : Blake3) {height : Nat} (hlt : height < 2 ^ 64)
    (prevHash : BlockHash) (s : State) (intents : List Intent) :
    (blockOn blake3 registry height prevHash s intents).height = ⟨height, hlt⟩ :=
  Fin.ext (Nat.mod_eq_of_lt hlt)

include hpure hkeys in
/-- One block more. -/
theorem produce_driverAfter (sched : Schedule) {blocks : List (List Intent)}
    (hlt : blocks.length < 2 ^ 64) (intents : List Intent) :
    (driverAfter crypto registry genesis keys blocks).produce crypto registry sched intents =
      some (driverAfter crypto registry genesis keys (blocks ++ [intents])) := by
  obtain ⟨report, hexec, -, hroot⟩ := executeWithRegistry_eq_serial crypto.blake3 sched
    (stateAfter registry genesis blocks) intents hpure
  have hconcat :=
    chainFrom_append crypto.blake3 registry 0 GENESIS_PARENT genesis blocks [intents]
  rw [Nat.zero_add, chainFrom, chainFrom] at hconcat
  set chain := chainFrom crypto.blake3 registry 0 GENESIS_PARENT genesis blocks with hchain
  set block := blockOn crypto.blake3 registry blocks.length
    (HashChain.tip (Block.hash crypto.blake3) GENESIS_PARENT chain)
    (stateAfter registry genesis blocks) intents with hblock
  have hheight : block.height = ⟨blocks.length, hlt⟩ := height_blockOn _ hlt _ _ _
  -- The block that the loop makes is the next one of the chain.
  have hmade : (⟨⟨blocks.length, hlt⟩,
      HashChain.tip (Block.hash crypto.blake3) GENESIS_PARENT chain, report.stateRoot,
      intents⟩ : Block) = block := by
    rw [← hheight, hroot]
    rfl
  obtain ⟨anchors, hdispatch⟩ := DispatchRun.dispatch_runDispatches crypto hkeys
    (heights_calls crypto.blake3 registry genesis hlt.le)
    (show (block.height, block.stateRoot).1.val = _ by simp [hheight])
  have hstored : report.stateRoot = block.stateRoot := congrArg Block.stateRoot hmade
  rw [hstored] at hmade
  simp only [Driver.produce, driverAfter, ← hchain, hexec, Option.bind_eq_bind, Option.bind_some,
    dif_pos hlt, hstored, hmade]
  rw [hheight, ← hchain] at hdispatch
  simp only [hdispatch, hconcat, stateAfter_append, List.map_append, List.map_singleton, hheight,
    InMemoryBlockStore.ofBlocks, List.foldl_append, HashChain.tip, List.getLast?_concat,
    List.length_append]
  rfl

include hpure in
/-- A recovery finds what was there. -/
theorem recover_driverAfter (sched : ReplaySchedule) {blocks : List (List Intent)}
    (h : Storable crypto.blake3 registry genesis blocks) :
    (driverAfter crypto registry genesis keys blocks).recover crypto registry genesis sched =
      some (driverAfter crypto registry genesis keys blocks) := by
  rw [Driver.recover]
  show (replay crypto.blake3 sched registry (InMemoryBlockStore.ofBlocks crypto.blake3
    (chainFrom crypto.blake3 registry 0 GENESIS_PARENT genesis blocks)).toBlockStore genesis
      0).bind _ = _
  rw [replay_chainFrom crypto.blake3 hpure sched h]
  rfl

include hpure hkeys in
theorem step_driverAfter (op : DriverOp) {blocks : List (List Intent)}
    (h : Storable crypto.blake3 registry genesis (blocks ++ produced [op])) :
    (driverAfter crypto registry genesis keys blocks).step crypto registry genesis op =
      some (driverAfter crypto registry genesis keys (blocks ++ produced [op])) := by
  cases op with
  | produce sched intents =>
      have hlen : (blocks ++ [intents]).length ≤ 2 ^ 64 := h.length_le
      rw [List.length_append] at hlen
      exact produce_driverAfter crypto hpure genesis hkeys sched hlen intents
  | recover sched =>
      have hnone : blocks ++ produced [.recover sched] = blocks := List.append_nil blocks
      rw [hnone] at h ⊢
      exact recover_driverAfter crypto hpure genesis sched h

include hpure hkeys in
/-- Whatever the loop does next, from where some blocks have brought it. -/
theorem run_driverAfter (blocks : List (List Intent)) (ops : List DriverOp)
    (h : Storable crypto.blake3 registry genesis (blocks ++ produced ops)) :
    (driverAfter crypto registry genesis keys blocks).run crypto registry genesis ops =
      some (driverAfter crypto registry genesis keys (blocks ++ produced ops)) := by
  induction ops generalizing blocks with
  | nil =>
      rw [show blocks ++ produced [] = blocks from List.append_nil blocks]
      rfl
  | cons op ops ih =>
      have hsplit : produced (op :: ops) = produced [op] ++ produced ops :=
        List.filterMap_append (l := [op])
      rw [hsplit, ← List.append_assoc] at h ⊢
      rw [Driver.run, List.foldlM_cons,
        step_driverAfter crypto hpure genesis hkeys op h.of_append]
      exact ih _ h

include hkeys in
/-- The chains agree on the root of the state after each block. -/
theorem parityCheck_driverAfter {blocks : List (List Intent)} (hlen : blocks.length ≤ 2 ^ 64)
    {height : U64} (hheight : height.val < blocks.length) :
    (driverAfter crypto registry genesis keys blocks).dispatcher.parityCheck crypto height =
      some (.agreed ((StateTree.fromState default
        (stateAfter registry genesis (blocks.take (height.val + 1)))).root crypto.blake3)) := by
  have hroots := DispatchRun.roots_runDispatches crypto hkeys
    (heights_calls crypto.blake3 registry genesis hlen)
  obtain ⟨d, roots, hrun, huniform, hsome⟩ := uniform_runDispatches crypto hkeys
    ((chainFrom crypto.blake3 registry 0 GENESIS_PARENT genesis blocks).map fun b =>
      (b.height, b.stateRoot))
  obtain ⟨p, hp⟩ := List.exists_mem_of_ne_nil keys hkeys
  rw [driverAfter, hrun]
  rw [hrun, List.map_map] at hroots
  refine huniform.recorded.parityCheck_iff.2
    ⟨⟨p.1, (hsome p.1).2 (List.mem_map_of_mem hp)⟩, fun c _ => ?_⟩
  obtain rfl : roots = _ := hroots
  exact getElem?_chainFrom crypto.blake3 registry GENESIS_PARENT genesis blocks 0 height.val hheight

end Run

/-- Losing the state does not show. A loop that starts from the genesis state and a dispatcher with
chains registered produces blocks under any schedules, and recovers the state from its store any
number of times in between: no step fails, and the state, the stored chain, the anchors of all
chains and the next parent are those of the blocks alone, executed in order, with no recovery. -/
theorem recoveries_invisible (crypto : AnchorCrypto) {registry : ContractRegistry}
    (hpure : registry.Pure) (genesis : State) {keys : List (ChainId × ByteArr 32)}
    (hkeys : keys ≠ []) (ops : List DriverOp)
    (h : Storable crypto.blake3 registry genesis (produced ops)) :
    Driver.run crypto registry genesis
        { state := genesis, dispatcher := registerKeys keys } ops =
      some (driverAfter crypto registry genesis keys (produced ops)) :=
  run_driverAfter crypto hpure genesis hkeys [] ops h

/-- Keyed BLAKE3 for the two anchors of a chain. -/
def driverMacs : List (List Byte × Commitment) := [
  (ascii "SUWAPPUDB-ANCHOR/MAC" ++ beBytes 4 1 ++ beBytes 8 0 ++ zeroRoot.val ++ beBytes 32 0,
    digestOf 0x01b27e41f0bd6b92e76fa2763565d31f92a5639e9b1d42d362b61e284bcb1058),
  (ascii "SUWAPPUDB-ANCHOR/MAC" ++ beBytes 4 1 ++ beBytes 8 1 ++ paidRoot.val ++
      beBytes 32 0x06aa73ba0a4fe8e88e82c6c670928982ea3d8d17462f8a136453680a4c9fdfd9,
    digestOf 0xea0797f5fe1ac6ed1ccc71193be03e6041409a6d48cc46c6b94366acf8ebb2eb)]

/-- BLAKE3 for the first of them, and for the two blocks with their roots. -/
def driverTable : List (List Byte × Commitment) :=
  (ascii "SUWAPPUDB-ANCHOR/HASH" ++ beBytes 4 1 ++ beBytes 8 0 ++ zeroRoot.val ++ beBytes 32 0 ++
      beBytes 32 0x01b27e41f0bd6b92e76fa2763565d31f92a5639e9b1d42d362b61e284bcb1058,
    digestOf 0x06aa73ba0a4fe8e88e82c6c670928982ea3d8d17462f8a136453680a4c9fdfd9) :: chainTable

def driverCrypto : AnchorCrypto where
  blake3 := tableHash driverTable
  keyedBlake3 _ := tableHash driverMacs
  keccak256 := tableHash []
  recover := recoverNothing
  recover_eq_none := recoverNothing_eq_none
  mldsa65 := none

def driverKeys : List (ChainId × ByteArr 32) := [(1, constBytes 32 1)]

/-- Two blocks, the second with payments, and the state lost after each. -/
def driverOps : List DriverOp := [
  .produce default [], .recover default, .produce default payments, .recover default]

theorem storable_driverOps :
    Storable driverCrypto.blake3 smallRegistry zeroState (produced driverOps) where
  length_le := by decide
  collisionFree := collisionFree_tableHash (by decide +kernel) (by decide +kernel)

theorem recoveries_invisible_driverOps :
    smallRegistry.Pure ∧ driverKeys ≠ [] ∧
    Storable driverCrypto.blake3 smallRegistry zeroState (produced driverOps) ∧
    Driver.run driverCrypto smallRegistry zeroState
        { state := zeroState, dispatcher := registerKeys driverKeys } driverOps =
      some (driverAfter driverCrypto smallRegistry zeroState driverKeys (produced driverOps)) := by
  have hkeys : driverKeys ≠ [] := List.cons_ne_nil _ _
  exact ⟨smallRegistry_pure, hkeys, storable_driverOps,
    recoveries_invisible driverCrypto smallRegistry_pure zeroState hkeys driverOps
      storable_driverOps⟩

/-! ## Proofs against an anchored root -/

/-- A slot that verifies against the root of a tree is in the tree, with this balance. -/
theorem StateTree.get_of_verify {blake3 : Blake3} {t : StateTree} {addr : Address}
    {slot : BalanceSlot} {proof : Proof}
    (hcf : CollisionFree blake3 (nodeInputs blake3 t.node ++ verifyInputs blake3 proof))
    (hverify : verify blake3 (t.root blake3) addr (some slot) proof = true) :
    ∃ stored, t.get addr = some stored ∧ stored.canonical = slot.canonical := by
  obtain ⟨path, slotOpt⟩ := proof
  obtain ⟨hslot, hbytes, hlen, hroot⟩ := (verify_eq_true_iff _ _ _ _).1 hverify
  obtain rfl : slotOpt = some slot := hslot
  have hlength : path.length = 20 := (hlen rfl).trans addr.property
  have hne : path ≠ [] := List.ne_nil_of_length_pos (by omega)
  have hpath : path.map ProofStep.byte = addr.val :=
    hbytes.eq_of_length (by rw [List.length_map]; exact hlen rfl)
  have hin := List.subset_append_left (nodeInputs blake3 t.node)
    (verifyInputs blake3 ⟨path, some slot⟩)
  have hin' := List.subset_append_right (nodeInputs blake3 t.node)
    (verifyInputs blake3 ⟨path, some slot⟩)
  have hpin := List.Subset.trans (pathInputs_subset ⟨path, some slot⟩) hin'
  have hleaf : leafInput slot ∈ verifyInputs blake3 ⟨path, some slot⟩ := by simp [verifyInputs]
  rw [if_neg hne] at hroot
  rw [StateTree.get, ← hpath]
  exact getPath_of_reconstruct hcf (hin' hleaf) (shaped_of_reconstruct hcf hin hpin hne hroot) hin
    path hlength hpin hroot

theorem balanceOf_of_get {order : IterOrder} {s : State} {addr : Address} {stored : BalanceSlot}
    (hget : (StateTree.fromState order s).get addr = some stored) :
    s.balanceOf addr = stored.canonical := by
  rw [StateTree.get_fromState] at hget
  rw [State.balanceOf, InMemoryBalanceStore.get, hget]
  rfl

/-- What the anchors are for. In a run with any schedules and recoveries, at every height below the
number of the blocks produced the chains agree on a root; the proofs of the state after that block
verify against it; and a slot that verifies against it, whatever the proof, has the balance of that
state. -/
theorem anchored_balances (crypto : AnchorCrypto) {registry : ContractRegistry}
    (hpure : registry.Pure) (genesis : State) {keys : List (ChainId × ByteArr 32)}
    (hkeys : keys ≠ []) (ops : List DriverOp)
    (h : Storable crypto.blake3 registry genesis (produced ops)) (height : U64)
    (hheight : height.val < (produced ops).length) :
    ∃ d root tree, Driver.run crypto registry genesis
        { state := genesis, dispatcher := registerKeys keys } ops = some d ∧
      d.dispatcher.parityCheck crypto height = some (.agreed root) ∧
      tree = StateTree.fromState default
        (stateAfter registry genesis ((produced ops).take (height.val + 1))) ∧
      (∀ addr, verify crypto.blake3 root addr (tree.get addr) (tree.proof crypto.blake3 addr) =
        true) ∧
      ∀ addr slot proof,
        CollisionFree crypto.blake3
          (nodeInputs crypto.blake3 tree.node ++ verifyInputs crypto.blake3 proof) →
        verify crypto.blake3 root addr (some slot) proof = true →
        (stateAfter registry genesis ((produced ops).take (height.val + 1))).balanceOf addr =
          slot.canonical := by
  set tree := StateTree.fromState default
    (stateAfter registry genesis ((produced ops).take (height.val + 1))) with htree
  refine ⟨_, tree.root crypto.blake3, tree, run_driverAfter crypto hpure genesis hkeys [] ops h,
    parityCheck_driverAfter crypto genesis hkeys h.length_le hheight, rfl, fun addr => ?_,
    fun addr slot proof hcf hverify => ?_⟩
  · have hverify := tree.verify_path crypto.blake3 addr rfl
    rwa [← (tree.proof_spec crypto.blake3 addr).1] at hverify ⊢
  · obtain ⟨stored, hget, hcanonical⟩ := StateTree.get_of_verify hcf hverify
    rw [balanceOf_of_get hget, hcanonical]

/-- The balance of the zero address after the second block, by its proof. -/
theorem anchored_balances_driverOps :
    smallRegistry.Pure ∧ driverKeys ≠ [] ∧
    Storable driverCrypto.blake3 smallRegistry zeroState (produced driverOps) ∧
    (1 : U64).val < (produced driverOps).length ∧
    ∃ d root proof, Driver.run driverCrypto smallRegistry zeroState
        { state := zeroState, dispatcher := registerKeys driverKeys } driverOps = some d ∧
      d.dispatcher.parityCheck driverCrypto 1 = some (.agreed root) ∧
      verify driverCrypto.blake3 root zeroAddress (some (BalanceSlot.new 60)) proof = true ∧
      (stateAfter smallRegistry zeroState ((produced driverOps).take 2)).balanceOf zeroAddress =
        60 := by
  have hkeys : driverKeys ≠ [] := List.cons_ne_nil _ _
  have hheight : (1 : U64).val < (produced driverOps).length := by decide
  obtain ⟨d, root, tree, hrun, hagreed, htree, hhonest, hsound⟩ :=
    anchored_balances driverCrypto smallRegistry_pure zeroState hkeys driverOps storable_driverOps
      1 hheight
  have hget : tree.get zeroAddress = some (BalanceSlot.new 60) := by
    rw [htree]
    decide +kernel
  have hinputs : nodeInputs driverCrypto.blake3 tree.node ++
      verifyInputs driverCrypto.blake3 (tree.proof driverCrypto.blake3 zeroAddress) ⊆
      driverTable.map Prod.fst := by
    rw [htree]
    decide +kernel
  have hverify := hhonest zeroAddress
  rw [hget] at hverify
  exact ⟨smallRegistry_pure, hkeys, storable_driverOps, hheight, d, root, _, hrun, hagreed,
    hverify, hsound _ _ _ (collisionFree_tableHash (by decide +kernel) hinputs) hverify⟩

end SuwappuDb
