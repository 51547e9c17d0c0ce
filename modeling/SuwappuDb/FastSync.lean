import SuwappuDb.Driver
import SuwappuDb.Snapshot

/-!
# Starting from a snapshot

A replay from the genesis state takes as long as the chain is. `StateSnapshot::from_state`,
`restore_into_state` and the `from` of `replay` are there to start later: a fresh state takes a
snapshot of the state after some block, and replays the blocks that came after.

* `State.NonceFree.stateAfter` — the executor writes balances only, so a state without nonces stays
  one. The snapshot format has no nonces.
* `blocksBelow_chainFrom`, `replay_from` — the blocks below a height of a chain are its start, and
  the rest is replayed from there on.
* `fast_sync` — a node that is restored from a snapshot of the driver's state and replays the
  driver's store from that height on arrives at the driver's state, wherever the two are in the run.
-/

namespace SuwappuDb

/-! ## Nonces -/

namespace State

theorem NonceFree.consolidate {s : State} (h : s.NonceFree)
    (writes : List (Address × BalanceSlot)) :
    (consolidate s writes).NonceFree := by
  have hchanges : SuwappuDb.consolidate s writes =
      (writes.map fun p => StateChange.setBalance p.1 p.2.canonical).foldl State.apply s := by
    rw [SuwappuDb.consolidate, List.foldl_map]
  rw [hchanges]
  exact h.foldl_apply _

theorem NonceFree.serialBlock {s : State} (h : s.NonceFree) {registry : ContractRegistry}
    (hpure : registry.Pure) (block : List Intent) :
    (serialBlock registry s s block).1.NonceFree := by
  obtain ⟨report, hserial, -⟩ :=
    executeWithRegistry_eq_serial (fun _ => constBytes 32 0) default s block hpure
  obtain ⟨fin, hloop, -⟩ := runLoop_spec s block registry default
  obtain ⟨s', report', hexec, hstate, -⟩ :=
    executeWithRegistry_eq (fun _ => constBytes 32 0) default s block registry hloop
  rw [hserial, Option.some.injEq, Prod.mk.injEq] at hexec
  rw [hexec.1, hstate]
  exact h.consolidate _

theorem NonceFree.stateAfter {s : State} (h : s.NonceFree) {registry : ContractRegistry}
    (hpure : registry.Pure) (blocks : List (List Intent)) :
    (stateAfter registry s blocks).NonceFree := by
  apply List.foldlRecOn (motive := NonceFree) blocks _ h
  intro s hs intents _
  exact hs.serialBlock hpure intents

end State

/-! ## The rest of a chain -/

section Chain

variable {blake3 : Blake3} {registry : ContractRegistry} {s : State} {blocks : List (List Intent)}

theorem height_mem_chainFrom {height : Nat} {prevHash : BlockHash}
    (hlen : height + blocks.length ≤ 2 ^ 64) {b : Block}
    (hb : b ∈ chainFrom blake3 registry height prevHash s blocks) :
    height ≤ b.height.val ∧ b.height.val < height + blocks.length := by
  have hmem := List.mem_map_of_mem (f := fun b : Block => b.height.val) hb
  rwa [heights_chainFrom blake3 registry prevHash s hlen, List.mem_range'_1] at hmem

variable {first rest : List (List Intent)} {k : U64}

theorem blocksBelow_chainFrom (h : Storable blake3 registry s (first ++ rest))
    (hk : k.val = first.length) :
    blocksBelow k (chainFrom blake3 registry 0 GENESIS_PARENT s (first ++ rest)) =
      chainFrom blake3 registry 0 GENESIS_PARENT s first := by
  have hlen := h.length_le
  rw [List.length_append] at hlen
  have hlow : ∀ b ∈ chainFrom blake3 registry 0 GENESIS_PARENT s first, decide (b.height < k) := by
    intro b hb
    have hheight := (height_mem_chainFrom (by omega) hb).2
    exact decide_eq_true (Fin.lt_def.2 (by omega))
  rw [chainFrom_append, blocksBelow, List.filter_append, List.filter_eq_self.2 hlow,
    List.filter_eq_nil_iff.2, List.append_nil]
  intro b hb
  have hheight := (height_mem_chainFrom (by omega) hb).1
  simp only [decide_eq_true_eq, Fin.lt_def, not_lt]
  omega

/-- Every height below `k` has its block. -/
theorem getByHeight_chainFrom (h : Storable blake3 registry s (first ++ rest))
    (hk : k.val = first.length) (height : U64) (hheight : height < k) :
    ∃ b, (InMemoryBlockStore.ofBlocks blake3
      (chainFrom blake3 registry 0 GENESIS_PARENT s (first ++ rest))).getByHeight height =
        some b := by
  have hheights := heights_chainFrom blake3 registry GENESIS_PARENT s
    ((Nat.zero_add _).trans_le h.length_le)
  have hmem : height.val ∈ List.range' 0 (first ++ rest).length := by
    rw [List.mem_range'_1, List.length_append]
    have hlt := Fin.lt_def.1 hheight
    omega
  rw [← hheights] at hmem
  obtain ⟨b, hb, hval⟩ := List.mem_map.1 hmem
  rw [InMemoryBlockStore.getByHeight_ofBlocks (injOn_hash h.nodup h.collisionFree)]
  refine ⟨_, List.getLast?_eq_some_getLast (List.ne_nil_of_mem (List.mem_filter.2 ⟨hb, ?_⟩))⟩
  exact decide_eq_true (Fin.ext hval)

/-- The replay of the rest, from the state that the first blocks leave. -/
theorem replay_from (hpure : registry.Pure) (h : Storable blake3 registry s (first ++ rest))
    (hk : k.val = first.length) (sched : ReplaySchedule) :
    replay blake3 sched registry (InMemoryBlockStore.ofBlocks blake3
        (chainFrom blake3 registry 0 GENESIS_PARENT s (first ++ rest))).toBlockStore
        (stateAfter registry s first) k =
      some (stateAfter registry s (first ++ rest), .ok ()) := by
  have hagree : ∀ n, SameExecutions blake3 registry (sched.block n) (sched.block n) :=
    fun n s block => executeWithRegistry_agree blake3 s block hpure _ _
  have hincremental := replayIncremental_eq (injOn_hash h.nodup h.collisionFree)
    (getByHeight_chainFrom h hk) (fun n _ => hagree n) (fun n _ => hagree n) s
  rw [replayIncremental, blocksBelow_chainFrom h hk,
    replay_chainFrom blake3 hpure sched h.of_append, replay_chainFrom blake3 hpure sched h]
    at hincremental
  exact hincremental

end Chain

/-! ## From a snapshot -/

/-- Fast synchronisation. A driver is at some block of its run, and its state is without nonces and
within the limits of the snapshot format; later it is at a later block. A fresh state that takes the
snapshot, with memory for its entries, and replays the later store from that height on, arrives at
the later state. -/
theorem fast_sync (crypto : AnchorCrypto) (alloc : Allocator) {registry : ContractRegistry}
    (hpure : registry.Pure) {genesis : State} (hfree : genesis.NonceFree)
    {keys : List (ChainId × ByteArr 32)} (hkeys : keys ≠ []) (ops ops' : List DriverOp)
    (h : Storable crypto.blake3 registry genesis (produced ops ++ produced ops')) {k : U64}
    (hk : k.val = (produced ops).length)
    (hfits : (stateAfter registry genesis (produced ops)).body.Fits)
    (hroom : (stateAfter registry genesis (produced ops)).body.HasRoom alloc)
    (order : IterOrder) (now : U64) (anchorHash : Option (ByteArr 32)) (sched : ReplaySchedule) :
    ∃ d d' snapshot t n,
      Driver.run crypto registry genesis
        { state := genesis, dispatcher := registerKeys keys } ops = some d ∧
      d.run crypto registry genesis ops' = some d' ∧
      StateSnapshot.fromState order now d.state k anchorHash = some snapshot ∧
      snapshot.restoreIntoState alloc {} = some (t, .ok n) ∧
      replay crypto.blake3 sched registry d'.store.toBlockStore t k = some (d'.state, .ok ()) := by
  have hsnapshot : StateSnapshot.fromState order now (stateAfter registry genesis (produced ops)) k
      anchorHash = some ⟨k, constBytes 32 0, SNAPSHOT_MAGIC_V2 ++
        (stateAfter registry genesis (produced ops)).body.encode, now, anchorHash⟩ := by
    rw [StateSnapshot.fromState, encodeState_eq hfits]
    rfl
  exact ⟨_, _, _, _, _, run_driverAfter crypto hpure genesis hkeys [] ops h.of_append,
    run_driverAfter crypto hpure genesis hkeys _ ops' h, hsnapshot,
    restore_encodeState (hfree.stateAfter hpure (produced ops)) hfits hroom
      (encodeState_eq hfits order),
    replay_from hpure h hk sched⟩

/-- A snapshot after the first of two blocks. -/
theorem fast_sync_driverOps :
    smallRegistry.Pure ∧ zeroState.NonceFree ∧ driverKeys ≠ [] ∧
    Storable driverCrypto.blake3 smallRegistry zeroState
      (produced (driverOps.take 2) ++ produced (driverOps.drop 2)) ∧
    (1 : U64).val = (produced (driverOps.take 2)).length ∧
    (stateAfter smallRegistry zeroState (produced (driverOps.take 2))).body.Fits ∧
    (stateAfter smallRegistry zeroState (produced (driverOps.take 2))).body.HasRoom (.upTo 4096) ∧
    ∃ d d' snapshot t n,
      Driver.run driverCrypto smallRegistry zeroState
        { state := zeroState, dispatcher := registerKeys driverKeys } (driverOps.take 2) =
          some d ∧
      d.run driverCrypto smallRegistry zeroState (driverOps.drop 2) = some d' ∧
      StateSnapshot.fromState default 0 d.state 1 none = some snapshot ∧
      snapshot.restoreIntoState (.upTo 4096) {} = some (t, .ok n) ∧
      replay driverCrypto.blake3 default smallRegistry d'.store.toBlockStore t 1 =
        some (d'.state, .ok ()) := by
  have hfree : zeroState.NonceFree := State.nonceFree_default.apply _
  have hkeys : driverKeys ≠ [] := List.cons_ne_nil _ _
  have hstorable : Storable driverCrypto.blake3 smallRegistry zeroState
      (produced (driverOps.take 2) ++ produced (driverOps.drop 2)) := storable_driverOps
  have hk : (1 : U64).val = (produced (driverOps.take 2)).length := by decide
  have hfits : (stateAfter smallRegistry zeroState (produced (driverOps.take 2))).body.Fits :=
    ⟨by decide +kernel, by decide +kernel, by decide +kernel⟩
  have hroom : (stateAfter smallRegistry zeroState (produced (driverOps.take 2))).body.HasRoom
      (.upTo 4096) :=
    ⟨by decide +kernel, by decide +kernel⟩
  exact ⟨smallRegistry_pure, hfree, hkeys, hstorable, hk, hfits, hroom,
    fast_sync driverCrypto (.upTo 4096) smallRegistry_pure hfree hkeys (driverOps.take 2)
      (driverOps.drop 2) hstorable hk hfits hroom default 0 none default⟩

end SuwappuDb
