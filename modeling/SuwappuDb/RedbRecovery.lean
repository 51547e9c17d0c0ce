import SuwappuDb.BlockStore

/-!
# Recovery from the durable store

Replay over a `RedbBlockStore` with arbitrary tables. `iter_from` skips a row of the height table
whose block is missing or does not decode, so replay sees only the blocks of the other rows.

* `replayLog` — replay with the list of the blocks it executes; `replayLog_erase` takes the list
  away again. A replay that succeeds has executed all blocks it was given (`executed_eq`).
* `Accepted` — the blocks that a replay accepts (`replayLogFrom_ok_iff`), for any registry.
* `replay_covers_iff` — all rows are executed by a replay that succeeds, if and only if all of them
  decode or the blocks of those that do are not accepted.
-/

namespace SuwappuDb

/-! ## The blocks that are executed -/

section Log

variable (blake3 : Blake3) (sched : ReplaySchedule) (registry : ContractRegistry)

/-- `replayFrom`, with the blocks that are given to the block executor. -/
def replayLogFrom : Nat → List Block → BlockHash → State →
    Option (State × Except RecoveryError Unit × List Block)
  | _, [], _, s => some (s, .ok (), [])
  | expectedHeight, block :: rest, prevHash, s =>
      match checkNext expectedHeight block prevHash with
      | .error e => some (s, .error e, [])
      | .ok () => do
          match ← reExecute blake3 sched registry expectedHeight block s with
          | (s', .error e) => some (s', .error e, [block])
          | (s', .ok ()) =>
              let (t, verdict, executed) ←
                replayLogFrom (expectedHeight + 1) rest (block.hash blake3) s'
              some (t, verdict, block :: executed)

/-- `replay`, with the blocks that are given to the block executor. -/
def replayLog (store : BlockStore) (s : State) (start : U64) :
    Option (State × Except RecoveryError Unit × List Block) :=
  match store.iterFrom start with
  | .error e => some (s, .error (.storage e), [])
  | .ok blocks =>
      match startHash blake3 store start with
      | .error e => some (s, .error (.storage e), [])
      | .ok prevHash => replayLogFrom blake3 sched registry start.val blocks prevHash s

/-- Forget the log. -/
def erase (result : State × Except RecoveryError Unit × List Block) :
    State × Except RecoveryError Unit :=
  (result.1, result.2.1)

theorem replayLogFrom_erase (chain : List Block) (height : Nat) (prevHash : BlockHash)
    (s : State) : (replayLogFrom blake3 sched registry height chain prevHash s).map erase =
      replayFrom blake3 sched registry height chain prevHash s := by
  induction chain generalizing height prevHash s with
  | nil => rfl
  | cons b rest ih =>
      rw [replayLogFrom, replayFrom]
      cases checkNext height b prevHash with
      | error e => rfl
      | ok u =>
          cases reExecute blake3 sched registry height b s with
          | none => rfl
          | some r =>
              obtain ⟨s', verdict⟩ := r
              cases verdict with
              | error e => rfl
              | ok u =>
                  simp only [Option.bind_eq_bind, Option.bind_some, andThen, ← ih]
                  cases
                    replayLogFrom blake3 sched registry (height + 1) rest (b.hash blake3) s' with
                  | none => rfl
                  | some log => rfl

theorem replayLog_erase (store : BlockStore) (s : State) (start : U64) :
    (replayLog blake3 sched registry store s start).map erase =
      replay blake3 sched registry store s start := by
  unfold replayLog replay
  cases store.iterFrom start with
  | error e => rfl
  | ok blocks =>
      cases startHash blake3 store start with
      | error e => rfl
      | ok prevHash => exact replayLogFrom_erase blake3 sched registry _ _ _ _

variable {blake3 sched registry}

/-- A replay that succeeds has executed all its blocks. -/
theorem executed_eq {chain executed : List Block} {height : Nat} {prevHash : BlockHash}
    {s t : State}
    (h : replayLogFrom blake3 sched registry height chain prevHash s =
      some (t, .ok (), executed)) : executed = chain := by
  induction chain generalizing height prevHash s executed with
  | nil =>
      cases h
      rfl
  | cons b rest ih =>
      rw [replayLogFrom] at h
      cases hcheck : checkNext height b prevHash with
      | error e =>
          rw [hcheck] at h
          cases h
      | ok u =>
          rw [hcheck] at h
          obtain ⟨⟨s', verdict⟩, -, h⟩ := Option.bind_eq_some_iff.1 h
          cases verdict with
          | error e => cases h
          | ok u =>
              obtain ⟨⟨t', verdict, executed'⟩, hrest, hlast⟩ := Option.bind_eq_some_iff.1 h
              obtain ⟨rfl, rfl, rfl⟩ : t' = t ∧ verdict = .ok () ∧ b :: executed' = executed := by
                simpa using hlast
              rw [ih hrest]

end Log

/-! ## What a replay accepts -/

/-- Blocks without a gap from a height on, of which each names the one before it as its parent and
records the root that its execution reaches. -/
structure Accepted (blake3 : Blake3) (sched : Nat → Schedule) (registry : ContractRegistry)
    (height : Nat) (prevHash : BlockHash) (s : State) (chain : List Block) : Prop where
  heights : chain.map (fun b => b.height.val) = List.range' height chain.length
  linked : HashChain.Linked (Block.hash blake3) Block.parent prevHash chain
  roots : ∃ t, liveRun blake3 sched registry height s (chain.map Block.intents) =
    some (t, chain.map Block.stateRoot)

section Accepted

variable {blake3 : Blake3} {sched : ReplaySchedule} {registry : ContractRegistry}

/-- The executor always reports the root of the state it leaves, also where contracts are not pure
and other schedules lead elsewhere. -/
theorem sameExecutions_self (blake3 : Blake3) (registry : ContractRegistry) (sched : Schedule) :
    SameExecutions blake3 registry sched sched := by
  intro s block
  obtain ⟨fin, hloop, -⟩ := runLoop_spec s block registry sched
  obtain ⟨s', report, hexec, -, -, -, hroot⟩ :=
    executeWithRegistry_eq blake3 sched s block registry hloop
  have hdefault := hroot.trans (StateTree.root_fromState blake3 _ default s')
  exact ⟨s', report, report, hexec, hexec, hdefault, hdefault⟩

theorem replayLogFrom_ok_iff {chain : List Block} {height : Nat} {prevHash : BlockHash}
    {s : State} :
    (∃ t, replayLogFrom blake3 sched registry height chain prevHash s =
      some (t, .ok (), chain)) ↔
    Accepted blake3 sched.block registry height prevHash s chain := by
  obtain ⟨s', verdict, t, roots, hreplay, hrun, hiff, -⟩ := replayFrom_spec blake3 sched sched.block
    (fun i => sameExecutions_self blake3 registry (sched.block i)) chain height prevHash s
  rw [← replayLogFrom_erase] at hreplay
  obtain ⟨⟨t', verdict', executed⟩, hlog, herase⟩ := Option.map_eq_some_iff.1 hreplay
  obtain ⟨rfl, rfl⟩ := Prod.mk.inj herase
  constructor
  · rintro ⟨t'', hok⟩
    obtain ⟨-, rfl, -⟩ : t' = t'' ∧ verdict' = .ok () ∧ executed = chain := by
      simpa using hlog.symm.trans hok
    obtain ⟨hheights, hlinked, hroots⟩ := hiff.1 rfl
    exact ⟨hheights, hlinked, t, hroots ▸ hrun⟩
  · rintro ⟨hheights, hlinked, t'', hrun'⟩
    obtain ⟨-, hroots⟩ := Prod.mk.inj (Option.some.inj (hrun.symm.trans hrun'))
    obtain rfl := hiff.2 ⟨hheights, hlinked, hroots.symm⟩
    exact ⟨t', executed_eq hlog ▸ hlog⟩

/-- The store never fails to say what the first block of a replay has to name. -/
theorem startHash_redb (store : RedbBlockStore) (start : U64) :
    ∃ prevHash, startHash blake3 store.toBlockStore start = .ok prevHash := by
  unfold startHash
  by_cases hstart : start = 0
  · exact ⟨_, if_pos hstart⟩
  · have hget : store.toBlockStore.getByHeight (start - 1) =
        .ok (store.getByHeight (start - 1)) := rfl
    rw [if_neg hstart, hget]
    cases store.getByHeight (start - 1) with
    | none => exact ⟨_, rfl⟩
    | some b => exact ⟨_, rfl⟩

theorem replayLog_redb {store : RedbBlockStore} {start : U64} {prevHash : BlockHash}
    (hstart : startHash blake3 store.toBlockStore start = .ok prevHash) (s : State) :
    replayLog blake3 sched registry store.toBlockStore s start =
      replayLogFrom blake3 sched registry start.val (store.iterFrom start) prevHash s := by
  rw [replayLog, hstart]
  rfl

end Accepted

/-! ## Skipped rows -/

section Rows

variable {store : RedbBlockStore} {start : U64}

theorem mem_iterFrom_redb {b : Block} : b ∈ store.iterFrom start ↔
    ∃ p ∈ store.rowsFrom start, store.getByHash p.2 = some b :=
  List.mem_filterMap

/-- For every content of the tables, a replay that succeeds has decoded and executed the block of
every row from its start on, if and only if all of these rows decode, or the blocks of those that do
are not accepted, so that no replay succeeds. -/
theorem replay_covers_iff (blake3 : Blake3) (sched : ReplaySchedule) (registry : ContractRegistry)
    (store : RedbBlockStore) (s : State) (start : U64) :
    (replayLog blake3 sched registry store.toBlockStore s start).map erase =
      replay blake3 sched registry store.toBlockStore s start ∧
    ((∀ t executed, replayLog blake3 sched registry store.toBlockStore s start =
        some (t, .ok (), executed) →
      ∀ p ∈ store.rowsFrom start, ∃ b ∈ executed, store.getByHash p.2 = some b) ↔
    (∀ p ∈ store.rowsFrom start, store.getByHash p.2 ≠ none) ∨
      ¬ ∃ prevHash, startHash blake3 store.toBlockStore start = .ok prevHash ∧
        Accepted blake3 sched.block registry start.val prevHash s (store.iterFrom start)) := by
  refine ⟨replayLog_erase blake3 sched registry _ s start, ?_⟩
  obtain ⟨prevHash, hstart⟩ := @startHash_redb blake3 store start
  simp only [hstart, Except.ok.injEq, exists_eq_left']
  rw [replayLog_redb hstart, ← replayLogFrom_ok_iff, ← imp_iff_or_not]
  constructor
  · rintro hcovers ⟨t, hok⟩ p hp hnone
    obtain ⟨b, -, hb⟩ := hcovers t _ hok p hp
    cases hnone.symm.trans hb
  · intro hdecodes t executed hok p hp
    obtain rfl := executed_eq hok
    obtain ⟨b, hb⟩ := Option.ne_none_iff_exists'.1 (hdecodes ⟨t, hok⟩ p hp)
    exact ⟨b, mem_iterFrom_redb.2 ⟨p, hp, hb⟩, hb⟩

/-- The store of `chainBlocks`, in which the value of the second block has lost its end. -/
def truncatedStore : RedbBlockStore where
  blocksByHash := (RedbBlockStore.ofBlocks (tableHash chainTable) chainBlocks).blocksByHash.insert
    (payingBlock.hash (tableHash chainTable)) ((encodeBlock payingBlock).take 40)
  heightToHash := (RedbBlockStore.ofBlocks (tableHash chainTable) chainBlocks).heightToHash

/-- Replay succeeds with the first block alone, though the height table has a second row. -/
theorem replay_drops_block :
    (1, payingBlock.hash (tableHash chainTable)) ∈ truncatedStore.rowsFrom 0 ∧
    truncatedStore.getByHash (payingBlock.hash (tableHash chainTable)) = none ∧
    (replayLog (tableHash chainTable) default smallRegistry truncatedStore.toBlockStore zeroState
      0).map Prod.snd = some (.ok (), [emptyBlock]) :=
  ⟨by decide +kernel, by decide +kernel, by decide +kernel⟩

end Rows

end SuwappuDb
