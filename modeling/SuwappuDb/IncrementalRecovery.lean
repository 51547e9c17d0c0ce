import SuwappuDb.RedbRecovery

/-!
# Incremental recovery

`replay` can start above height 0, on a state that is already there. It then carries nothing over
from the replay of the blocks below: the hash that the first block must name as its parent and the
height it must have are read from the store again.

**The store.** Any sequence of puts, with heights put more than once. The blocks that come out are
the last ones put at their heights, in height order; those below `k` come out of a store of the
blocks below `k` alike (`iterFrom_append`). With a block at every height below `k` there are `k` of
them, and the last one is the one whose hash the second replay starts with (`startHash_held`).

**The loop.** `replayFrom_append` splits the loop anywhere. What the first part hands on is the
number of blocks and the hash of the last one.

**The result.** `incremental_recovery`: a replay of the blocks below `k`, and of the whole store
from `k` on if it succeeds, is the replay of the whole store.
-/

namespace SuwappuDb

/-! ## The blocks below a height -/

/-- The blocks below a height, in the order they were put. -/
def blocksBelow (k : U64) (blocks : List Block) : List Block := blocks.filter fun b => b.height < k

section Store

variable {blake3 : Blake3} {blocks : List Block} {k : U64}

theorem injOn_blocksBelow (hinj : Set.InjOn (Block.hash blake3) {b | b ∈ blocks}) :
    Set.InjOn (Block.hash blake3) {b | b ∈ blocksBelow k blocks} :=
  hinj.mono fun _ hb => List.mem_of_mem_filter hb

/-- Lists in height order with the same blocks are the same. -/
theorem eq_of_heights_sorted {l l' : List Block} (h : l.Pairwise fun b b' => b.height < b'.height)
    (h' : l'.Pairwise fun b b' => b.height < b'.height) (hmem : ∀ b, b ∈ l ↔ b ∈ l') : l = l' := by
  have hanti : Std.Antisymm fun b b' : Block => b.height < b'.height :=
    ⟨fun _ _ hlt hgt => absurd hlt (lt_asymm hgt)⟩
  have hirrefl : Std.Irrefl fun b b' : Block => b.height < b'.height := ⟨fun _ => lt_irrefl _⟩
  exact h.eq_of_mem_iff h' hmem

namespace InMemoryBlockStore

/-- Below `k`, the two stores hold the same; above, one of them holds nothing. -/
theorem getByHeight_blocksBelow (hinj : Set.InjOn (Block.hash blake3) {b | b ∈ blocks})
    (height : U64) : (ofBlocks blake3 (blocksBelow k blocks)).getByHeight height =
      if height < k then (ofBlocks blake3 blocks).getByHeight height else none := by
  rw [getByHeight_ofBlocks (injOn_blocksBelow hinj), getByHeight_ofBlocks hinj, blocksBelow,
    List.filter_filter]
  split_ifs with hlt
  · congr 2
    funext b
    by_cases hb : b.height = height
    · simp [hb, hlt]
    · simp [hb]
  · rw [List.getLast?_eq_none_iff, List.filter_eq_nil_iff]
    intro b _ hb
    obtain ⟨hheight, hbelow⟩ := Bool.and_eq_true_iff.1 hb
    rw [of_decide_eq_true hheight] at hbelow
    exact hlt (of_decide_eq_true hbelow)

/-- The blocks of a store are those of the store below `k`, and then those from `k` on. -/
theorem iterFrom_append (hinj : Set.InjOn (Block.hash blake3) {b | b ∈ blocks}) :
    (ofBlocks blake3 blocks).iterFrom 0 =
      (ofBlocks blake3 (blocksBelow k blocks)).iterFrom 0 ++
        (ofBlocks blake3 blocks).iterFrom k := by
  have hbelow := injOn_blocksBelow (k := k) hinj
  apply eq_of_heights_sorted (pairwise_iterFrom hinj 0)
  · refine List.pairwise_append.2 ⟨pairwise_iterFrom hbelow 0, pairwise_iterFrom hinj k, ?_⟩
    intro b hb b' hb'
    have hheld := ((mem_iterFrom hbelow).1 hb).2
    rw [getByHeight_blocksBelow hinj] at hheld
    split_ifs at hheld with hlt
    exact hlt.trans_le ((mem_iterFrom hinj).1 hb').1
  · intro b
    rw [List.mem_append, mem_iterFrom hinj, mem_iterFrom hbelow, mem_iterFrom hinj,
      getByHeight_blocksBelow hinj]
    by_cases hlt : b.height < k
    · rw [if_pos hlt]
      simp [hlt.not_ge]
    · rw [if_neg hlt]
      simp [not_lt.1 hlt]

/-- With a block at every height below `k`, these are the heights that come out. -/
theorem heights_blocksBelow (hinj : Set.InjOn (Block.hash blake3) {b | b ∈ blocks})
    (hheld : ∀ height < k, ∃ b, (ofBlocks blake3 blocks).getByHeight height = some b) :
    ((ofBlocks blake3 (blocksBelow k blocks)).iterFrom 0).map (fun b => b.height.val) =
      List.range k.val := by
  have hbelow := injOn_blocksBelow (k := k) hinj
  have hsorted : (((ofBlocks blake3 (blocksBelow k blocks)).iterFrom 0).map
      fun b => b.height.val).Pairwise (· < ·) :=
    List.pairwise_map.2 (pairwise_iterFrom hbelow 0)
  apply hsorted.eq_of_mem_iff List.pairwise_lt_range
  intro n
  rw [List.mem_map, List.mem_range]
  constructor
  · rintro ⟨b, hb, rfl⟩
    have hb' := ((mem_iterFrom hbelow).1 hb).2
    rw [getByHeight_blocksBelow hinj] at hb'
    split_ifs at hb' with hlt
    exact hlt
  · intro hn
    have hlt : (⟨n, hn.trans k.isLt⟩ : U64) < k := hn
    obtain ⟨b, hb⟩ := hheld _ hlt
    have hheight := height_of_getByHeight hinj hb
    refine ⟨b, (mem_iterFrom hbelow).2 ⟨Fin.zero_le _, ?_⟩, congrArg Fin.val hheight⟩
    rw [getByHeight_blocksBelow hinj, hheight, if_pos hlt]
    exact hb

/-- The second replay starts with the hash of the last block of the first. -/
theorem startHash_held (hinj : Set.InjOn (Block.hash blake3) {b | b ∈ blocks})
    (hheld : ∀ height < k, ∃ b, (ofBlocks blake3 blocks).getByHeight height = some b) :
    startHash blake3 (ofBlocks blake3 blocks).toBlockStore k =
      .ok (HashChain.tip (Block.hash blake3) GENESIS_PARENT
        ((ofBlocks blake3 (blocksBelow k blocks)).iterFrom 0)) := by
  have hheights := heights_blocksBelow hinj hheld
  by_cases hk : k = 0
  · subst hk
    rw [List.map_eq_nil_iff.1 hheights]
    rfl
  · have hpos : 0 < k.val := Nat.pos_of_ne_zero fun h => hk (Fin.ext h)
    have hpred : (k - 1).val = k.val - 1 := Fin.val_sub_one_of_ne_zero hk
    -- The last of the heights below `k` is `k - 1`, and there is one block under it.
    have hlast := congrArg List.getLast? hheights
    rw [List.getLast?_map, List.getLast?_range, if_neg hpos.ne'] at hlast
    obtain ⟨b, hb, hheight⟩ := Option.map_eq_some_iff.1 hlast
    have hmem := ((mem_iterFrom (injOn_blocksBelow hinj)).1 (List.mem_of_getLast? hb)).2
    rw [getByHeight_blocksBelow hinj] at hmem
    split_ifs at hmem with hlt
    rw [show b.height = k - 1 from Fin.ext (hheight.trans hpred.symm)] at hmem
    have hget : (ofBlocks blake3 blocks).toBlockStore.getByHeight (k - 1) = .ok (some b) :=
      congrArg Except.ok hmem
    rw [startHash, if_neg hk, hget, HashChain.tip, hb]
    rfl

end InMemoryBlockStore

end Store

/-! ## The loop -/

section Loop

variable (blake3 : Blake3) (registry : ContractRegistry)

theorem replayFrom_append (sched : ReplaySchedule) (chain rest : List Block) (height : Nat)
    (prevHash : BlockHash) (s : State) :
    replayFrom blake3 sched registry height (chain ++ rest) prevHash s =
      (replayFrom blake3 sched registry height chain prevHash s).bind (andThen fun s' =>
        replayFrom blake3 sched registry (height + chain.length) rest
          (HashChain.tip (Block.hash blake3) prevHash chain) s') := by
  induction chain generalizing height prevHash s with
  | nil => rfl
  | cons b chain ih =>
      rw [List.cons_append, replayFrom, replayFrom]
      cases checkNext height b prevHash with
      | error e => rfl
      | ok u =>
          rw [HashChain.tip_cons, List.length_cons, Nat.add_comm chain.length, ← Nat.add_assoc,
            Option.bind_assoc]
          refine congrArg (reExecute blake3 sched registry height b s).bind (funext fun r => ?_)
          obtain ⟨s', verdict⟩ := r
          cases verdict with
          | error e => rfl
          | ok u => exact ih (height + 1) (b.hash blake3) s'

/-- Schedules under which the blocks execute alike make the same replay. -/
theorem replayFrom_agree {sched sched' : ReplaySchedule} {chain : List Block} {height : Nat}
    (hsame : ∀ n, height ≤ n → n < height + chain.length →
      SameExecutions blake3 registry (sched.block n) (sched'.block n))
    (prevHash : BlockHash) (s : State) :
    replayFrom blake3 sched registry height chain prevHash s =
      replayFrom blake3 sched' registry height chain prevHash s := by
  induction chain generalizing height prevHash s with
  | nil => rfl
  | cons b chain ih =>
      rw [List.length_cons] at hsame
      obtain ⟨s', report, report', hexec, hexec', hroot, hroot'⟩ :=
        hsame height le_rfl (by omega) s b.intents
      have hnext : replayFrom blake3 sched registry (height + 1) chain (b.hash blake3) =
          replayFrom blake3 sched' registry (height + 1) chain (b.hash blake3) :=
        funext fun s' => ih (fun n hle hlt => hsame n (by omega) (by omega)) _ s'
      rw [replayFrom, replayFrom, reExecute_eq blake3 sched hexec hroot,
        reExecute_eq blake3 sched' hexec' hroot', hroot, hroot', hnext]

end Loop

/-! ## Recovery in two steps -/

section Recovery

open InMemoryBlockStore

/-- The surroundings of one replay below a height, and of another from there on. -/
def ReplaySchedule.switchAt (sched sched' : ReplaySchedule) (k : Nat) : ReplaySchedule where
  block n := if n < k then sched.block n else sched'.block n
  liveRoot n := if n < k then sched.liveRoot n else sched'.liveRoot n

/-- A replay of the blocks below `k`, and if it succeeds a replay of the whole store from `k` on. -/
def replayIncremental (blake3 : Blake3) (sched sched' : ReplaySchedule)
    (registry : ContractRegistry) (blocks : List Block) (s : State) (k : U64) :
    Option (State × Except RecoveryError Unit) :=
  (replay blake3 sched registry (ofBlocks blake3 (blocksBelow k blocks)).toBlockStore s 0).bind
    (andThen fun s' => replay blake3 sched' registry (ofBlocks blake3 blocks).toBlockStore s' k)

/-- If both steps execute their blocks as a whole replay does, the result is that of the whole
replay. -/
theorem replayIncremental_eq {blake3 : Blake3} {registry : ContractRegistry} {blocks : List Block}
    {k : U64} (hinj : Set.InjOn (Block.hash blake3) {b | b ∈ blocks})
    (hheld : ∀ height < k, ∃ b, (ofBlocks blake3 blocks).getByHeight height = some b)
    {sched sched' full : ReplaySchedule}
    (hlow : ∀ n < k.val, SameExecutions blake3 registry (sched.block n) (full.block n))
    (hhigh : ∀ n, k.val ≤ n → SameExecutions blake3 registry (sched'.block n) (full.block n))
    (s : State) :
    replayIncremental blake3 sched sched' registry blocks s k =
      replay blake3 full registry (ofBlocks blake3 blocks).toBlockStore s 0 := by
  have hlength : ((ofBlocks blake3 (blocksBelow k blocks)).iterFrom 0).length = k.val := by
    simpa using congrArg List.length (heights_blocksBelow hinj hheld)
  have hfull : replay blake3 full registry (ofBlocks blake3 blocks).toBlockStore s 0 =
      replayFrom blake3 full registry 0 ((ofBlocks blake3 (blocksBelow k blocks)).iterFrom 0 ++
        (ofBlocks blake3 blocks).iterFrom k) GENESIS_PARENT s := by
    rw [← iterFrom_append hinj]
    rfl
  have hfirst : replay blake3 sched registry
      (ofBlocks blake3 (blocksBelow k blocks)).toBlockStore s 0 =
      replayFrom blake3 full registry 0 ((ofBlocks blake3 (blocksBelow k blocks)).iterFrom 0)
        GENESIS_PARENT s := by
    refine replayFrom_agree blake3 registry (fun n _ hn => hlow n ?_) _ _
    simpa [hlength] using hn
  have hsecond : ∀ s', replay blake3 sched' registry (ofBlocks blake3 blocks).toBlockStore s' k =
      replayFrom blake3 full registry k.val ((ofBlocks blake3 blocks).iterFrom k)
        (HashChain.tip (Block.hash blake3) GENESIS_PARENT
          ((ofBlocks blake3 (blocksBelow k blocks)).iterFrom 0)) s' := by
    intro s'
    rw [replay, startHash_held hinj hheld]
    exact replayFrom_agree blake3 registry (fun n hn _ => hhigh n hn) _ _
  rw [hfull, replayFrom_append, hlength, Nat.zero_add, replayIncremental, hfirst]
  simp only [hsecond]

/-- Incremental recovery is full recovery. A store is filled by any puts on which the block hash
does not collide, and holds a block at every height below `k`. For any registry, a replay of the
blocks below `k` followed by a replay of the store from `k` on leaves the state and the verdict of
one replay of the store in the same surroundings; for a registry whose contracts depend on nothing
else, in any surroundings. -/
theorem incremental_recovery (blake3 : Blake3) (registry : ContractRegistry) {blocks : List Block}
    {k : U64} (hinj : Set.InjOn (Block.hash blake3) {b | b ∈ blocks})
    (hheld : ∀ height < k, ∃ b, (ofBlocks blake3 blocks).getByHeight height = some b)
    (sched sched' : ReplaySchedule) (s : State) :
    replayIncremental blake3 sched sched' registry blocks s k =
      replay blake3 (sched.switchAt sched' k.val) registry
        (ofBlocks blake3 blocks).toBlockStore s 0 ∧
    (registry.Pure → ∀ full : ReplaySchedule,
      replayIncremental blake3 sched sched' registry blocks s k =
        replay blake3 full registry (ofBlocks blake3 blocks).toBlockStore s 0) := by
  constructor
  · apply replayIncremental_eq hinj hheld
    · intro n hn
      have hblock : (sched.switchAt sched' k.val).block n = sched.block n := if_pos hn
      rw [hblock]
      exact sameExecutions_self blake3 registry _
    · intro n hn
      have hblock : (sched.switchAt sched' k.val).block n = sched'.block n := if_neg hn.not_gt
      rw [hblock]
      exact sameExecutions_self blake3 registry _
  · intro hpure full
    apply replayIncremental_eq hinj hheld
    · intro n _ s block
      exact executeWithRegistry_agree blake3 s block hpure _ _
    · intro n _ s block
      exact executeWithRegistry_agree blake3 s block hpure _ _

/-- The chain of two blocks, recovered up to its second block and then from there. -/
theorem incremental_recovery_chainBlocks :
    Set.InjOn (Block.hash (tableHash chainTable)) {b | b ∈ chainBlocks} ∧
    (∀ height < (1 : U64), ∃ b,
      (ofBlocks (tableHash chainTable) chainBlocks).getByHeight height = some b) ∧
    smallRegistry.Pure ∧
    (replayIncremental (tableHash chainTable) default default smallRegistry chainBlocks zeroState
      1).map Prod.snd = some (.ok ()) := by
  have hinj := injOn_hash (by decide +kernel) collisionFree_chainTable
  have hheld : ∀ height < (1 : U64), ∃ b,
      (ofBlocks (tableHash chainTable) chainBlocks).getByHeight height = some b := by
    intro height hlt
    refine ⟨emptyBlock, ?_⟩
    rw [show height = 0 from Fin.ext (Nat.lt_one_iff.1 hlt)]
    decide +kernel
  refine ⟨hinj, hheld, smallRegistry_pure, ?_⟩
  rw [(incremental_recovery (tableHash chainTable) smallRegistry hinj hheld default default
    zeroState).2 smallRegistry_pure default]
  exact replay_chainBlocks

end Recovery

end SuwappuDb
