import SuwappuDb.Lib.HashChain
import SuwappuDb.Recovery
import SuwappuDb.Serializability

/-!
# Recovery is exact

A replay of a store accepts exactly the chains a live run produces, and ends in the live run's
state.

* `getByHeight_ofBlocks`, `pairwise_iterFrom`, `mem_iterFrom` — what the store's two maps answer
  when the hash does not collide: under each height the block that was put last there, and these in
  height order. Distinct heights make distinct encodings, so then a hash that does not collide on
  the encodings does not lose a block (`iterFrom_ofBlocks`).
* `replayFrom_spec` — the loop against a live run of the same blocks. Both are executions of one
  block after another, which agree whatever their schedules.
* `replay_exact` — together: replay from height 0 succeeds exactly when the heights have no gap, the
  parents link and the recorded roots are the live ones.
-/

namespace SuwappuDb

/-! ## The store -/

/-- Blocks of different heights have different encodings. -/
theorem height_eq_of_encoding_eq {b b' : Block} (h : b.encoding = b'.encoding) :
    b.height = b'.height := by
  obtain ⟨hheight, -⟩ := List.append_inj (List.append_cancel_left h) (by simp)
  exact Fin.ext (beBytes_inj b.height.isLt b'.height.isLt hheight)

theorem foldl_put (blake3 : Blake3) (blocks : List Block) (store : InMemoryBlockStore) :
    (blocks.foldl (InMemoryBlockStore.put blake3) store).byHash =
        store.byHash.insertAll (blocks.map fun b => (b.hash blake3, b)) ∧
      (blocks.foldl (InMemoryBlockStore.put blake3) store).byHeight =
        store.byHeight.insertAll (blocks.map fun b => (b.height, b.hash blake3)) := by
  induction blocks generalizing store with
  | nil => exact ⟨rfl, rfl⟩
  | cons b rest ih => exact ih (store.put blake3 b)

section Store

variable {blake3 : Blake3} {blocks : List Block}

namespace InMemoryBlockStore

/-- A stored block is found under its hash. -/
theorem get?_byHash_of_mem (hinj : Set.InjOn (Block.hash blake3) {b | b ∈ blocks}) {b : Block}
    (hb : b ∈ blocks) : (ofBlocks blake3 blocks).byHash.get? (b.hash blake3) = some b := by
  have hentry : (b.hash blake3, b) ∈ blocks.map fun c => (c.hash blake3, c) :=
    List.mem_map.2 ⟨b, hb, rfl⟩
  obtain ⟨c, hlast⟩ := OrdMap.exists_lastAt hentry
  obtain ⟨c', hc, heq⟩ := List.mem_map.1 (OrdMap.mem_of_lastAt hlast)
  obtain ⟨hhash, rfl⟩ := Prod.mk.inj heq
  rw [ofBlocks, (foldl_put blake3 blocks {}).1, OrdMap.get?_insertAll_lastAt, hlast,
    hinj hc hb hhash, Option.some_or]

/-- Under a height stands the block that was put last there. -/
theorem getByHeight_ofBlocks (hinj : Set.InjOn (Block.hash blake3) {b | b ∈ blocks})
    (height : U64) : (ofBlocks blake3 blocks).getByHeight height =
      (blocks.filter fun b => b.height = height).getLast? := by
  have hrow : (ofBlocks blake3 blocks).byHeight.get? height =
      (blocks.filter fun b => b.height = height).getLast?.map (Block.hash blake3) := by
    rw [ofBlocks, (foldl_put blake3 blocks {}).2, OrdMap.get?_insertAll_lastAt, OrdMap.lastAt,
      List.filter_map, List.getLast?_map, Option.map_map]
    exact Option.or_none
  rw [getByHeight, hrow]
  cases hlast : (blocks.filter fun b => b.height = height).getLast? with
  | none => rfl
  | some b =>
      exact get?_byHash_of_mem hinj (List.mem_of_mem_filter (List.mem_of_getLast? hlast))

theorem height_of_getByHeight (hinj : Set.InjOn (Block.hash blake3) {b | b ∈ blocks})
    {height : U64} {b : Block} (h : (ofBlocks blake3 blocks).getByHeight height = some b) :
    b.height = height := by
  rw [getByHeight_ofBlocks hinj] at h
  exact of_decide_eq_true (List.mem_filter.1 (List.mem_of_getLast? h)).2

/-- What an entry of the height index leads to. -/
theorem getByHeight_of_mem_byHeight {store : InMemoryBlockStore} {p : U64 × BlockHash}
    (hp : p ∈ store.byHeight.entries) {b : Block} (hb : store.byHash.get? p.2 = some b) :
    store.getByHeight p.1 = some b := by
  rw [getByHeight, OrdMap.mem_entries.1 hp]
  exact hb

/-- The blocks come out in height order. -/
theorem pairwise_iterFrom (hinj : Set.InjOn (Block.hash blake3) {b | b ∈ blocks}) (start : U64) :
    ((ofBlocks blake3 blocks).iterFrom start).Pairwise fun b b' => b.height < b'.height := by
  rw [iterFrom, List.pairwise_filterMap]
  refine ((OrdMap.sorted _).filter _).imp_of_mem fun {p q} hp hq hlt b hb b' hb' => ?_
  have hp' := getByHeight_of_mem_byHeight (List.mem_of_mem_filter hp) hb
  have hq' := getByHeight_of_mem_byHeight (List.mem_of_mem_filter hq) hb'
  rw [height_of_getByHeight hinj hp', height_of_getByHeight hinj hq']
  exact hlt

/-- They are those that stand under their heights. -/
theorem mem_iterFrom (hinj : Set.InjOn (Block.hash blake3) {b | b ∈ blocks}) {start : U64}
    {b : Block} : b ∈ (ofBlocks blake3 blocks).iterFrom start ↔
      start ≤ b.height ∧ (ofBlocks blake3 blocks).getByHeight b.height = some b := by
  rw [iterFrom, List.mem_filterMap]
  constructor
  · rintro ⟨p, hp, hb⟩
    obtain ⟨hmem, hstart⟩ := List.mem_filter.1 hp
    have hheld := getByHeight_of_mem_byHeight hmem hb
    rw [height_of_getByHeight hinj hheld]
    exact ⟨of_decide_eq_true hstart, hheld⟩
  · rintro ⟨hstart, hheld⟩
    obtain ⟨c, hrow, hb⟩ := Option.bind_eq_some_iff.1 hheld
    refine ⟨(b.height, c), List.mem_filter.2 ⟨OrdMap.mem_entries.2 hrow, ?_⟩, hb⟩
    exact decide_eq_true hstart

end InMemoryBlockStore

/-- On blocks of distinct heights, a hash that does not collide on the encodings is injective. -/
theorem injOn_hash (hheights : (blocks.map Block.height).Nodup)
    (hcf : CollisionFree blake3 (blocks.map Block.encoding)) :
    Set.InjOn (Block.hash blake3) {b | b ∈ blocks} := by
  intro b hb b' hb' heq
  have henc := hcf _ (List.mem_map_of_mem hb) _ (List.mem_map_of_mem hb') heq
  exact List.inj_on_of_nodup_map hheights hb hb' (height_eq_of_encoding_eq henc)

/-- From height 0 on, blocks of distinct heights all come out. -/
theorem iterFrom_ofBlocks (hheights : (blocks.map Block.height).Nodup)
    (hcf : CollisionFree blake3 (blocks.map Block.encoding)) :
    ((InMemoryBlockStore.ofBlocks blake3 blocks).iterFrom 0).Perm blocks := by
  have hinj := injOn_hash hheights hcf
  have hnodup : ((InMemoryBlockStore.ofBlocks blake3 blocks).iterFrom 0).Nodup :=
    (InMemoryBlockStore.pairwise_iterFrom hinj 0).imp fun hlt heq =>
      absurd (heq ▸ hlt) (lt_irrefl _)
  refine (List.perm_ext_iff_of_nodup hnodup hheights.of_map).2 fun b => ?_
  rw [InMemoryBlockStore.mem_iterFrom hinj, InMemoryBlockStore.getByHeight_ofBlocks hinj]
  constructor
  · intro h
    exact List.mem_of_mem_filter (List.mem_of_getLast? h.2)
  · intro hb
    refine ⟨Fin.zero_le _, ?_⟩
    -- The last block of this height is one of this height, and there is only one.
    have hne : (blocks.filter fun c => c.height = b.height) ≠ [] :=
      List.ne_nil_of_mem (List.mem_filter.2 ⟨hb, decide_eq_true rfl⟩)
    rw [List.getLast?_eq_some_getLast hne]
    obtain ⟨hlast, hheight⟩ := List.mem_filter.1 (List.getLast_mem hne)
    exact congrArg some
      (List.inj_on_of_nodup_map hheights hlast hb (of_decide_eq_true hheight))

end Store

/-! ## The loop -/

theorem checkNext_eq_ok {height : Nat} {b : Block} {prevHash : BlockHash} :
    checkNext height b prevHash = .ok () ↔ b.height.val = height ∧ b.parent = prevHash := by
  unfold checkNext
  split_ifs <;> simp_all

/-- A block that has been executed is accepted exactly when its root is the one that was reached. -/
theorem reExecute_eq (blake3 : Blake3) (sched : ReplaySchedule) {registry : ContractRegistry}
    {height : Nat} {b : Block} {s s' : State} {report : BlockReport}
    (hexec : BlockExecutor.executeWithRegistry blake3 (sched.block height) s b.intents registry =
      some (s', report))
    (hroot : report.stateRoot = (StateTree.fromState default s').root blake3) :
    reExecute blake3 sched registry height b s = some (s',
      if b.stateRoot = report.stateRoot then .ok ()
      else .error (.stateRootMismatch b.height b.stateRoot report.stateRoot)) := by
  rw [reExecute, hexec]
  -- The second root is of the same state, so it cannot differ from the first.
  have hlive : (StateTree.fromState (sched.liveRoot height) s').root blake3 = report.stateRoot := by
    rw [hroot]
    exact StateTree.root_fromState blake3 _ _ _
  by_cases hsame : b.stateRoot = report.stateRoot
  · simp [hsame, hlive]
  · simp [hsame, Ne.symm hsame]

/-- One turn of the replay loop: it goes on exactly when the block has the expected height, the
expected parent and the root its execution reaches. -/
theorem replayFrom_cons (blake3 : Blake3) (sched : ReplaySchedule) {registry : ContractRegistry}
    {height : Nat} {b : Block} (rest : List Block) {prevHash : BlockHash} {s s' : State}
    {report : BlockReport}
    (hexec : BlockExecutor.executeWithRegistry blake3 (sched.block height) s b.intents registry =
      some (s', report))
    (hroot : report.stateRoot = (StateTree.fromState default s').root blake3) :
    (b.height.val = height ∧ b.parent = prevHash ∧ b.stateRoot = report.stateRoot ∧
      replayFrom blake3 sched registry height (b :: rest) prevHash s =
        replayFrom blake3 sched registry (height + 1) rest (b.hash blake3) s') ∨
    (¬ (b.height.val = height ∧ b.parent = prevHash ∧ b.stateRoot = report.stateRoot) ∧
      ∃ left e, replayFrom blake3 sched registry height (b :: rest) prevHash s =
        some (left, .error e)) := by
  rw [replayFrom, reExecute_eq blake3 sched hexec hroot]
  cases hcheck : checkNext height b prevHash with
  | error e =>
      refine .inr ⟨fun h => ?_, s, e, rfl⟩
      cases hcheck.symm.trans (checkNext_eq_ok.2 ⟨h.1, h.2.1⟩)
  | ok u =>
      obtain ⟨hheight, hparent⟩ := checkNext_eq_ok.1 hcheck
      by_cases hsame : b.stateRoot = report.stateRoot
      · exact .inl ⟨hheight, hparent, hsame, by rw [if_pos hsame]; rfl⟩
      · exact .inr ⟨fun h => hsame h.2.2, s', _, by rw [if_neg hsame]; rfl⟩

/-- Two schedules under which every block leaves the same state, with its root in the report. -/
def SameExecutions (blake3 : Blake3) (registry : ContractRegistry) (sched sched' : Schedule) :
    Prop :=
  ∀ s block, ∃ s' report report',
    BlockExecutor.executeWithRegistry blake3 sched s block registry = some (s', report) ∧
    BlockExecutor.executeWithRegistry blake3 sched' s block registry = some (s', report') ∧
    report.stateRoot = (StateTree.fromState default s').root blake3 ∧
    report'.stateRoot = (StateTree.fromState default s').root blake3

/-- The replay loop and a live run of the same blocks. -/
theorem replayFrom_spec (blake3 : Blake3) (sched : ReplaySchedule) (live : Nat → Schedule)
    {registry : ContractRegistry}
    (hsame : ∀ height, SameExecutions blake3 registry (sched.block height) (live height))
    (chain : List Block) (height : Nat) (prevHash : BlockHash) (s : State) :
    ∃ s' verdict t roots,
      replayFrom blake3 sched registry height chain prevHash s = some (s', verdict) ∧
      liveRun blake3 live registry height s (chain.map Block.intents) = some (t, roots) ∧
      (verdict = .ok () ↔ chain.map (fun b => b.height.val) = List.range' height chain.length ∧
        HashChain.Linked (Block.hash blake3) Block.parent prevHash chain ∧
        chain.map Block.stateRoot = roots) ∧
      (verdict = .ok () → s' = t) := by
  induction chain generalizing height prevHash s with
  | nil => exact ⟨s, .ok (), s, [], rfl, rfl, by simp [HashChain.linked_nil], fun _ => rfl⟩
  | cons b rest ih =>
      obtain ⟨s₁, report, report', hexec, hexec', hroot, hroot'⟩ :=
        hsame height s b.intents
      obtain ⟨s', verdict, t, roots, hreplay, hrun, hiff, hstate⟩ :=
        ih (height + 1) (b.hash blake3) s₁
      have hreport : report'.stateRoot = report.stateRoot := hroot'.trans hroot.symm
      have hrun' : liveRun blake3 live registry height s ((b :: rest).map Block.intents) =
          some (t, report.stateRoot :: roots) := by
        rw [List.map_cons, liveRun, hexec']
        simp [hrun, hreport]
      rcases replayFrom_cons blake3 sched rest hexec hroot with
        ⟨hheight, hparent, hrecorded, hnext⟩ | ⟨hbad, left, e, hfail⟩
      · refine ⟨s', verdict, t, _, hnext.trans hreplay, hrun', ?_, hstate⟩
        simp [hiff, List.range'_succ, HashChain.linked_cons, hheight, hparent, hrecorded]
      · refine ⟨left, .error e, t, _, hfail, hrun', ⟨nofun, ?_⟩, nofun⟩
        rintro ⟨hheights, hlinked, hroots⟩
        rw [List.length_cons, List.range'_succ, List.map_cons, List.cons.injEq] at hheights
        rw [List.map_cons, List.cons.injEq] at hroots
        exact absurd ⟨hheights.1, (HashChain.linked_cons.1 hlinked).1, hroots.1⟩ hbad

/-! ## Recovery -/

/-- Recovery is exact. A store is filled by puts of blocks of distinct heights, and `chain` is its
blocks in height order. Replay from height 0 succeeds exactly when the heights are those below the
number of blocks, every block names the one below it as its parent, and every recorded root is the
one a live run from the same state reaches there; and it then leaves the live run's state. -/
theorem replay_exact (blake3 : Blake3) {registry : ContractRegistry} (hpure : registry.Pure)
    {blocks : List Block} (hheights : (blocks.map Block.height).Nodup)
    (hcf : CollisionFree blake3 (blocks.map Block.encoding)) (s : State) (sched : ReplaySchedule)
    (live : Nat → Schedule) :
    ∃ (chain : List Block) (s' : State) (verdict : Except RecoveryError Unit) (t : State)
        (roots : List Commitment),
      chain.Perm blocks ∧ (chain.Pairwise fun b b' => b.height < b'.height) ∧
      replay blake3 sched registry (InMemoryBlockStore.ofBlocks blake3 blocks).toBlockStore s 0 =
        some (s', verdict) ∧
      liveRun blake3 live registry 0 s (chain.map Block.intents) = some (t, roots) ∧
      (verdict = .ok () ↔
        chain.map (fun b => b.height.val) = List.range chain.length ∧
        HashChain.Linked (Block.hash blake3) Block.parent GENESIS_PARENT chain ∧
        chain.map Block.stateRoot = roots) ∧
      (verdict = .ok () → s' = t ∧ (∀ a, s'.balanceOf a = t.balanceOf a) ∧
        ∀ order order', (StateTree.fromState order s').root blake3 =
          (StateTree.fromState order' t).root blake3) := by
  have hperm := iterFrom_ofBlocks hheights hcf
  have hsorted := InMemoryBlockStore.pairwise_iterFrom (injOn_hash hheights hcf) 0
  obtain ⟨s', verdict, t, roots, hreplay, hrun, hiff, hstate⟩ := replayFrom_spec blake3 sched live
    (fun height s block => executeWithRegistry_agree blake3 s block hpure _ _)
    ((InMemoryBlockStore.ofBlocks blake3 blocks).iterFrom 0) 0 GENESIS_PARENT s
  rw [← List.range_eq_range'] at hiff
  refine ⟨_, s', verdict, t, roots, hperm, hsorted, hreplay, hrun, hiff, fun hok => ?_⟩
  obtain rfl := hstate hok
  exact ⟨rfl, fun _ => rfl, fun order order' => StateTree.root_fromState blake3 _ _ _⟩

/-! ### A recovered chain

An empty block, and one that pays 40 of the 100 of the zero address to address 1 and rejects a
second payment. -/

def zeroRoot : Commitment :=
  digestOf 0xaa65d1f7b3855ecb6a0cc8ef26fa61b7177719c6eab02763164e2c2679d84b60

def emptyBlock : Block := ⟨0, GENESIS_PARENT, zeroRoot, []⟩

def emptyBlockHash : BlockHash :=
  digestOf 0xb28ae320e13536d6aa54e981b985f6c6f895b7d9c93bad1600e378e84571b7f7

/-- The digests of the tree after the payment, from the node above its two leaves up. -/
def paidDigests : List Commitment := [
  0x0c58a51d2ddfd059942e514ebda863fe727e467b16f35d93dcf058c07d781cf4,
  0xb3410e404d35550c16192704937c718d6b8197d7c0bb0b6752067ea8af6ba3f8,
  0x3a2daa383100f2d4406efa473a5d5a34b03cca34679010085720462ce29e9c41,
  0x46665fb4eb80fe4b63841fc0b72b5b89186eaaf94dcc04446bf884677ed7d9f2,
  0x850a0691a035da8f9c2223afa849e98380e6529e360da9d7f6b76788c589bf90,
  0x94d0afcb424eec108a1988d874ca5aeef55007b4262321f88e973c8652a3f574,
  0xbb3a94283255cd48528fccd52b7f5f3c46075865d11d396c5e502da1044797de,
  0x31e4980086081140d6033026901c7736ddf400b1f30cd96324f7f1681e4db92d,
  0xca53a1e7fb357a9e71abf6493d27429a0f43dd899db1653476b1278e15d8b5f0,
  0x1564355792015ba028b22079694fcfb3ced4f2252cc835e901ff9aadb985cd17,
  0xa9a850710346efeb158109fb7e3ea7feabe3a365456a24e42b7cc4160c836f85,
  0xd5cc7f2f392581e2229adb2939c12dd6d5864621ada1cdc731f2e4f0db82ce3c,
  0x9ce95c6902ae715dd41bda6808988045b098bdbfb25cd47084ca243f575fef9c,
  0x95e77653766e771e367ae9c7298af2bd87aa39b6606e978067aedd1bded9a49b,
  0xb48391f901c29b71a3435670409127a99803ebe345ca6a3cca73a5b9e725ff30,
  0xe231ab0c8d8d60ad125b4cdb8360731e1b553dcd63821045dd45a1ed97140359,
  0x5efda433698c998bb125cd271ee81b5555f6d87ad4adbe70d3b3672304e44a7c,
  0x4e00c15194df39bf632ec0af01ca45a6a5b132e7c970d8f226195555e4965b15,
  0xb03dd0549b5f23e32e7690dd5cd6fa47f4762981b734cfb932f7b32c4f535009,
  0x084bd72f810f9504ab30f60088d6a37ae8da4a9fd842a7b87ede2fd28dff0ab0].map digestOf

/-- BLAKE3 on everything hashed for that tree. -/
def paidTable : List (List Byte × Commitment) :=
  let sixty := digestOf 0x3b9c7253761c2465fadeb8f071f3521678f7964cce395d9dc6a01d357335d7eb
  let forty := digestOf 0x9b06fe9af53a320f7d11f826b5993477bad092b11d6fcf43e7bdf77f536bc9a6
  (leafInput (BalanceSlot.new 60), sixty) :: (leafInput (BalanceSlot.new 40), forty) ::
    ((internalInput [(0, sixty), (1, forty)] ::
      paidDigests.map fun c => internalInput [(0, c)]).zip paidDigests)

def paidRoot : Commitment :=
  digestOf 0x084bd72f810f9504ab30f60088d6a37ae8da4a9fd842a7b87ede2fd28dff0ab0

def payments : List Intent := [
  .transfer zeroAddress (smallAddress 1) 40, .transfer (smallAddress 2) zeroAddress 5]

def payingBlock : Block := ⟨1, emptyBlockHash, paidRoot, payments⟩

/-- BLAKE3 on everything hashed for the two blocks. -/
def chainTable : List (List Byte × Commitment) :=
  (emptyBlock.encoding, emptyBlockHash) :: (payingBlock.encoding, digestOf
    0xd539d424a0f492cfda4547c9a7ab914ca51643b3437e6f006401e00ee3e6dde1) :: (paidTable ++ zeroTable)

/-- The two blocks, put in the wrong order. -/
def chainBlocks : List Block := [payingBlock, emptyBlock]

theorem collisionFree_chainTable :
    CollisionFree (tableHash chainTable) (chainBlocks.map Block.encoding) :=
  collisionFree_tableHash (by decide +kernel) (by decide +kernel)

theorem replay_chainBlocks :
    (replay (tableHash chainTable) default smallRegistry
      (InMemoryBlockStore.ofBlocks (tableHash chainTable) chainBlocks).toBlockStore zeroState 0).map
        Prod.snd = some (.ok ()) := by
  decide +kernel

theorem replay_exact_chainBlocks :
    (replay (tableHash chainTable) default smallRegistry
      (InMemoryBlockStore.ofBlocks (tableHash chainTable) chainBlocks).toBlockStore zeroState 0).map
        Prod.snd = some (.ok ()) ∧
    smallRegistry.Pure ∧ (chainBlocks.map Block.height).Nodup ∧
    CollisionFree (tableHash chainTable) (chainBlocks.map Block.encoding) ∧
    ∃ (chain : List Block) (t : State) (roots : List Commitment), chain.Perm chainBlocks ∧
      liveRun (tableHash chainTable) (fun _ => default) smallRegistry 0 zeroState
        (chain.map Block.intents) = some (t, roots) ∧
      chain.map Block.stateRoot = roots := by
  have hheights : (chainBlocks.map Block.height).Nodup := by decide +kernel
  refine ⟨replay_chainBlocks, smallRegistry_pure, hheights, collisionFree_chainTable, ?_⟩
  obtain ⟨chain, s', verdict, t, roots, hperm, -, hreplay, hrun, hiff, -⟩ :=
    replay_exact (tableHash chainTable) smallRegistry_pure hheights collisionFree_chainTable
      zeroState default fun _ => default
  have hok := replay_chainBlocks
  rw [hreplay, Option.map_some, Option.some.injEq] at hok
  exact ⟨chain, t, roots, hperm, hrun, (hiff.1 hok).2.2⟩

end SuwappuDb
