import SuwappuDb.BlockCodec
import SuwappuDb.RecoveryProof

/-!
# Block stores

`crates/suwappudb-bridge/src/recovery/store.rs`: the in-memory store and the durable one, with all
the queries of their trait.

The durable store keeps two tables, of encoded blocks by hash and of hashes by height. A write
commits to both or to none, so a table is a map. It refines the in-memory store (`Refines`): a put
keeps the relation, and a related store answers every query alike, but for the latest block of an
empty store (`Refines.queries_eq_iff`).

A block that was put is found again as long as no other block of its height is put
(`append_only_iff`).
-/

namespace SuwappuDb

/-- All queries of the trait: those that replay makes, and the others. -/
structure BlockQueries extends BlockStore where
  getByHash : BlockHash → Except BlockStoreError (Option Block)
  latest : Except BlockStoreError (Option Block)
  len : Except BlockStoreError Nat

/-! ## In memory -/

namespace InMemoryBlockStore

variable (store : InMemoryBlockStore)

def getByHash (hash : BlockHash) : Option Block := store.byHash.get? hash

def latest : Option Block :=
  store.byHeight.entries.getLast?.bind fun p => store.byHash.get? p.2

def len : Nat := store.byHash.entries.length

def queries : BlockQueries where
  toBlockStore := store.toBlockStore
  getByHash hash := .ok (store.getByHash hash)
  latest := .ok store.latest
  len := .ok store.len

end InMemoryBlockStore

/-! ## On disk -/

/-- `RedbBlockStore`: the tables `blocks_by_hash` and `height_to_hash`. -/
structure RedbBlockStore where
  blocksByHash : OrdMap BlockHash (List Byte) := ∅
  heightToHash : OrdMap U64 BlockHash := ∅

namespace RedbBlockStore

variable (blake3 : Blake3) (store : RedbBlockStore)

def put (b : Block) : RedbBlockStore where
  blocksByHash := store.blocksByHash.insert (b.hash blake3) (encodeBlock b)
  heightToHash := store.heightToHash.insert b.height (b.hash blake3)

/-- A store filled by puts. -/
def ofBlocks (blocks : List Block) : RedbBlockStore := blocks.foldl (put blake3) {}

/-- The block under a hash. A value that does not decode is none. -/
def getByHash (hash : BlockHash) : Option Block := (store.blocksByHash.get? hash).bind decodeBlock

def getByHeight (height : U64) : Option Block :=
  match store.heightToHash.get? height with
  | none => none
  | some hash => store.getByHash hash

/-- Without a height there is no latest block, and that is an error here. -/
def latest : Except BlockStoreError (Option Block) :=
  match store.heightToHash.entries.getLast? with
  | none => .error (.backend "missing latest height entry")
  | some (_, hash) => .ok (store.getByHash hash)

def len : Nat := store.blocksByHash.entries.length

/-- The rows of the height table from a height on. -/
def rowsFrom (start : U64) : List (U64 × BlockHash) :=
  store.heightToHash.entries.filter fun p => start ≤ p.1

/-- The blocks of the rows. A row whose block is missing, or does not decode, is skipped. -/
def iterFrom (start : U64) : List Block :=
  (store.rowsFrom start).filterMap fun p => store.getByHash p.2

def toBlockStore : BlockStore where
  getByHeight height := .ok (store.getByHeight height)
  iterFrom start := .ok (store.iterFrom start)

def queries : BlockQueries where
  toBlockStore := store.toBlockStore
  getByHash hash := .ok (store.getByHash hash)
  latest := store.latest
  len := .ok store.len

end RedbBlockStore

/-! ## Refinement -/

/-- The tables hold what the maps hold, encoded. -/
structure Refines (redb : RedbBlockStore) (store : InMemoryBlockStore) : Prop where
  heights : redb.heightToHash = store.byHeight
  blocks : ∀ hash, redb.blocksByHash.get? hash = (store.byHash.get? hash).map encodeBlock
  fits : ∀ hash b, store.byHash.get? hash = some b → b.Fits

namespace Refines

variable {blake3 : Blake3} {redb : RedbBlockStore} {store : InMemoryBlockStore}

theorem empty : Refines {} {} where
  heights := rfl
  blocks _ := rfl
  fits _ _ := nofun

/-- The step. -/
theorem put (h : Refines redb store) {b : Block} (hb : b.Fits) :
    Refines (redb.put blake3 b) (store.put blake3 b) where
  heights := by
    rw [RedbBlockStore.put, InMemoryBlockStore.put, h.heights]
  blocks hash := by
    rw [RedbBlockStore.put, InMemoryBlockStore.put, OrdMap.get?_insert, OrdMap.get?_insert]
    split_ifs
    · rfl
    · exact h.blocks hash
  fits hash c hc := by
    rw [InMemoryBlockStore.put, OrdMap.get?_insert] at hc
    split_ifs at hc
    · exact Option.some.inj hc ▸ hb
    · exact h.fits hash c hc

theorem foldl_put (h : Refines redb store) {blocks : List Block} (hfits : ∀ b ∈ blocks, b.Fits) :
    Refines (blocks.foldl (RedbBlockStore.put blake3) redb)
      (blocks.foldl (InMemoryBlockStore.put blake3) store) := by
  induction blocks generalizing redb store with
  | nil => exact h
  | cons b rest ih =>
      obtain ⟨hb, hrest⟩ := List.forall_mem_cons.1 hfits
      exact ih (h.put hb) hrest

/-- A block is read back as it was put, by the round trip of the codec. -/
theorem getByHash (h : Refines redb store) : redb.getByHash = store.getByHash := by
  funext hash
  rw [RedbBlockStore.getByHash, h.blocks, InMemoryBlockStore.getByHash]
  cases hget : store.byHash.get? hash with
  | none => rfl
  | some b => rw [Option.map_some, Option.bind_some, decodeBlock_encodeBlock (h.fits hash b hget)]

theorem getByHeight (h : Refines redb store) : redb.getByHeight = store.getByHeight := by
  funext height
  rw [RedbBlockStore.getByHeight, h.getByHash, h.heights, InMemoryBlockStore.getByHeight]
  cases store.byHeight.get? height with
  | none => rfl
  | some hash => rfl

theorem iterFrom (h : Refines redb store) : redb.iterFrom = store.iterFrom := by
  funext start
  rw [RedbBlockStore.iterFrom, RedbBlockStore.rowsFrom, h.getByHash, h.heights]
  rfl

theorem len (h : Refines redb store) : redb.len = store.len := by
  refine OrdMap.length_entries_congr fun hash => ?_
  rw [h.blocks, Option.isSome_map]

/-- The two disagree on the latest block exactly where there is none. -/
theorem latest_eq_iff (h : Refines redb store) :
    redb.latest = .ok store.latest ↔ store.byHeight.entries ≠ [] := by
  rw [RedbBlockStore.latest, InMemoryBlockStore.latest, h.getByHash, h.heights]
  cases hlast : store.byHeight.entries.getLast? with
  | none => exact iff_of_false nofun (not_not.2 (List.getLast?_eq_none_iff.1 hlast))
  | some p =>
      refine iff_of_true rfl fun hnil => ?_
      rw [hnil] at hlast
      cases hlast

theorem queries_eq_iff (h : Refines redb store) :
    redb.queries = store.queries ↔ store.byHeight.entries ≠ [] := by
  rw [← h.latest_eq_iff]
  constructor
  · intro heq
    exact congrArg BlockQueries.latest heq
  · intro hlatest
    unfold RedbBlockStore.queries InMemoryBlockStore.queries RedbBlockStore.toBlockStore
      InMemoryBlockStore.toBlockStore
    rw [h.getByHash, h.getByHeight, h.iterFrom, h.len, hlatest]

end Refines

theorem refines_ofBlocks (blake3 : Blake3) {blocks : List Block} (hfits : ∀ b ∈ blocks, b.Fits) :
    Refines (RedbBlockStore.ofBlocks blake3 blocks) (InMemoryBlockStore.ofBlocks blake3 blocks) :=
  Refines.empty.foldl_put hfits

theorem InMemoryBlockStore.ofBlocks_concat (blake3 : Blake3) (blocks : List Block) (b : Block) :
    ofBlocks blake3 (blocks ++ [b]) = (ofBlocks blake3 blocks).put blake3 b := by
  rw [ofBlocks, List.foldl_append]
  rfl

/-- A put leaves a height. -/
theorem byHeight_ofBlocks_ne_nil (blake3 : Blake3) {blocks : List Block} :
    (InMemoryBlockStore.ofBlocks blake3 blocks).byHeight.entries ≠ [] ↔ blocks ≠ [] := by
  induction blocks using List.reverseRecOn with
  | nil => simp [InMemoryBlockStore.ofBlocks, EmptyCollection.emptyCollection]
  | append_singleton earlier b _ =>
      refine iff_of_true (fun hnil => ?_) (List.append_ne_nil_of_right_ne_nil _ (by simp))
      have hnone := OrdMap.entries_eq_nil.1 hnil b.height
      rw [InMemoryBlockStore.ofBlocks_concat, InMemoryBlockStore.put,
        OrdMap.get?_insert_self] at hnone
      cases hnone

/-- After each of a sequence of puts, the durable store and the in-memory one give the same answers
to all queries but for the latest block; and to that as well if and only if a block was put. -/
theorem redb_queries_iff (blake3 : Blake3) (blocks : List Block) (hfits : ∀ b ∈ blocks, b.Fits)
    (n : Nat) :
    ((RedbBlockStore.ofBlocks blake3 (blocks.take n)).queries =
        (InMemoryBlockStore.ofBlocks blake3 (blocks.take n)).queries ↔ blocks.take n ≠ []) ∧
    (RedbBlockStore.ofBlocks blake3 (blocks.take n)).getByHash =
      (InMemoryBlockStore.ofBlocks blake3 (blocks.take n)).getByHash ∧
    (RedbBlockStore.ofBlocks blake3 (blocks.take n)).getByHeight =
      (InMemoryBlockStore.ofBlocks blake3 (blocks.take n)).getByHeight ∧
    (RedbBlockStore.ofBlocks blake3 (blocks.take n)).len =
      (InMemoryBlockStore.ofBlocks blake3 (blocks.take n)).len ∧
    (RedbBlockStore.ofBlocks blake3 (blocks.take n)).iterFrom =
      (InMemoryBlockStore.ofBlocks blake3 (blocks.take n)).iterFrom := by
  have h : Refines (RedbBlockStore.ofBlocks blake3 (blocks.take n))
      (InMemoryBlockStore.ofBlocks blake3 (blocks.take n)) :=
    refines_ofBlocks blake3 fun b hb => hfits b (List.mem_of_mem_take hb)
  exact ⟨h.queries_eq_iff.trans (byHeight_ofBlocks_ne_nil blake3), h.getByHash, h.getByHeight,
    h.len, h.iterFrom⟩

theorem redb_queries_chainBlocks :
    (∀ b ∈ chainBlocks, b.Fits) ∧
    (RedbBlockStore.ofBlocks (tableHash chainTable) (chainBlocks.take 1)).queries =
      (InMemoryBlockStore.ofBlocks (tableHash chainTable) (chainBlocks.take 1)).queries := by
  have hfits : ∀ b ∈ chainBlocks, b.Fits := by
    simp [chainBlocks, payingBlock, emptyBlock, payments, Block.Fits, Intent.Fits]
  have hne : chainBlocks.take 1 ≠ [] := by simp [chainBlocks]
  exact ⟨hfits, (redb_queries_iff (tableHash chainTable) chainBlocks hfits 1).1.2 hne⟩

/-- An empty store has no latest block in memory, and on disk it is an error to ask for it. -/
theorem redb_latest_empty :
    (InMemoryBlockStore.ofBlocks (tableHash chainTable) []).queries.latest = .ok none ∧
    (RedbBlockStore.ofBlocks (tableHash chainTable) []).queries.latest =
      .error (.backend "missing latest height entry") :=
  ⟨rfl, rfl⟩

/-! ## Append only -/

namespace InMemoryBlockStore

/-- The block is found under its height and under its hash. -/
structure Holds (blake3 : Blake3) (store : InMemoryBlockStore) (b : Block) : Prop where
  height : store.byHeight.get? b.height = some (b.hash blake3)
  hash : store.byHash.get? (b.hash blake3) = some b

variable {blake3 : Blake3} {store : InMemoryBlockStore} {b c : Block}

theorem Holds.getByHeight (h : store.Holds blake3 b) : store.getByHeight b.height = some b := by
  rw [InMemoryBlockStore.getByHeight, h.height]
  exact h.hash

theorem holds_put (blake3 : Blake3) (store : InMemoryBlockStore) (b : Block) :
    (store.put blake3 b).Holds blake3 b where
  height := OrdMap.get?_insert_self _ _ _
  hash := OrdMap.get?_insert_self _ _ _

/-- A put of another block leaves alone the blocks of other heights and hashes. -/
theorem Holds.put (h : store.Holds blake3 b) (hheight : c.height = b.height → c = b)
    (hhash : c.hash blake3 = b.hash blake3 → c = b) : (store.put blake3 c).Holds blake3 b where
  height := by
    rw [InMemoryBlockStore.put, OrdMap.get?_insert]
    split_ifs with heq
    · rw [hheight heq.symm]
    · exact h.height
  hash := by
    rw [InMemoryBlockStore.put, OrdMap.get?_insert]
    split_ifs with heq
    · rw [hhash heq.symm]
    · exact h.hash

theorem Holds.foldl_put (h : store.Holds blake3 b) {later : List Block}
    (hheight : ∀ c ∈ later, c.height = b.height → c = b)
    (hhash : ∀ c ∈ later, c.hash blake3 = b.hash blake3 → c = b) :
    (later.foldl (InMemoryBlockStore.put blake3) store).Holds blake3 b := by
  apply List.foldlRecOn (motive := fun store : InMemoryBlockStore => store.Holds blake3 b) later _ h
  intro store hstore c hc
  exact hstore.put (hheight c hc) (hhash c hc)

end InMemoryBlockStore

open InMemoryBlockStore in
/-- A block `b` is put, after others and before others, with a block hash that does not collide on
them. It stays under its height and its hash after every later put if and only if the later blocks
of its height are `b` again. -/
theorem append_only_iff (blake3 : Blake3) (earlier : List Block) (b : Block) (later : List Block)
    (hinj : Set.InjOn (Block.hash blake3) {c | c ∈ earlier ++ b :: later}) :
    (∀ n, (ofBlocks blake3 (earlier ++ b :: later.take n)).getByHeight b.height = some b ∧
      (ofBlocks blake3 (earlier ++ b :: later.take n)).getByHash (b.hash blake3) = some b) ↔
    ∀ c ∈ later, c.height = b.height → c = b := by
  constructor
  · intro hall c hc hheight
    obtain ⟨before, after, rfl⟩ := List.append_of_mem hc
    have htake : earlier ++ b :: (before ++ c :: after).take (before.length + 1) =
        (earlier ++ b :: before) ++ [c] := by
      simp [List.take_append]
    have hget := (hall (before.length + 1)).1
    rw [htake, ofBlocks_concat, ← hheight, (holds_put _ _ _).getByHeight] at hget
    exact Option.some.inj hget
  · intro hheight n
    have hsplit : ofBlocks blake3 (earlier ++ b :: later.take n) =
        (later.take n).foldl (put blake3) ((ofBlocks blake3 earlier).put blake3 b) := by
      rw [ofBlocks, List.foldl_append]
      rfl
    have hholds : (ofBlocks blake3 (earlier ++ b :: later.take n)).Holds blake3 b := by
      rw [hsplit]
      refine (holds_put blake3 _ b).foldl_put (fun c hc => hheight c (List.mem_of_mem_take hc))
        fun c hc heq => hinj ?_ ?_ heq
      · exact List.mem_append_right _ (List.mem_cons_of_mem _ (List.mem_of_mem_take hc))
      · exact List.mem_append_right _ List.mem_cons_self
    exact ⟨hholds.getByHeight, hholds.hash⟩

theorem append_only_chainBlocks :
    Set.InjOn (Block.hash (tableHash chainTable)) {c | c ∈ [] ++ emptyBlock :: [payingBlock]} ∧
    ∀ n, (InMemoryBlockStore.ofBlocks (tableHash chainTable)
        ([] ++ emptyBlock :: [payingBlock].take n)).getByHeight 0 = some emptyBlock ∧
      (InMemoryBlockStore.ofBlocks (tableHash chainTable)
        ([] ++ emptyBlock :: [payingBlock].take n)).getByHash
          (emptyBlock.hash (tableHash chainTable)) = some emptyBlock := by
  have hinj : Set.InjOn (Block.hash (tableHash chainTable))
      {c | c ∈ [] ++ emptyBlock :: [payingBlock]} :=
    List.inj_on_of_nodup_map (by decide +kernel)
  refine ⟨hinj, (append_only_iff (tableHash chainTable) [] emptyBlock [payingBlock] hinj).2 ?_⟩
  intro c hc hheight
  rw [List.mem_singleton.1 hc] at hheight
  exact absurd hheight (by decide)

/-- Another block of height 0. -/
def forkedBlock : Block := ⟨0, GENESIS_PARENT, digestOf 1, []⟩

/-- BLAKE3 on the two blocks of height 0. -/
def forkTable : List (List Byte × Commitment) := [
  (emptyBlock.encoding, emptyBlockHash),
  (forkedBlock.encoding,
    digestOf 0x14f7aee669e34038a7047b0de6edb949c09ff52a53cae2f89e9fcbbd1c6b9cdc)]

/-- The second block of a height takes the place of the first. -/
theorem append_only_forked :
    Set.InjOn (Block.hash (tableHash forkTable)) {c | c ∈ [] ++ emptyBlock :: [forkedBlock]} ∧
    (InMemoryBlockStore.ofBlocks (tableHash forkTable) [emptyBlock]).getByHeight 0 =
      some emptyBlock ∧
    (InMemoryBlockStore.ofBlocks (tableHash forkTable) [emptyBlock, forkedBlock]).getByHeight 0 =
      some forkedBlock ∧
    forkedBlock ≠ emptyBlock :=
  ⟨List.inj_on_of_nodup_map (by decide +kernel), by decide +kernel, by decide +kernel,
    by decide +kernel⟩

end SuwappuDb
