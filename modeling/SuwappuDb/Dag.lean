import SuwappuDb.State

/-!
# The DAG store

`crates/suwappudb-state/src/dag.rs`: blocks by hash, and an index of the children of each block. A
put writes to both. The index only grows: a hash is a child of every block that some block put under
it has named as a parent (`mem_childrenOf_ofPuts`), while the store keeps the last block put under
the hash. The index mirrors the parent links of the stored blocks exactly when no parent is dropped
by a later put (`children_mirror_iff`).
-/

namespace SuwappuDb

namespace Dag

/-- A 32-byte block hash. -/
abbrev BlockHash := ByteArr 32

structure DagBlock where
  height : U64
  stateRoot : ByteArr 32
  parentHashes : List BlockHash
  timestamp : U64
  deriving DecidableEq

structure DagStore where
  blocks : OrdMap BlockHash DagBlock := ∅
  /-- The hashes of the blocks that name a hash as a parent. -/
  children : OrdMap BlockHash (List BlockHash) := ∅

namespace DagStore

/-- One turn of the loop of `put`: `hash` is appended to the children of `parent`, if it is not
there. -/
def addChild (hash : BlockHash) (children : OrdMap BlockHash (List BlockHash))
    (parent : BlockHash) : OrdMap BlockHash (List BlockHash) :=
  let entry := (children.get? parent).getD []
  children.insert parent (if hash ∈ entry then entry else entry ++ [hash])

def put (store : DagStore) (hash : BlockHash) (block : DagBlock) : DagStore where
  blocks := store.blocks.insert hash block
  children := block.parentHashes.foldl (addChild hash) store.children

def get (store : DagStore) (hash : BlockHash) : Option DagBlock := store.blocks.get? hash

def childrenOf (store : DagStore) (parent : BlockHash) : List BlockHash :=
  (store.children.get? parent).getD []

/-- A store filled by puts. -/
def ofPuts (puts : List (BlockHash × DagBlock)) : DagStore :=
  puts.foldl (fun store q => store.put q.1 q.2) {}

/-! ## One put -/

section Put

variable {hash parent p c : BlockHash} {children : OrdMap BlockHash (List BlockHash)}

theorem get?_addChild (hash : BlockHash) (children : OrdMap BlockHash (List BlockHash))
    (parent p : BlockHash) : ((addChild hash children parent).get? p).getD [] =
      if p = parent ∧ hash ∉ (children.get? p).getD [] then (children.get? p).getD [] ++ [hash]
      else (children.get? p).getD [] := by
  rw [addChild, OrdMap.get?_insert]
  by_cases hp : p = parent
  · subst hp
    by_cases hmem : hash ∈ (children.get? p).getD []
    · rw [if_pos rfl, if_pos hmem, if_neg fun h => h.2 hmem, Option.getD_some]
    · rw [if_pos rfl, if_neg hmem, if_pos ⟨rfl, hmem⟩, Option.getD_some]
  · rw [if_neg hp, if_neg fun h => hp h.1]

theorem mem_addChild : c ∈ ((addChild hash children parent).get? p).getD [] ↔
    c ∈ (children.get? p).getD [] ∨ c = hash ∧ p = parent := by
  rw [get?_addChild]
  split_ifs with h
  · rw [List.mem_append, List.mem_singleton, and_iff_left h.1]
  · refine ⟨Or.inl, ?_⟩
    rintro (hmem | ⟨rfl, hp⟩)
    · exact hmem
    · by_contra hnot
      exact h ⟨hp, hnot⟩

theorem nodup_addChild (h : ((children.get? p).getD []).Nodup) :
    (((addChild hash children parent).get? p).getD []).Nodup := by
  rw [get?_addChild]
  split_ifs with hnew
  · exact List.nodup_append.2 ⟨h, List.nodup_singleton _, by
      rintro a ha b hb rfl
      exact hnew.2 (List.mem_singleton.1 hb ▸ ha)⟩
  · exact h

theorem mem_foldl_addChild (parents : List BlockHash) :
    c ∈ ((parents.foldl (addChild hash) children).get? p).getD [] ↔
      c ∈ (children.get? p).getD [] ∨ c = hash ∧ p ∈ parents := by
  induction parents generalizing children with
  | nil => simp
  | cons q parents ih =>
      rw [List.foldl_cons, ih, mem_addChild, List.mem_cons, or_assoc, ← and_or_left]

theorem nodup_foldl_addChild (parents : List BlockHash) (h : ((children.get? p).getD []).Nodup) :
    (((parents.foldl (addChild hash) children).get? p).getD []).Nodup := by
  apply List.foldlRecOn (motive := fun m => ((OrdMap.get? m p).getD []).Nodup) parents _ h
  intro m hm q _
  exact nodup_addChild hm

end Put

/-! ## Runs -/

theorem blocks_foldl_put (puts : List (BlockHash × DagBlock)) (store : DagStore) :
    (puts.foldl (fun store q => store.put q.1 q.2) store).blocks = store.blocks.insertAll puts := by
  induction puts generalizing store with
  | nil => rfl
  | cons q puts ih => exact ih (store.put q.1 q.2)

/-- The stored block is the last that was put under its hash. -/
theorem get_ofPuts (puts : List (BlockHash × DagBlock)) (c : BlockHash) :
    (ofPuts puts).get c = OrdMap.lastAt c puts := by
  rw [get, ofPuts, blocks_foldl_put, OrdMap.get?_insertAll_lastAt]
  exact Option.or_none

theorem mem_childrenOf_foldl_put (puts : List (BlockHash × DagBlock)) (store : DagStore)
    (p c : BlockHash) :
    c ∈ (puts.foldl (fun store q => store.put q.1 q.2) store).childrenOf p ↔
      c ∈ store.childrenOf p ∨ ∃ b, (c, b) ∈ puts ∧ p ∈ b.parentHashes := by
  induction puts generalizing store with
  | nil => simp
  | cons q puts ih =>
      have hput : c ∈ (store.put q.1 q.2).childrenOf p ↔
          c ∈ store.childrenOf p ∨ c = q.1 ∧ p ∈ q.2.parentHashes := mem_foldl_addChild _
      rw [List.foldl_cons, ih, hput, or_assoc]
      refine or_congr_right ⟨?_, ?_⟩
      · rintro (⟨rfl, hp⟩ | ⟨b, hb, hp⟩)
        · exact ⟨q.2, List.mem_cons_self, hp⟩
        · exact ⟨b, List.mem_cons_of_mem _ hb, hp⟩
      · rintro ⟨b, hb, hp⟩
        rcases List.mem_cons.1 hb with rfl | hb
        · exact Or.inl ⟨rfl, hp⟩
        · exact Or.inr ⟨b, hb, hp⟩

/-- The children of a hash are all the hashes under which a block was put that names it. -/
theorem mem_childrenOf_ofPuts {puts : List (BlockHash × DagBlock)} {p c : BlockHash} :
    c ∈ (ofPuts puts).childrenOf p ↔ ∃ b, (c, b) ∈ puts ∧ p ∈ b.parentHashes := by
  rw [ofPuts, mem_childrenOf_foldl_put]
  exact or_iff_right List.not_mem_nil

theorem nodup_childrenOf_ofPuts (puts : List (BlockHash × DagBlock)) (p : BlockHash) :
    ((ofPuts puts).childrenOf p).Nodup := by
  have hstart : (({} : DagStore).childrenOf p).Nodup := List.nodup_nil
  unfold ofPuts
  apply List.foldlRecOn (motive := fun store : DagStore => (store.childrenOf p).Nodup) puts _ hstart
  intro store hstore q _
  exact nodup_foldl_addChild q.2.parentHashes hstore

end DagStore

open DagStore in
/-- After any puts, the children of each hash are exactly the stored blocks that name it as a
parent, each once, if and only if every parent that a block has named is still named by the last
block put under the same hash. -/
theorem children_mirror_iff (puts : List (BlockHash × DagBlock)) :
    (∀ p c, (c ∈ (ofPuts puts).childrenOf p ↔
        ∃ b, (ofPuts puts).get c = some b ∧ p ∈ b.parentHashes) ∧
      ((ofPuts puts).childrenOf p).count c ≤ 1) ↔
    ∀ c b last, (c, b) ∈ puts → OrdMap.lastAt c puts = some last →
      ∀ p ∈ b.parentHashes, p ∈ last.parentHashes := by
  simp only [get_ofPuts]
  constructor
  · intro hmirror c b last hput hlast p hp
    obtain ⟨b', hb', hp'⟩ := (hmirror p c).1.1 (mem_childrenOf_ofPuts.2 ⟨b, hput, hp⟩)
    rw [hlast] at hb'
    rwa [Option.some.inj hb']
  · intro hkept p c
    refine ⟨?_, List.nodup_iff_count_le_one.1 (nodup_childrenOf_ofPuts puts p) c⟩
    rw [mem_childrenOf_ofPuts]
    constructor
    · rintro ⟨b, hput, hp⟩
      obtain ⟨last, hlast⟩ := OrdMap.exists_lastAt hput
      exact ⟨last, hlast, hkept c b last hput hlast p hp⟩
    · rintro ⟨last, hlast, hp⟩
      exact ⟨last, OrdMap.mem_of_lastAt hlast, hp⟩

/-- The hash `[1; 32]` is put with the parent `[0; 32]`, and again without a parent. -/
def orphaningPuts : List (BlockHash × DagBlock) := [
  (constBytes 32 1, ⟨1, constBytes 32 0, [constBytes 32 0], 1000⟩),
  (constBytes 32 1, ⟨1, constBytes 32 0, [], 1000⟩)]

/-- The stored block has no parents, and is still a child. -/
theorem children_mirror_orphaned :
    (DagStore.ofPuts orphaningPuts).childrenOf (constBytes 32 0) = [constBytes 32 1] ∧
    (DagStore.ofPuts orphaningPuts).get (constBytes 32 1) =
      some ⟨1, constBytes 32 0, [], 1000⟩ :=
  ⟨by decide +kernel, by decide +kernel⟩

end Dag

end SuwappuDb
