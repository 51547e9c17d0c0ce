import Mathlib.Data.List.TakeWhile
import SuwappuDb.Dag
import SuwappuDb.Lib.Search

/-!
# Searching the DAG store

`find_path` of `crates/suwappudb-state/src/dag.rs` goes along the parent links, first in first out,
notes from where it saw each hash, and stops when it sees the one it looks for. Nothing says that
the links make up a DAG, or that the parents are stored: the search ends because it sees each hash
once.

The `while` loops count their turns, here and in the other searches of the store. An outer `none` is
a loop that has not ended.

* `scan_eq` — the inner loop visits the parents before the target.
* `walkBack_of_trail` — the loop over `parent_map` follows the trail of the search.
* `search_spec` — the outer loop keeps the layers of `Search.Layered`.
* `find_path_shortest` — so a path is found if and only if there is one, and it is a shortest one.
-/

namespace SuwappuDb

namespace Dag

open Search

namespace DagStore

/-- The parents of the block that is stored under the hash, if there is one. -/
def parentsOf (store : DagStore) (hash : BlockHash) : List BlockHash :=
  ((store.get hash).map DagBlock.parentHashes).getD []

/-- All the parents that stored blocks name. -/
def named (store : DagStore) : List BlockHash :=
  store.blocks.entries.flatMap fun p => p.2.parentHashes

theorem mem_parentsOf {store : DagStore} {hash parent : BlockHash} :
    parent ∈ store.parentsOf hash ↔ ∃ b, store.get hash = some b ∧ parent ∈ b.parentHashes := by
  rw [parentsOf]
  cases store.get hash <;> simp

theorem mem_named_of_mem_parentsOf {store : DagStore} {hash parent : BlockHash}
    (h : parent ∈ store.parentsOf hash) : parent ∈ store.named := by
  obtain ⟨b, hget, hparent⟩ := mem_parentsOf.1 h
  exact List.mem_flatMap.2 ⟨(hash, b), OrdMap.mem_entries.2 hget, hparent⟩

/-! ## Paths -/

/-- The variables of `find_path`. -/
structure PathSearch where
  frontier : Frontier BlockHash
  parentMap : OrdMap BlockHash BlockHash := ∅

/-- The body of the inner loop for a parent that is not the target. -/
def PathSearch.visit (st : PathSearch) (current parent : BlockHash) : PathSearch :=
  if parent ∈ st.frontier.visited then st
  else ⟨st.frontier.push parent, st.parentMap.insert parent current⟩

/-- The loop over the parents of `current`. It is left when the target is found. -/
def scan (target current : BlockHash) : List BlockHash → PathSearch → PathSearch × Bool
  | [], st => (st, false)
  | parent :: rest, st =>
      if parent = target then (st, true) else scan target current rest (st.visit current parent)

/-- The loop that goes back over `parent_map`. -/
def walkBack (parentMap : OrdMap BlockHash BlockHash) :
    Nat → BlockHash → List BlockHash → Option (List BlockHash)
  | 0, _, _ => none
  | turns + 1, node, path =>
      match parentMap.get? node with
      | some prev => walkBack parentMap turns prev (path ++ [node])
      | none => some path

/-- The path that is returned when the target is a parent of `current`. Going back sees no hash
twice. -/
def reconstruct (start target current : BlockHash) (st : PathSearch) : Option (List BlockHash) :=
  (walkBack st.parentMap st.frontier.visited.card current [target]).map fun path =>
    (path ++ [start]).reverse

/-- The loop over the queue. -/
def search (store : DagStore) (start target : BlockHash) :
    Nat → PathSearch → Option (Option (List BlockHash))
  | 0, _ => none
  | turns + 1, st =>
      match st.frontier.queue with
      | [] => some none
      | current :: queue =>
          let (st', found) := scan target current (store.parentsOf current)
            { st with frontier := ⟨st.frontier.visited, queue⟩ }
          if found then (reconstruct start target current st').map some
          else search store start target turns st'

/-- `find_path`. A turn for each hash that is named as a parent, one for the start, and the last
look at the queue. -/
def findPath (store : DagStore) (start target : BlockHash) : Option (Option (List BlockHash)) :=
  if start = target then some (some [start])
  else search store start target (store.named.length + 2) ⟨⟨{start}, [start]⟩, ∅⟩

/-! ### One turn -/

theorem visit_frontier (st : PathSearch) (current parent : BlockHash) :
    (st.visit current parent).frontier = st.frontier.push parent := by
  rw [PathSearch.visit]
  split_ifs with h
  · rw [Frontier.push, if_pos h]
  · rfl

theorem get?_visit (st : PathSearch) (current parent b : BlockHash) :
    (st.visit current parent).parentMap.get? b =
      if b = parent ∧ b ∉ st.frontier.visited then some current else st.parentMap.get? b := by
  rw [PathSearch.visit]
  by_cases h : parent ∈ st.frontier.visited
  · rw [if_pos h, if_neg]
    rintro ⟨rfl, hnot⟩
    exact hnot h
  · rw [if_neg h]
    refine (OrdMap.get?_insert _ _ _ _).trans ?_
    by_cases hb : b = parent
    · rw [if_pos hb, if_pos ⟨hb, hb ▸ h⟩]
    · rw [if_neg hb, if_neg fun hnew => hb hnew.1]

/-- The parents that are visited one after another. -/
def visitAll (st : PathSearch) (current : BlockHash) (parents : List BlockHash) : PathSearch :=
  parents.foldl (fun st parent => st.visit current parent) st

theorem visitAll_frontier (st : PathSearch) (current : BlockHash) (parents : List BlockHash) :
    (visitAll st current parents).frontier = st.frontier.pushAll parents := by
  induction parents generalizing st with
  | nil => rfl
  | cons parent rest ih =>
      have hcons : visitAll st current (parent :: rest) =
          visitAll (st.visit current parent) current rest := rfl
      rw [hcons, ih, visit_frontier]
      rfl

theorem get?_visitAll (st : PathSearch) (current : BlockHash) (parents : List BlockHash)
    (b : BlockHash) : (visitAll st current parents).parentMap.get? b =
      if b ∈ parents ∧ b ∉ st.frontier.visited then some current else st.parentMap.get? b := by
  induction parents generalizing st with
  | nil => simp [visitAll]
  | cons parent rest ih =>
      have hcons : visitAll st current (parent :: rest) =
          visitAll (st.visit current parent) current rest := rfl
      have hvisited : b ∈ (st.visit current parent).frontier.visited ↔
          b ∈ st.frontier.visited ∨ b = parent := by
        rw [visit_frontier]
        exact (Frontier.mem_visited_pushAll (l := [parent])).trans (by simp)
      rw [hcons, ih, get?_visit]
      by_cases hseen : b ∈ st.frontier.visited
      · simp [hvisited, hseen]
      · by_cases hb : b = parent
        · subst hb
          simp [hvisited, hseen]
        · simp [hvisited, hseen, hb]

/-- The inner loop visits the parents before the target. -/
theorem scan_eq (target current : BlockHash) (parents : List BlockHash) (st : PathSearch) :
    scan target current parents st =
      (visitAll st current (parents.takeWhile fun parent => parent ≠ target),
        decide (target ∈ parents)) := by
  induction parents generalizing st with
  | nil => rfl
  | cons parent rest ih =>
      rw [scan]
      by_cases h : parent = target
      · rw [if_pos h]
        simp [h, visitAll]
      · rw [if_neg h, ih]
        simp [h, Ne.symm h, visitAll]

/-- Going back follows the trail to its end. -/
theorem walkBack_of_trail {parentMap : OrdMap BlockHash BlockHash} {start node : BlockHash}
    {l : List BlockHash} (h : Trail parentMap.get? start node l)
    (hstart : parentMap.get? start = none) {turns : Nat} (hturns : l.length < turns)
    (path : List BlockHash) : walkBack parentMap turns node path = some (path ++ l) := by
  induction h generalizing turns path with
  | nil =>
      cases turns with
      | zero => cases hturns
      | succ turns => rw [walkBack, hstart, List.append_nil]
  | cons hpred _ ih =>
      cases turns with
      | zero => cases hturns
      | succ turns =>
          rw [List.length_cons] at hturns
          rw [walkBack, hpred]
          refine (ih (by omega) _).trans ?_
          rw [List.append_assoc, List.singleton_append]

/-! ### The search -/

/-- What `find_path` is to return: a path if there is one, without repetition and with no more
hashes than any other. -/
structure IsShortest (store : DagStore) (start target : BlockHash)
    (found : Option (List BlockHash)) : Prop where
  isSome_iff : found.isSome ↔ Relation.ReflTransGen (Link store.parentsOf) start target
  path : ∀ path ∈ found, IsPath store.parentsOf start target path ∧ path.Nodup ∧
    ∀ path', IsPath store.parentsOf start target path' → path.length ≤ path'.length

/-- The hashes that a search from `start` can see. -/
def hashes (store : DagStore) (start : BlockHash) : Finset BlockHash :=
  insert start store.named.toFinset

theorem mem_hashes {store : DagStore} {start hash : BlockHash} (h : hash ∈ store.named) :
    hash ∈ store.hashes start :=
  Finset.mem_insert_of_mem (List.mem_toFinset.2 h)

section Search

variable {store : DagStore} {start target current : BlockHash} {visited : Finset BlockHash}
  {queue done : List BlockHash} {parentMap : OrdMap BlockHash BlockHash} {depth : BlockHash → ℕ}

/-- The target is a parent of the hash that is looked at. -/
theorem reconstruct_spec
    (h : Layered store.parentsOf start done ⟨visited, current :: queue⟩ parentMap.get? depth)
    (htarget : target ∉ visited) (hlink : target ∈ store.parentsOf current)
    (seen : List BlockHash) :
    ∃ path, reconstruct start target current
        (visitAll ⟨⟨visited, queue⟩, parentMap⟩ current seen) = some path ∧
      IsShortest store start target (some path) := by
  obtain ⟨l, htrail, hmem, hlength, hpath, hnodup, hshortest⟩ := h.shortest htarget hlink
  -- What the inner loop has noted before it found the target is about new hashes.
  have hold : ∀ b ∈ visited,
      (visitAll ⟨⟨visited, queue⟩, parentMap⟩ current seen).parentMap.get? b =
        parentMap.get? b := by
    intro b hb
    rw [get?_visitAll, if_neg fun hnew => hnew.2 hb]
  have hcard : visited.card ≤
      (visitAll ⟨⟨visited, queue⟩, parentMap⟩ current seen).frontier.visited.card := by
    rw [visitAll_frontier]
    exact Finset.card_le_card fun b hb => Frontier.mem_visited_pushAll.2 (.inl hb)
  have hback := walkBack_of_trail (htrail.congr fun b hb => hold b (hmem b hb))
    ((hold start h.root_mem).trans h.root_pred) (hlength.trans_le hcard) [target]
  refine ⟨start :: l.reverse ++ [target], ?_, ?_, ?_⟩
  · rw [reconstruct, hback]
    simp
  · exact iff_of_true rfl hpath.reaches
  · intro path hsame
    obtain rfl := Option.some.inj hsame
    exact ⟨hpath, hnodup, hshortest⟩

/-- A turn of the outer loop. -/
theorem search_cons (turns : Nat) :
    search store start target (turns + 1) ⟨⟨visited, current :: queue⟩, parentMap⟩ =
      if target ∈ store.parentsOf current then
        (reconstruct start target current (visitAll ⟨⟨visited, queue⟩, parentMap⟩ current
          ((store.parentsOf current).takeWhile fun parent => parent ≠ target))).map some
      else search store start target turns
        (visitAll ⟨⟨visited, queue⟩, parentMap⟩ current (store.parentsOf current)) := by
  have hscan := scan_eq target current (store.parentsOf current) ⟨⟨visited, queue⟩, parentMap⟩
  simp only [search, hscan, decide_eq_true_eq]
  split_ifs with hlink
  · rfl
  · rw [List.takeWhile_eq_self_iff.2]
    intro parent hparent
    exact decide_eq_true fun heq => hlink (heq ▸ hparent)

theorem search_spec {turns : Nat} {st : PathSearch}
    (h : Layered store.parentsOf start done st.frontier st.parentMap.get? depth)
    (htarget : target ∉ st.frontier.visited)
    (hturns : st.frontier.room (store.hashes start) < turns) :
    ∃ found, search store start target turns st = some found ∧
      IsShortest store start target found := by
  induction turns generalizing st done depth with
  | zero => cases hturns
  | succ turns ih =>
      obtain ⟨⟨visited, queue⟩, parentMap⟩ := st
      cases queue with
      | nil =>
          refine ⟨none, rfl, iff_of_false nofun fun hreach => ?_, nofun⟩
          exact htarget (h.mem_of_reaches h.root_mem hreach)
      | cons current queue =>
          rw [search_cons]
          split_ifs with hlink
          · obtain ⟨path, heq, hshortest⟩ := reconstruct_spec h htarget hlink
              ((store.parentsOf current).takeWhile fun parent => parent ≠ target)
            rw [heq]
            exact ⟨some path, rfl, hshortest⟩
          · have hfrontier := visitAll_frontier ⟨⟨visited, queue⟩, parentMap⟩ current
              (store.parentsOf current)
            have hget := get?_visitAll ⟨⟨visited, queue⟩, parentMap⟩ current
              (store.parentsOf current)
            have hnext := h.step (fun b hb => (hget b).trans (if_neg fun hnew => hnew.2 hb))
              fun b hb hnew => (hget b).trans (if_pos ⟨hb, hnew⟩)
            have hroom : Frontier.room (store.hashes start)
                (Frontier.pushAll ⟨visited, queue⟩ (store.parentsOf current)) ≤
                Frontier.room (store.hashes start) ⟨visited, queue⟩ :=
              Frontier.room_pushAll fun b hb => mem_hashes (mem_named_of_mem_parentsOf hb)
            rw [← hfrontier] at hnext hroom
            refine ih hnext ?_ ?_
            · rw [hfrontier, Frontier.mem_visited_pushAll]
              exact fun hseen => hseen.elim htarget hlink
            · have hpop : Frontier.room (store.hashes start) ⟨visited, current :: queue⟩ =
                  Frontier.room (store.hashes start) ⟨visited, queue⟩ + 1 := rfl
              have hturns' : Frontier.room (store.hashes start) ⟨visited, current :: queue⟩ <
                turns + 1 := hturns
              omega

end Search

theorem isShortest_self (store : DagStore) (start : BlockHash) :
    IsShortest store start start (some [start]) where
  isSome_iff := iff_of_true rfl .refl
  path path hsame := by
    obtain rfl := Option.some.inj hsame
    refine ⟨.singleton _ start, List.nodup_singleton start, fun path' hpath' => ?_⟩
    cases path' with
    | nil => cases hpath'.head
    | cons => exact Nat.le_add_left 1 _

end DagStore

open DagStore in
/-- `find_path` ends on every store, whatever its links, and returns a path if and only if the
target can be reached along the parent links. The path goes from the start to the target, repeats no
hash, and none is shorter. -/
theorem find_path_shortest (store : DagStore) (start target : BlockHash) :
    ∃ found, store.findPath start target = some found ∧ IsShortest store start target found := by
  rw [findPath]
  split_ifs with heq
  · subst heq
    exact ⟨_, rfl, isShortest_self store start⟩
  · refine search_spec (Layered.init store.parentsOf start) ?_ ?_
    · exact fun hmem => heq (Finset.mem_singleton.1 hmem).symm
    · have hcard : (store.hashes start \ {start}).card ≤ store.named.length := by
        refine (Finset.card_le_card ?_).trans (List.toFinset_card_le store.named)
        rw [hashes, Finset.insert_sdiff_of_mem _ (Finset.mem_singleton_self start)]
        exact Finset.sdiff_subset
      show (store.hashes start \ {start}).card + 1 < store.named.length + 2
      omega

end Dag

end SuwappuDb
