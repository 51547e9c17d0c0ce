import SuwappuDb.DagClosure

/-!
# Validating the DAG

`validate` of `crates/suwappudb-state/src/dag.rs`. It compares every stored block with the parents
it names, and then searches for cycles with a recursive function that carries two sets through all
its calls: what has been visited, and what is on the stack.

The search is exact in every store (`hasCycleFrom_exact`). All on the stack leads to where the
search is, so that a link back to it closes a cycle; what has left the stack is on no cycle; and the
search ends because it is called once for each hash (`searches_dfsCycle`).

The comparisons alone decide (`validate_exact`): where they pass, the heights fall along every link,
so that there is no cycle to be found.

A validated store is covered by its tips (`tips_cover`): going up from a block leads to a tip,
because the heights are bounded.
-/

namespace SuwappuDb

namespace Dag

open Search

namespace DagStore

/-! ## The checks -/

/-- `hex::encode`. -/
def hexEncode (bytes : List Byte) : String :=
  String.ofList (bytes.flatMap fun b => [Nat.digitChar (b.val / 16), Nat.digitChar (b.val % 16)])

/-- The debug text of the first four bytes of a hash in hexadecimal. -/
def debugHash (hash : BlockHash) : String := "\"" ++ hexEncode (hash.val.take 4) ++ "\""

/-- The checks of a block against one of the parents it names. -/
def checkParent (store : DagStore) (hash : BlockHash) (block : DagBlock) (parentHash : BlockHash) :
    Except String Unit :=
  match store.get parentHash with
  | none => .error ("Block " ++ debugHash hash ++ " references non-existent parent " ++
      debugHash parentHash)
  | some parent =>
      if parent.height ≥ block.height then
        .error ("Block height " ++ toString block.height.val ++ " must be > parent height " ++
          toString parent.height.val)
      else .ok ()

/-- The first loop of `validate`. -/
def checkParents (store : DagStore) : Except String Unit :=
  store.blocks.entries.forM fun p => p.2.parentHashes.forM (store.checkParent p.1 p.2)

/-- The two sets of the search for cycles. -/
structure Marks where
  visited : Finset BlockHash := ∅
  recStack : Finset BlockHash := ∅

/-- The loop of `dfs_cycle` over the parents, around the recursive call. -/
def scanParents (visit : BlockHash → Marks → Option (Bool × Marks)) :
    List BlockHash → Marks → Option (Bool × Marks)
  | [], m => some (false, m)
  | parent :: rest, m =>
      if parent ∉ m.visited then do
        let (found, m') ← visit parent m
        if found then some (true, m') else scanParents visit rest m'
      else if parent ∈ m.recStack then some (true, m)
      else scanParents visit rest m

/-- `dfs_cycle`. `none` is a recursion that goes deeper than the given depth. -/
def dfsCycle (store : DagStore) : Nat → BlockHash → Marks → Option (Bool × Marks)
  | 0, _, _ => none
  | depth + 1, node, m => do
      let (found, m') ← scanParents (dfsCycle store depth) (store.parentsOf node)
        ⟨insert node m.visited, insert node m.recStack⟩
      if found then some (true, m') else some (false, ⟨m'.visited, m'.recStack.erase node⟩)

/-- `has_cycle_from`. The recursion goes no deeper than there are hashes. -/
def hasCycleFrom (store : DagStore) (start : BlockHash) : Option Bool :=
  (store.dfsCycle (store.named.length + 1) start {}).map Prod.fst

/-- The second loop of `validate`. -/
def checkCycles (store : DagStore) : List BlockHash → Option (Except String Unit)
  | [] => some (.ok ())
  | start :: rest => do
      if ← store.hasCycleFrom start then
        some (.error ("Cycle detected from block " ++ debugHash start))
      else checkCycles store rest

def validate (store : DagStore) : Option (Except String Unit) :=
  match store.checkParents with
  | .error e => some (.error e)
  | .ok () => store.checkCycles (store.blocks.entries.map Prod.fst)

/-! ## Links that go down -/

/-- Every parent that a stored block names is stored, at a smaller height. -/
def Ordered (store : DagStore) : Prop :=
  ∀ hash block, store.get hash = some block → ∀ p ∈ block.parentHashes,
    ∃ parent, store.get p = some parent ∧ parent.height < block.height

/-- A loop of checks passes if each of them does. -/
theorem forM_eq_ok {α : Type} (check : α → Except String Unit) (l : List α) :
    l.forM check = .ok () ↔ ∀ a ∈ l, check a = .ok () := by
  induction l with
  | nil => exact iff_of_true rfl (by simp)
  | cons a l ih =>
      have hcons : (a :: l).forM check = check a >>= fun _ => l.forM check := rfl
      rw [hcons, List.forall_mem_cons, ← ih]
      cases check a <;> simp [bind, Except.bind]

theorem checkParent_eq_ok {store : DagStore} {hash parentHash : BlockHash} {block : DagBlock} :
    store.checkParent hash block parentHash = .ok () ↔
      ∃ parent, store.get parentHash = some parent ∧ parent.height < block.height := by
  rw [checkParent]
  cases store.get parentHash <;> simp

theorem checkParents_eq_ok {store : DagStore} : store.checkParents = .ok () ↔ store.Ordered := by
  simp only [checkParents, forM_eq_ok, checkParent_eq_ok]
  constructor
  · intro h hash block hget
    exact h (hash, block) (OrdMap.mem_entries.2 hget)
  · intro h p hp
    exact h p.1 p.2 (OrdMap.mem_entries.1 hp)

def heightOf (store : DagStore) (hash : BlockHash) : Nat :=
  ((store.get hash).map fun b => b.height.val).getD 0

theorem Ordered.heightOf_lt {store : DagStore} (h : store.Ordered) {x y : BlockHash}
    (hlink : y ∈ store.parentsOf x) : store.heightOf y < store.heightOf x := by
  obtain ⟨block, hget, hparent⟩ := mem_parentsOf.1 hlink
  obtain ⟨parent, hget', hlt⟩ := h x block hget y hparent
  rw [heightOf, heightOf, hget, hget']
  exact hlt

/-- An ancestor is lower. -/
theorem Ordered.heightOf_lt_of_reaches {store : DagStore} (h : store.Ordered) {x y : BlockHash}
    (hreach : Relation.TransGen (Link store.parentsOf) x y) :
    store.heightOf y < store.heightOf x := by
  induction hreach with
  | single hlink => exact h.heightOf_lt hlink
  | tail _ hlink ih => exact (h.heightOf_lt hlink).trans ih

theorem Ordered.not_cycle {store : DagStore} (h : store.Ordered) (x : BlockHash) :
    ¬ Relation.TransGen (Link store.parentsOf) x x :=
  fun hcycle => lt_irrefl _ (h.heightOf_lt_of_reaches hcycle)

/-! ## Where the search can come to -/

theorem card_hashes_le (store : DagStore) (start : BlockHash) :
    (store.hashes start).card ≤ store.named.length + 1 :=
  (Finset.card_insert_le _ _).trans (Nat.succ_le_succ (List.toFinset_card_le _))

theorem parent_mem_hashes {store : DagStore} {start : BlockHash} :
    ∀ a, ∀ b ∈ store.parentsOf a, b ∈ store.hashes start :=
  fun _ _ hb => mem_hashes (mem_named_of_mem_parentsOf hb)

/-! ## The search -/

/-- What a search from `node` may come back with. Either there is a cycle to be found, or the stack
is as it was and all that is in `seen` is finished. -/
def Decides (next : BlockHash → List BlockHash) (node : BlockHash) (m : Marks)
    (seen : List BlockHash) (result : Option (Bool × Marks)) : Prop :=
  (∃ m', result = some (true, m') ∧ ReachesCycle next node) ∨
  ∃ visited, result = some (false, ⟨visited, m.recStack⟩) ∧ m.visited ⊆ visited ∧
    Finished next visited m.recStack ∧ ∀ p ∈ seen, p ∈ visited \ m.recStack

/-- A search that decides from every new node that all on the stack lead to, if it may go deep
enough. -/
def Searches (U : Finset BlockHash) (next : BlockHash → List BlockHash) (depth : Nat)
    (visit : BlockHash → Marks → Option (Bool × Marks)) : Prop :=
  ∀ node m, node ∈ U → node ∉ m.visited → (U \ m.visited).card ≤ depth →
    Finished next m.visited m.recStack →
    (∀ r ∈ m.recStack, Relation.ReflTransGen (Link next) r node) →
    Decides next node m [node] (visit node m)

section Searches

variable {U : Finset BlockHash} {next : BlockHash → List BlockHash} {depth : Nat}

theorem scanParents_decides {visit : BlockHash → Marks → Option (Bool × Marks)}
    (hvisit : Searches U next depth visit) {node : BlockHash} {parents : List BlockHash} {m : Marks}
    (hlinks : ∀ p ∈ parents, p ∈ next node) (hU : ∀ p ∈ parents, p ∈ U)
    (hdepth : (U \ m.visited).card ≤ depth) (hfin : Finished next m.visited m.recStack)
    (hstack : ∀ r ∈ m.recStack, Relation.ReflTransGen (Link next) r node) :
    Decides next node m parents (scanParents visit parents m) := by
  induction parents generalizing m with
  | nil => exact .inr ⟨m.visited, rfl, subset_rfl, hfin, by simp⟩
  | cons p rest ih =>
      obtain ⟨hlink, hlinks⟩ := List.forall_mem_cons.1 hlinks
      obtain ⟨hp, hU⟩ := List.forall_mem_cons.1 hU
      by_cases hseen : p ∈ m.visited
      · by_cases hback : p ∈ m.recStack
        · refine .inl ⟨m, ?_, .of_back hlink (hstack p hback)⟩
          rw [scanParents, if_neg (not_not.2 hseen), if_pos hback]
        · rw [scanParents, if_neg (not_not.2 hseen), if_neg hback]
          rcases ih hlinks hU hdepth hfin hstack with hfound | ⟨visited, heq, hsub, hfin', hall⟩
          · exact .inl hfound
          · have hdone := Finset.mem_sdiff.2 ⟨hsub hseen, hback⟩
            exact .inr ⟨visited, heq, hsub, hfin', List.forall_mem_cons.2 ⟨hdone, hall⟩⟩
      · rw [scanParents, if_pos hseen]
        rcases hvisit p m hp hseen hdepth hfin fun r hr => (hstack r hr).tail hlink with
          ⟨m', heq, hcycle⟩ | ⟨visited, heq, hsub, hfin', hdone⟩
        · exact .inl ⟨m', by rw [heq]; rfl, hcycle.head hlink⟩
        · have hdepth' : (U \ visited).card ≤ depth :=
            (Finset.card_le_card (Finset.sdiff_subset_sdiff subset_rfl hsub)).trans hdepth
          rw [heq]
          rcases ih (m := ⟨visited, m.recStack⟩) hlinks hU hdepth' hfin' hstack with
            hfound | ⟨visited', heq', hsub', hfin'', hall⟩
          · exact .inl hfound
          · -- What was finished before the rest of the loop stays so.
            have hp' := Finset.sdiff_subset_sdiff hsub' subset_rfl (hdone p List.mem_cons_self)
            exact .inr ⟨visited', heq', hsub.trans hsub', hfin'',
              List.forall_mem_cons.2 ⟨hp', hall⟩⟩

theorem searches_dfsCycle {store : DagStore} (hU : ∀ a, ∀ b ∈ store.parentsOf a, b ∈ U)
    (depth : Nat) : Searches U store.parentsOf depth (store.dfsCycle depth) := by
  induction depth with
  | zero =>
      intro node m hnode hnew hdepth
      exact absurd hdepth (not_card_sdiff_le_zero hnode hnew)
  | succ depth ih =>
      intro node m hnode hnew hdepth hfin hstack
      -- The node is on the stack now, and counts as visited.
      have hcard : (U \ insert node m.visited).card ≤ depth :=
        card_sdiff_insert_le hnode hnew hdepth
      have hstack' : ∀ r ∈ insert node m.recStack,
          Relation.ReflTransGen (Link store.parentsOf) r node := by
        intro r hr
        rcases Finset.mem_insert.1 hr with rfl | hr
        · exact .refl
        · exact hstack r hr
      rw [dfsCycle]
      rcases scanParents_decides ih (m := ⟨insert node m.visited, insert node m.recStack⟩)
          (fun _ hp => hp) (hU node) hcard (hfin.enter hnew) hstack' with
        ⟨m', heq, hcycle⟩ | ⟨visited, heq, hsub, hfin', hall⟩
      · exact .inl ⟨m', by rw [heq]; rfl, hcycle⟩
      · have hnot : node ∉ m.recStack := fun hr => hnew (hfin.sub hr)
        have hleft := hfin'.leave (Finset.mem_insert_self node m.recStack) hall
        rw [Finset.erase_insert hnot] at hleft
        refine .inr ⟨visited, ?_, (Finset.subset_insert _ _).trans hsub, hleft, ?_⟩
        · rw [heq]
          show some (false, (⟨visited, (insert node m.recStack).erase node⟩ : Marks)) = _
          rw [Finset.erase_insert hnot]
        · intro p hp
          rw [List.mem_singleton.1 hp]
          exact Finset.mem_sdiff.2 ⟨hsub (Finset.mem_insert_self _ _), hnot⟩

end Searches

theorem exists_hasCycleFrom (store : DagStore) (start : BlockHash) :
    ∃ found, store.hasCycleFrom start = some found ∧
      (found = true ↔ ReachesCycle store.parentsOf start) := by
  rw [hasCycleFrom]
  rcases searches_dfsCycle parent_mem_hashes (store.named.length + 1) start {}
      (Finset.mem_insert_self _ _) (Finset.notMem_empty _)
      (by simpa using card_hashes_le store start) (.init _) (by simp) with
    ⟨m, heq, hcycle⟩ | ⟨visited, heq, -, hfin, hdone⟩
  · exact ⟨true, by rw [heq]; rfl, iff_of_true rfl hcycle⟩
  · have hnone := hfin.not_reachesCycle (hdone start List.mem_cons_self)
    exact ⟨false, by rw [heq]; rfl, iff_of_false Bool.false_ne_true hnone⟩

/-- A link between two stored blocks. -/
def StoredLink (store : DagStore) (a b : BlockHash) : Prop :=
  store.contains a ∧ store.contains b ∧ b ∈ store.parentsOf a

/-- A cycle of links runs among stored blocks, since each of its hashes names a parent. -/
theorem storedLink_of_cycle {store : DagStore} {x : BlockHash}
    (h : Relation.TransGen (Link store.parentsOf) x x) :
    Relation.TransGen store.StoredLink x x := by
  -- Along the way back to `x` every hash has still to come to `x`.
  have hway : ∀ a, Relation.TransGen (Link store.parentsOf) a x →
      Relation.TransGen store.StoredLink a x := by
    intro a hreach
    induction hreach using Relation.TransGen.head_induction_on with
    | single hlink =>
        exact .single ⟨contains_of_reaches (.single hlink), contains_of_reaches h, hlink⟩
    | head hlink hrest ih =>
        exact .head ⟨contains_of_reaches (.single hlink), contains_of_reaches hrest, hlink⟩ ih
  exact hway x h

theorem cycle_of_storedLink {store : DagStore} {x : BlockHash}
    (h : Relation.TransGen store.StoredLink x x) : Relation.TransGen (Link store.parentsOf) x x :=
  Relation.TransGen.mono (r := store.StoredLink) (fun _ _ hlink => hlink.2.2) x x h

end DagStore

open DagStore in
/-- The search for cycles ends on every store and from every hash. It reports a cycle if and only if
the hash or one of its ancestors lies on a cycle of parent links among stored blocks. -/
theorem hasCycleFrom_exact (store : DagStore) (start : BlockHash) :
    ∃ found, store.hasCycleFrom start = some found ∧
      (found = true ↔ ∃ x, Relation.ReflTransGen (Link store.parentsOf) start x ∧
        Relation.TransGen store.StoredLink x x) := by
  obtain ⟨found, heq, hiff⟩ := exists_hasCycleFrom store start
  refine ⟨found, heq, hiff.trans ⟨?_, ?_⟩⟩
  · intro h
    obtain ⟨x, hreach, hcycle⟩ := h
    exact ⟨x, hreach, storedLink_of_cycle hcycle⟩
  · intro h
    obtain ⟨x, hreach, hcycle⟩ := h
    exact ⟨x, hreach, cycle_of_storedLink hcycle⟩

namespace DagStore

/-! ## Validation -/

theorem Ordered.hasCycleFrom {store : DagStore} (h : store.Ordered) (start : BlockHash) :
    store.hasCycleFrom start = some false := by
  obtain ⟨found, heq, hiff⟩ := exists_hasCycleFrom store start
  cases found with
  | false => exact heq
  | true =>
      obtain ⟨x, -, hcycle⟩ := hiff.1 rfl
      exact absurd hcycle (h.not_cycle x)

theorem Ordered.checkCycles {store : DagStore} (h : store.Ordered) (l : List BlockHash) :
    store.checkCycles l = some (.ok ()) := by
  induction l with
  | nil => rfl
  | cons start rest ih =>
      rw [DagStore.checkCycles, h.hasCycleFrom]
      exact ih

theorem validate_eq_ok {store : DagStore} :
    store.validate = some (.ok ()) ↔ store.Ordered := by
  rw [← checkParents_eq_ok, validate]
  cases hparents : store.checkParents with
  | error e => simp
  | ok u => exact iff_of_true ((checkParents_eq_ok.1 hparents).checkCycles _) rfl

end DagStore

open DagStore in
/-- Validation ends on every store, and succeeds if and only if every parent that a stored block
names is stored, at a smaller height. The search for cycles finds none then, from any hash, and
there is none. -/
theorem validate_exact (store : DagStore) :
    (∃ verdict, store.validate = some verdict) ∧
    (store.validate = some (.ok ()) ↔
      ∀ hash block, store.get hash = some block → ∀ p ∈ block.parentHashes,
        ∃ parent, store.get p = some parent ∧ parent.height < block.height) ∧
    (store.checkParents = .ok () → ∀ start, store.hasCycleFrom start = some false) ∧
    (store.validate = some (.ok ()) → ∀ x, ¬ Relation.TransGen (Link store.parentsOf) x x) := by
  refine ⟨?_, validate_eq_ok, fun h => (checkParents_eq_ok.1 h).hasCycleFrom,
    fun h => (validate_eq_ok.1 h).not_cycle⟩
  cases hparents : store.checkParents with
  | error e => exact ⟨.error e, by rw [validate, hparents]⟩
  | ok u => exact ⟨.ok (), validate_eq_ok.2 (checkParents_eq_ok.1 hparents)⟩

/-! ## Tips -/

namespace DagStore

theorem heightOf_lt_two_pow (store : DagStore) (hash : BlockHash) :
    store.heightOf hash < 2 ^ 64 := by
  rw [heightOf]
  cases store.get hash with
  | none => decide
  | some b => exact b.height.isLt

/-- Going up from a stored block, from child to child, leads to a tip. -/
theorem exists_tip {store : DagStore} (hmirror : store.Mirrors) (hordered : store.Ordered)
    {x : BlockHash} (hx : store.contains x) :
    ∃ t ∈ store.tips, Relation.ReflTransGen (Link store.parentsOf) t x := by
  -- The heights grow on the way, and stay below `2 ^ 64`.
  induction hn : 2 ^ 64 - store.heightOf x using Nat.strong_induction_on generalizing x with
  | _ n ih =>
      by_cases htip : x ∈ store.tips
      · exact ⟨x, htip, .refl⟩
      · have hchild : ∃ c, c ∈ store.childrenOf x := by
          by_contra hnone
          exact htip (mem_tips.2 ⟨hx, fun c hc => hnone ⟨c, hc⟩⟩)
        obtain ⟨c, hc⟩ := hchild
        have hlink : x ∈ store.parentsOf c := (hmirror x c).1 hc
        have hlt := hordered.heightOf_lt hlink
        have hbound := store.heightOf_lt_two_pow c
        obtain ⟨t, ht, hreach⟩ :=
          ih (2 ^ 64 - store.heightOf c) (by omega) (contains_of_reaches (.single hlink)) rfl
        exact ⟨t, ht, hreach.tail hlink⟩

/-- Nothing names a tip as its parent. -/
theorem not_reaches_tip {store : DagStore} (hmirror : store.Mirrors) {t : BlockHash}
    (ht : t ∈ store.tips) (x : BlockHash) : ¬ Relation.TransGen (Link store.parentsOf) x t := by
  intro hreach
  obtain ⟨z, -, hlink⟩ := Relation.TransGen.tail'_iff.1 hreach
  exact (mem_tips.1 ht).2 z ((hmirror t z).2 hlink)

end DagStore

open DagStore in
/-- In a store that validates, after puts that bind no hash to two blocks, every stored block is a
tip or an ancestor of one, and no tip is an ancestor of a stored block. -/
theorem tips_cover (puts : List (BlockHash × DagBlock)) (hputs : Consistent puts)
    (hvalid : (ofPuts puts).validate = some (.ok ())) :
    (∀ x, (ofPuts puts).contains x → x ∈ (ofPuts puts).tips ∨
      ∃ t ∈ (ofPuts puts).tips, ∃ ancestors, (ofPuts puts).ancestorsOf t = some ancestors ∧
        x ∈ ancestors) ∧
    ∀ t ∈ (ofPuts puts).tips, ∀ x, (ofPuts puts).contains x →
      ∃ ancestors, (ofPuts puts).ancestorsOf x = some ancestors ∧ t ∉ ancestors := by
  have hmirror := mirrors_ofPuts hputs
  constructor
  · intro x hx
    obtain ⟨t, ht, hreach⟩ := exists_tip hmirror (validate_eq_ok.1 hvalid) hx
    rcases Relation.reflTransGen_iff_eq_or_transGen.1 hreach with rfl | hreach
    · exact .inl ht
    · obtain ⟨ancestors, heq, -, hmem⟩ := exists_ancestors (ofPuts puts) t
      exact .inr ⟨t, ht, ancestors, heq, (hmem x).2 hreach⟩
  · intro t ht x _
    obtain ⟨ancestors, heq, -, hmem⟩ := exists_ancestors (ofPuts puts) x
    exact ⟨ancestors, heq, fun hanc => not_reaches_tip hmirror ht x ((hmem t).1 hanc)⟩

theorem tips_cover_diamond :
    DagStore.Consistent diamondPuts ∧
    (DagStore.ofPuts diamondPuts).validate = some (.ok ()) ∧
    (DagStore.ofPuts diamondPuts).tips = [constBytes 32 3] ∧
    ∃ ancestors, (DagStore.ofPuts diamondPuts).ancestorsOf (constBytes 32 3) = some ancestors ∧
      constBytes 32 0 ∈ ancestors := by
  have hconsistent : DagStore.Consistent diamondPuts := by decide +kernel
  have hvalid : (DagStore.ofPuts diamondPuts).validate = some (.ok ()) := by decide +kernel
  have htips : (DagStore.ofPuts diamondPuts).tips = [constBytes 32 3] := by decide +kernel
  refine ⟨hconsistent, hvalid, htips, ?_⟩
  have hcover := (tips_cover diamondPuts hconsistent hvalid).1 (constBytes 32 0) (by decide +kernel)
  rw [htips] at hcover
  rcases hcover with htip | ⟨t, ht, ancestors, heq, hmem⟩
  · exact absurd htip (by decide +kernel)
  · rw [List.mem_singleton.1 ht] at heq
    exact ⟨ancestors, heq, hmem⟩

end Dag

end SuwappuDb
