import SuwappuDb.DagValidate

/-!
# The order of the DAG

`crates/suwappudb-state/src/dag.rs`: the two orders a store has. One is by links: `ancestors_of` and
`descendants_of` promise their blocks in breadth-first order from where they start. The other is by
height, which `blocks_at_height` and `max_height_block` look at.

* `drain_spreads` — the loop of the two closures is a search that lists nearest first
  (`Search.Spreads`), on any graph.
* `closures_in_order` — so both list their blocks by distance, in any store.
* `maxByKey_eq_some` — `max_by_key` keeps the last of the greatest elements; a store's blocks come
  in the order of their hashes.
* `heights_in_order` — in a store that validates, heights fall along every path, so blocks of one
  height are not ancestors of each other, and the block of greatest height is a tip.
-/

namespace SuwappuDb

open Search

namespace Dag

namespace DagStore

/-! ## By distance -/

section Loop

variable {next : BlockHash → List BlockHash} {roots out : List BlockHash}

/-- A loop that ends has looked at everything it queued. -/
theorem drain_spreads {turns : Nat} {f : Frontier BlockHash} {depth : BlockHash → ℕ}
    (h : Spreads next roots out f depth) {l : List BlockHash}
    (hl : drain next turns f out = some l) :
    ∃ visited depth', Spreads next roots l ⟨visited, []⟩ depth' := by
  induction turns generalizing f out depth with
  | zero => cases hl
  | succ turns ih =>
      obtain ⟨visited, queue⟩ := f
      cases queue with
      | nil =>
          obtain rfl : out = l := Option.some.inj hl
          exact ⟨visited, depth, h⟩
      | cons current queue => exact ih h.step hl

/-- Along one link or more, no path from `start` to `b` is shorter than all of those to `a`. -/
def NotFarther (next : BlockHash → List BlockHash) (start a b : BlockHash) : Prop :=
  ∀ path, IsPath next start b path → 2 ≤ path.length →
    ∃ path', IsPath next start a path' ∧ 2 ≤ path'.length ∧ path'.length ≤ path.length

theorem closure_in_order {names : List BlockHash} {start : BlockHash} {l : List BlockHash}
    (hl : closure next names start = some l) : l.Pairwise (NotFarther next start) := by
  obtain ⟨visited, depth, h⟩ := drain_spreads (Spreads.init next (next start)) hl
  refine h.nearest_first.imp fun {a b} hnear path hpath hlong => ?_
  -- The path leaves `start` to one of the roots of the search.
  cases path with
  | nil => cases hpath.head
  | cons x path =>
      obtain rfl : x = start := Option.some.inj hpath.head
      cases path with
      | nil => simp at hlong
      | cons r path =>
          obtain ⟨hlink, htail⟩ := hpath.tail
          obtain ⟨r', hr', path', hpath', hle⟩ := hnear r hlink _ htail
          refine ⟨x :: path', .cons hr' hpath', ?_, Nat.succ_le_succ hle⟩
          cases path' with
          | nil => cases hpath'.head
          | cons y path' => simp

end Loop

end DagStore

open DagStore in
/-- The closures come in breadth-first order: in any store and from any hash, what `ancestors_of`
lists earlier is not farther along parent links than what it lists later, and the same holds of
`descendants_of` and the index of children. -/
theorem closures_in_order (store : DagStore) (x : BlockHash) :
    (∃ l, store.ancestorsOf x = some l ∧ l.Pairwise (NotFarther store.parentsOf x)) ∧
    ∃ l, store.descendantsOf x = some l ∧ l.Pairwise (NotFarther store.childrenOf x) := by
  obtain ⟨l, hl, -, -⟩ := exists_ancestors store x
  have hnames : ∀ a, ∀ b ∈ store.childrenOf a, b ∈ store.indexed :=
    fun _ _ hc => mem_indexed_of_mem_childrenOf hc
  obtain ⟨l', hl', -, -⟩ := closure_spec hnames x
  exact ⟨⟨l, hl, closure_in_order hl⟩, l', hl', closure_in_order hl'⟩

/-! ## By height -/

/-- `Iterator::max_by_key`. Of several greatest elements it is the last. -/
def maxByKey {α κ : Type*} [LE κ] [DecidableLE κ] (key : α → κ) (l : List α) : Option α :=
  l.foldl (fun best a =>
    match best with
    | none => some a
    | some b => if key b ≤ key a then some a else some b) none

namespace DagStore

def blocksAtHeight (store : DagStore) (height : U64) : List (BlockHash × DagBlock) :=
  store.blocks.entries.filter fun p => p.2.height = height

def maxHeightBlock (store : DagStore) : Option (BlockHash × DagBlock) :=
  maxByKey (fun p => p.2.height) store.blocks.entries

end DagStore

section MaxByKey

variable {α κ : Type*} [LinearOrder κ] {key : α → κ}

theorem maxByKey_concat (l : List α) (a : α) :
    maxByKey key (l ++ [a]) = match maxByKey key l with
      | none => some a
      | some b => if key b ≤ key a then some a else some b := by
  rw [maxByKey, List.foldl_append]
  rfl

theorem maxByKey_eq_none {l : List α} : maxByKey key l = none ↔ l = [] := by
  cases l using List.reverseRecOn with
  | nil => exact iff_of_true rfl rfl
  | append_singleton l a =>
      rw [maxByKey_concat]
      refine iff_of_false ?_ (by simp)
      cases maxByKey key l with
      | none => simp
      | some b => by_cases hle : key b ≤ key a <;> simp [hle]

/-- What comes after it is smaller. -/
theorem maxByKey_eq_some {l : List α} {m : α} (h : maxByKey key l = some m) :
    ∃ before after, l = before ++ m :: after ∧ (∀ a ∈ before, key a ≤ key m) ∧
      ∀ a ∈ after, key a < key m := by
  induction l using List.reverseRecOn generalizing m with
  | nil => cases h
  | append_singleton l a ih =>
      rw [maxByKey_concat] at h
      cases hbest : maxByKey key l with
      | none =>
          obtain rfl := maxByKey_eq_none.1 hbest
          obtain rfl : a = m := by simpa [hbest] using h
          exact ⟨[], [], rfl, by simp, by simp⟩
      | some b =>
          rw [hbest] at h
          obtain ⟨before, after, rfl, hbefore, hafter⟩ := ih hbest
          by_cases hle : key b ≤ key a
          · obtain rfl : a = m := by simpa [hle] using h
            refine ⟨before ++ b :: after, [], by simp, fun c hc => ?_, by simp⟩
            rcases List.mem_append.1 hc with hc | hc
            · exact (hbefore c hc).trans hle
            · rcases List.mem_cons.1 hc with rfl | hc
              · exact hle
              · exact (hafter c hc).le.trans hle
          · obtain rfl : b = m := by simpa [hle] using h
            refine ⟨before, after ++ [a], by simp, hbefore, fun c hc => ?_⟩
            rcases List.mem_append.1 hc with hc | hc
            · exact hafter c hc
            · rw [List.mem_singleton.1 hc]
              exact not_le.1 hle

end MaxByKey

namespace DagStore

variable {store : DagStore}

/-- Heights fall along a path, so it has no more links than the difference. -/
theorem Ordered.path_falls (h : store.Ordered) {x y : BlockHash} {path : List BlockHash}
    (hpath : IsPath store.parentsOf x y path) :
    path.IsChain (fun a b => store.heightOf b < store.heightOf a) ∧
      path.length + store.heightOf y ≤ store.heightOf x + 1 := by
  refine ⟨hpath.chain.imp fun a b hlink => h.heightOf_lt hlink, ?_⟩
  induction path generalizing x with
  | nil => cases hpath.head
  | cons z l ih =>
      obtain rfl : z = x := Option.some.inj hpath.head
      cases l with
      | nil =>
          obtain rfl : z = y := Option.some.inj hpath.last
          simp [Nat.add_comm]
      | cons w l =>
          obtain ⟨hlink, htail⟩ := hpath.tail
          have hrest := ih htail
          have hlt := h.heightOf_lt hlink
          rw [List.length_cons]
          omega

theorem heightOf_of_get {hash : BlockHash} {block : DagBlock} (h : store.get hash = some block) :
    store.heightOf hash = block.height.val := by
  rw [heightOf, h]
  rfl

/-- The block of greatest height, and among those the one with the greatest hash. -/
theorem maxHeightBlock_spec {hash : BlockHash} {block : DagBlock}
    (h : store.maxHeightBlock = some (hash, block)) :
    store.get hash = some block ∧ ∀ hash' block', store.get hash' = some block' →
      block'.height < block.height ∨ block'.height = block.height ∧ hash' ≤ hash := by
  obtain ⟨before, after, heq, hbefore, hafter⟩ := maxByKey_eq_some h
  have hsorted := store.blocks.sorted
  rw [heq] at hsorted
  refine ⟨OrdMap.mem_entries.1 (heq ▸ by simp), fun hash' block' hget => ?_⟩
  have hmem : (hash', block') ∈ store.blocks.entries := OrdMap.mem_entries.2 hget
  rw [heq] at hmem
  rcases List.mem_append.1 hmem with hmem | hmem
  · -- Before it in the order of the hashes, and not higher.
    have hlt : hash' < hash := (List.pairwise_append.1 hsorted).2.2 _ hmem _ List.mem_cons_self
    rcases (hbefore _ hmem).lt_or_eq with hlower | hsame
    · exact .inl hlower
    · exact .inr ⟨hsame, hlt.le⟩
  · rcases List.mem_cons.1 hmem with hsame | hmem
    · obtain ⟨rfl, rfl⟩ := Prod.mk.inj hsame
      exact .inr ⟨rfl, le_rfl⟩
    · exact .inl (hafter _ hmem)

end DagStore

open DagStore in
/-- What heights say in a store that validates, after puts that bind no hash to two blocks. Along
every path of parent links the heights fall, so that a path has no more links than the difference of
the heights at its ends. No block is an ancestor of one of the same height. There is a block of
greatest height if there is a block; it is a tip, and of all blocks of its height it is the one with
the greatest hash. -/
theorem heights_in_order (puts : List (BlockHash × DagBlock)) (hputs : Consistent puts)
    (hvalid : (ofPuts puts).validate = some (.ok ())) :
    (∀ x y path, IsPath (ofPuts puts).parentsOf x y path →
      path.IsChain (fun a b => (ofPuts puts).heightOf b < (ofPuts puts).heightOf a) ∧
      path.length + (ofPuts puts).heightOf y ≤ (ofPuts puts).heightOf x + 1) ∧
    (∀ height, ∀ p ∈ (ofPuts puts).blocksAtHeight height,
      ∀ q ∈ (ofPuts puts).blocksAtHeight height,
        ∃ ancestors, (ofPuts puts).ancestorsOf p.1 = some ancestors ∧ q.1 ∉ ancestors) ∧
    ((ofPuts puts).maxHeightBlock = none ↔ puts = []) ∧
    ∀ hash block, (ofPuts puts).maxHeightBlock = some (hash, block) →
      hash ∈ (ofPuts puts).tips ∧ ∀ hash' block', (ofPuts puts).get hash' = some block' →
        block'.height < block.height ∨ block'.height = block.height ∧ hash' ≤ hash := by
  have hordered := validate_eq_ok.1 hvalid
  refine ⟨fun x y path hpath => hordered.path_falls hpath, fun height p hp q hq => ?_, ?_,
    fun hash block hmax => ?_⟩
  · obtain ⟨ancestors, hl, -, hmem⟩ := exists_ancestors (ofPuts puts) p.1
    refine ⟨ancestors, hl, fun hanc => ?_⟩
    have hlt := hordered.heightOf_lt_of_reaches ((hmem q.1).1 hanc)
    obtain ⟨hp, hheight⟩ := List.mem_filter.1 hp
    obtain ⟨hq, hheight'⟩ := List.mem_filter.1 hq
    rw [heightOf_of_get (OrdMap.mem_entries.1 hp), heightOf_of_get (OrdMap.mem_entries.1 hq),
      of_decide_eq_true hheight, of_decide_eq_true hheight'] at hlt
    exact absurd hlt (lt_irrefl _)
  · rw [maxHeightBlock, maxByKey_eq_none, OrdMap.entries_eq_nil]
    refine ⟨fun hnone => ?_, fun hnil => by rw [hnil]; intro k; rfl⟩
    by_contra hne
    obtain ⟨p, hp⟩ := List.exists_mem_of_ne_nil puts hne
    obtain ⟨b, hb⟩ := OrdMap.exists_lastAt (k := p.1) (v := p.2) hp
    rw [← get_ofPuts, DagStore.get, hnone] at hb
    cases hb
  · obtain ⟨hget, hgreatest⟩ := maxHeightBlock_spec hmax
    refine ⟨mem_tips.2 ⟨by rw [contains, hget]; rfl, fun c hc => ?_⟩, hgreatest⟩
    -- A child would be higher.
    obtain ⟨b, hb, hlink⟩ := mem_parentsOf.1 ((mirrors_ofPuts hputs hash c).1 hc)
    obtain ⟨parent, hparent, hlt⟩ := hordered c b hb hash hlink
    cases hget.symm.trans hparent
    rcases hgreatest c b hb with hlower | hsame
    · exact absurd (hlower.trans hlt) (lt_irrefl _)
    · exact absurd (hsame.1 ▸ hlt) (lt_irrefl _)

theorem heights_in_order_diamond :
    DagStore.Consistent diamondPuts ∧ (DagStore.ofPuts diamondPuts).validate = some (.ok ()) ∧
    ((DagStore.ofPuts diamondPuts).maxHeightBlock).map Prod.fst = some (constBytes 32 3) ∧
    constBytes 32 3 ∈ (DagStore.ofPuts diamondPuts).tips := by
  have hconsistent : DagStore.Consistent diamondPuts := by decide +kernel
  have hvalid : (DagStore.ofPuts diamondPuts).validate = some (.ok ()) := by decide +kernel
  have hmax : (DagStore.ofPuts diamondPuts).maxHeightBlock = some (constBytes 32 3,
      ⟨2, constBytes 32 0, [constBytes 32 1, constBytes 32 2], 1002⟩) := by decide +kernel
  refine ⟨hconsistent, hvalid, by rw [hmax]; rfl, ?_⟩
  exact ((heights_in_order diamondPuts hconsistent hvalid).2.2.2 _ _ hmax).1

end Dag

end SuwappuDb
