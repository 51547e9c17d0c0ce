import SuwappuDb.DagSearch

/-!
# Ancestors, descendants and tips

`ancestors_of` and `descendants_of` of `crates/suwappudb-state/src/dag.rs` are one loop over two
kinds of links: the parents that stored blocks name, and the index of children that the puts have
built up. The loop lists what can be reached along the links (`closure_spec`). The index mirrors the
parents if the puts do not contradict each other, so then the two lists are dual, and they and the
tips depend on what has been put and not on the order (`closures_exact`).
-/

namespace SuwappuDb

namespace Dag

open Search

namespace DagStore

def contains (store : DagStore) (hash : BlockHash) : Bool := (store.get hash).isSome

/-- All the children in the index. -/
def indexed (store : DagStore) : List BlockHash := store.children.entries.flatMap Prod.snd

/-- The loop over the queue of a closure. -/
def drain (next : BlockHash → List BlockHash) :
    Nat → Frontier BlockHash → List BlockHash → Option (List BlockHash)
  | 0, _, _ => none
  | turns + 1, ⟨visited, queue⟩, out =>
      match queue with
      | [] => some out
      | current :: queue =>
          drain next turns (Frontier.pushAll ⟨visited, queue⟩ (next current)) (out ++ [current])

/-- The links of `start` are queued first, and `start` itself is not visited by that. A turn for
each of the names there are, and the last look at the queue. -/
def closure (next : BlockHash → List BlockHash) (names : List BlockHash) (start : BlockHash) :
    Option (List BlockHash) :=
  drain next (names.length + 1) (Frontier.pushAll ⟨∅, []⟩ (next start)) []

def ancestorsOf (store : DagStore) (start : BlockHash) : Option (List BlockHash) :=
  closure store.parentsOf store.named start

def descendantsOf (store : DagStore) (start : BlockHash) : Option (List BlockHash) :=
  closure store.childrenOf store.indexed start

/-- The stored hashes without children. -/
def tips (store : DagStore) : List BlockHash :=
  (store.blocks.entries.map Prod.fst).filter fun hash => (store.childrenOf hash).isEmpty

/-! ## The loop -/

section Loop

variable {next : BlockHash → List BlockHash} {names roots out : List BlockHash}

theorem drain_spec (hnames : ∀ a, ∀ b ∈ next a, b ∈ names) {turns : Nat}
    {f : Frontier BlockHash} (h : Explores next roots out f)
    (hturns : f.room names.toFinset < turns) :
    ∃ l, drain next turns f out = some l ∧ l.Nodup ∧
      ∀ b, b ∈ l ↔ ∃ r ∈ roots, Relation.ReflTransGen (Link next) r b := by
  induction turns generalizing f out with
  | zero => cases hturns
  | succ turns ih =>
      obtain ⟨visited, queue⟩ := f
      cases queue with
      | nil => exact ⟨out, rfl, by simpa using h.nodup, fun b => h.mem_iff⟩
      | cons current queue =>
          have hroom : Frontier.room names.toFinset
              (Frontier.pushAll ⟨visited, queue⟩ (next current)) ≤
              Frontier.room names.toFinset ⟨visited, queue⟩ :=
            Frontier.room_pushAll fun b hb => List.mem_toFinset.2 (hnames current b hb)
          have hpop : Frontier.room names.toFinset ⟨visited, current :: queue⟩ =
              Frontier.room names.toFinset ⟨visited, queue⟩ + 1 := rfl
          exact ih h.step (by omega)

/-- The loop ends, and has listed what can be reached along one link or more. -/
theorem closure_spec (hnames : ∀ a, ∀ b ∈ next a, b ∈ names) (start : BlockHash) :
    ∃ l, closure next names start = some l ∧ l.Nodup ∧
      ∀ b, b ∈ l ↔ Relation.TransGen (Link next) start b := by
  have hroom : Frontier.room names.toFinset (Frontier.pushAll ⟨∅, []⟩ (next start)) ≤
      names.toFinset.card := by
    refine (Frontier.room_pushAll fun b hb => List.mem_toFinset.2 (hnames start b hb)).trans ?_
    simp [Frontier.room]
  have hturns := Nat.lt_succ_of_le (hroom.trans (List.toFinset_card_le names))
  obtain ⟨l, heq, hnodup, hmem⟩ := drain_spec hnames (Explores.init next (next start)) hturns
  refine ⟨l, heq, hnodup, fun b => (hmem b).trans ?_⟩
  rw [Relation.TransGen.head'_iff]
  rfl

end Loop

/-! ## The closures of a store -/

theorem mem_indexed_of_mem_childrenOf {store : DagStore} {parent child : BlockHash}
    (h : child ∈ store.childrenOf parent) : child ∈ store.indexed := by
  rw [childrenOf] at h
  cases hget : store.children.get? parent with
  | none =>
      rw [hget] at h
      cases h
  | some children =>
      rw [hget] at h
      exact List.mem_flatMap.2 ⟨(parent, children), OrdMap.mem_entries.2 hget, h⟩

theorem exists_ancestors (store : DagStore) (x : BlockHash) :
    ∃ l, store.ancestorsOf x = some l ∧ l.Nodup ∧
      ∀ y, y ∈ l ↔ Relation.TransGen (Link store.parentsOf) x y :=
  closure_spec (fun _ _ => mem_named_of_mem_parentsOf) x

/-- Only a stored block has parents. -/
theorem contains_of_reaches {store : DagStore} {x y : BlockHash}
    (h : Relation.TransGen (Link store.parentsOf) x y) : store.contains x := by
  obtain ⟨z, hlink, -⟩ := Relation.TransGen.head'_iff.1 h
  obtain ⟨b, hget, -⟩ := mem_parentsOf.1 hlink
  rw [contains, hget]
  rfl

/-- The index of a store in which it mirrors the parents. -/
def Mirrors (store : DagStore) : Prop :=
  ∀ p c, c ∈ store.childrenOf p ↔ p ∈ store.parentsOf c

theorem exists_descendants {store : DagStore} (hmirror : store.Mirrors) (y : BlockHash) :
    ∃ l, store.descendantsOf y = some l ∧ l.Nodup ∧
      ∀ x, x ∈ l ↔ store.contains x ∧ Relation.TransGen (Link store.parentsOf) x y := by
  have hnames : ∀ p, ∀ c ∈ store.childrenOf p, c ∈ store.indexed :=
    fun _ _ => mem_indexed_of_mem_childrenOf
  obtain ⟨l, heq, hnodup, hmem⟩ := closure_spec hnames y
  have hswap : Link store.childrenOf = Function.swap (Link store.parentsOf) := by
    funext p c
    exact propext (hmirror p c)
  refine ⟨l, heq, hnodup, fun x => (hmem x).trans ?_⟩
  rw [hswap, Relation.transGen_swap]
  exact (and_iff_right_of_imp contains_of_reaches).symm

theorem mem_tips {store : DagStore} {t : BlockHash} :
    t ∈ store.tips ↔ store.contains t ∧ ∀ c, c ∉ store.childrenOf t := by
  rw [tips, List.mem_filter, OrdMap.mem_keys, List.isEmpty_iff, List.eq_nil_iff_forall_not_mem]
  rfl

/-! ## Puts that do not contradict each other -/

/-- No hash is put with two different blocks. -/
def Consistent (puts : List (BlockHash × DagBlock)) : Prop :=
  ∀ p ∈ puts, ∀ q ∈ puts, p.1 = q.1 → p.2 = q.2

instance (puts : List (BlockHash × DagBlock)) : Decidable (Consistent puts) :=
  inferInstanceAs (Decidable (∀ p ∈ puts, ∀ q ∈ puts, p.1 = q.1 → p.2 = q.2))

section Consistent

variable {puts puts' : List (BlockHash × DagBlock)}

theorem Consistent.perm (h : Consistent puts) (hperm : puts'.Perm puts) : Consistent puts' :=
  fun p hp q hq => h p (hperm.mem_iff.1 hp) q (hperm.mem_iff.1 hq)

theorem get_ofPuts_iff (h : Consistent puts) {c : BlockHash} {b : DagBlock} :
    (ofPuts puts).get c = some b ↔ (c, b) ∈ puts := by
  rw [get_ofPuts]
  constructor
  · exact OrdMap.mem_of_lastAt
  · intro hput
    obtain ⟨last, hlast⟩ := OrdMap.exists_lastAt hput
    have hsame : last = b := h _ (OrdMap.mem_of_lastAt hlast) _ hput rfl
    rw [hlast, hsame]

theorem mem_parentsOf_ofPuts (h : Consistent puts) {c p : BlockHash} :
    p ∈ (ofPuts puts).parentsOf c ↔ ∃ b, (c, b) ∈ puts ∧ p ∈ b.parentHashes := by
  rw [mem_parentsOf]
  simp only [get_ofPuts_iff h]

theorem mirrors_ofPuts (h : Consistent puts) : (ofPuts puts).Mirrors := by
  intro p c
  rw [mem_childrenOf_ofPuts, mem_parentsOf_ofPuts h]

/-- The order of the puts does not show in the blocks, the links and the tips. -/
theorem contains_perm (h : Consistent puts) (hperm : puts'.Perm puts) (c : BlockHash) :
    (ofPuts puts').contains c ↔ (ofPuts puts).contains c := by
  simp only [contains, Option.isSome_iff_exists, get_ofPuts_iff h, get_ofPuts_iff (h.perm hperm),
    hperm.mem_iff]

theorem link_perm (h : Consistent puts) (hperm : puts'.Perm puts) :
    Link (ofPuts puts').parentsOf = Link (ofPuts puts).parentsOf := by
  funext c p
  refine propext ?_
  rw [Link, Link, mem_parentsOf_ofPuts h, mem_parentsOf_ofPuts (h.perm hperm)]
  simp only [hperm.mem_iff]

theorem mem_tips_perm (h : Consistent puts) (hperm : puts'.Perm puts) (t : BlockHash) :
    t ∈ (ofPuts puts').tips ↔ t ∈ (ofPuts puts).tips := by
  rw [mem_tips, mem_tips, contains_perm h hperm]
  simp only [mem_childrenOf_ofPuts, hperm.mem_iff]

end Consistent

/-- The two closures of a store, for every hash: the one lists without repetition what can be
reached along one parent link or more, the other the stored blocks it can be reached from. -/
structure Closures (store : DagStore) (ancestors descendants : BlockHash → List BlockHash) :
    Prop where
  ancestorsOf : ∀ x, store.ancestorsOf x = some (ancestors x)
  descendantsOf : ∀ x, store.descendantsOf x = some (descendants x)
  nodup_ancestors : ∀ x, (ancestors x).Nodup
  nodup_descendants : ∀ x, (descendants x).Nodup
  mem_ancestors : ∀ x y, y ∈ ancestors x ↔ Relation.TransGen (Link store.parentsOf) x y
  mem_descendants : ∀ x y, x ∈ descendants y ↔
    store.contains x ∧ Relation.TransGen (Link store.parentsOf) x y

theorem exists_closures {store : DagStore} (hmirror : store.Mirrors) :
    ∃ ancestors descendants, Closures store ancestors descendants := by
  choose ancestors hanc hnodup hmem using exists_ancestors store
  choose descendants hdesc hnodup' hmem' using exists_descendants hmirror
  exact ⟨ancestors, descendants, hanc, hdesc, hnodup, hnodup', hmem, fun x y => hmem' y x⟩

theorem Closures.dual {store : DagStore} {ancestors descendants : BlockHash → List BlockHash}
    (h : Closures store ancestors descendants) (x y : BlockHash) :
    y ∈ ancestors x ↔ x ∈ descendants y := by
  rw [h.mem_ancestors, h.mem_descendants]
  exact (and_iff_right_of_imp contains_of_reaches).symm

end DagStore

open DagStore in
/-- After puts that bind no hash to two blocks, in any links, the two closures are exact and dual to
each other. They and the tips are the same sets after the puts in any other order. -/
theorem closures_exact (puts : List (BlockHash × DagBlock)) (hputs : Consistent puts) :
    ∃ ancestors descendants, Closures (ofPuts puts) ancestors descendants ∧
      (∀ x y, y ∈ ancestors x ↔ x ∈ descendants y) ∧
      ∀ puts', puts'.Perm puts →
        (∃ ancestors' descendants', Closures (ofPuts puts') ancestors' descendants' ∧
          ∀ x y, (y ∈ ancestors' x ↔ y ∈ ancestors x) ∧
            (y ∈ descendants' x ↔ y ∈ descendants x)) ∧
        ∀ t, t ∈ (ofPuts puts').tips ↔ t ∈ (ofPuts puts).tips := by
  obtain ⟨ancestors, descendants, h⟩ := exists_closures (mirrors_ofPuts hputs)
  refine ⟨ancestors, descendants, h, h.dual, fun puts' hperm => ⟨?_, mem_tips_perm hputs hperm⟩⟩
  obtain ⟨ancestors', descendants', h'⟩ := exists_closures (mirrors_ofPuts (hputs.perm hperm))
  refine ⟨ancestors', descendants', h', fun x y => ⟨?_, ?_⟩⟩
  · rw [h'.mem_ancestors, h.mem_ancestors, link_perm hputs hperm]
  · rw [h'.mem_descendants, h.mem_descendants, link_perm hputs hperm, contains_perm hputs hperm]

/-- A block, two blocks on top of it, and one on top of both, put from the top down. -/
def diamondPuts : List (BlockHash × DagBlock) := [
  (constBytes 32 3, ⟨2, constBytes 32 0, [constBytes 32 1, constBytes 32 2], 1002⟩),
  (constBytes 32 2, ⟨1, constBytes 32 0, [constBytes 32 0], 1001⟩),
  (constBytes 32 1, ⟨1, constBytes 32 0, [constBytes 32 0], 1001⟩),
  (constBytes 32 0, ⟨0, constBytes 32 0, [], 1000⟩)]

theorem closures_exact_diamond :
    DagStore.Consistent diamondPuts ∧
    (DagStore.ofPuts diamondPuts).ancestorsOf (constBytes 32 3) =
      some [constBytes 32 1, constBytes 32 2, constBytes 32 0] ∧
    ∃ descendants, (DagStore.ofPuts diamondPuts).descendantsOf (constBytes 32 0) =
      some descendants ∧ constBytes 32 3 ∈ descendants := by
  have hconsistent : DagStore.Consistent diamondPuts := by decide +kernel
  have hancestors : (DagStore.ofPuts diamondPuts).ancestorsOf (constBytes 32 3) =
      some [constBytes 32 1, constBytes 32 2, constBytes 32 0] := by decide +kernel
  refine ⟨hconsistent, hancestors, ?_⟩
  obtain ⟨ancestors, descendants, h, hdual, -⟩ := closures_exact diamondPuts hconsistent
  refine ⟨_, h.descendantsOf (constBytes 32 0), (hdual _ _).1 ?_⟩
  have heq := (h.ancestorsOf (constBytes 32 3)).symm.trans hancestors
  rw [Option.some.inj heq]
  decide +kernel

end Dag

end SuwappuDb
