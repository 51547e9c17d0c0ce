import Mathlib.Data.Finset.Card
import Mathlib.Data.List.Chain
import Mathlib.Data.List.Nodup
import Mathlib.Logic.Relation

/-!
# Searching a graph

A graph is given by the list `next a` of what `a` links to. A search keeps what it has seen and a
queue of what it has still to look at (`Frontier`), and sees every element once.

* **Ending.** What is unseen and what is queued get fewer with every element looked at
  (`Frontier.room_pushAll`).
* **Closure** (`Explores`). A search that runs until the queue is empty has listed what can be
  reached from its roots, each element once.
* **Shortest paths** (`Layered`). A search that notes from where it saw each element first sees them
  in layers. The element that is looked at is as near to the root as any in the queue, so a path
  that leads out of what has been seen is longer than the way to it (`Levels.le_length`), and the
  way to it is found by going back (`Noted.exists_trail`). Together these are `Layered.shortest`.
* **Order** (`Spreads`). A search that lists what it looks at lists it nearest first
  (`Spreads.nearest_first`).
* **Cycles** (`Finished`). A depth-first search leaves an element when all it links to has been
  left, and what has been left is on no cycle (`Finished.leave`).

The layers are a function `depth` beside the search, which does not compute it.
-/

namespace Search

variable {α : Type*} {next : α → List α}

/-! ## Paths -/

/-- One link of the graph. -/
def Link (next : α → List α) (a b : α) : Prop := b ∈ next a

/-- A path from `a` to `b`, with both ends. -/
structure IsPath (next : α → List α) (a b : α) (path : List α) : Prop where
  head : path.head? = some a
  last : path.getLast? = some b
  chain : path.IsChain (Link next)

namespace IsPath

variable {a b c : α} {path : List α}

theorem singleton (next : α → List α) (a : α) : IsPath next a a [a] :=
  ⟨rfl, rfl, List.isChain_singleton a⟩

theorem concat (h : IsPath next a b path) (hlink : c ∈ next b) :
    IsPath next a c (path ++ [c]) where
  head := by rw [List.head?_append, h.head, Option.some_or]
  last := List.getLast?_concat
  chain := by
    refine h.chain.append (List.isChain_singleton c) fun x hx y hy => ?_
    rw [h.last] at hx
    cases hx
    cases hy
    exact hlink

theorem cons (hlink : b ∈ next a) (h : IsPath next b c path) : IsPath next a c (a :: path) where
  head := rfl
  last := by rw [List.getLast?_cons, h.last]; rfl
  chain := by
    refine List.isChain_cons.2 ⟨fun x hx => ?_, h.chain⟩
    rw [h.head] at hx
    cases hx
    exact hlink

/-- The path from the second element on. -/
theorem tail {l : List α} (h : IsPath next a b (a :: c :: l)) :
    c ∈ next a ∧ IsPath next c b (c :: l) :=
  ⟨(List.isChain_cons_cons.1 h.chain).1, rfl, by simpa using h.last,
    (List.isChain_cons_cons.1 h.chain).2⟩

theorem reaches (h : IsPath next a b path) : Relation.ReflTransGen (Link next) a b := by
  induction path generalizing a with
  | nil => cases h.head
  | cons x l ih =>
      obtain rfl : x = a := Option.some.inj h.head
      cases l with
      | nil =>
          obtain rfl : x = b := Option.some.inj h.last
          exact .refl
      | cons y l =>
          obtain ⟨hlink, htail⟩ := h.tail
          exact .head hlink (ih htail)

end IsPath

/-! ## The frontier of a search -/

/-- What a search has seen, and what of it it has still to look at. -/
structure Frontier (α : Type*) where
  visited : Finset α
  queue : List α

namespace Frontier

variable [DecidableEq α]

/-- See an element. If it is new, it is queued. -/
def push (f : Frontier α) (a : α) : Frontier α :=
  if a ∈ f.visited then f else ⟨insert a f.visited, f.queue ++ [a]⟩

def pushAll (f : Frontier α) (l : List α) : Frontier α := l.foldl push f

/-- The new elements of a list are queued, each once. -/
theorem exists_pushAll (f : Frontier α) (l : List α) :
    ∃ new : List α, new.Nodup ∧ (∀ a, a ∈ new ↔ a ∈ l ∧ a ∉ f.visited) ∧
      f.pushAll l = ⟨f.visited ∪ new.toFinset, f.queue ++ new⟩ := by
  induction l generalizing f with
  | nil => exact ⟨[], List.nodup_nil, by simp, by simp [pushAll]⟩
  | cons b l ih =>
      have hcons : f.pushAll (b :: l) = (f.push b).pushAll l := rfl
      by_cases hb : b ∈ f.visited
      · obtain ⟨new, hnodup, hmem, heq⟩ := ih f
        refine ⟨new, hnodup, fun a => ?_, ?_⟩
        · rw [hmem, List.mem_cons]
          refine ⟨fun h => ⟨.inr h.1, h.2⟩, fun h => ⟨?_, h.2⟩⟩
          exact h.1.resolve_left fun hab => h.2 (hab ▸ hb)
        · rw [hcons, push, if_pos hb, heq]
      · obtain ⟨new, hnodup, hmem, heq⟩ := ih ⟨insert b f.visited, f.queue ++ [b]⟩
        have hnot : b ∉ new := fun h => ((hmem b).1 h).2 (Finset.mem_insert_self _ _)
        refine ⟨b :: new, List.nodup_cons.2 ⟨hnot, hnodup⟩, fun a => ?_, ?_⟩
        · rw [List.mem_cons, hmem, List.mem_cons, Finset.mem_insert]
          by_cases hab : a = b
          · simp [hab, hb]
          · simp [hab]
        · rw [hcons, push, if_neg hb, heq]
          simp

theorem mem_visited_pushAll {f : Frontier α} {l : List α} {a : α} :
    a ∈ (f.pushAll l).visited ↔ a ∈ f.visited ∨ a ∈ l := by
  obtain ⟨new, -, hmem, heq⟩ := f.exists_pushAll l
  rw [heq, Finset.mem_union, List.mem_toFinset, hmem]
  by_cases ha : a ∈ f.visited <;> simp [ha]

/-- The elements of `U` that are unseen, and those that are queued. -/
def room (U : Finset α) (f : Frontier α) : ℕ := (U \ f.visited).card + f.queue.length

theorem room_pushAll {U : Finset α} {f : Frontier α} {l : List α} (hl : ∀ a ∈ l, a ∈ U) :
    (f.pushAll l).room U ≤ f.room U := by
  obtain ⟨new, hnodup, hmem, heq⟩ := f.exists_pushAll l
  have hsub : new.toFinset ⊆ U \ f.visited := by
    intro a ha
    obtain ⟨hal, hnew⟩ := (hmem a).1 (List.mem_toFinset.1 ha)
    exact Finset.mem_sdiff.2 ⟨hl a hal, hnew⟩
  have hcard := Finset.card_sdiff_add_card_eq_card hsub
  rw [List.toFinset_card_of_nodup hnodup, sdiff_sdiff_left, Finset.sup_eq_union] at hcard
  rw [heq]
  show (U \ (f.visited ∪ new.toFinset)).card + (f.queue ++ new).length ≤ _
  rw [List.length_append, room]
  omega

/-- What has been seen has been looked at, and is then in `done`, or it is queued. -/
structure Tracks (done : List α) (f : Frontier α) : Prop where
  nodup : (done ++ f.queue).Nodup
  mem : ∀ a, a ∈ f.visited ↔ a ∈ done ∨ a ∈ f.queue

namespace Tracks

variable {done : List α} {f : Frontier α} {visited : Finset α} {a : α} {queue : List α}

theorem pushAll (h : Tracks done f) (l : List α) : Tracks done (f.pushAll l) := by
  obtain ⟨new, hnodup, hmem, heq⟩ := f.exists_pushAll l
  rw [heq]
  refine ⟨?_, fun a => ?_⟩
  · show (done ++ (f.queue ++ new)).Nodup
    rw [← List.append_assoc]
    refine h.nodup.append hnodup fun a hold hnew => ((hmem a).1 hnew).2 ?_
    exact (h.mem a).2 (List.mem_append.1 hold)
  · show a ∈ f.visited ∪ new.toFinset ↔ a ∈ done ∨ a ∈ f.queue ++ new
    rw [Finset.mem_union, h.mem, List.mem_toFinset, List.mem_append, or_assoc]

omit [DecidableEq α] in
theorem pop (h : Tracks done ⟨visited, a :: queue⟩) : Tracks (done ++ [a]) ⟨visited, queue⟩ where
  nodup := by simpa using h.nodup
  mem b := by simpa [or_assoc] using h.mem b

end Tracks

end Frontier

/-! ## Closure -/

section Closure

variable [DecidableEq α] {roots out queue : List α} {f : Frontier α} {visited : Finset α} {a b : α}

/-- A search from `roots` that has listed `out`. -/
structure Explores (next : α → List α) (roots out : List α) (f : Frontier α) : Prop
    extends Frontier.Tracks out f where
  sound : ∀ a ∈ f.visited, ∃ r ∈ roots, Relation.ReflTransGen (Link next) r a
  start : ∀ r ∈ roots, r ∈ f.visited
  closed : ∀ a ∈ out, ∀ b ∈ next a, b ∈ f.visited

namespace Explores

theorem init (next : α → List α) (roots : List α) :
    Explores next roots [] (Frontier.pushAll ⟨∅, []⟩ roots) where
  toTracks := Frontier.Tracks.pushAll ⟨List.nodup_nil, by simp⟩ roots
  sound a ha := by
    rcases Frontier.mem_visited_pushAll.1 ha with h | h
    · cases h
    · exact ⟨a, h, .refl⟩
  start r hr := Frontier.mem_visited_pushAll.2 (.inr hr)
  closed a ha := by cases ha

/-- Look at the first element of the queue. -/
theorem step (h : Explores next roots out ⟨visited, a :: queue⟩) :
    Explores next roots (out ++ [a]) (Frontier.pushAll ⟨visited, queue⟩ (next a)) where
  toTracks := h.toTracks.pop.pushAll (next a)
  sound b hb := by
    rcases Frontier.mem_visited_pushAll.1 hb with hb | hb
    · exact h.sound b hb
    · obtain ⟨r, hr, hreach⟩ := h.sound a ((h.mem a).2 (.inr List.mem_cons_self))
      exact ⟨r, hr, hreach.tail hb⟩
  start r hr := Frontier.mem_visited_pushAll.2 (.inl (h.start r hr))
  closed b hb c hc := by
    rw [Frontier.mem_visited_pushAll]
    rcases List.mem_append.1 hb with hb | hb
    · exact .inl (h.closed b hb c hc)
    · rw [List.mem_singleton.1 hb] at hc
      exact .inr hc

omit [DecidableEq α] in
/-- With nothing left in the queue, what can be reached is listed. -/
theorem mem_iff (h : Explores next roots out ⟨visited, []⟩) :
    b ∈ out ↔ ∃ r ∈ roots, Relation.ReflTransGen (Link next) r b := by
  have hout : ∀ a, a ∈ visited ↔ a ∈ out := by simpa using h.mem
  constructor
  · intro hb
    exact h.sound b ((hout b).2 hb)
  · rintro ⟨r, hr, hreach⟩
    induction hreach with
    | refl => exact (hout r).1 (h.start r hr)
    | tail _ hlink ih => exact (hout _).1 (h.closed _ ih _ hlink)

end Explores

end Closure

/-! ## Layers -/

section Layers

variable {root target : α} {done queue path : List α} {visited visited' : Finset α}
  {f : Frontier α} {pred pred' : α → Option α} {depth : α → ℕ} {a : α}

/-- The elements that are new when `a` is looked at are one layer below it. -/
def deepen [DecidableEq α] (visited : Finset α) (depth : α → ℕ) (a b : α) : ℕ :=
  if b ∈ visited then depth b else depth a + 1

/-- The queue holds two layers at most, the nearer one first, and what has been looked at is not
below them. -/
structure Levels (next : α → List α) (done : List α) (f : Frontier α) (depth : α → ℕ) : Prop
    extends Frontier.Tracks done f where
  closed : ∀ a ∈ done, ∀ b ∈ next a, b ∈ f.visited ∧ depth b ≤ depth a + 1
  nearer : ∀ a ∈ done, ∀ b ∈ f.queue, depth a ≤ depth b
  sorted : f.queue.Pairwise fun a b => depth a ≤ depth b
  band : ∀ a ∈ f.queue, ∀ b ∈ f.queue, depth b ≤ depth a + 1

namespace Levels

/-- An element that a queued one links to is one layer below it at most, if it has been seen. -/
theorem depth_le (h : Levels next done f depth) {b : α} (ha : a ∈ f.queue) (hb : b ∈ f.visited) :
    depth b ≤ depth a + 1 := by
  rcases (h.mem b).1 hb with hdone | hqueued
  · exact (h.nearer b hdone a ha).trans (Nat.le_succ _)
  · exact h.band a ha b hqueued

theorem step [DecidableEq α] (h : Levels next done ⟨visited, a :: queue⟩ depth) :
    Levels next (done ++ [a]) (Frontier.pushAll ⟨visited, queue⟩ (next a))
      (deepen visited depth a) := by
  obtain ⟨new, hnodup, hmem, heq⟩ := Frontier.exists_pushAll ⟨visited, queue⟩ (next a)
  have ha : a ∈ visited := (h.mem a).2 (.inr List.mem_cons_self)
  have hqueued : ∀ b ∈ queue, b ∈ visited := fun b hb => (h.mem b).2 (.inr (.tail _ hb))
  have hdone : ∀ b ∈ done, b ∈ visited := fun b hb => (h.mem b).2 (.inl hb)
  have hold : ∀ b ∈ visited, deepen visited depth a b = depth b := fun b hb => if_pos hb
  have hnew : ∀ b ∈ new, deepen visited depth a b = depth a + 1 :=
    fun b hb => if_neg ((hmem b).1 hb).2
  -- The new queue is in the layer of `a` and the one below.
  have hrange : ∀ b ∈ queue ++ new,
      depth a ≤ deepen visited depth a b ∧ deepen visited depth a b ≤ depth a + 1 := by
    intro b hb
    rcases List.mem_append.1 hb with hb | hb
    · rw [hold b (hqueued b hb)]
      exact ⟨(List.pairwise_cons.1 h.sorted).1 b hb, h.band a List.mem_cons_self b (.tail _ hb)⟩
    · rw [hnew b hb]
      omega
  have htracks := h.toTracks.pop.pushAll (next a)
  have hseen : ∀ b, b ∈ (Frontier.pushAll ⟨visited, queue⟩ (next a)).visited ↔
      b ∈ visited ∨ b ∈ next a := fun b => Frontier.mem_visited_pushAll
  rw [heq] at htracks hseen ⊢
  refine ⟨htracks, ?_, ?_, ?_, ?_⟩
  · intro b hb c hc
    rw [hseen]
    rcases List.mem_append.1 hb with hb | hb
    · obtain ⟨hc, hdepth⟩ := h.closed b hb c hc
      rw [hold c hc, hold b (hdone b hb)]
      exact ⟨.inl hc, hdepth⟩
    · rw [List.mem_singleton.1 hb] at hc ⊢
      refine ⟨.inr hc, ?_⟩
      by_cases hc' : c ∈ visited
      · rw [hold a ha, hold c hc']
        exact h.depth_le List.mem_cons_self hc'
      · rw [hold a ha, hnew c ((hmem c).2 ⟨hc, hc'⟩)]
  · intro b hb c hc
    refine le_trans ?_ (hrange c hc).1
    rcases List.mem_append.1 hb with hb | hb
    · rw [hold b (hdone b hb)]
      exact h.nearer b hb a List.mem_cons_self
    · rw [List.mem_singleton.1 hb, hold a ha]
  · refine List.pairwise_append.2 ⟨?_, ?_, ?_⟩
    · refine (List.pairwise_cons.1 h.sorted).2.imp_of_mem fun {b c} hb hc hbc => ?_
      rwa [hold b (hqueued b hb), hold c (hqueued c hc)]
    · refine hnodup.imp_of_mem fun {b c} hb hc _ => ?_
      rw [hnew b hb, hnew c hc]
    · intro b hb c hc
      rw [hnew c hc]
      exact (hrange b (List.mem_append_left _ hb)).2
  · intro b hb c hc
    have hb' := hrange b hb
    have hc' := hrange c hc
    omega

/-- A path that leads out of what has been seen passes through the queue, and so through a layer
that is not above the first element. -/
theorem le_length (h : Levels next done ⟨visited, a :: queue⟩ depth) (htarget : target ∉ visited)
    {v : α} (hv : v ∈ visited) (hpath : IsPath next v target path) :
    depth a + 2 ≤ depth v + path.length := by
  induction path generalizing v with
  | nil => cases hpath.head
  | cons x l ih =>
      obtain rfl : x = v := Option.some.inj hpath.head
      cases l with
      | nil =>
          obtain rfl : x = target := Option.some.inj hpath.last
          exact absurd hv htarget
      | cons y l =>
          obtain ⟨hlink, htail⟩ := hpath.tail
          rw [List.length_cons] at ih ⊢
          rw [List.length_cons]
          rcases (h.mem x).1 hv with hdone | hqueued
          · obtain ⟨hy, hdepth⟩ := h.closed x hdone y hlink
            have hrest := ih hy htail
            omega
          · rcases List.mem_cons.1 hqueued with rfl | hqueued
            · omega
            · have hfirst := (List.pairwise_cons.1 h.sorted).1 x hqueued
              omega

/-- With nothing left in the queue, no path leads out of what has been seen. -/
theorem mem_of_reaches (h : Levels next done ⟨visited, []⟩ depth) (hroot : root ∈ visited)
    (hreach : Relation.ReflTransGen (Link next) root target) : target ∈ visited := by
  have hdone : ∀ a, a ∈ visited ↔ a ∈ done := by simpa using h.mem
  induction hreach with
  | refl => exact hroot
  | tail _ hlink ih => exact (h.closed _ ((hdone _).1 ih) _ hlink).1

end Levels

/-- Every element but the root has been seen from one that is one layer above. -/
structure Noted (next : α → List α) (root : α) (visited : Finset α) (pred : α → Option α)
    (depth : α → ℕ) : Prop where
  root_mem : root ∈ visited
  root_depth : depth root = 0
  root_pred : pred root = none
  link : ∀ a ∈ visited, a ≠ root →
    ∃ p ∈ visited, pred a = some p ∧ a ∈ next p ∧ depth a = depth p + 1
  bound : ∀ a ∈ visited, depth a < visited.card

/-- The way back from an element to the root, without the root. -/
inductive Trail (pred : α → Option α) (root : α) : α → List α → Prop
  | nil : Trail pred root root []
  | cons {a p : α} {l : List α} (h : pred a = some p) (hl : Trail pred root p l) :
      Trail pred root a (a :: l)

theorem Trail.congr {l : List α} (h : Trail pred root a l) (heq : ∀ b ∈ l, pred' b = pred b) :
    Trail pred' root a l := by
  induction h with
  | nil => exact .nil
  | cons hpred _ ih =>
      obtain ⟨ha, hl⟩ := List.forall_mem_cons.1 heq
      exact .cons (ha.trans hpred) (ih hl)

namespace Noted

theorem step [DecidableEq α] (h : Noted next root visited pred depth) (ha : a ∈ visited)
    (hvisited : ∀ b, b ∈ visited' ↔ b ∈ visited ∨ b ∈ next a)
    (hkept : ∀ b ∈ visited, pred' b = pred b)
    (hnew : ∀ b ∈ next a, b ∉ visited → pred' b = some a) :
    Noted next root visited' pred' (deepen visited depth a) := by
  have hold : ∀ b ∈ visited, deepen visited depth a b = depth b := fun b hb => if_pos hb
  have hsub : visited ⊆ visited' := fun b hb => (hvisited b).2 (.inl hb)
  refine ⟨hsub h.root_mem, ?_, ?_, ?_, ?_⟩
  · rw [hold root h.root_mem, h.root_depth]
  · rw [hkept root h.root_mem, h.root_pred]
  · intro b hb hne
    by_cases hb' : b ∈ visited
    · obtain ⟨p, hp, hpb, hlink, hdepth⟩ := h.link b hb' hne
      refine ⟨p, hsub hp, (hkept b hb').trans hpb, hlink, ?_⟩
      rw [hold b hb', hold p hp, hdepth]
    · have hlink := ((hvisited b).1 hb).resolve_left hb'
      refine ⟨a, hsub ha, hnew b hlink hb', hlink, ?_⟩
      rw [hold a ha, deepen, if_neg hb']
  · intro b hb
    by_cases hb' : b ∈ visited
    · rw [hold b hb']
      exact (h.bound b hb').trans_le (Finset.card_le_card hsub)
    · have hcard := Finset.card_le_card (Finset.insert_subset hb hsub)
      rw [Finset.card_insert_of_notMem hb'] at hcard
      have hbound := h.bound a ha
      rw [deepen, if_neg hb']
      omega

/-- Going back from an element leads to the root, one layer up at each step. -/
theorem exists_trail (h : Noted next root visited pred depth) (ha : a ∈ visited) :
    ∃ l, Trail pred root a l ∧ IsPath next root a (root :: l.reverse) ∧
      (∀ b ∈ root :: l.reverse, b ∈ visited) ∧
      (root :: l.reverse).map depth = List.range (depth a + 1) := by
  induction hn : depth a generalizing a with
  | zero =>
      obtain rfl : a = root := by
        by_contra hne
        obtain ⟨p, -, -, -, hdepth⟩ := h.link a ha hne
        omega
      exact ⟨[], .nil, .singleton next a, by simpa using ha, by simp [hn]⟩
  | succ n ih =>
      have hne : a ≠ root := by
        rintro rfl
        rw [h.root_depth] at hn
        cases hn
      obtain ⟨p, hp, hpred, hlink, hdepth⟩ := h.link a ha hne
      obtain ⟨l, htrail, hpath, hmem, hdepths⟩ := ih hp (by omega)
      have hreverse : root :: (a :: l).reverse = (root :: l.reverse) ++ [a] := by simp
      refine ⟨a :: l, .cons hpred htrail, ?_, ?_, ?_⟩
      · rw [hreverse]
        exact hpath.concat hlink
      · rw [hreverse]
        intro b hb
        rcases List.mem_append.1 hb with hb | hb
        · exact hmem b hb
        · rwa [List.mem_singleton.1 hb]
      · rw [hreverse, List.map_append, hdepths, List.map_singleton, hn, ← List.range_succ]

end Noted

/-- A search from `root` that has looked at `done`, and notes from where it saw an element first. -/
structure Layered (next : α → List α) (root : α) (done : List α) (f : Frontier α)
    (pred : α → Option α) (depth : α → ℕ) : Prop
    extends Levels next done f depth, Noted next root f.visited pred depth

namespace Layered

theorem init (next : α → List α) (root : α) :
    Layered next root [] ⟨{root}, [root]⟩ (fun _ => none) fun _ => 0 where
  nodup := List.nodup_singleton root
  mem a := by simp
  closed a ha := by cases ha
  nearer a ha := by cases ha
  sorted := List.pairwise_singleton _ _
  band _ _ _ _ := Nat.zero_le _
  root_mem := Finset.mem_singleton_self root
  root_depth := rfl
  root_pred := rfl
  link a ha hne := absurd (Finset.mem_singleton.1 ha) hne
  bound _ _ := Finset.card_pos.2 ⟨root, Finset.mem_singleton_self root⟩

/-- Look at the first element of the queue, and note that the new elements were seen from there. -/
theorem step [DecidableEq α] (h : Layered next root done ⟨visited, a :: queue⟩ pred depth)
    (hkept : ∀ b ∈ visited, pred' b = pred b)
    (hnew : ∀ b ∈ next a, b ∉ visited → pred' b = some a) :
    Layered next root (done ++ [a]) (Frontier.pushAll ⟨visited, queue⟩ (next a)) pred'
      (deepen visited depth a) where
  toLevels := h.toLevels.step
  toNoted := h.toNoted.step ((h.mem a).2 (.inr List.mem_cons_self))
    (fun _ => Frontier.mem_visited_pushAll) hkept hnew

/-- If the first element of the queue links to one that has not been seen, the way back from it and
that element are a shortest path. -/
theorem shortest (h : Layered next root done ⟨visited, a :: queue⟩ pred depth)
    (htarget : target ∉ visited) (hlink : target ∈ next a) :
    ∃ l, Trail pred root a l ∧ (∀ b ∈ l, b ∈ visited) ∧ l.length < visited.card ∧
      IsPath next root target (root :: l.reverse ++ [target]) ∧
      (root :: l.reverse ++ [target]).Nodup ∧
      ∀ path, IsPath next root target path →
        (root :: l.reverse ++ [target]).length ≤ path.length := by
  have ha : a ∈ visited := (h.mem a).2 (.inr List.mem_cons_self)
  obtain ⟨l, htrail, hpath, hmem, hdepths⟩ := h.exists_trail ha
  have hlength : (root :: l.reverse).length = depth a + 1 := by
    simpa using congrArg List.length hdepths
  refine ⟨l, htrail, fun b hb => hmem b (by simp [hb]), ?_, hpath.concat hlink, ?_, ?_⟩
  · have hbound : depth a < visited.card := h.bound a ha
    rw [List.length_cons, List.length_reverse] at hlength
    omega
  · have hnodup : (root :: l.reverse).Nodup := by
      apply List.Nodup.of_map depth
      rw [hdepths]
      exact List.nodup_range
    refine hnodup.append (List.nodup_singleton _) fun b hb hb' => htarget ?_
    rw [← List.mem_singleton.1 hb']
    exact hmem b hb
  · intro path hpath'
    have hle := h.le_length htarget h.root_mem hpath'
    rw [h.root_depth] at hle
    rw [List.length_append, hlength, List.length_singleton]
    omega

end Layered

/-! ### Listing by distance -/

variable {roots : List α}

/-- A search from several roots that has listed `done`, each element with its distance from them. -/
structure Spreads (next : α → List α) (roots done : List α) (f : Frontier α) (depth : α → ℕ) : Prop
    extends Levels next done f depth where
  ordered : done.Pairwise fun a b => depth a ≤ depth b
  root_depth : ∀ r ∈ roots, r ∈ f.visited ∧ depth r = 0
  path : ∀ a ∈ f.visited, ∃ r ∈ roots, ∃ path, IsPath next r a path ∧ path.length = depth a + 1

namespace Spreads

theorem init [DecidableEq α] (next : α → List α) (roots : List α) :
    Spreads next roots [] (Frontier.pushAll ⟨∅, []⟩ roots) fun _ => 0 where
  toTracks := Frontier.Tracks.pushAll ⟨List.nodup_nil, by simp⟩ roots
  closed a ha := by cases ha
  nearer a ha := by cases ha
  sorted := List.pairwise_of_forall fun _ _ => le_rfl
  band _ _ _ _ := Nat.zero_le _
  ordered := List.Pairwise.nil
  root_depth r hr := ⟨Frontier.mem_visited_pushAll.2 (.inr hr), rfl⟩
  path a ha := by
    rcases Frontier.mem_visited_pushAll.1 ha with h | h
    · cases h
    · exact ⟨a, h, [a], .singleton next a, rfl⟩

/-- Look at the first element of the queue, and list it. -/
theorem step [DecidableEq α] (h : Spreads next roots done ⟨visited, a :: queue⟩ depth) :
    Spreads next roots (done ++ [a]) (Frontier.pushAll ⟨visited, queue⟩ (next a))
      (deepen visited depth a) where
  toLevels := h.toLevels.step
  ordered := by
    have ha : a ∈ visited := (h.mem a).2 (.inr List.mem_cons_self)
    have hdone : ∀ b ∈ done, deepen visited depth a b = depth b :=
      fun b hb => if_pos ((h.mem b).2 (.inl hb))
    refine List.pairwise_append.2 ⟨?_, List.pairwise_singleton _ _, fun b hb c hc => ?_⟩
    · refine h.ordered.imp_of_mem fun {b c} hb hc hle => ?_
      rwa [hdone b hb, hdone c hc]
    · rw [List.mem_singleton.1 hc, hdone b hb, deepen, if_pos ha]
      exact h.nearer b hb a List.mem_cons_self
  root_depth r hr := by
    obtain ⟨hmem, hzero⟩ := h.root_depth r hr
    exact ⟨Frontier.mem_visited_pushAll.2 (.inl hmem), (if_pos hmem).trans hzero⟩
  path b hb := by
    by_cases hseen : b ∈ visited
    · rw [deepen, if_pos hseen]
      exact h.path b hseen
    · have hlink := (Frontier.mem_visited_pushAll.1 hb).resolve_left hseen
      obtain ⟨r, hr, path, hpath, hlength⟩ := h.path a ((h.mem a).2 (.inr List.mem_cons_self))
      refine ⟨r, hr, path ++ [b], hpath.concat hlink, ?_⟩
      rw [deepen, if_neg hseen, List.length_append, hlength, List.length_singleton]

/-- With nothing left in the queue, no path is shorter than the distance it covers. -/
theorem depth_lt (h : Spreads next roots done ⟨visited, []⟩ depth) {v : α} (hv : v ∈ visited)
    (hpath : IsPath next v target path) : depth target < depth v + path.length := by
  have hdone : ∀ a, a ∈ visited ↔ a ∈ done := by simpa using h.mem
  induction path generalizing v with
  | nil => cases hpath.head
  | cons x l ih =>
      obtain rfl : x = v := Option.some.inj hpath.head
      cases l with
      | nil =>
          obtain rfl : x = target := Option.some.inj hpath.last
          rw [List.length_singleton]
          omega
      | cons y l =>
          obtain ⟨hlink, htail⟩ := hpath.tail
          obtain ⟨hy, hdepth⟩ := h.closed x ((hdone x).1 hv) y hlink
          have hrest := ih hy htail
          rw [List.length_cons] at hrest ⊢
          rw [List.length_cons]
          omega

/-- What is listed earlier is not farther from the roots. -/
theorem nearest_first (h : Spreads next roots done ⟨visited, []⟩ depth) :
    done.Pairwise fun a b => ∀ r ∈ roots, ∀ path, IsPath next r b path →
      ∃ r' ∈ roots, ∃ path', IsPath next r' a path' ∧ path'.length ≤ path.length := by
  refine h.ordered.imp_of_mem fun {a b} ha _ hle r hr path hpath => ?_
  obtain ⟨hmem, hzero⟩ := h.root_depth r hr
  obtain ⟨r', hr', path', hpath', hlength⟩ := h.path a ((h.mem a).2 (.inl ha))
  have hlt := h.depth_lt hmem hpath
  exact ⟨r', hr', path', hpath', by omega⟩

end Spreads

end Layers

/-! ## Cycles

A depth-first search has a stack of the elements it has entered and not left. It has found a cycle
when an element links to one on the stack. It goes no deeper than there are unseen elements. -/

/-- An element that is counted as unseen no more leaves one fewer. -/
theorem card_sdiff_insert_le [DecidableEq α] {U visited : Finset α} {a : α} {depth : ℕ}
    (ha : a ∈ U) (hnew : a ∉ visited) (h : (U \ visited).card ≤ depth + 1) :
    (U \ insert a visited).card ≤ depth := by
  rw [Finset.sdiff_insert, Finset.card_erase_of_mem (Finset.mem_sdiff.2 ⟨ha, hnew⟩)]
  omega

theorem not_card_sdiff_le_zero [DecidableEq α] {U visited : Finset α} {a : α} (ha : a ∈ U)
    (hnew : a ∉ visited) : ¬ (U \ visited).card ≤ 0 :=
  (Finset.card_pos.2 ⟨a, Finset.mem_sdiff.2 ⟨ha, hnew⟩⟩).not_ge

/-- A cycle can be reached from `a`. -/
def ReachesCycle (next : α → List α) (a : α) : Prop :=
  ∃ x, Relation.ReflTransGen (Link next) a x ∧ Relation.TransGen (Link next) x x

theorem ReachesCycle.head {a b : α} (hlink : b ∈ next a) (h : ReachesCycle next b) :
    ReachesCycle next a := by
  obtain ⟨x, hreach, hcycle⟩ := h
  exact ⟨x, hreach.head hlink, hcycle⟩

/-- A link back to what led to `a` closes a cycle. -/
theorem ReachesCycle.of_back {a b : α} (hlink : b ∈ next a)
    (hback : Relation.ReflTransGen (Link next) b a) : ReachesCycle next a :=
  ⟨a, .refl, .head' hlink hback⟩

/-- What the search has left links only to what it has left, and is on no cycle. -/
structure Finished [DecidableEq α] (next : α → List α) (visited stack : Finset α) : Prop where
  sub : stack ⊆ visited
  closed : ∀ a ∈ visited \ stack, ∀ b ∈ next a, b ∈ visited \ stack
  acyclic : ∀ a ∈ visited \ stack, ¬ Relation.TransGen (Link next) a a

namespace Finished

variable [DecidableEq α] {visited stack : Finset α} {a b : α}

theorem init (next : α → List α) : Finished next ∅ ∅ where
  sub := subset_rfl
  closed := by simp
  acyclic := by simp

theorem mem_of_reaches (h : Finished next visited stack) (ha : a ∈ visited \ stack)
    (hreach : Relation.ReflTransGen (Link next) a b) : b ∈ visited \ stack := by
  induction hreach with
  | refl => exact ha
  | tail _ hlink ih => exact h.closed _ ih _ hlink

/-- Entering a new element finishes nothing. -/
theorem enter (h : Finished next visited stack) (hnew : a ∉ visited) :
    Finished next (insert a visited) (insert a stack) := by
  have hsame : insert a visited \ insert a stack = visited \ stack := by
    rw [Finset.insert_sdiff_insert, Finset.sdiff_insert, Finset.erase_eq_of_notMem]
    intro ha
    exact hnew (Finset.mem_sdiff.1 ha).1
  exact ⟨Finset.insert_subset_insert a h.sub, hsame ▸ h.closed, hsame ▸ h.acyclic⟩

/-- An element may be left once all it links to is finished. A cycle through it would come back to
it from there. -/
theorem leave (h : Finished next visited stack) (ha : a ∈ stack)
    (hnext : ∀ b ∈ next a, b ∈ visited \ stack) : Finished next visited (stack.erase a) := by
  have hgrown : visited \ stack.erase a = insert a (visited \ stack) :=
    Finset.sdiff_erase (h.sub ha)
  have hnot : a ∉ visited \ stack := fun hmem => (Finset.mem_sdiff.1 hmem).2 ha
  refine ⟨(Finset.erase_subset a stack).trans h.sub, ?_, ?_⟩
  · rw [hgrown]
    intro x hx b hb
    rcases Finset.mem_insert.1 hx with rfl | hx
    · exact Finset.mem_insert_of_mem (hnext b hb)
    · exact Finset.mem_insert_of_mem (h.closed x hx b hb)
  · rw [hgrown]
    intro x hx hcycle
    rcases Finset.mem_insert.1 hx with rfl | hx
    · obtain ⟨b, hlink, hback⟩ := Relation.TransGen.head'_iff.1 hcycle
      exact hnot (h.mem_of_reaches (hnext b hlink) hback)
    · exact h.acyclic x hx hcycle

theorem not_reachesCycle (h : Finished next visited stack) (ha : a ∈ visited \ stack) :
    ¬ ReachesCycle next a := by
  intro hcycle
  obtain ⟨x, hreach, hx⟩ := hcycle
  exact h.acyclic x (h.mem_of_reaches ha hreach) hx

end Finished

end Search
