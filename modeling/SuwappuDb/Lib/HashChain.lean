import Mathlib.Data.List.Induction

/-!
# Hash chains

A list in which every element names the digest of the one before it, and the first a fixed genesis
digest. What an element is and what is digested is up to the user of the library.

* `HashChain.tip` — the digest that the next element has to name.
* `HashChain.Linked` — every element names the right digest. `Linked.concat` is the step: one more
  element that names the tip. `linked_cons` takes a chain apart from its other end.
* `HashChain.Linked.eq_of_tip_eq` — the tip stands for the whole chain, where the digest tells the
  elements apart and is never the genesis digest.
-/

namespace HashChain

variable {α η : Type*} (digest parent : α → η) (genesis : η)

/-- The digest that the next element has to name. -/
def tip (l : List α) : η := (l.getLast?.map digest).getD genesis

/-- Every element names the digest of the one before it. -/
structure Linked (l : List α) : Prop where
  first : ∀ a, l[0]? = some a → parent a = genesis
  next : ∀ i a b, l[i]? = some a → l[i + 1]? = some b → parent b = digest a

variable {digest parent genesis}

@[simp] theorem tip_nil : tip digest genesis [] = genesis := rfl

theorem linked_nil : Linked digest parent genesis [] where
  first := by simp
  next := by simp

/-- A chain is its first element and a chain on that. -/
theorem linked_cons {a : α} {l : List α} : Linked digest parent genesis (a :: l) ↔
    parent a = genesis ∧ Linked digest parent (digest a) l := by
  constructor
  · intro h
    refine ⟨h.first a rfl, fun b hb => h.next 0 a b rfl hb, fun i b c hb hc => ?_⟩
    exact h.next (i + 1) b c hb hc
  · intro h
    refine ⟨fun b hb => ?_, fun i b c hb hc => ?_⟩
    · obtain rfl : a = b := by simpa using hb
      exact h.1
    · rw [List.getElem?_cons_succ] at hc
      cases i with
      | zero =>
          obtain rfl : a = b := by simpa using hb
          exact h.2.first c hc
      | succ i => exact h.2.next i b c hb hc

theorem tip_cons (a : α) (l : List α) :
    tip digest genesis (a :: l) = tip digest (digest a) l := by
  rw [tip, tip, List.getLast?_cons, Option.map_some, Option.getD_some]
  cases l.getLast? <;> rfl

theorem Linked.concat {l : List α} (h : Linked digest parent genesis l) {a : α}
    (ha : parent a = tip digest genesis l) : Linked digest parent genesis (l ++ [a]) where
  first b hb := by
    cases l with
    | nil =>
        cases hb
        exact ha
    | cons c l => exact h.first b hb
  next i b c hb hc := by
    have hi : i + 1 < (l ++ [a]).length := (List.getElem?_eq_some_iff.1 hc).1
    rw [List.length_append, List.length_singleton] at hi
    rw [List.getElem?_append_left (by omega)] at hb
    rcases Nat.lt_or_ge (i + 1) l.length with hlt | hge
    · rw [List.getElem?_append_left hlt] at hc
      exact h.next i b c hb hc
    · -- The new element is the last of the chain, and `b` was the last before it.
      obtain rfl : c = a := by simpa [show i + 1 = l.length by omega] using hc.symm
      have hlast : l.getLast? = some b := by
        rw [List.getLast?_eq_getElem?, ← hb]
        congr 1
        omega
      rw [ha, tip, hlast]
      rfl

@[simp] theorem tip_concat (l : List α) (a : α) : tip digest genesis (l ++ [a]) = digest a := by
  simp [tip]

/-- The step backwards. -/
theorem Linked.of_concat {l : List α} {a : α} (h : Linked digest parent genesis (l ++ [a])) :
    Linked digest parent genesis l ∧ parent a = tip digest genesis l := by
  have hkept : ∀ (i : Nat) (b : α), l[i]? = some b → (l ++ [a])[i]? = some b := by
    intro i b hb
    rw [List.getElem?_append_left (List.getElem?_eq_some_iff.1 hb).1]
    exact hb
  refine ⟨⟨fun b hb => h.first b (hkept 0 b hb),
    fun i b c hb hc => h.next i b c (hkept i b hb) (hkept (i + 1) c hc)⟩, ?_⟩
  cases l using List.reverseRecOn with
  | nil => exact h.first a rfl
  | append_singleton l b =>
      rw [tip_concat]
      refine h.next l.length b a (hkept _ b ?_) ?_ <;> simp

/-- Equal tips, equal chains. -/
theorem Linked.eq_of_tip_eq {l l' : List α} (h : Linked digest parent genesis l)
    (h' : Linked digest parent genesis l')
    (hinj : ∀ a ∈ l, ∀ b ∈ l', digest a = digest b → a = b)
    (hgenesis : ∀ a ∈ l ++ l', digest a ≠ genesis)
    (htip : tip digest genesis l = tip digest genesis l') : l = l' := by
  induction l using List.reverseRecOn generalizing l' with
  | nil =>
      cases l' using List.reverseRecOn with
      | nil => rfl
      | append_singleton l' b =>
          rw [tip_nil, tip_concat] at htip
          exact absurd htip.symm (hgenesis b (by simp))
  | append_singleton l a ih =>
      cases l' using List.reverseRecOn with
      | nil =>
          rw [tip_nil, tip_concat] at htip
          exact absurd htip (hgenesis a (by simp))
      | append_singleton l' b =>
          rw [tip_concat, tip_concat] at htip
          obtain rfl := hinj a (by simp) b (by simp) htip
          obtain ⟨hbefore, hparent⟩ := h.of_concat
          obtain ⟨hbefore', hparent'⟩ := h'.of_concat
          have hrest : l = l' := by
            refine ih hbefore hbefore' (fun c hc d hd => ?_) (fun c hc => ?_)
              (hparent.symm.trans hparent')
            · exact hinj c (List.mem_append_left _ hc) d (List.mem_append_left _ hd)
            · refine hgenesis c ?_
              rcases List.mem_append.1 hc with hl | hl' <;> simp [*]
          rw [hrest]

end HashChain
