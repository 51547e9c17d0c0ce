import Mathlib.Data.Set.Lattice
import Mathlib.Order.CompletePartialOrder

/-!
# Footprints

A state is seen through its cells. A step acts on some of them when it leaves the others alone, and
what it returns and writes depends on nothing else (`ActsOn`). Steps on disjoint cells commute
(`ActsOn.comm`), and each returns what it would have returned alone (`ActsOn.result_after`).
-/

namespace Footprint

variable {σ ι α ρ ρ' : Type*} {view : σ → ι → α} {A B : Set ι} {f : σ → σ × ρ} {g : σ → σ × ρ'}

/-- The step reads and writes the cells in `A` only. -/
structure ActsOn (view : σ → ι → α) (A : Set ι) (f : σ → σ × ρ) : Prop where
  frame : ∀ s, ∀ a ∉ A, view (f s).1 a = view s a
  result : ∀ s t, Set.EqOn (view s) (view t) A → (f s).2 = (f t).2
  cells : ∀ s t, Set.EqOn (view s) (view t) A → Set.EqOn (view (f s).1) (view (f t).1) A

namespace ActsOn

/-- A step leaves the cells of another footprint alone. -/
theorem eqOn_disjoint (hf : ActsOn view A f) (h : Disjoint A B) (s : σ) :
    Set.EqOn (view (f s).1) (view s) B :=
  fun b hb => hf.frame s b (Set.disjoint_right.1 h hb)

theorem result_after (hf : ActsOn view A f) (hg : ActsOn view B g) (h : Disjoint A B) (s : σ) :
    (g (f s).1).2 = (g s).2 :=
  hg.result _ _ (hf.eqOn_disjoint h s)

theorem comm (hview : Function.Injective view) (hf : ActsOn view A f) (hg : ActsOn view B g)
    (h : Disjoint A B) (s : σ) : (g (f s).1).1 = (f (g s).1).1 := by
  apply hview
  funext a
  by_cases hA : a ∈ A
  · calc view (g (f s).1).1 a
        = view (f s).1 a := hg.frame _ a (Set.disjoint_left.1 h hA)
      _ = view (f (g s).1).1 a := (hf.cells _ _ (hg.eqOn_disjoint h.symm s) hA).symm
  · rw [hf.frame _ a hA]
    by_cases hB : a ∈ B
    · exact hg.cells _ _ (hf.eqOn_disjoint h s) hB
    · rw [hg.frame _ a hB, hg.frame _ a hB, hf.frame _ a hA]

end ActsOn

end Footprint
