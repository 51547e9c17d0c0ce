import Mathlib.Algebra.BigOperators.Group.Finset.Piecewise
import Mathlib.Logic.Relation

/-!
# Ledgers

A ledger gives every account a balance. What a capped ledger is for: moving an amount from one
account to another, all of it or nothing, without the receiver going over the cap.

* `Ledger.transfer` — one such move. A transfer that is not possible, and one to oneself, leave
  the ledger alone.
* `Ledger.TransfersTo` — any number of transfers, and `TransfersTo.sum_eq`: the sum of all balances
  stays what it was.
-/

namespace Ledger

variable {κ : Type*} [DecidableEq κ] {cap amount : ℕ} {src dst : κ} {f f' : κ → ℕ}

/-- Move `amount` from `src` to `dst` if `src` has it and `dst` stays below the cap. -/
def transfer (cap : ℕ) (src dst : κ) (amount : ℕ) (f : κ → ℕ) : κ → ℕ :=
  if f src < amount ∨ src = dst ∨ cap ≤ f dst + amount then f
  else Function.update (Function.update f src (f src - amount)) dst (f dst + amount)

theorem transfer_eq_self (h : f src < amount ∨ src = dst ∨ cap ≤ f dst + amount) :
    transfer cap src dst amount f = f :=
  if_pos h

theorem transfer_apply (henough : amount ≤ f src) (hne : src ≠ dst) (hfits : f dst + amount < cap)
    (a : κ) :
    transfer cap src dst amount f a =
      if a = dst then f dst + amount else if a = src then f src - amount else f a := by
  have hcond : ¬(f src < amount ∨ src = dst ∨ cap ≤ f dst + amount) := by
    rintro (h | h | h)
    · omega
    · exact hne h
    · omega
  rw [transfer, if_neg hcond, Function.update_apply, Function.update_apply]

/-- Setting one balance changes the sum by the new balance against the old. -/
theorem sum_set_add [Fintype κ] (f : κ → ℕ) (a : κ) (n : ℕ) :
    ∑ b, Function.update f a n b + f a = ∑ b, f b + n := by
  rw [Finset.sum_update_of_mem (Finset.mem_univ a), ← Finset.add_sum_erase _ f (Finset.mem_univ a),
    Finset.sdiff_singleton_eq_erase]
  omega

/-- A transfer moves, and neither makes nor loses. -/
theorem sum_transfer [Fintype κ] (cap amount : ℕ) (src dst : κ) (f : κ → ℕ) :
    ∑ a, transfer cap src dst amount f a = ∑ a, f a := by
  by_cases hcond : f src < amount ∨ src = dst ∨ cap ≤ f dst + amount
  · rw [transfer_eq_self hcond]
  · have hne : dst ≠ src := fun h => hcond (Or.inr (Or.inl h.symm))
    have henough : amount ≤ f src := not_lt.1 fun h => hcond (Or.inl h)
    have hdebit := sum_set_add f src (f src - amount)
    have hcredit := sum_set_add (Function.update f src (f src - amount)) dst (f dst + amount)
    rw [Function.update_of_ne hne] at hcredit
    rw [transfer, if_neg hcond]
    omega

/-- Some number of transfers lead from one ledger to the other. -/
def TransfersTo (cap : ℕ) : (κ → ℕ) → (κ → ℕ) → Prop :=
  Relation.ReflTransGen fun f f' => ∃ src dst amount, f' = transfer cap src dst amount f

namespace TransfersTo

theorem refl (cap : ℕ) (f : κ → ℕ) : TransfersTo cap f f := Relation.ReflTransGen.refl

theorem head (h : TransfersTo cap (transfer cap src dst amount f) f') : TransfersTo cap f f' :=
  Relation.ReflTransGen.head ⟨src, dst, amount, rfl⟩ h

theorem one (cap amount : ℕ) (src dst : κ) (f : κ → ℕ) :
    TransfersTo cap f (transfer cap src dst amount f) :=
  Relation.ReflTransGen.single ⟨src, dst, amount, rfl⟩

theorem trans {f'' : κ → ℕ} (h : TransfersTo cap f f') (h' : TransfersTo cap f' f'') :
    TransfersTo cap f f'' := Relation.ReflTransGen.trans h h'

/-- The sum of all balances is conserved. -/
theorem sum_eq [Fintype κ] (h : TransfersTo cap f f') : ∑ a, f' a = ∑ a, f a := by
  induction h with
  | refl => rfl
  | tail _ hstep ih =>
      obtain ⟨src, dst, amount, rfl⟩ := hstep
      rw [sum_transfer, ih]

end TransfersTo

end Ledger
