import SuwappuDb.Lib.Footprint
import SuwappuDb.SerialBlock

/-!
# Independent transfers commute

A transfer reads and writes the slots of its two sides (`pay_actsOn`), so two transfers without a
common side can be made in either order. The block executor makes a block's transactions one after
another, whatever its schedule, and inherits this: `transfers_commute`. What comes before and after
the two is arbitrary.
-/

namespace SuwappuDb

open Footprint

/-- One transfer: all of it or, when it is rejected, nothing. -/
def State.pay (src dst : Address) (amount : U128) (s : State) : State × TxOutcome :=
  s.commitOrKeep (s.moveBalance src dst amount)

/-- What a transfer says and writes, from the balances of its two sides. -/
def payEffect (src dst : Address) (amount fromBalance toBalance : U128) :
    TxOutcome × List (Address × Balance) :=
  if fromBalance < amount then (.rejected .insufficientBalance, [])
  else
    match checkedAdd toBalance amount with
    | none => (.rejected .amountOverflow, [])
    | some newTo =>
        if src = dst then (.committed, [(src, fromBalance)])
        else (.committed, [(src, fromBalance - amount), (dst, newTo)])

theorem State.pay_eq (src dst : Address) (amount : U128) (s : State) :
    s.pay src dst amount =
      (s.setBalances (payEffect src dst amount (s.balanceOf src) (s.balanceOf dst)).2,
        (payEffect src dst amount (s.balanceOf src) (s.balanceOf dst)).1) := by
  unfold pay moveBalance payEffect
  by_cases hlt : s.balanceOf src < amount
  · simp only [if_pos hlt]
    rfl
  · simp only [if_neg hlt]
    cases checkedAdd (s.balanceOf dst) amount with
    | none => rfl
    | some newTo =>
        dsimp only
        split_ifs <;> rfl

theorem payEffect_writes {src dst : Address} {amount fromBalance toBalance : U128}
    {p : Address × Balance} (hp : p ∈ (payEffect src dst amount fromBalance toBalance).2) :
    p.1 = src ∨ p.1 = dst := by
  unfold payEffect at hp
  by_cases hlt : fromBalance < amount
  · simp [hlt] at hp
  · rw [if_neg hlt] at hp
    cases hadd : checkedAdd toBalance amount with
    | none => simp [hadd] at hp
    | some newTo =>
        simp only [hadd] at hp
        split_ifs at hp
        · exact Or.inl (congrArg Prod.fst (List.mem_singleton.1 hp))
        · rcases List.mem_cons.1 hp with rfl | hp
          · exact Or.inl rfl
          · exact Or.inr (congrArg Prod.fst (List.mem_singleton.1 hp))

/-! ## Cells -/

/-- What a state holds at an address. -/
def State.cells (s : State) (a : Address) : Option BalanceSlot × Option (List Byte) :=
  (s.store.slots.get? a, s.bytesOf a)

theorem State.cells_injective : Function.Injective State.cells := by
  intro s t h
  have hcells := fun a => Prod.ext_iff.1 (congrFun h a)
  exact State.ext_columns (fun a => (hcells a).1) fun a => (hcells a).2

theorem State.cells_setBalance (s : State) (addr : Address) (bal : Balance) (a : Address) :
    (s.apply (.setBalance addr bal)).cells a =
      if a = addr then (some (BalanceSlot.new bal), (s.cells a).2) else s.cells a := by
  rw [cells, get?_slots_setBalance]
  split_ifs <;> rfl

theorem State.cells_setBalances_of_notMem {writes : List (Address × Balance)} {a : Address}
    (ha : ∀ p ∈ writes, p.1 ≠ a) (s : State) : (s.setBalances writes).cells a = s.cells a := by
  induction writes generalizing s with
  | nil => rfl
  | cons p writes ih =>
      rw [List.forall_mem_cons] at ha
      have hrest : (s.setBalances (p :: writes)).cells a =
          (s.apply (.setBalance p.1 p.2)).cells a := ih ha.2 _
      rw [hrest, cells_setBalance, if_neg ha.1.symm]

theorem State.cells_setBalances_congr {s t : State} {a : Address} (h : s.cells a = t.cells a)
    (writes : List (Address × Balance)) :
    (s.setBalances writes).cells a = (t.setBalances writes).cells a := by
  induction writes generalizing s t with
  | nil => exact h
  | cons p writes ih =>
      refine @ih (s.apply (.setBalance p.1 p.2)) (t.apply (.setBalance p.1 p.2)) ?_
      rw [cells_setBalance, cells_setBalance, h]

theorem State.balanceOf_eq_of_cells {s t : State} {a : Address} (h : s.cells a = t.cells a) :
    s.balanceOf a = t.balanceOf a := by
  have hslots : s.store.slots.get? a = t.store.slots.get? a := (Prod.ext_iff.1 h).1
  rw [balanceOf, balanceOf, InMemoryBalanceStore.get, InMemoryBalanceStore.get, hslots]

/-- A transfer reads and writes its two sides. -/
theorem pay_actsOn (src dst : Address) (amount : U128) :
    ActsOn State.cells {src, dst} (State.pay src dst amount) := by
  have heffect : ∀ s t : State, Set.EqOn s.cells t.cells {src, dst} →
      payEffect src dst amount (s.balanceOf src) (s.balanceOf dst) =
        payEffect src dst amount (t.balanceOf src) (t.balanceOf dst) := by
    intro s t hsame
    rw [State.balanceOf_eq_of_cells (hsame (Set.mem_insert src _)),
      State.balanceOf_eq_of_cells (hsame (Set.mem_insert_of_mem src rfl))]
  refine ⟨fun s a ha => ?_, fun s t hsame => ?_, fun s t hsame a ha => ?_⟩
  · rw [State.pay_eq]
    refine State.cells_setBalances_of_notMem (fun p hp heq => ha ?_) s
    exact heq ▸ payEffect_writes hp
  · rw [State.pay_eq, State.pay_eq, heffect s t hsame]
  · rw [State.pay_eq, State.pay_eq, heffect s t hsame]
    exact State.cells_setBalances_congr (hsame ha) _

/-! ## Blocks -/

theorem serialIntent_transfer (registry : ContractRegistry) (base s : State) (src dst : Address)
    (amount : U128) :
    serialIntent registry base s (.transfer src dst amount) = s.pay src dst amount := by
  rw [serialIntent, Intent.transfers, Intent.transfersIn, State.moveAll_singleton, State.pay]

section Swap

variable {src dst src' dst' : Address} {amount amount' : U128}

/-- The state after two transfers without a common side does not depend on their order, and their
outcomes swap. -/
theorem serialBlock_swap (hdisjoint : Disjoint ({src, dst} : Set Address) {src', dst'})
    (registry : ContractRegistry) (base s : State) (rest : List Intent) :
    ∃ s' outcome outcome' outcomes,
      serialBlock registry base s
          (.transfer src dst amount :: .transfer src' dst' amount' :: rest) =
        (s', outcome :: outcome' :: outcomes) ∧
      serialBlock registry base s
          (.transfer src' dst' amount' :: .transfer src dst amount :: rest) =
        (s', outcome' :: outcome :: outcomes) := by
  have hpay := pay_actsOn src dst amount
  have hpay' := pay_actsOn src' dst' amount'
  have hstate := hpay.comm State.cells_injective hpay' hdisjoint s
  have houtcome := hpay.result_after hpay' hdisjoint s
  have houtcome' := hpay'.result_after hpay hdisjoint.symm s
  refine ⟨_, _, _, _, rfl, ?_⟩
  simp only [serialBlock, serialIntent_transfer, ← hstate, houtcome, houtcome']

end Swap

/-- Two adjacent transfers without a common address may be swapped: the block leaves the same state
and root, the two outcomes swap, and all others stay. -/
theorem transfers_commute (blake3 : Blake3) (sched sched' : Schedule) (s : State)
    {registry : ContractRegistry} (hpure : registry.Pure) (before after : List Intent)
    (src dst src' dst' : Address) (amount amount' : U128)
    (hdisjoint : Disjoint ({src, dst} : Set Address) {src', dst'}) :
    ∃ s' report report' outcomes outcome outcome' outcomes',
      BlockExecutor.executeWithRegistry blake3 sched s
        (before ++ .transfer src dst amount :: .transfer src' dst' amount' :: after) registry =
          some (s', report) ∧
      BlockExecutor.executeWithRegistry blake3 sched' s
        (before ++ .transfer src' dst' amount' :: .transfer src dst amount :: after) registry =
          some (s', report') ∧
      report'.stateRoot = report.stateRoot ∧
      outcomes.length = before.length ∧ outcomes'.length = after.length ∧
      report.outcomes = outcomes ++ outcome :: outcome' :: outcomes' ∧
      report'.outcomes = outcomes ++ outcome' :: outcome :: outcomes' := by
  obtain ⟨report, hexec, houtcomes, hroot⟩ := executeWithRegistry_eq_serial blake3 sched s
    (before ++ .transfer src dst amount :: .transfer src' dst' amount' :: after) hpure
  obtain ⟨report', hexec', houtcomes', hroot'⟩ := executeWithRegistry_eq_serial blake3 sched' s
    (before ++ .transfer src' dst' amount' :: .transfer src dst amount :: after) hpure
  obtain ⟨s', outcome, outcome', outcomes, hfirst, hsecond⟩ := @serialBlock_swap src dst src' dst'
    amount amount' hdisjoint registry s (serialBlock registry s s before).1 after
  rw [serialBlock_append, hfirst] at hexec houtcomes hroot
  rw [serialBlock_append, hsecond] at hexec' houtcomes' hroot'
  refine ⟨s', report, report', _, outcome, outcome', outcomes, hexec, hexec',
    hroot'.trans hroot.symm, length_serialBlock registry s s before, ?_, houtcomes, houtcomes'⟩
  have hlength := length_serialBlock registry s (serialBlock registry s s before).1
    (.transfer src dst amount :: .transfer src' dst' amount' :: after)
  rw [hfirst] at hlength
  simpa using hlength

/-- Address 1 pays 2, and 3, which holds nothing, tries to pay 4. Before them 1 pays 3, and after
them 2 calls the contract. -/
theorem transfers_commute_small :
    smallRegistry.Pure ∧
    Disjoint ({smallAddress 1, smallAddress 2} : Set Address) {smallAddress 3, smallAddress 4} ∧
    ∀ (blake3 : Blake3) (sched sched' : Schedule), ∃ s' report report' outcomes outcome outcome'
        outcomes',
      BlockExecutor.executeWithRegistry blake3 sched smallState
        ([.transfer (smallAddress 1) (smallAddress 3) 5] ++
          .transfer (smallAddress 1) (smallAddress 2) 60 ::
          .transfer (smallAddress 3) (smallAddress 4) 10 ::
          [.call (smallAddress 2) (smallAddress 9) 20 []]) smallRegistry = some (s', report) ∧
      BlockExecutor.executeWithRegistry blake3 sched' smallState
        ([.transfer (smallAddress 1) (smallAddress 3) 5] ++
          .transfer (smallAddress 3) (smallAddress 4) 10 ::
          .transfer (smallAddress 1) (smallAddress 2) 60 ::
          [.call (smallAddress 2) (smallAddress 9) 20 []]) smallRegistry = some (s', report') ∧
      report'.stateRoot = report.stateRoot ∧
      outcomes.length = 1 ∧ outcomes'.length = 1 ∧
      report.outcomes = outcomes ++ outcome :: outcome' :: outcomes' ∧
      report'.outcomes = outcomes ++ outcome' :: outcome :: outcomes' := by
  have hdisjoint : Disjoint ({smallAddress 1, smallAddress 2} : Set Address)
      {smallAddress 3, smallAddress 4} := by
    rw [Set.disjoint_left]
    rintro a (rfl | rfl)
    · decide
    · decide
  exact ⟨smallRegistry_pure, hdisjoint, fun blake3 sched sched' =>
    transfers_commute blake3 sched sched' smallState smallRegistry_pure
      [.transfer (smallAddress 1) (smallAddress 3) 5]
      [.call (smallAddress 2) (smallAddress 9) 20 []] (smallAddress 1) (smallAddress 2)
      (smallAddress 3) (smallAddress 4) 60 10 hdisjoint⟩

end SuwappuDb
