import SuwappuDb.Bundle

/-!
# Bundles and their snapshots

What a bundle leaves when a step fails. The snapshot holds the balances, before the bundle, of the
addresses the steps name, and writing it back restores those (`balanceOf_restoreSnapshot`). Whether
that is every address depends on what the steps can touch:

* `submit_balanceOf_of_ne` — a transfer step touches only addresses it names, so a reverted bundle
  of transfers leaves every balance as it was.
* `executeWithMoveRuntime_reverted_iff` — a Move call touches whatever its executor writes, and only
  its caller is in the snapshot. A reverted bundle leaves every balance as it was exactly when the
  last write to every other address, among the calls before the failing step (`FailsAt`), wrote the
  balance it had.
-/

namespace SuwappuDb

/-! ## Snapshots -/

/-- The addresses in a bundle's snapshot. -/
def Bundle.recorded (bundle : Bundle) : List Address := bundle.steps.flatMap BundleStep.recorded

theorem get?_recordBalance (s : State) (snap : OrdMap Address Balance) (addr a : Address) :
    (recordBalance s snap addr).get? a =
      (snap.get? a).or (if a = addr then some (s.balanceOf addr) else none) := by
  unfold recordBalance
  cases haddr : snap.get? addr with
  | some bal =>
      by_cases ha : a = addr
      · simp [ha, haddr]
      · simp [ha]
  | none =>
      simp only
      rw [OrdMap.get?_insert]
      by_cases ha : a = addr
      · simp [ha, haddr]
      · simp [ha]

theorem get?_foldl_recordBalance (s : State) (addrs : List Address) (snap : OrdMap Address Balance)
    (a : Address) :
    (addrs.foldl (recordBalance s) snap).get? a =
      (snap.get? a).or (if a ∈ addrs then some (s.balanceOf a) else none) := by
  induction addrs generalizing snap with
  | nil => simp
  | cons addr addrs ih =>
      rw [List.foldl_cons, ih, get?_recordBalance, Option.or_assoc]
      by_cases ha : a = addr
      · simp [ha]
      · simp [ha]

theorem get?_collectSnapshot (s : State) (bundle : Bundle) (a : Address) :
    (collectSnapshot s bundle).get? a =
      if a ∈ bundle.recorded then some (s.balanceOf a) else none := by
  rw [collectSnapshot, get?_foldl_recordBalance]
  rfl

/-- Writing a bundle's snapshot back, slot by slot. -/
theorem get?_slots_restoreSnapshot (order : IterOrder) (s₀ s : State) (bundle : Bundle)
    (a : Address) :
    (restoreSnapshot order s (collectSnapshot s₀ bundle)).store.slots.get? a =
      if a ∈ bundle.recorded then some (BalanceSlot.new (s₀.balanceOf a))
      else s.store.slots.get? a := by
  have hperm := order.perm (collectSnapshot s₀ bundle).entries
  have hnodup := (hperm.map Prod.fst).nodup_iff.2 (collectSnapshot s₀ bundle).sorted.nodup_keys
  rw [restoreSnapshot, State.get?_slots_setBalances s hnodup, OrdMap.lookup_arranged hperm,
    get?_collectSnapshot]
  split_ifs <;> rfl

/-- Writing a bundle's snapshot back restores the recorded addresses, and no other. -/
theorem balanceOf_restoreSnapshot (order : IterOrder) (s₀ s : State) (bundle : Bundle)
    (a : Address) :
    (restoreSnapshot order s (collectSnapshot s₀ bundle)).balanceOf a =
      if a ∈ bundle.recorded then s₀.balanceOf a else s.balanceOf a := by
  rw [State.balanceOf, InMemoryBalanceStore.get, get?_slots_restoreSnapshot]
  split_ifs <;> rfl

/-! ## Transfer bundles -/

/-- A transfer touches its two sides only. -/
theorem submit_slots_of_ne {s s' : State} {src dst : Address} {amount : U128} {verdict : Verdict}
    (h : Bridge.submit s (.transfer src dst amount) = some (s', verdict)) {a : Address}
    (hsrc : a ≠ src) (hdst : a ≠ dst) : s'.store.slots.get? a = s.store.slots.get? a := by
  rcases Bridge.submit_cases s src dst amount with
    ⟨-, heq⟩ | ⟨-, -, heq⟩ | ⟨-, -, -, heq⟩ | ⟨s'', hmoved, heq⟩ <;>
    rw [h] at heq <;> obtain ⟨rfl, -⟩ := Prod.mk.inj (Option.some.inj heq)
  · rfl
  · rfl
  · rfl
  · rw [hmoved.eq, State.get?_slots_setBalance, if_neg hdst, State.get?_slots_setBalance,
      if_neg hsrc]

theorem submit_balanceOf_of_ne {s s' : State} {src dst : Address} {amount : U128}
    {verdict : Verdict} (h : Bridge.submit s (.transfer src dst amount) = some (s', verdict))
    {a : Address} (hsrc : a ≠ src) (hdst : a ≠ dst) : s'.balanceOf a = s.balanceOf a := by
  rw [State.balanceOf, InMemoryBalanceStore.get, submit_slots_of_ne h hsrc hdst]
  rfl

/-- A rejected transfer changes nothing. -/
theorem submit_error {s s' : State} {src dst : Address} {amount : U128} {reason : RejectReason}
    (h : Bridge.submit s (.transfer src dst amount) = some (s', .error reason)) : s' = s := by
  rcases Bridge.submit_cases s src dst amount with
    ⟨-, heq⟩ | ⟨-, -, heq⟩ | ⟨-, -, -, heq⟩ | ⟨s'', -, heq⟩ <;>
    rw [h] at heq <;> obtain ⟨rfl, hverdict⟩ := Prod.mk.inj (Option.some.inj heq)
  · rfl
  · rfl
  · rfl
  · cases hverdict

/-- The transfer of a step is between addresses it records. -/
theorem stepToIntent_cases {step : BundleStep} {intent : Intent}
    (h : stepToIntent step = some intent) :
    ∃ src dst amount, intent = .transfer src dst amount ∧ step.recorded = [src, dst] := by
  cases step with
  | evm tx =>
      obtain rfl := Option.some.inj h
      exact ⟨tx.src, tx.dst, tx.value, rfl, rfl⟩
  | move tx =>
      obtain rfl := Option.some.inj h
      exact ⟨tx.signer, tx.recipient, tx.amount, rfl, rfl⟩
  | moveCall call => cases h
  | deployModule account name bytes => cases h

/-! ## Bundles with a Move runtime -/

/-- The last balance written to an address. -/
def lastWriteTo (a : Address) (writes : List ResourceWrite) : Option U128 :=
  (writes.filter fun w => moveAddrToEvm w.addr = a).getLast?.map ResourceWrite.coinValue

theorem lastWriteTo_append (a : Address) (writes writes' : List ResourceWrite) :
    lastWriteTo a (writes ++ writes') = (lastWriteTo a writes').or (lastWriteTo a writes) := by
  rw [lastWriteTo, List.filter_append, List.getLast?_append, Option.map_or]
  rfl

/-- A slot keeps the coin value of the last write to it. The nonce of a write goes nowhere. -/
theorem slotOf_applyResourceWrites (s : State) (writes : List ResourceWrite) (a : Address) :
    (BundleExecutor.applyResourceWrites s writes).slotOf a =
      ((lastWriteTo a writes).map BalanceSlot.new).getD (s.slotOf a) := by
  induction writes using List.reverseRecOn with
  | nil => rfl
  | append_singleton writes w ih =>
      have hconcat : BundleExecutor.applyResourceWrites s (writes ++ [w]) =
          (BundleExecutor.applyResourceWrites s writes).apply
            (.setBalance (moveAddrToEvm w.addr) w.coinValue) := List.foldl_append
      rw [hconcat, State.slotOf_setBalance, lastWriteTo_append, ih]
      by_cases ha : a = moveAddrToEvm w.addr
      · simp [lastWriteTo, ha]
      · simp [lastWriteTo, ha, Ne.symm ha]

theorem balanceOf_applyResourceWrites (s : State) (writes : List ResourceWrite) (a : Address) :
    (BundleExecutor.applyResourceWrites s writes).balanceOf a =
      (lastWriteTo a writes).getD (s.balanceOf a) := by
  have hslot := congrArg BalanceSlot.canonical (slotOf_applyResourceWrites s writes a)
  cases hlast : lastWriteTo a writes <;> rw [hlast] at hslot <;> exact hslot

/-- The balances after two writes. -/
theorem balanceOf_two_writes (s : State) (w w' : ResourceWrite) (a : Address) :
    (BundleExecutor.applyResourceWrites s [w, w']).balanceOf a =
      if a = moveAddrToEvm w'.addr then w'.coinValue
      else if a = moveAddrToEvm w.addr then w.coinValue else s.balanceOf a := by
  simp only [BundleExecutor.applyResourceWrites, List.foldl_cons, List.foldl_nil,
    State.balanceOf_setBalance]

section Runtime

variable (exec : MoveExecutor) (modules : InMemoryModuleStore) (view : MoveBalanceView)

/-- The writes a step's executor returns. -/
def stepWrites : BundleStep → List ResourceWrite
  | .moveCall call =>
      match exec call modules view with
      | some (.ok outcome) => outcome.resourceWrites
      | _ => []
  | _ => []

variable {exec modules view}

theorem runtimeStep_evm {s s' : State} {queued queued' : BundleExecutor.Queue} {tx : EvmTx}
    {verdict : Verdict}
    (h : BundleExecutor.runtimeStep exec modules view s queued (.evm tx) =
      some (s', queued', verdict)) :
    Bridge.submit s (.transfer tx.src tx.dst tx.value) = some (s', verdict) := by
  obtain ⟨⟨t, v⟩, hsubmit, heq⟩ := Option.bind_eq_some_iff.1 h
  cases heq
  exact hsubmit

theorem runtimeStep_move {s s' : State} {queued queued' : BundleExecutor.Queue} {tx : MoveTx}
    {verdict : Verdict}
    (h : BundleExecutor.runtimeStep exec modules view s queued (.move tx) =
      some (s', queued', verdict)) :
    Bridge.submit s (.transfer tx.signer tx.recipient tx.amount) = some (s', verdict) := by
  obtain ⟨⟨t, v⟩, hsubmit, heq⟩ := Option.bind_eq_some_iff.1 h
  cases heq
  exact hsubmit

/-- A call that succeeds has its writes applied; one that fails changes nothing. -/
theorem runtimeStep_moveCall {s s' : State} {queued queued' : BundleExecutor.Queue}
    {call : MoveCall} {verdict : Verdict}
    (h : BundleExecutor.runtimeStep exec modules view s queued (.moveCall call) =
      some (s', queued', verdict)) :
    (∃ outcome, exec call modules view = some (.ok outcome) ∧ verdict = .ok () ∧
      stepWrites exec modules view (.moveCall call) = outcome.resourceWrites ∧
      s' = BundleExecutor.applyResourceWrites s outcome.resourceWrites) ∨
    (∃ e, verdict = .error (.moveCallFailed e) ∧
      stepWrites exec modules view (.moveCall call) = [] ∧ s' = s) := by
  obtain ⟨ran, hexec, heq⟩ := Option.bind_eq_some_iff.1 h
  cases ran with
  | ok outcome =>
      cases heq
      exact .inl ⟨outcome, hexec, rfl, by simp only [stepWrites, hexec], rfl⟩
  | error e =>
      cases heq
      exact .inr ⟨e, rfl, by simp only [stepWrites, hexec], rfl⟩

/-- What a step does: a transfer between two addresses it names, the writes of a call, or nothing to
the state. -/
theorem runtimeStep_cases {s s' : State} {queued queued' : BundleExecutor.Queue}
    {step : BundleStep} {verdict : Verdict}
    (h : BundleExecutor.runtimeStep exec modules view s queued step = some (s', queued', verdict)) :
    (∃ src dst amount, step.recorded = [src, dst] ∧ stepWrites exec modules view step = [] ∧
      Bridge.submit s (.transfer src dst amount) = some (s', verdict)) ∨
    (verdict = .ok () ∧
      s' = BundleExecutor.applyResourceWrites s (stepWrites exec modules view step)) ∨
    (s' = s ∧ stepWrites exec modules view step = []) := by
  cases step with
  | evm tx => exact .inl ⟨_, _, _, rfl, rfl, runtimeStep_evm h⟩
  | move tx => exact .inl ⟨_, _, _, rfl, rfl, runtimeStep_move h⟩
  | moveCall call =>
      rcases runtimeStep_moveCall h with ⟨outcome, -, hok, hwrites, hs⟩ | ⟨e, -, hwrites, hs⟩
      · exact .inr (.inl ⟨hok, by rw [hwrites, hs]⟩)
      · exact .inr (.inr ⟨hs, hwrites⟩)
  | deployModule account name bytes =>
      simp only [BundleExecutor.runtimeStep] at h
      split_ifs at h <;> cases h <;> exact .inr (.inr ⟨rfl, rfl⟩)

/-- What a step does to a balance that it does not record. -/
theorem runtimeStep_balanceOf {s s' : State} {queued queued' : BundleExecutor.Queue}
    {step : BundleStep} {verdict : Verdict}
    (h : BundleExecutor.runtimeStep exec modules view s queued step = some (s', queued', verdict))
    {a : Address} (ha : a ∉ step.recorded) :
    s'.balanceOf a = (lastWriteTo a (stepWrites exec modules view step)).getD (s.balanceOf a) := by
  rcases runtimeStep_cases h with ⟨src, dst, amount, hsides, hwrites, hsubmit⟩ | ⟨-, rfl⟩ |
    ⟨rfl, hwrites⟩
  · simp only [hsides, List.mem_cons, List.not_mem_nil, or_false, not_or] at ha
    rw [hwrites]
    exact submit_balanceOf_of_ne hsubmit ha.1 ha.2
  · exact balanceOf_applyResourceWrites s _ a
  · rw [hwrites]
    rfl

/-- A step that fails changes nothing. -/
theorem runtimeStep_error {s s' : State} {queued queued' : BundleExecutor.Queue} {step : BundleStep}
    {reason : RejectReason}
    (h : BundleExecutor.runtimeStep exec modules view s queued step =
      some (s', queued', .error reason)) : s' = s := by
  rcases runtimeStep_cases h with ⟨src, dst, amount, -, -, hsubmit⟩ | ⟨hok, -⟩ | ⟨hsame, -⟩
  · exact submit_error hsubmit
  · cases hok
  · exact hsame

/-- A run commits only if its first step succeeds and the rest commits. -/
theorem runtimeFrom_cons_committed {order : IterOrder} {snap : OrdMap Address Balance}
    {step : BundleStep} {steps : List BundleStep} {idx : Nat} {s s' : State}
    {queued : BundleExecutor.Queue} {outcomes : List TxOutcome} {modules' : InMemoryModuleStore}
    {result : BundleResult}
    (h : BundleExecutor.runtimeFrom exec modules view order snap idx (step :: steps) s queued
      outcomes = some (s', modules', result)) (hcommit : result.outcome = .committed) :
    ∃ t queued', BundleExecutor.runtimeStep exec modules view s queued step =
        some (t, queued', .ok ()) ∧
      BundleExecutor.runtimeFrom exec modules view order snap (idx + 1) steps t queued'
        (outcomes ++ [.committed]) = some (s', modules', result) := by
  obtain ⟨⟨t, queued', verdict⟩, hstep, heq⟩ := Option.bind_eq_some_iff.1 h
  cases verdict with
  | error reason =>
      cases heq
      cases hcommit
  | ok u => exact ⟨t, queued', hstep, heq⟩

/-- A bundle of one Move call that commits has applied the call's writes. -/
theorem committed_moveCall {order : IterOrder} {s s' : State} {call : MoveCall}
    {modules' : InMemoryModuleStore} {result : BundleResult}
    (h : BundleExecutor.executeWithMoveRuntime exec modules view order s ⟨[.moveCall call]⟩ =
      some (s', modules', result)) (hcommit : result.outcome = .committed) :
    ∃ outcome, exec call modules view = some (.ok outcome) ∧
      s' = BundleExecutor.applyResourceWrites s outcome.resourceWrites := by
  obtain ⟨t, queued, hstep, hrest⟩ := runtimeFrom_cons_committed h hcommit
  cases hrest
  obtain ⟨outcome, hexec, -, -, hs⟩ | ⟨e, hfail, -⟩ := runtimeStep_moveCall hstep
  · exact ⟨outcome, hexec, hs⟩
  · cases hfail

variable (exec modules view) in
/-- The step `k` fails, after the steps before it have succeeded. -/
def FailsAt : Nat → List BundleStep → State → BundleExecutor.Queue → Prop
  | _, [], _, _ => False
  | 0, step :: _, s, queued => ∃ s' queued' reason,
      BundleExecutor.runtimeStep exec modules view s queued step =
        some (s', queued', .error reason)
  | k + 1, step :: steps, s, queued => ∃ s' queued',
      BundleExecutor.runtimeStep exec modules view s queued step = some (s', queued', .ok ()) ∧
      FailsAt k steps s' queued'

/-- A failing step reverts the bundle: the module store is the one before, and the state is one in
which the steps before have run, with the snapshot written back. -/
theorem FailsAt.runtimeFrom {steps : List BundleStep} {k : Nat} {s : State}
    {queued : BundleExecutor.Queue} (h : FailsAt exec modules view k steps s queued)
    {recorded : List Address} (hrecorded : ∀ step ∈ steps, step.recorded ⊆ recorded)
    (order : IterOrder) (snap : OrdMap Address Balance) (idx : Nat) (outcomes : List TxOutcome) :
    ∃ t result, BundleExecutor.runtimeFrom exec modules view order snap idx steps s queued
        outcomes = some (restoreSnapshot order t snap, modules, result) ∧
      result.outcome = .reverted (idx + k) ∧
      ∀ a ∉ recorded, t.balanceOf a = (lastWriteTo a ((steps.take k).flatMap
        (stepWrites exec modules view))).getD (s.balanceOf a) := by
  induction steps generalizing k s queued idx outcomes with
  | nil => cases k <;> exact h.elim
  | cons step steps ih =>
      obtain ⟨hstep, hrest⟩ := List.forall_mem_cons.1 hrecorded
      cases k with
      | zero =>
          obtain ⟨s', queued', reason, hrun⟩ := h
          obtain rfl := runtimeStep_error hrun
          exact ⟨s', _, by rw [BundleExecutor.runtimeFrom, hrun]; rfl, rfl, fun a _ => rfl⟩
      | succ k =>
          obtain ⟨s', queued', hrun, hfails⟩ := h
          obtain ⟨t, result, hfrom, hreverted, hbalance⟩ :=
            ih hfails hrest (idx + 1) (outcomes ++ [.committed])
          refine ⟨t, result, ?_, ?_, fun a ha => ?_⟩
          · rw [BundleExecutor.runtimeFrom, hrun]
            exact hfrom
          · rw [hreverted, Nat.add_right_comm, Nat.add_assoc]
          · rw [hbalance a ha, runtimeStep_balanceOf hrun fun hmem => ha (hstep hmem),
              List.take_succ_cons, List.flatMap_cons, lastWriteTo_append]
            cases lastWriteTo a ((steps.take k).flatMap (stepWrites exec modules view)) <;> rfl

/-- Only a failing step reverts a bundle. -/
theorem exists_failsAt {order : IterOrder} {snap : OrdMap Address Balance}
    {steps : List BundleStep} {idx j : Nat} {s s' : State} {queued : BundleExecutor.Queue}
    {outcomes : List TxOutcome} {modules' : InMemoryModuleStore} {result : BundleResult}
    (h : BundleExecutor.runtimeFrom exec modules view order snap idx steps s queued outcomes =
      some (s', modules', result)) (hreverted : result.outcome = .reverted j) :
    ∃ k, FailsAt exec modules view k steps s queued := by
  induction steps generalizing idx s queued outcomes with
  | nil =>
      obtain ⟨-, -, rfl⟩ : s = s' ∧ _ = modules' ∧ _ = result := by
        simpa [BundleExecutor.runtimeFrom] using h
      cases hreverted
  | cons step steps ih =>
      obtain ⟨⟨t, queued', verdict⟩, hrun, heq⟩ := Option.bind_eq_some_iff.1 h
      cases verdict with
      | ok u =>
          obtain ⟨k, hfails⟩ := ih heq
          exact ⟨k + 1, t, queued', hrun, hfails⟩
      | error reason => exact ⟨0, t, queued', reason, hrun⟩

/-- A reverted bundle leaves the module store and every balance as they were, exactly when a failing
step finds that, among the calls before it, the last write to an address that no step names wrote
the balance the address had. -/
theorem executeWithMoveRuntime_reverted_iff (exec : MoveExecutor) (modules : InMemoryModuleStore)
    (view : MoveBalanceView) (order : IterOrder) (s : State) (bundle : Bundle) :
    (∀ s' modules' result k, BundleExecutor.executeWithMoveRuntime exec modules view order s
        bundle = some (s', modules', result) → result.outcome = .reverted k →
      (∀ a, s'.balanceOf a = s.balanceOf a) ∧ modules' = modules) ↔
    ∀ k, FailsAt exec modules view k bundle.steps s [] → ∀ a ∉ bundle.recorded, ∀ bal,
      lastWriteTo a ((bundle.steps.take k).flatMap (stepWrites exec modules view)) = some bal →
        bal = s.balanceOf a := by
  have hrecorded : ∀ step ∈ bundle.steps, step.recorded ⊆ bundle.recorded :=
    fun step hstep a ha => List.mem_flatMap.2 ⟨step, hstep, ha⟩
  unfold BundleExecutor.executeWithMoveRuntime
  split_ifs with hempty
  · have hnil : bundle.steps = [] := List.isEmpty_iff.1 hempty
    constructor
    · intro _ k hfails
      rw [hnil] at hfails
      cases k <;> exact hfails.elim
    · intro _ s' modules' result k h hreverted
      cases h
      cases hreverted
  constructor
  · intro hatomic k hfails a ha bal hbal
    obtain ⟨t, result, hrun, hreverted, hbalance⟩ :=
      hfails.runtimeFrom hrecorded order (collectSnapshot s bundle) 0 []
    have hsame := (hatomic _ _ _ _ hrun hreverted).1 a
    rw [balanceOf_restoreSnapshot, if_neg ha, hbalance a ha, hbal] at hsame
    exact hsame
  · intro hwrites s' modules' result j h hreverted
    obtain ⟨k, hfails⟩ := exists_failsAt h hreverted
    obtain ⟨t, result', hrun, -, hbalance⟩ :=
      hfails.runtimeFrom hrecorded order (collectSnapshot s bundle) 0 []
    obtain ⟨rfl, rfl, -⟩ : _ = s' ∧ modules = modules' ∧ result' = result := by
      simpa using hrun.symm.trans h
    refine ⟨fun a => ?_, rfl⟩
    rw [balanceOf_restoreSnapshot]
    split_ifs with ha
    · rfl
    · rw [hbalance a ha]
      cases hbal : lastWriteTo a
        ((bundle.steps.take k).flatMap (stepWrites exec modules view)) with
      | none => rfl
      | some bal => exact hwrites k hfails a ha bal hbal

end Runtime

/-- The balances of the small state, as a Move executor sees them. -/
def smallView : MoveBalanceView where
  coinValue addr := smallState.balanceOf addr.toEvm
  nonce addr := (smallState.slotOf addr.toEvm).nonce

/-- `0x1::coin::transfer` of 40 from address 1 to address 2. -/
def coinTransfer : MoveCall where
  caller := MoveAddress.fromEvm (smallAddress 1)
  module := ⟨CANONICAL_COIN_ADDRESS, ⟨ascii "coin", by decide⟩⟩
  function := ⟨ascii "transfer", by decide⟩
  typeArguments := []
  arguments := [(MoveAddress.fromEvm (smallAddress 2)).val, [40, 0, 0, 0, 0, 0, 0, 0]]

/-- The Move call, and then a transfer that address 3 cannot pay. -/
def failingBundle : Bundle := ⟨[.moveCall coinTransfer, .evm ⟨smallAddress 3, smallAddress 4, 1⟩]⟩

/-- The bundle reverts at its second step. Address 1 has its 100 back, and address 2 keeps 40. -/
theorem failingBundle_leaves_40 :
    (BundleExecutor.executeWithMoveRuntime mockMoveExecutor {} smallView default smallState
      failingBundle).map (fun r =>
        (r.2.2.outcome, r.1.balanceOf (smallAddress 1), r.1.balanceOf (smallAddress 2))) =
      some (.reverted 1, 100, 40) ∧
    smallState.balanceOf (smallAddress 2) = 0 := by
  decide +kernel

end SuwappuDb
