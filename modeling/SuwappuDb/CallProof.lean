import SuwappuDb.SubmissionProof
import SuwappuDb.TransferBundle

/-!
# A called bundle in the two engines

A contract's bundle can be run by a block, as one transaction, or by `BundleExecutor.execute`. The
block runs it over its own values and publishes them at the end; the standalone engine changes the
state and takes the changes back.

* `Bundle.transfersOnly` — the two treat what is not a transfer differently, and on purpose. A block
  passes over Move calls and deployments, which do not flow through its loop; the standalone engine
  rejects them.
* `callSteps_submitEach` — a run of the block's step loop is the submission of the transfers. The
  invariant: the bundle's own values over what the run sees show the ledger of the state that
  submission has reached.
* `executeCall_eq_execute` — so the block agrees with the standalone engine on the transfers, as
  long as no transfer to oneself overflows, which only the block checks.
-/

namespace SuwappuDb

open Ledger

/-- The bundle without its Move calls and deployments. -/
def Bundle.transfersOnly (bundle : Bundle) : Bundle :=
  ⟨bundle.steps.filter fun step => (stepToIntent step).isSome⟩

theorem Bundle.transfers_transfersOnly (bundle : Bundle) : bundle.transfersOnly.Transfers :=
  fun _ hstep => (List.mem_filter.1 hstep).2

theorem Bundle.intents_transfersOnly (bundle : Bundle) :
    bundle.transfersOnly.intents = bundle.intents := by
  rw [Bundle.intents, Bundle.transfersOnly, List.filterMap_filter]
  refine List.filterMap_congr fun step _ => ?_
  cases stepToIntent step <;> rfl

/-- No transfer to oneself, among those submitted until one is rejected, of an amount that is there,
would overflow the balance. -/
def NoSelfOverflow (s : State) (intents : List Intent) : Prop :=
  ∀ before a amount after t, intents = before ++ .transfer a a amount :: after →
    submitEach before s = some (.ok t) → amount ≤ t.balanceOf a →
    (t.balanceOf a).val + amount.val < 2 ^ 128

theorem NoSelfOverflow.tail {s s' : State} {intent : Intent} {rest : List Intent}
    (h : NoSelfOverflow s (intent :: rest)) (hsubmit : Bridge.submit s intent = some (s', .ok ())) :
    NoSelfOverflow s' rest := by
  intro before a amount after t heq hbefore
  refine h (intent :: before) a amount after t (by rw [heq, List.cons_append]) ?_
  simp only [submitEach, submitThen, hsubmit, hbefore, Option.bind_eq_bind, Option.bind_some]
  rfl

/-- Both engines read the same transfer off a step. -/
theorem stepToIntent_eq (step : BundleStep) :
    stepToIntent step = (stepTransfer step).map fun p => .transfer p.1 p.2.1 p.2.2 := by
  cases step <;> rfl

/-! ## The step loop -/

section Run

variable {answer : (op : MvOp) → op.Res} {i : TxnIdx} {f : Address → ℕ} (hshows : Shows answer i f)
  (env : RunEnv)

include hshows

/-- One transfer step in the two engines: both reject it, for the same reason, or both make it. -/
theorem callSteps_submit {step : BundleStep} {src dst : Address} {amount : U128}
    (hstep : stepTransfer step = some (src, dst, amount)) (steps : List BundleStep)
    (loc : OrdMap Address BalanceSlot) (reads : List ReadEntry) {t : State}
    (ht : t.ledger = overlay loc.get? f)
    (hself : src = dst → amount.val ≤ t.ledger src → t.ledger src + amount.val < CAP) :
    (∃ reason, Bridge.submit t (.transfer src dst amount) = some (t, .error reason) ∧
      outcomeOf answer (callSteps env i (step :: steps) loc reads) = some (.rejected reason) ∧
      written answer (callSteps env i (step :: steps) loc reads) = fun _ => none) ∨
    ∃ t' loc' reads', Bridge.submit t (.transfer src dst amount) = some (t', .ok ()) ∧
      t'.ledger = overlay loc'.get? f ∧
      outcomeOf answer (callSteps env i (step :: steps) loc reads) =
        outcomeOf answer (callSteps env i steps loc' reads') ∧
      written answer (callSteps env i (step :: steps) loc reads) =
        written answer (callSteps env i steps loc' reads') := by
  have hblock := callSteps_cons hshows env hstep steps loc reads
  rw [← ht] at hblock
  rcases hblock with ⟨hlt, hrun⟩ | ⟨henough, hover, hrun⟩ |
    ⟨henough, hfits, loc', reads', hledger, -, hrun⟩
  · exact .inl ⟨_, submit_of_lt hlt, hrun⟩
  · have hne : src ≠ dst := by
      rintro rfl
      exact absurd hover (not_le.2 (hself rfl henough))
    exact .inl ⟨_, submit_of_overflow henough hne hover, hrun⟩
  · by_cases heq : src = dst
    · rw [transfer_eq_self (Or.inr (Or.inl heq))] at hledger
      exact .inr ⟨t, loc', reads', submit_of_self henough heq, hledger.symm, hrun⟩
    · obtain ⟨t', hmoved, hsubmit⟩ := submit_of_fits henough heq hfits
      exact .inr ⟨t', loc', reads', hsubmit, hmoved.ledger_eq.trans hledger.symm, hrun⟩

/-- The step loop of a call is the submission of the bundle's transfers. -/
theorem callSteps_submitEach (steps : List BundleStep) (loc : OrdMap Address BalanceSlot)
    (reads : List ReadEntry) {t : State} (ht : t.ledger = overlay loc.get? f)
    (hself : NoSelfOverflow t (steps.filterMap stepToIntent)) :
    (∃ t', submitEach (steps.filterMap stepToIntent) t = some (.ok t') ∧
      outcomeOf answer (callSteps env i steps loc reads) = some .committed ∧
      overlay (written answer (callSteps env i steps loc reads)) f = t'.ledger) ∨
    ∃ k reason, submitEach (steps.filterMap stepToIntent) t = some (.error (k, reason)) ∧
      outcomeOf answer (callSteps env i steps loc reads) = some (.rejected reason) ∧
      overlay (written answer (callSteps env i steps loc reads)) f = f := by
  induction steps generalizing loc reads t with
  | nil =>
      obtain ⟨houtcome, hwritten⟩ := callSteps_nil answer i env loc reads
      exact .inl ⟨t, rfl, houtcome, by rw [hwritten, ht]⟩
  | cons step steps ih =>
      have hintent := stepToIntent_eq step
      cases hstep : stepTransfer step with
      | none =>
          rw [hstep] at hintent
          rw [List.filterMap_cons_none hintent] at hself ⊢
          rw [callSteps, hstep]
          exact ih loc reads ht hself
      | some p =>
          obtain ⟨src, dst, amount⟩ := p
          rw [hstep] at hintent
          rw [List.filterMap_cons_some hintent] at hself ⊢
          have hfits : src = dst → amount.val ≤ t.ledger src → t.ledger src + amount.val < CAP := by
            rintro rfl
            exact hself [] src amount _ t rfl rfl
          rcases callSteps_submit hshows env hstep steps loc reads ht hfits with
            ⟨reason, hsubmit, houtcome, hwritten⟩ |
            ⟨t', loc', reads', hsubmit, ht', houtcome, hwritten⟩
          · refine .inr ⟨0, reason, ?_, houtcome, by rw [hwritten]; rfl⟩
            simp only [submitEach, submitThen, hsubmit, Option.bind_eq_bind, Option.bind_some]
          · rw [houtcome, hwritten]
            have hcons : submitEach (.transfer src dst amount :: steps.filterMap stepToIntent) t =
                (submitEach (steps.filterMap stepToIntent) t').map
                  (Except.mapError fun p => (p.1 + 1, p.2)) := by
              simp only [submitEach, submitThen, hsubmit, Option.bind_eq_bind, Option.bind_some]
            rcases ih loc' reads' ht' (hself.tail hsubmit) with
              ⟨t'', hok, hrun⟩ | ⟨k, reason, herror, hrun⟩
            · exact .inl ⟨t'', by rw [hcons, hok]; rfl, hrun⟩
            · exact .inr ⟨k + 1, reason, by rw [hcons, herror]; rfl, hrun⟩

end Run

/-! ## One call -/

/-- A block of one call is one run of the bundle's steps, on what the state shows. -/
theorem executeWithRegistry_call (blake3 : Blake3) (sched : Schedule) (s : State)
    {caller target : Address} {value : U128} {calldata : List Byte} {registry : ContractRegistry}
    {g : BundleGenerator} {bundle : Bundle} (hget : registry.get target = some g)
    (hbundle : bundle = callBundle ((sched.pass 0).env 0) g caller target value calldata s) :
    ∃ s' report outcome answer,
      BlockExecutor.executeWithRegistry blake3 sched s [.call caller target value calldata]
        registry = some (s', report) ∧
      report.outcomes = [outcome] ∧ Shows answer 0 s.ledger ∧
      outcomeOf answer (callSteps ((sched.pass 0).env 0) 0 bundle.steps ∅ []) = some outcome ∧
      overlay (written answer (callSteps ((sched.pass 0).env 0) 0 bundle.steps ∅ [])) s.ledger =
        s'.ledger := by
  obtain ⟨fin, hloop, hsettled⟩ :=
    runLoop_single s (.call caller target value calldata) registry sched
  obtain ⟨s', report, hexec, hstate, houtcomes, -⟩ :=
    executeWithRegistry_eq blake3 sched s _ registry hloop
  have hrun : executeAt s [.call caller target value calldata] registry ((sched.pass 0).env 0) 0 =
      callSteps ((sched.pass 0).env 0) 0 bundle.steps ∅ [] := by
    rw [hbundle]
    simp only [executeAt, List.getElem?_cons_zero, executeOne, executeCall, hget]
  have hlength : report.outcomes.length = 1 := by
    rw [houtcomes, List.length_map, hsettled.length, List.length_singleton]
  obtain ⟨outcome, hone⟩ := List.length_eq_one_iff.1 hlength
  refine ⟨s', report, outcome, answers s fin.mv, hexec, hone, ?_, ?_, ?_⟩
  · rw [← viewAt_zero s fin.mv]
    exact shows_viewAt s fin.mv 0
  · have houtcome := hsettled.outcome_eq (i := 0) Nat.one_pos
    rw [hrun, ← houtcomes, hone, List.getElem?_cons_zero] at houtcome
    exact houtcome.symm
  · rw [hstate, ledger_consolidate hsettled.outside, List.length_singleton, viewAt_succ,
      viewAt_zero, funext (hsettled.slotAt_eq (i := 0) Nat.one_pos), hrun]

/-- A block of one call agrees with the standalone engine on the transfers of the bundle that the
contract answers with: it commits when the engine does, or else with the engine's reason, and leaves
the same balances. -/
theorem executeCall_eq_execute (blake3 : Blake3) (sched : Schedule) (order : IterOrder) (s : State)
    (caller target : Address) (value : U128) (calldata : List Byte) (registry : ContractRegistry)
    (g : BundleGenerator) (bundle : Bundle) (hget : registry.get target = some g)
    (hbundle : bundle = callBundle ((sched.pass 0).env 0) g caller target value calldata s)
    (hself : NoSelfOverflow s bundle.intents) :
    ∃ s' report t result,
      BlockExecutor.executeWithRegistry blake3 sched s [.call caller target value calldata]
        registry = some (s', report) ∧
      BundleExecutor.execute order s bundle.transfersOnly = some (t, result) ∧
      (report.outcomes = [.committed] ↔ result.outcome = .committed) ∧
      (∀ k, result.outcome = .reverted k → ∃ reason,
        result.stepOutcomes[k]? = some (.rejected reason) ∧
        report.outcomes = [.rejected reason]) ∧
      ∀ a, s'.balanceOf a = t.balanceOf a := by
  obtain ⟨s', report, outcome, answer, hexec, hone, hshows, houtcome, hledger⟩ :=
    executeWithRegistry_call blake3 sched s hget hbundle
  have hsubmits : submitSteps bundle.transfersOnly.steps s = submitEach bundle.intents s := by
    rw [← bundle.intents_transfersOnly]
    exact submitSteps_eq_submitEach bundle.transfers_transfersOnly s
  rcases execute_spec order s bundle.transfersOnly with
    ⟨t, hok, hexec'⟩ | ⟨k, reason, t, herror, hexec', hslots⟩ <;>
  rcases callSteps_submitEach hshows ((sched.pass 0).env 0) bundle.steps ∅ [] (t := s) rfl hself
    with ⟨t', hok', hcommit, hfinal⟩ | ⟨k', reason', herror', hreject, hfinal⟩
  · obtain rfl : t = t' := by simpa using (hok.symm.trans hsubmits).trans hok'
    obtain rfl : outcome = .committed := by simpa using houtcome.symm.trans hcommit
    refine ⟨s', report, t, _, hexec, hexec', by simp [hone], by simp, fun a => ?_⟩
    exact Fin.ext (congrFun (hledger.symm.trans hfinal) a)
  · cases (hok.symm.trans hsubmits).trans herror'
  · cases (herror.symm.trans hsubmits).trans hok'
  · obtain ⟨rfl, rfl⟩ : k = k' ∧ reason = reason' := by
      simpa using (herror.symm.trans hsubmits).trans herror'
    obtain rfl : outcome = .rejected reason := by simpa using houtcome.symm.trans hreject
    refine ⟨s', report, t, _, hexec, hexec', by simp [hone], fun j hj => ?_, fun a => ?_⟩
    · cases hj
      exact ⟨reason, by simp, hone⟩
    · rw [balanceOf_restored hslots]
      exact Fin.ext (congrFun (hledger.symm.trans hfinal) a)

/-- A contract that takes the value it is called with and gives 5 back, with a Move call between. -/
def mixedGenerator : BundleGenerator where
  generate _ ctx := ⟨[.evm ⟨ctx.caller, ctx.target, ctx.value⟩, .moveCall coinTransfer,
    .move ⟨ctx.target, ctx.caller, 5⟩]⟩

/-- A contract that only makes a Move call. -/
def callingGenerator : BundleGenerator where
  generate _ _ := ⟨[.moveCall coinTransfer]⟩

/-- The two contracts, at addresses 8 and 9. -/
def callRegistry : ContractRegistry :=
  ⟨((∅ : OrdMap Address BundleGenerator).insert (smallAddress 8) mixedGenerator).insert
    (smallAddress 9) callingGenerator⟩

/-- Address 1 calls the first contract with 20. -/
def mixedBundle : Bundle :=
  ⟨[.evm ⟨smallAddress 1, smallAddress 8, 20⟩, .moveCall coinTransfer,
    .move ⟨smallAddress 8, smallAddress 1, 5⟩]⟩

theorem noSelfOverflow_mixedBundle : NoSelfOverflow smallState mixedBundle.intents := by
  intro before a amount after t heq
  have hmem : .transfer a a amount ∈ mixedBundle.intents := by simp [heq]
  have hintents : mixedBundle.intents = [.transfer (smallAddress 1) (smallAddress 8) 20,
      .transfer (smallAddress 8) (smallAddress 1) 5] := rfl
  rw [hintents] at hmem
  simp only [List.mem_cons, List.not_mem_nil, or_false, Intent.transfer.injEq] at hmem
  rcases hmem with ⟨hsrc, hdst, -⟩ | ⟨hsrc, hdst, -⟩ <;>
    exact absurd (hsrc.symm.trans hdst) (by decide)

theorem executeCall_mixedBundle :
    NoSelfOverflow smallState mixedBundle.intents ∧
    ∀ blake3 : Blake3, ∃ s' report t result,
      BlockExecutor.executeWithRegistry blake3 default smallState
        [.call (smallAddress 1) (smallAddress 8) 20 []] callRegistry = some (s', report) ∧
      BundleExecutor.execute default smallState mixedBundle.transfersOnly = some (t, result) ∧
      (report.outcomes = [.committed] ↔ result.outcome = .committed) ∧
      (∀ k, result.outcome = .reverted k → ∃ reason,
        result.stepOutcomes[k]? = some (.rejected reason) ∧
        report.outcomes = [.rejected reason]) ∧
      ∀ a, s'.balanceOf a = t.balanceOf a :=
  ⟨noSelfOverflow_mixedBundle, fun blake3 => executeCall_eq_execute blake3 default default
    smallState (smallAddress 1) (smallAddress 8) 20 [] callRegistry mixedGenerator mixedBundle rfl
    rfl noSelfOverflow_mixedBundle⟩

/-- The second contract's bundle, a Move call alone, commits in a block and not standalone. -/
theorem executeCall_moveCall_differs :
    (∀ blake3 : Blake3, (BlockExecutor.executeWithRegistry blake3 default smallState
      [.call (smallAddress 1) (smallAddress 9) 0 []] callRegistry).map (fun r => r.2.outcomes) =
        some [.committed]) ∧
    (BundleExecutor.execute default smallState (callingGenerator.generate 0
      ⟨smallAddress 1, smallAddress 9, 0, [], smallState, 0⟩)).map (fun r => r.2) =
        some ⟨[.rejected .moveRuntimeRequired], .reverted 0⟩ :=
  ⟨fun _ => rfl, rfl⟩

end SuwappuDb
