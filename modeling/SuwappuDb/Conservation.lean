import Mathlib.Data.Fintype.List
import Mathlib.Data.Fintype.Vector
import SuwappuDb.LedgerRefinement
import SuwappuDb.TransferBundle

/-!
# Conservation of supply

The sum of all balances, as an unbounded number, over any sequence of operations on a state:
blocks under any registry and schedule, `submit`, `transfer_internal` and transfer bundles.

None of the operations keeps the sum write by write. What they keep is the ledger up to transfers
(`Ledger.TransfersTo`), and a reverted bundle the ledger itself. `supply_conserved` follows for
whole sequences, and with it that no operation panics: a balance computation that would wrap has no
result here. `credit` and `debit` are the operations that change the sum, by their amounts
(`StateOp.run_spec`).
-/

namespace SuwappuDb

open Ledger

/-! ## Transfer bundles -/

theorem submitThen_ledger {s t : State} {intent : Intent}
    {rest : State → Option (Except (Nat × RejectReason) State)}
    (hrest : ∀ s', rest s' = some (.ok t) → TransfersTo CAP s'.ledger t.ledger)
    (h : submitThen s intent rest = some (.ok t)) : TransfersTo CAP s.ledger t.ledger := by
  obtain ⟨s', hsubmit, hok⟩ := submitThen_eq_ok h
  obtain ⟨s'', verdict, hsubmit', htransfers⟩ := submit_transfersTo s intent
  cases hsubmit.symm.trans hsubmit'
  exact htransfers.trans (hrest s' hok)

theorem submitEach_ledger {intents : List Intent} {s t : State}
    (h : submitEach intents s = some (.ok t)) : TransfersTo CAP s.ledger t.ledger := by
  induction intents generalizing s with
  | nil =>
      cases h
      exact .refl CAP _
  | cons intent rest ih => exact submitThen_ledger (fun s' => ih) h

theorem submitSteps_ledger {steps : List BundleStep} {s t : State}
    (h : submitSteps steps s = some (.ok t)) : TransfersTo CAP s.ledger t.ledger := by
  induction steps generalizing s with
  | nil =>
      cases h
      exact .refl CAP _
  | cons step rest ih =>
      rw [submitSteps] at h
      cases hintent : stepToIntent step with
      | none =>
          rw [hintent] at h
          cases h
      | some intent =>
          rw [hintent] at h
          exact submitThen_ledger (fun s' => ih) h

/-- A bundle makes transfers, or leaves the ledger as it was. -/
theorem execute_ledger (order : IterOrder) (s : State) (bundle : Bundle) :
    ∃ s' result, BundleExecutor.execute order s bundle = some (s', result) ∧
      TransfersTo CAP s.ledger s'.ledger := by
  rcases execute_spec order s bundle with ⟨t, hok, hrun⟩ | ⟨k, reason, s', -, hrun, hslots⟩
  · exact ⟨t, _, hrun, submitSteps_ledger hok⟩
  · have hsame : s'.ledger = s.ledger := by
      funext a
      rw [State.ledger, balanceOf_restored hslots]
      rfl
    refine ⟨s', _, hrun, ?_⟩
    rw [hsame]
    exact .refl CAP _

/-! ## Supply -/

/-- The sum of all balances, as an unbounded number. -/
def State.supply (s : State) : ℕ := (s.store.slots.entries.map fun p => p.2.canonical.val).sum

instance (n : Nat) : Fintype (ByteArr n) := inferInstanceAs (Fintype (List.Vector Byte n))

/-- The balances of an entry list, summed over all addresses. -/
theorem sum_lookup (l : List (Address × BalanceSlot)) (hnodup : (l.map Prod.fst).Nodup) :
    ∑ a, ((l.lookup a).map fun slot => slot.canonical.val).getD 0 =
      (l.map fun p => p.2.canonical.val).sum := by
  induction l with
  | nil => simp
  | cons p rest ih =>
      obtain ⟨hnot, hrest⟩ := List.nodup_cons.1 hnodup
      have hsplit : ∀ a, (((p :: rest).lookup a).map fun slot => slot.canonical.val).getD 0 =
          (if a = p.1 then p.2.canonical.val else 0) +
            ((rest.lookup a).map fun slot => slot.canonical.val).getD 0 := by
        intro a
        rw [lookup_cons_ite]
        split_ifs with ha
        · rw [ha, lookup_eq_none_iff.2 hnot]
          rfl
        · rw [Nat.zero_add]
      rw [Finset.sum_congr rfl fun a _ => hsplit a, Finset.sum_add_distrib, ih hrest,
        Finset.sum_ite_eq' Finset.univ p.1, if_pos (Finset.mem_univ p.1), List.map_cons,
        List.sum_cons]

theorem supply_eq_sum (s : State) : s.supply = ∑ a, s.ledger a := by
  rw [State.supply, ← sum_lookup _ s.store.slots.sorted.nodup_keys]
  refine Finset.sum_congr rfl fun a _ => ?_
  have hget : s.store.slots.entries.lookup a = s.store.slots.get? a :=
    OrdMap.lookup_arranged (List.Perm.refl _) a
  rw [hget, State.ledger, State.balanceOf, InMemoryBalanceStore.get]
  cases s.store.slots.get? a with
  | none => rfl
  | some slot => rfl

theorem supply_eq_of_transfersTo {s s' : State} (h : TransfersTo CAP s.ledger s'.ledger) :
    s'.supply = s.supply := by
  rw [supply_eq_sum, supply_eq_sum]
  exact h.sum_eq

/-! ## Minting and burning -/

theorem ledger_setBalance (s : State) (addr : Address) (bal : Balance) :
    (s.apply (.setBalance addr bal)).ledger = Function.update s.ledger addr bal.val := by
  funext a
  rw [Function.update_apply]
  simp only [State.ledger, State.balanceOf_setBalance]
  split_ifs <;> rfl

/-- A balance takes the place of another in the supply. -/
theorem supply_setBalance (s : State) (addr : Address) (bal : Balance) :
    (s.apply (.setBalance addr bal)).supply + s.ledger addr = s.supply + bal.val := by
  rw [supply_eq_sum, supply_eq_sum, ledger_setBalance,
    Finset.sum_update_of_mem (Finset.mem_univ addr), ← Finset.erase_eq,
    ← Finset.add_sum_erase Finset.univ s.ledger (Finset.mem_univ addr)]
  omega

/-- Everything `credit` can do. -/
theorem credit_cases (s : State) (addr : Address) (amount : U128) :
    (amount = 0 ∧ Bridge.credit s addr amount = (s, .ok ())) ∨
    (amount ≠ 0 ∧ CAP ≤ s.ledger addr + amount.val ∧
      Bridge.credit s addr amount = (s, .error .amountOverflow)) ∨
    (amount ≠ 0 ∧ ∃ new : U128, new.val = s.ledger addr + amount.val ∧
      Bridge.credit s addr amount = (s.apply (.setBalance addr new), .ok ())) := by
  by_cases hzero : amount = 0
  · exact .inl ⟨hzero, by simp [Bridge.credit, hzero]⟩
  · right
    cases hadd : checkedAdd (s.balanceOf addr) amount with
    | none =>
        exact .inl ⟨hzero, checkedAdd_eq_none.1 hadd, by simp [Bridge.credit, hzero, hadd]⟩
    | some new =>
        exact .inr ⟨hzero, new, (checkedAdd_eq_some.1 hadd).symm,
          by simp [Bridge.credit, hzero, hadd]⟩

/-- Everything `debit` can do; it never panics. -/
theorem debit_cases (s : State) (addr : Address) (amount : U128) :
    (amount = 0 ∧ Bridge.debit s addr amount = some (s, .ok ())) ∨
    (amount ≠ 0 ∧ s.ledger addr < amount.val ∧
      Bridge.debit s addr amount = some (s, .error .insufficientBalance)) ∨
    (amount ≠ 0 ∧ amount.val ≤ s.ledger addr ∧
      ∃ new : U128, new.val = s.ledger addr - amount.val ∧
        Bridge.debit s addr amount = some (s.apply (.setBalance addr new), .ok ())) := by
  by_cases hzero : amount = 0
  · exact .inl ⟨hzero, by simp [Bridge.debit, hzero]⟩
  · right
    by_cases hlt : s.balanceOf addr < amount
    · exact .inl ⟨hzero, hlt, by simp [Bridge.debit, hzero, hlt]⟩
    · refine .inr ⟨hzero, not_lt.1 hlt, ⟨s.ledger addr - amount.val, ?_⟩, rfl, ?_⟩
      · exact Nat.lt_of_le_of_lt (Nat.sub_le _ _) (s.balanceOf addr).isLt
      · simp only [Bridge.debit, hzero, hlt, if_false, sub?_of_not_lt hlt]
        rfl

namespace BridgeOp

/-- What an operation adds to the supply, given its verdict. -/
def minted : BridgeOp → Verdict → ℕ
  | .credit _ amount, .ok () => amount.val
  | _, _ => 0

/-- What an operation takes out of the supply, given its verdict. -/
def burned : BridgeOp → Verdict → ℕ
  | .debit _ amount, .ok () => amount.val
  | _, _ => 0

/-- A call of the bridge returns, a rejected one leaves the state alone, and the books balance. -/
theorem run_spec (s : State) (op : BridgeOp) :
    ∃ s' verdict, op.run s = some (s', verdict) ∧
      ((∃ reason, verdict = .error reason) → s' = s) ∧
      s'.supply + op.burned verdict = s.supply + op.minted verdict := by
  cases op with
  | submit intent =>
      obtain ⟨s', verdict, hrun, htransfers⟩ := submit_transfersTo s intent
      refine ⟨s', verdict, hrun, ?_, supply_eq_of_transfersTo htransfers⟩
      rintro ⟨reason, rfl⟩
      exact Bridge.submit_rejected hrun
  | transferInternal src dst amount =>
      obtain ⟨s', verdict, hrun, htransfers⟩ := transferInternal_ledger s src dst amount
      refine ⟨s', verdict, hrun, ?_, supply_eq_of_transfersTo htransfers⟩
      rintro ⟨reason, rfl⟩
      exact Bridge.transferInternal_rejected hrun
  | credit addr amount =>
      rcases credit_cases s addr amount with
        ⟨rfl, hrun⟩ | ⟨-, -, hrun⟩ | ⟨-, new, hnew, hrun⟩
      · exact ⟨s, .ok (), congrArg some hrun, by simp, rfl⟩
      · exact ⟨s, _, congrArg some hrun, fun _ => rfl, rfl⟩
      · refine ⟨_, _, congrArg some hrun, by simp, ?_⟩
        have hsupply := supply_setBalance s addr new
        simp only [burned, minted]
        omega
  | debit addr amount =>
      rcases debit_cases s addr amount with
        ⟨rfl, hrun⟩ | ⟨-, -, hrun⟩ | ⟨-, henough, new, hnew, hrun⟩
      · exact ⟨s, .ok (), hrun, by simp, rfl⟩
      · exact ⟨s, _, hrun, fun _ => rfl, rfl⟩
      · refine ⟨_, _, hrun, by simp, ?_⟩
        have hsupply := supply_setBalance s addr new
        simp only [burned, minted]
        omega
  | writeBytes addr bytes =>
      refine ⟨_, .ok (), rfl, by simp, ?_⟩
      show (s.apply (.setBytes addr bytes)).supply = s.supply
      simp only [State.supply, State.apply, InMemoryBalanceStore.setBytes]
      split_ifs <;> rfl

end BridgeOp

/-! ## Runs -/

/-- An operation on a state, with what it takes from its surroundings. -/
inductive StateOp where
  | bridge (op : BridgeOp)
  | block (sched : Schedule) (intents : List Intent) (registry : ContractRegistry)
  | bundle (order : IterOrder) (b : Bundle)

/-- What an operation returns. -/
inductive OpResult where
  | verdict (verdict : Verdict)
  | report (report : BlockReport)
  | bundle (result : BundleResult)

def StateOp.run (blake3 : Blake3) (s : State) : StateOp → Option (State × OpResult)
  | .bridge op => (op.run s).map (Prod.map id .verdict)
  | .block sched intents registry =>
      (BlockExecutor.executeWithRegistry blake3 sched s intents registry).map
        (Prod.map id .report)
  | .bundle order b => (BundleExecutor.execute order s b).map (Prod.map id .bundle)

/-- Operations one after another, with what each returns. -/
def runOps (blake3 : Blake3) : State → List StateOp → Option (State × List OpResult) :=
  runAll (StateOp.run blake3)

/-- Every operation but `credit` and `debit`. -/
def StateOp.Moves : StateOp → Prop
  | .bridge (.credit ..) => False
  | .bridge (.debit ..) => False
  | _ => True

/-- What an operation adds to the supply, given what it returned. -/
def StateOp.minted : StateOp → OpResult → ℕ
  | .bridge op, .verdict verdict => op.minted verdict
  | _, _ => 0

/-- What an operation takes out of the supply, given what it returned. -/
def StateOp.burned : StateOp → OpResult → ℕ
  | .bridge op, .verdict verdict => op.burned verdict
  | _, _ => 0

/-- The operation was rejected by the bridge. -/
def OpResult.rejected : OpResult → Bool
  | .verdict (.error _) => true
  | _ => false

/-- Every operation returns, a rejected one leaves the state alone, and the books balance. -/
theorem StateOp.run_spec (blake3 : Blake3) (s : State) (op : StateOp) :
    ∃ s' result, op.run blake3 s = some (s', result) ∧ (result.rejected = true → s' = s) ∧
      s'.supply + op.burned result = s.supply + op.minted result := by
  cases op with
  | bridge op =>
      obtain ⟨s', verdict, hrun, hkept, hsupply⟩ := op.run_spec s
      refine ⟨s', .verdict verdict, by rw [StateOp.run, hrun]; rfl, fun h => hkept ?_, hsupply⟩
      cases verdict with
      | ok => cases h
      | error reason => exact ⟨reason, rfl⟩
  | block sched intents registry =>
      obtain ⟨s', report, hrun, htransfers⟩ :=
        executeWithRegistry_ledger blake3 sched s intents registry
      exact ⟨s', .report report, by rw [StateOp.run, hrun]; rfl, fun h => (by cases h),
        supply_eq_of_transfersTo htransfers⟩
  | bundle order b =>
      obtain ⟨s', result, hrun, htransfers⟩ := execute_ledger order s b
      exact ⟨s', .bundle result, by rw [StateOp.run, hrun]; rfl, fun h => (by cases h),
        supply_eq_of_transfersTo htransfers⟩

theorem StateOp.Moves.minted {op : StateOp} (h : op.Moves) (result : OpResult) :
    op.minted result = 0 ∧ op.burned result = 0 := by
  cases op with
  | bridge op =>
      cases op with
      | credit addr amount => exact absurd h id
      | debit addr amount => exact absurd h id
      | _ => cases result <;> exact ⟨rfl, rfl⟩
  | _ => exact ⟨rfl, rfl⟩

/-- Any sequence of operations that only move what there is goes through, no balance wraps, and the
supply is what it was. -/
theorem supply_conserved (blake3 : Blake3) (s : State) {ops : List StateOp}
    (hops : ∀ op ∈ ops, op.Moves) :
    ∃ s' results, runOps blake3 s ops = some (s', results) ∧ s'.supply = s.supply := by
  induction ops generalizing s with
  | nil => exact ⟨s, [], rfl, rfl⟩
  | cons op ops ih =>
      obtain ⟨hop, hrest⟩ := List.forall_mem_cons.1 hops
      obtain ⟨t, result, hrun, -, hsupply⟩ := op.run_spec blake3 s
      obtain ⟨s', results, hruns, hsame⟩ := ih t hrest
      obtain ⟨hminted, hburned⟩ := hop.minted result
      refine ⟨s', result :: results, ?_, ?_⟩
      · rw [runOps, runAll_cons hrun]
        exact congrArg (Option.map _) hruns
      · omega

/-- A payment, one that is rejected, and a block with a third. -/
def movingOps : List StateOp := [
  .bridge (.submit (.transfer (smallAddress 1) (smallAddress 2) 60)),
  .bridge (.transferInternal (smallAddress 1) (smallAddress 2) 60),
  .block default [.transfer (smallAddress 2) (smallAddress 3) 10] {}]

theorem supply_conserved_movingOps :
    (∀ op ∈ movingOps, op.Moves) ∧
    ∀ blake3, ∃ s' results, runOps blake3 smallState movingOps = some (s', results) ∧
      s'.supply = smallState.supply := by
  have hmoves : ∀ op ∈ movingOps, op.Moves := by simp [movingOps, StateOp.Moves]
  exact ⟨hmoves, fun blake3 => supply_conserved blake3 smallState hmoves⟩

end SuwappuDb
