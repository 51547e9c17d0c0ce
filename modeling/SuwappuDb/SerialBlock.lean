import SuwappuDb.LedgerRefinement

/-!
# A block is its transactions, one after another

What the block executor is for, said without versions, passes and schedules: each transaction is a
list of transfers that are made on the state in order, all of them or, if one is rejected, none
(`serialIntent`), and a block is its transactions in order (`serialBlock`). The contracts of a block
answer all its calls with the state before the block, which is why `serialBlock` has that state as a
parameter of its own.

* `executeWithRegistry_eq_serial` — the executor does that, whatever its schedule.
* `remove_rejected` — a rejected transaction leaves no trace.
* `block_boundary` — a block may be cut in two, where the contracts called after the cut answer the
  same from the state there as from the state before the block.

The link to the executor is `Overlaid`: a state with the slots of a run, or of all transactions
below some index, written over it.
-/

namespace SuwappuDb

open Ledger

/-! ## The specification -/

/-- Move an amount. The balances that are written are new slots, also where nothing is moved. -/
def State.moveBalance (s : State) (src dst : Address) (amount : U128) :
    Except RejectReason State :=
  if s.balanceOf src < amount then .error .insufficientBalance
  else
    match checkedAdd (s.balanceOf dst) amount with
    | none => .error .amountOverflow
    | some newTo =>
        if src = dst then .ok (s.apply (.setBalance src (s.balanceOf src)))
        else
          .ok ((s.apply (.setBalance src (s.balanceOf src - amount))).apply
            (.setBalance dst newTo))

/-- The transfers of an intent. A contract answers a call with the state `base`. -/
def Intent.transfers (registry : ContractRegistry) (base : State) (intent : Intent) :
    List (Address × Address × U128) :=
  intent.transfersIn {} registry base

/-- Make transfers until one is rejected. -/
def State.moveAll (s : State) (transfers : List (Address × Address × U128)) :
    Except RejectReason State :=
  transfers.foldlM (fun s p => s.moveBalance p.1 p.2.1 p.2.2) s

theorem State.moveAll_singleton (s : State) (src dst : Address) (amount : U128) :
    s.moveAll [(src, dst, amount)] = s.moveBalance src dst amount :=
  bind_pure (s.moveBalance src dst amount)

/-- All of a transaction's transfers or, when one was rejected, none. -/
def State.commitOrKeep (s : State) : Except RejectReason State → State × TxOutcome
  | .ok s' => (s', .committed)
  | .error reason => (s, .rejected reason)

/-- One transaction. -/
def serialIntent (registry : ContractRegistry) (base s : State) (intent : Intent) :
    State × TxOutcome :=
  s.commitOrKeep (s.moveAll (intent.transfers registry base))

/-- The transactions of a block in order: the state after them, and their outcomes. -/
def serialBlock (registry : ContractRegistry) (base : State) :
    State → List Intent → State × List TxOutcome
  | s, [] => (s, [])
  | s, intent :: rest =>
      let step := serialIntent registry base s intent
      let tail := serialBlock registry base step.1 rest
      (tail.1, step.2 :: tail.2)

section Spec

variable {registry : ContractRegistry} {base base' s : State} {intent : Intent}

theorem serialBlock_append (registry : ContractRegistry) (base s : State)
    (block block' : List Intent) :
    serialBlock registry base s (block ++ block') =
      ((serialBlock registry base (serialBlock registry base s block).1 block').1,
        (serialBlock registry base s block).2 ++
          (serialBlock registry base (serialBlock registry base s block).1 block').2) := by
  induction block generalizing s with
  | nil => rfl
  | cons intent block ih => simp only [List.cons_append, serialBlock, ih]

theorem length_serialBlock (registry : ContractRegistry) (base s : State) (block : List Intent) :
    (serialBlock registry base s block).2.length = block.length := by
  induction block generalizing s with
  | nil => rfl
  | cons intent block ih => simp [serialBlock, ih]

/-- A transaction commits, or leaves the state alone. -/
theorem serialIntent_cases (registry : ContractRegistry) (base s : State) (intent : Intent) :
    (serialIntent registry base s intent).2 = .committed ∨
      ∃ reason, serialIntent registry base s intent = (s, .rejected reason) := by
  unfold serialIntent
  cases s.moveAll (intent.transfers registry base) with
  | ok s' => exact Or.inl rfl
  | error reason => exact Or.inr ⟨reason, rfl⟩

theorem serialIntent_congr (h : intent.transfers registry base = intent.transfers registry base') :
    serialIntent registry base s intent = serialIntent registry base' s intent := by
  rw [serialIntent, serialIntent, h]

theorem serialBlock_congr {block : List Intent}
    (h : ∀ intent ∈ block, intent.transfers registry base = intent.transfers registry base') :
    serialBlock registry base s block = serialBlock registry base' s block := by
  induction block generalizing s with
  | nil => rfl
  | cons intent block ih =>
      rw [List.forall_mem_cons] at h
      simp only [serialBlock, serialIntent_congr h.1, ih h.2]

/-- The intents that were not rejected, with their outcomes. -/
def remaining (block : List Intent) (outcomes : List TxOutcome) : List (Intent × TxOutcome) :=
  (block.zip outcomes).filter fun p => p.2 = .committed

/-- Without the rejected transactions a block does the same. -/
theorem serialBlock_remaining (registry : ContractRegistry) (base s : State)
    (block : List Intent) :
    serialBlock registry base s
        ((remaining block (serialBlock registry base s block).2).map Prod.fst) =
      ((serialBlock registry base s block).1,
        (remaining block (serialBlock registry base s block).2).map Prod.snd) := by
  induction block generalizing s with
  | nil => rfl
  | cons intent block ih =>
      have ih' := ih (serialIntent registry base s intent).1
      rw [remaining] at ih' ⊢
      rcases serialIntent_cases registry base s intent with hcommitted | ⟨reason, hrejected⟩
      · simp only [serialBlock, List.zip_cons_cons, hcommitted, decide_true,
          List.filter_cons_of_pos, List.map_cons, ih']
      · -- The state is the one before the transaction.
        simp only [hrejected] at ih'
        simp only [serialBlock, List.zip_cons_cons, hrejected, reduceCtorEq, decide_false,
          Bool.false_eq_true, not_false_eq_true, List.filter_cons_of_neg, ih']

end Spec

/-! ## States with slots written over them -/

/-- `t` is `s` with the slots `w` written over it. -/
structure Overlaid (s : State) (w : Address → Option BalanceSlot) (t : State) : Prop where
  slots : ∀ a, t.store.slots.get? a =
    ((w a).map fun slot => BalanceSlot.new slot.canonical).or (s.store.slots.get? a)
  bytes : ∀ a, t.bytesOf a = s.bytesOf a

namespace Overlaid

variable {s t u : State} {w w' : Address → Option BalanceSlot}

theorem refl (s : State) : Overlaid s (fun _ => none) s := ⟨fun _ => rfl, fun _ => rfl⟩

theorem congr (h : Overlaid s w t) (hw : ∀ a, w' a = w a) : Overlaid s w' t := funext hw ▸ h

theorem unique (h : Overlaid s w t) (h' : Overlaid s w u) : t = u :=
  State.ext_columns (fun a => (h.slots a).trans (h'.slots a).symm)
    fun a => (h.bytes a).trans (h'.bytes a).symm

theorem ledger_eq (h : Overlaid s w t) : t.ledger = overlay w s.ledger := by
  funext a
  rw [State.ledger, State.balanceOf, InMemoryBalanceStore.get, h.slots, overlay]
  cases w a with
  | none => rfl
  | some slot => rfl

/-- The later slots win. -/
theorem trans (h : Overlaid s w t) (h' : Overlaid t w' u) :
    Overlaid s (fun a => (w' a).or (w a)) u where
  slots a := by
    rw [h'.slots, h.slots]
    cases w' a with
    | none => rfl
    | some slot => rfl
  bytes a := (h'.bytes a).trans (h.bytes a)

theorem setBalance (s : State) (addr : Address) (bal : U128) :
    Overlaid s (fun a => if a = addr then some (BalanceSlot.new bal) else none)
      (s.apply (.setBalance addr bal)) where
  slots a := by
    rw [State.get?_slots_setBalance]
    split_ifs <;> rfl
  bytes _ := rfl

end Overlaid

/-! ## Runs -/

section Move

variable {s : State} {src dst : Address} {amount : U128}

theorem State.moveBalance_of_lt (h : s.ledger src < amount.val) :
    s.moveBalance src dst amount = .error .insufficientBalance :=
  if_pos h

theorem State.moveBalance_of_overflow (henough : amount.val ≤ s.ledger src)
    (hover : CAP ≤ s.ledger dst + amount.val) :
    s.moveBalance src dst amount = .error .amountOverflow := by
  have hlt : ¬ s.balanceOf src < amount := not_lt.2 henough
  have hadd : checkedAdd (s.balanceOf dst) amount = none := checkedAdd_eq_none.2 hover
  rw [moveBalance, if_neg hlt, hadd]

/-- When `moveBalance` passes its checks it writes its two sides, and the balances are those of a
transfer. -/
theorem State.moveBalance_of_fits (henough : amount.val ≤ s.ledger src)
    (hfits : s.ledger dst + amount.val < CAP) :
    ∃ s', s.moveBalance src dst amount = .ok s' ∧
      Overlaid s (fun a =>
        if a = src ∨ a = dst then some (BalanceSlot.new (s'.balanceOf a)) else none) s' ∧
      s'.ledger = transfer CAP src dst amount.val s.ledger := by
  obtain ⟨newTo, hadd⟩ : ∃ newTo, checkedAdd (s.balanceOf dst) amount = some newTo :=
    ⟨⟨_, hfits⟩, checkedAdd_eq_some.2 rfl⟩
  have hto : s.ledger dst + amount.val = newTo.val := checkedAdd_eq_some.1 hadd
  have hlt : ¬ s.balanceOf src < amount := not_lt.2 henough
  rw [moveBalance, if_neg hlt, hadd]
  dsimp only
  split_ifs with heq
  · subst heq
    have hset := Overlaid.setBalance s src (s.balanceOf src)
    refine ⟨_, rfl, hset.congr fun a => ?_, ?_⟩
    · by_cases ha : a = src
      · simp [ha, balanceOf_setBalance]
      · simp [ha]
    · rw [transfer_eq_self (Or.inr (Or.inl rfl)), hset.ledger_eq]
      exact overlay_same rfl fun a => rfl
  · have hset := (Overlaid.setBalance s src (s.balanceOf src - amount)).trans
      (Overlaid.setBalance _ dst newTo)
    refine ⟨_, rfl, hset.congr fun a => ?_, ?_⟩
    · by_cases hd : a = dst
      · simp [hd, balanceOf_setBalance]
      · by_cases hs : a = src
        · simp [hs, heq, balanceOf_setBalance]
        · simp [hs, hd]
    · rw [hset.ledger_eq]
      exact @overlay_sides (fun _ => none) _ s.ledger src dst amount.val _ newTo henough heq
        hfits (Fin.sub_val_of_le (not_lt.1 hlt)) hto.symm fun a => by split_ifs <;> rfl

end Move

/-- A run does what `result` says: it ends so, and its writes over `s` are the state. -/
structure Performs (answer : (op : MvOp) → op.Res) (p : MvProg) (s : State)
    (result : State × TxOutcome) : Prop where
  outcome : outcomeOf answer p = some result.2
  state : Overlaid s (written answer p) result.1

section Run

variable {answer : (op : MvOp) → op.Res} {i : TxnIdx} {s : State}

/-- A rejected run has written nothing. -/
theorem Performs.of_rejected {p : MvProg} {reason : RejectReason}
    (houtcome : outcomeOf answer p = some (.rejected reason))
    (hwritten : written answer p = fun _ => none) : Performs answer p s (s, .rejected reason) :=
  ⟨houtcome, hwritten ▸ Overlaid.refl s⟩

variable (hshows : Shows answer i s.ledger)

include hshows

theorem transferBody_performs (src dst : Address) (amount : U128) :
    Performs answer (transferBody src dst amount i) s
      (s.commitOrKeep (s.moveBalance src dst amount)) := by
  rcases transferBody_spec hshows src dst amount with
    ⟨hlt, houtcome, hwritten⟩ | ⟨henough, hover, houtcome, hwritten⟩ |
    ⟨henough, hfits, houtcome, bal, hbal, hwritten⟩
  · rw [State.moveBalance_of_lt hlt]
    exact .of_rejected houtcome (funext hwritten)
  · rw [State.moveBalance_of_overflow henough hover]
    exact .of_rejected houtcome (funext hwritten)
  · obtain ⟨s', hmove, hoverlaid, hledger⟩ := State.moveBalance_of_fits henough hfits
    rw [hmove]
    refine ⟨houtcome, hoverlaid.congr fun a => ?_⟩
    rw [hwritten]
    split_ifs with ha
    · have hsame : bal a = s'.balanceOf a := Fin.ext ((hbal a ha).trans (congrFun hledger a).symm)
      rw [hsame]
    · rfl

/-- The bundle's own values after some steps are a state, `t`, and the rest of the steps are made
there. -/
theorem callSteps_performs (env : RunEnv) (steps : List BundleStep)
    (loc : OrdMap Address BalanceSlot) (reads : List ReadEntry) {t : State}
    (ht : Overlaid s loc.get? t) :
    Performs answer (callSteps env i steps loc reads) s
      (s.commitOrKeep (t.moveAll (steps.filterMap stepTransfer))) := by
  induction steps generalizing loc reads t with
  | nil =>
      obtain ⟨houtcome, hwritten⟩ := callSteps_nil answer i env loc reads
      exact ⟨houtcome, hwritten ▸ ht⟩
  | cons step steps ih =>
      cases hstep : stepTransfer step with
      | none =>
          rw [callSteps, hstep, List.filterMap_cons_none hstep]
          exact ih loc reads ht
      | some p =>
          obtain ⟨src, dst, amount⟩ := p
          have hrun := callSteps_cons hshows env hstep steps loc reads
          rw [← ht.ledger_eq] at hrun
          rw [List.filterMap_cons_some hstep, State.moveAll, List.foldlM_cons]
          rcases hrun with ⟨hlt, houtcome, hwritten⟩ | ⟨henough, hover, houtcome, hwritten⟩ |
            ⟨henough, hfits, loc', reads', hmoved, ⟨bal, hloc⟩, houtcome, hwritten⟩
          · rw [State.moveBalance_of_lt hlt]
            exact .of_rejected houtcome hwritten
          · rw [State.moveBalance_of_overflow henough hover]
            exact .of_rejected houtcome hwritten
          · obtain ⟨t', hmove, hoverlaid, hledger⟩ := State.moveBalance_of_fits henough hfits
            have ht' : Overlaid s loc'.get? t' := (ht.trans hoverlaid).congr fun a => by
              have hval := congrFun (hmoved.trans hledger.symm) a
              rw [overlay, hloc] at hval
              rw [hloc]
              split_ifs at hval ⊢ with ha
              · have hsame : bal a = t'.balanceOf a := Fin.ext hval
                rw [hsame]
                rfl
              · rfl
            obtain ⟨houtcome', hstate'⟩ := ih loc' reads' ht'
            rw [hmove]
            exact ⟨houtcome.trans houtcome', hwritten ▸ hstate'⟩

/-- A speculative run does what its transaction does. -/
theorem executeOne_performs {registry : ContractRegistry} (hpure : registry.Pure) (env : RunEnv)
    (base : State) (intent : Intent) :
    Performs answer (executeOne env intent i base registry) s
      (serialIntent registry base s intent) := by
  cases intent with
  | deployModule account name bytes => exact ⟨rfl, Overlaid.refl s⟩
  | transfer src dst amount =>
      rw [serialIntent, Intent.transfers, Intent.transfersIn, State.moveAll_singleton]
      exact transferBody_performs hshows src dst amount
  | call caller target value calldata =>
      rw [serialIntent, Intent.transfers, Intent.transfersIn, executeOne, executeCall]
      cases hget : registry.get target with
      | none =>
          dsimp only
          rw [State.moveAll_singleton]
          exact transferBody_performs hshows caller target value
      | some g =>
          have hbundle : callBundle env g caller target value calldata base =
              callBundle {} g caller target value calldata base := hpure target g hget _ _ _
          dsimp only
          rw [hbundle]
          exact callSteps_performs hshows env _ ∅ [] (Overlaid.refl s)

end Run

/-! ## Blocks -/

section Block

variable {s : State} {block : List Intent} {registry : ContractRegistry} {env : TxnIdx → RunEnv}
  {mv : MvStore} {txns : List Txn}

/-- The last slots below `i` are the state after the first `i` transactions. -/
theorem Settled.serial_take (h : Settled s block registry env mv txns) (hpure : registry.Pure)
    (i : Nat) (hi : i ≤ block.length) :
    (serialBlock registry s s (block.take i)).2 = (txns.map Txn.outcome).take i ∧
      Overlaid s (fun a => ((mv.row a).lastBelow i).map Prod.snd)
        (serialBlock registry s s (block.take i)).1 := by
  induction i with
  | zero =>
      refine ⟨rfl, (Overlaid.refl s).congr fun a => ?_⟩
      rw [OrdMap.lastBelow_eq_none.2 fun j hj => absurd hj (Nat.not_lt_zero j)]
      rfl
  | succ i ih =>
      obtain ⟨houtcomes, hstate⟩ := ih (Nat.le_of_succ_le hi)
      have hshows : Shows (answers s mv) i (serialBlock registry s s (block.take i)).1.ledger := by
        rw [hstate.ledger_eq, ← viewAt_eq_overlay]
        exact shows_viewAt s mv i
      obtain ⟨houtcome, hwritten⟩ := executeOne_performs hshows hpure (env i) s block[i]
      have hexec : executeAt s block registry (env i) i =
          executeOne (env i) block[i] i s registry := by
        rw [executeAt, List.getElem?_eq_getElem hi]
      rw [List.take_add_one, List.getElem?_eq_getElem hi, Option.toList_some, serialBlock_append,
        List.take_add_one, h.outcome_eq hi, hexec, houtcome]
      refine ⟨by rw [houtcomes]; rfl, (hstate.trans hwritten).congr fun a => ?_⟩
      rw [MvStore.lastBelow_succ, h.slotAt_eq hi, hexec]
      cases written (answers s mv) (executeOne (env i) block[i] i s registry) a with
      | none => rfl
      | some slot => rfl

end Block

/-- Whatever its schedule, the executor makes a block's transactions one after another. -/
theorem executeWithRegistry_eq_serial (blake3 : Blake3) (sched : Schedule) (s : State)
    (block : List Intent) {registry : ContractRegistry} (hpure : registry.Pure) :
    ∃ report, BlockExecutor.executeWithRegistry blake3 sched s block registry =
        some ((serialBlock registry s s block).1, report) ∧
      report.outcomes = (serialBlock registry s s block).2 ∧
      report.stateRoot =
        (StateTree.fromState default (serialBlock registry s s block).1).root blake3 := by
  obtain ⟨fin, hloop, -, env, hsettled⟩ := runLoop_spec s block registry sched
  obtain ⟨s', report, hexec, hstate, houtcomes, -, hroot⟩ :=
    executeWithRegistry_eq blake3 sched s block registry hloop
  obtain ⟨hserial, hoverlaid⟩ := hsettled.serial_take hpure block.length le_rfl
  rw [List.take_length] at hserial hoverlaid
  rw [← hsettled.length, ← List.length_map Txn.outcome, List.take_length] at hserial
  have hconsolidated : Overlaid s (fun a => ((fin.mv.row a).lastBelow block.length).map Prod.snd)
      s' := by
    rw [hstate]
    refine ⟨fun a => ?_, bytesOf_consolidate s _⟩
    rw [get?_slots_consolidate s (nodup_finalise _ _), lookup_finalise hsettled.outside]
  obtain rfl := hconsolidated.unique hoverlaid
  exact ⟨report, hexec, houtcomes.trans hserial.symm,
    hroot.trans (StateTree.root_fromState blake3 _ _ _)⟩

/-- A rejected transaction leaves no trace: without the rejected ones a block leaves the same state
and root, and reports for each intent that remains what it reported before. -/
theorem remove_rejected (blake3 : Blake3) (sched sched' : Schedule) (s : State)
    (block : List Intent) {registry : ContractRegistry} (hpure : registry.Pure) :
    ∃ s' report report',
      BlockExecutor.executeWithRegistry blake3 sched s block registry = some (s', report) ∧
      report.outcomes.length = block.length ∧
      BlockExecutor.executeWithRegistry blake3 sched' s
        ((remaining block report.outcomes).map Prod.fst) registry = some (s', report') ∧
      report'.outcomes = (remaining block report.outcomes).map Prod.snd ∧
      (∀ outcome ∈ report'.outcomes, outcome = .committed) ∧
      report'.stateRoot = report.stateRoot := by
  obtain ⟨report, hexec, houtcomes, hroot⟩ :=
    executeWithRegistry_eq_serial blake3 sched s block hpure
  obtain ⟨report', hexec', houtcomes', hroot'⟩ := executeWithRegistry_eq_serial blake3 sched' s
    ((remaining block report.outcomes).map Prod.fst) hpure
  have hserial := serialBlock_remaining registry s s block
  rw [← houtcomes] at hserial
  rw [hserial] at hexec' houtcomes' hroot'
  refine ⟨_, report, report', hexec, ?_, hexec', houtcomes', fun outcome hmem => ?_,
    hroot'.trans hroot.symm⟩
  · rw [houtcomes, length_serialBlock]
  · rw [houtcomes'] at hmem
    obtain ⟨p, hp, rfl⟩ := List.mem_map.1 hmem
    exact of_decide_eq_true (List.mem_filter.1 hp).2

/-- The second payment is one too many. -/
def rejectedBlock : List Intent := [
  .transfer (smallAddress 1) (smallAddress 2) 60,
  .transfer (smallAddress 1) (smallAddress 3) 50,
  .call (smallAddress 2) (smallAddress 9) 20 []]

theorem remove_rejected_second :
    smallRegistry.Pure ∧ ∀ (blake3 : Blake3) (sched sched' : Schedule), ∃ s' report report',
      BlockExecutor.executeWithRegistry blake3 sched smallState rejectedBlock smallRegistry =
        some (s', report) ∧
      report.outcomes.length = rejectedBlock.length ∧
      BlockExecutor.executeWithRegistry blake3 sched' smallState
        ((remaining rejectedBlock report.outcomes).map Prod.fst) smallRegistry =
          some (s', report') ∧
      report'.outcomes = (remaining rejectedBlock report.outcomes).map Prod.snd ∧
      (∀ outcome ∈ report'.outcomes, outcome = .committed) ∧
      report'.stateRoot = report.stateRoot :=
  ⟨smallRegistry_pure, fun blake3 sched sched' =>
    remove_rejected blake3 sched sched' smallState rejectedBlock smallRegistry_pure⟩

example : (serialBlock smallRegistry smallState smallState rejectedBlock).2 =
    [.committed, .rejected .insufficientBalance, .committed] := by
  decide

/-- A block may be cut in two, where the contracts called after the cut answer with the same
transfers from the state at the cut as from the state before the block. -/
theorem block_boundary (blake3 : Blake3) (sched sched₁ sched₂ : Schedule) (s : State)
    (block₁ block₂ : List Intent) {registry : ContractRegistry} (hpure : registry.Pure) :
    ∃ s₁ report₁,
      BlockExecutor.executeWithRegistry blake3 sched₁ s block₁ registry = some (s₁, report₁) ∧
      ((∀ intent ∈ block₂, intent.transfers registry s = intent.transfers registry s₁) →
        ∃ s₂ report₂ report,
          BlockExecutor.executeWithRegistry blake3 sched₂ s₁ block₂ registry =
            some (s₂, report₂) ∧
          BlockExecutor.executeWithRegistry blake3 sched s (block₁ ++ block₂) registry =
            some (s₂, report) ∧
          report.outcomes = report₁.outcomes ++ report₂.outcomes ∧
          report.stateRoot = report₂.stateRoot) := by
  obtain ⟨report₁, hexec₁, houtcomes₁, -⟩ :=
    executeWithRegistry_eq_serial blake3 sched₁ s block₁ hpure
  refine ⟨_, report₁, hexec₁, fun hsame => ?_⟩
  obtain ⟨report₂, hexec₂, houtcomes₂, hroot₂⟩ :=
    executeWithRegistry_eq_serial blake3 sched₂ (serialBlock registry s s block₁).1 block₂ hpure
  obtain ⟨report, hexec, houtcomes, hroot⟩ :=
    executeWithRegistry_eq_serial blake3 sched s (block₁ ++ block₂) hpure
  rw [serialBlock_append, serialBlock_congr hsame] at hexec houtcomes hroot
  refine ⟨_, report₂, report, hexec₂, hexec, ?_, hroot.trans hroot₂.symm⟩
  rw [houtcomes, houtcomes₁, houtcomes₂]

/-- The small block, cut before its call. -/
theorem block_boundary_smallBlock :
    smallRegistry.Pure ∧ ∀ (blake3 : Blake3) (sched sched₁ sched₂ : Schedule),
      ∃ s₁ report₁ s₂ report₂ report,
        BlockExecutor.executeWithRegistry blake3 sched₁ smallState (smallBlock.take 2)
          smallRegistry = some (s₁, report₁) ∧
        BlockExecutor.executeWithRegistry blake3 sched₂ s₁ (smallBlock.drop 2) smallRegistry =
          some (s₂, report₂) ∧
        BlockExecutor.executeWithRegistry blake3 sched smallState smallBlock smallRegistry =
          some (s₂, report) ∧
        report.outcomes = report₁.outcomes ++ report₂.outcomes ∧
        report.stateRoot = report₂.stateRoot := by
  refine ⟨smallRegistry_pure, fun blake3 sched sched₁ sched₂ => ?_⟩
  obtain ⟨s₁, report₁, hexec₁, hrest⟩ := block_boundary blake3 sched sched₁ sched₂ smallState
    (smallBlock.take 2) (smallBlock.drop 2) smallRegistry_pure
  obtain ⟨s₂, report₂, report, hexec₂, hexec, hreports⟩ := hrest fun intent hmem => by
    obtain rfl := List.mem_singleton.1 hmem
    rfl
  exact ⟨s₁, report₁, s₂, report₂, report, hexec₁, hexec₂, hexec, hreports⟩

/-- A contract that takes all its caller has. -/
def takeAll : BundleGenerator where
  generate _ ctx := ⟨[.evm ⟨ctx.caller, ctx.target, ctx.state.balanceOf ctx.caller⟩]⟩

/-- The contract at address 9. -/
def takeAllRegistry : ContractRegistry :=
  ⟨(∅ : OrdMap Address BundleGenerator).insert (smallAddress 9) takeAll⟩

theorem takeAllRegistry_pure : takeAllRegistry.Pure := pure_single _ fun _ _ _ => rfl

/-- Address 2 is paid and calls the contract. In one block the contract does not see the payment
and takes nothing. -/
theorem block_boundary_takeAll :
    takeAllRegistry.Pure ∧ ∀ (blake3 : Blake3) (sched sched₁ sched₂ : Schedule),
      ∃ s' report s₁ report₁ s₂ report₂,
        BlockExecutor.executeWithRegistry blake3 sched smallState
          ([.transfer (smallAddress 1) (smallAddress 2) 60] ++
            [.call (smallAddress 2) (smallAddress 9) 0 []]) takeAllRegistry = some (s', report) ∧
        BlockExecutor.executeWithRegistry blake3 sched₁ smallState
          [.transfer (smallAddress 1) (smallAddress 2) 60] takeAllRegistry = some (s₁, report₁) ∧
        BlockExecutor.executeWithRegistry blake3 sched₂ s₁
          [.call (smallAddress 2) (smallAddress 9) 0 []] takeAllRegistry = some (s₂, report₂) ∧
        s'.balanceOf (smallAddress 2) = 60 ∧ s₂.balanceOf (smallAddress 2) = 0 := by
  refine ⟨takeAllRegistry_pure, fun blake3 sched sched₁ sched₂ => ?_⟩
  obtain ⟨report, hexec, -⟩ := executeWithRegistry_eq_serial blake3 sched smallState
    ([.transfer (smallAddress 1) (smallAddress 2) 60] ++
      [.call (smallAddress 2) (smallAddress 9) 0 []]) takeAllRegistry_pure
  obtain ⟨report₁, hexec₁, -⟩ := executeWithRegistry_eq_serial blake3 sched₁ smallState
    [.transfer (smallAddress 1) (smallAddress 2) 60] takeAllRegistry_pure
  obtain ⟨report₂, hexec₂, -⟩ := executeWithRegistry_eq_serial blake3 sched₂
    (serialBlock takeAllRegistry smallState smallState
      [.transfer (smallAddress 1) (smallAddress 2) 60]).1
    [.call (smallAddress 2) (smallAddress 9) 0 []] takeAllRegistry_pure
  exact ⟨_, report, _, report₁, _, report₂, hexec, hexec₁, hexec₂, by decide +kernel,
    by decide +kernel⟩

end SuwappuDb
