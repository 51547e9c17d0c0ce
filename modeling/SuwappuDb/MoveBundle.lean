import Mathlib.Tactic.Linarith
import SuwappuDb.Conservation

/-!
# Bundles that mix transfers and Move calls

A bundle with a Move runtime makes its transfers in two ways. An EVM or Move transfer step goes
through the bridge and changes the balances it finds. A call of `0x1::coin::transfer` takes both
balances from a view, adds and subtracts there, and writes the results over whatever the state
holds. The view is one object for the whole bundle, and here it shows the balances from before it.

* `CoinStep` — the transfer a step stands for, and which of the two ways it goes.
* `runtimeStep_value` — one step, at one account: it adds to the balance it finds, or to the balance
  from before the bundle. `runValue` is a whole run.
* `runValue_eq_iff` — so a run adds up exactly when the last call that names the account finds what
  the steps before it have moved there to be nothing.
* `executeWithMoveRuntime_sequential_iff` — with that, when a committed bundle leaves what its
  transfers leave one after another.
-/

namespace SuwappuDb

/-! ## Transfers -/

/-- A transfer, made by the bridge or by a call that reads the view. -/
structure CoinStep where
  viaView : Bool
  src : Address
  dst : Address
  amount : U128

namespace CoinStep

def intent (c : CoinStep) : Intent := .transfer c.src c.dst c.amount

def Names (c : CoinStep) (a : Address) : Prop := a = c.src ∨ a = c.dst

instance (c : CoinStep) (a : Address) : Decidable (c.Names a) :=
  inferInstanceAs (Decidable (a = c.src ∨ a = c.dst))

/-- What the transfer adds to the balance of `a`. -/
def delta (c : CoinStep) (a : Address) : ℤ :=
  (if a = c.dst then (c.amount.val : ℤ) else 0) - if a = c.src then (c.amount.val : ℤ) else 0

end CoinStep

/-- What transfers add to the balance of `a`, all together. -/
def net (steps : List CoinStep) (a : Address) : ℤ := (steps.map fun c => c.delta a).sum

theorem net_append_singleton (steps : List CoinStep) (c : CoinStep) (a : Address) :
    net (steps ++ [c]) a = net steps a + c.delta a := by
  simp [net]

/-- The transfer a bundle step stands for. For a Move call that is the canonical coin transfer
between accounts whose upper 12 bytes are zero. -/
inductive BundleStep.IsTransfer : BundleStep → CoinStep → Prop
  | evm (tx : EvmTx) : IsTransfer (.evm tx) ⟨false, tx.src, tx.dst, tx.value⟩
  | move (tx : MoveTx) : IsTransfer (.move tx) ⟨false, tx.signer, tx.recipient, tx.amount⟩
  | moveCall (call : MoveCall) (src dst : Address) (amount : List Byte)
      (hcall : call.IsCoinTransfer (MoveAddress.fromEvm dst) amount)
      (hcaller : call.caller = MoveAddress.fromEvm src) (hlength : amount.length = 8) :
      IsTransfer (.moveCall call) ⟨true, src, dst, Fin.ofNat (2 ^ 128) (leValue amount)⟩

theorem MoveAddress.toEvm_fromEvm (a : Address) : (MoveAddress.fromEvm a).toEvm = a :=
  Subtype.ext (List.drop_left' List.length_replicate)

/-! ## One step -/

/-- An accepted transfer adds to the balances it finds. -/
theorem CoinStep.value_of_submit {c : CoinStep} (hne : c.src ≠ c.dst) {s s' : State}
    (h : Bridge.submit s c.intent = some (s', .ok ())) (a : Address) :
    ((s'.balanceOf a).val : ℤ) = (s.balanceOf a).val + c.delta a := by
  rcases Bridge.submit_cases s c.src c.dst c.amount with
    ⟨-, heq⟩ | ⟨-, hself, -⟩ | ⟨-, -, -, heq⟩ | ⟨t, hmoved, heq⟩
  · cases h.symm.trans heq
  · exact absurd hself hne
  · cases h.symm.trans heq
  · cases h.symm.trans heq
    have henough := hmoved.enough
    rw [hmoved.eq, State.balanceOf_setBalance, State.balanceOf_setBalance, CoinStep.delta]
    by_cases hdst : a = c.dst
    · simp [hdst, Ne.symm hne]
    · by_cases hsrc : a = c.src
      · simp only [hsrc, hne, if_true, if_false]
        omega
      · simp [hdst, hsrc]

/-- A coin transfer that returns has written both balances. -/
theorem MoveCall.IsCoinTransfer.resourceWrites {call : MoveCall} {dst : MoveAddress}
    {amount : List Byte} (hcall : call.IsCoinTransfer dst amount) {modules : InMemoryModuleStore}
    {view : MoveBalanceView} {outcome : MoveOutcome}
    (h : mockMoveExecutor call modules view = some (.ok outcome)) :
    ∃ callerNew recipientNew : U128,
      callerNew.val + (Fin.ofNat (2 ^ 128) (leValue amount)).val =
        (view.coinValue call.caller).val ∧
      recipientNew.val =
        (view.coinValue dst).val + (Fin.ofNat (2 ^ 128) (leValue amount)).val ∧
      outcome.resourceWrites = [⟨call.caller, callerNew, (view.nonce call.caller).next⟩,
        ⟨dst, recipientNew, view.nonce dst⟩] := by
  rcases hcall.execute modules view with
    ⟨-, e, herror⟩ | ⟨-, hpanic⟩ | ⟨callerNew, recipientNew, hcallerNew, hrecipientNew, hok⟩
  · cases h.symm.trans herror
  · cases h.symm.trans hpanic
  · cases h.symm.trans hok
    exact ⟨callerNew, recipientNew, hcallerNew, hrecipientNew, rfl⟩

/-- The balance of `a` after a step that finds `now`, when it was `before` before the bundle. -/
def stepValue (before : ℤ) (a : Address) (now : ℤ) (c : CoinStep) : ℤ :=
  if c.viaView ∧ c.Names a then before + c.delta a else now + c.delta a

/-- The balance of `a` after a run that finds `now`. -/
def runValue (before : ℤ) (a : Address) (steps : List CoinStep) (now : ℤ) : ℤ :=
  steps.foldl (stepValue before a) now

section Runtime

variable {modules : InMemoryModuleStore} {view : MoveBalanceView} {s₀ : State}
  (hview : ∀ a, view.coinValue (MoveAddress.fromEvm a) = s₀.balanceOf a)

include hview

theorem runtimeStep_value {step : BundleStep} {c : CoinStep} (hstep : step.IsTransfer c)
    (hne : c.src ≠ c.dst) {s s' : State} {queued queued' : BundleExecutor.Queue}
    (h : BundleExecutor.runtimeStep mockMoveExecutor modules view s queued step =
      some (s', queued', .ok ())) (a : Address) :
    ((s'.balanceOf a).val : ℤ) =
      stepValue (s₀.balanceOf a).val a (s.balanceOf a).val c := by
  cases hstep with
  | evm tx => simpa [stepValue] using CoinStep.value_of_submit hne (runtimeStep_evm h) a
  | move tx => simpa [stepValue] using CoinStep.value_of_submit hne (runtimeStep_move h) a
  | moveCall call src dst amount hcall hcaller hlength =>
      obtain ⟨outcome, hexec, -, -, rfl⟩ | ⟨e, hfail, -⟩ := runtimeStep_moveCall h
      swap
      · cases hfail
      obtain ⟨callerNew, recipientNew, hcallerNew, hrecipientNew, hwrites⟩ :=
        hcall.resourceWrites hexec
      rw [hcaller, hview] at hcallerNew
      rw [hview] at hrecipientNew
      rw [hwrites, hcaller, balanceOf_two_writes, moveAddrToEvm, moveAddrToEvm,
        MoveAddress.toEvm_fromEvm, MoveAddress.toEvm_fromEvm, stepValue, CoinStep.delta]
      dsimp only [CoinStep.Names] at hne ⊢
      by_cases hdst : a = dst
      · simp [hdst, hne.symm, hrecipientNew]
      · by_cases hsrc : a = src
        · simp only [hsrc, hne, if_true, if_false, or_false, and_self]
          omega
        · simp [hdst, hsrc]

/-- A committed run, at one account. -/
theorem runtimeFrom_value {order : IterOrder} {snap : OrdMap Address Balance}
    {bundleSteps : List BundleStep} {steps : List CoinStep}
    (hsteps : List.Forall₂ BundleStep.IsTransfer bundleSteps steps)
    (hne : ∀ c ∈ steps, c.src ≠ c.dst) {idx : Nat} {s s' : State} {queued : BundleExecutor.Queue}
    {outcomes : List TxOutcome} {modules' : InMemoryModuleStore} {result : BundleResult}
    (h : BundleExecutor.runtimeFrom mockMoveExecutor modules view order snap idx bundleSteps s
      queued outcomes = some (s', modules', result)) (hcommit : result.outcome = .committed)
    (a : Address) :
    ((s'.balanceOf a).val : ℤ) = runValue (s₀.balanceOf a).val a steps (s.balanceOf a).val := by
  induction hsteps generalizing idx s queued outcomes with
  | nil =>
      cases h
      rfl
  | cons hstep hrest ih =>
      obtain ⟨hne, hnes⟩ := List.forall_mem_cons.1 hne
      obtain ⟨t, queued', hrun, hrest⟩ := runtimeFrom_cons_committed h hcommit
      rw [ih hnes hrest, runtimeStep_value hview hstep hne hrun]
      rfl

end Runtime

/-! ## A run adds up -/

/-- The last call that names `a` comes after steps that have moved nothing to or from `a`. -/
def LastCallFresh (steps : List CoinStep) (a : Address) : Prop :=
  ∀ before c after, steps = before ++ c :: after → c.viaView → c.Names a →
    (∀ d ∈ after, d.viaView → ¬ d.Names a) → net before a = 0

/-- Only a call that names the account matters at the end of a run. -/
theorem lastCallFresh_append_singleton (steps : List CoinStep) (d : CoinStep) (a : Address) :
    LastCallFresh (steps ++ [d]) a ↔
      if d.viaView ∧ d.Names a then net steps a = 0 else LastCallFresh steps a := by
  split_ifs with hd
  · constructor
    · intro h
      exact h steps d [] rfl hd.1 hd.2 (by simp)
    · intro hnet before c after heq _ _ hafter
      rcases List.eq_nil_or_concat after with rfl | ⟨after, e, rfl⟩
      · obtain ⟨rfl, -⟩ := List.append_inj' heq rfl
        exact hnet
      · have hsplit : steps ++ [d] = (before ++ c :: after) ++ [e] := by simpa using heq
        obtain ⟨-, hlast⟩ := List.append_inj' hsplit rfl
        cases hlast
        exact absurd hd.2 (hafter d (by simp) hd.1)
  · constructor
    · intro h before c after heq hview hnames hafter
      refine h before c (after ++ [d]) (by simp [heq]) hview hnames fun e he heview => ?_
      rcases List.mem_append.1 he with he | he
      · exact hafter e he heview
      · obtain rfl := List.mem_singleton.1 he
        exact fun henames => hd ⟨heview, henames⟩
    · intro h before c after heq hview hnames hafter
      rcases List.eq_nil_or_concat after with rfl | ⟨after, e, rfl⟩
      · obtain ⟨-, hlast⟩ := List.append_inj' heq rfl
        cases hlast
        exact absurd ⟨hview, hnames⟩ hd
      · have hsplit : steps ++ [d] = (before ++ c :: after) ++ [e] := by simpa using heq
        obtain ⟨hsteps, -⟩ := List.append_inj' hsplit rfl
        exact h before c after hsteps hview hnames fun e he => hafter e (by simp [he])

theorem runValue_eq_iff (before : ℤ) (steps : List CoinStep) (a : Address) :
    runValue before a steps before = before + net steps a ↔ LastCallFresh steps a := by
  induction steps using List.reverseRecOn with
  | nil => simp [runValue, net, LastCallFresh]
  | append_singleton steps d ih =>
      rw [lastCallFresh_append_singleton, ← ih, net_append_singleton, runValue, List.foldl_append,
        List.foldl_cons, List.foldl_nil, ← runValue, stepValue]
      split_ifs <;> constructor <;> intro h <;> linarith

/-! ## Against one transfer after another -/

theorem submitEach_value {steps : List CoinStep} (hne : ∀ c ∈ steps, c.src ≠ c.dst) {s t : State}
    (h : submitEach (steps.map CoinStep.intent) s = some (.ok t)) (a : Address) :
    ((t.balanceOf a).val : ℤ) = (s.balanceOf a).val + net steps a := by
  induction steps generalizing s with
  | nil =>
      cases h
      simp [net]
  | cons c rest ih =>
      obtain ⟨hne, hnes⟩ := List.forall_mem_cons.1 hne
      obtain ⟨s', hsubmit, hrest⟩ := submitThen_eq_ok h
      rw [ih hnes hrest, CoinStep.value_of_submit hne hsubmit, net, net, List.map_cons,
        List.sum_cons, add_assoc]

/-- A committed bundle leaves the balances that its transfers leave one after another, and with them
the supply, exactly when those transfers go through and no call writes over a transfer it did not
see: before the last call that names an account, the account's balance is what it was. -/
theorem executeWithMoveRuntime_sequential_iff (modules modules' : InMemoryModuleStore)
    (view : MoveBalanceView) (order : IterOrder) (s s' : State) (bundle : Bundle)
    (result : BundleResult) (steps : List CoinStep)
    (hsteps : List.Forall₂ BundleStep.IsTransfer bundle.steps steps)
    (hne : ∀ c ∈ steps, c.src ≠ c.dst)
    (hview : ∀ a, view.coinValue (MoveAddress.fromEvm a) = s.balanceOf a)
    (hrun : BundleExecutor.executeWithMoveRuntime mockMoveExecutor modules view order s bundle =
      some (s', modules', result))
    (hcommit : result.outcome = .committed) :
    (∃ t, submitEach (steps.map CoinStep.intent) s = some (.ok t) ∧
      (∀ a, s'.balanceOf a = t.balanceOf a) ∧ s'.supply = s.supply) ↔
    (∃ t, submitEach (steps.map CoinStep.intent) s = some (.ok t)) ∧
      ∀ a, LastCallFresh steps a := by
  have hvalue : ∀ a, ((s'.balanceOf a).val : ℤ) =
      runValue (s.balanceOf a).val a steps (s.balanceOf a).val := by
    intro a
    unfold BundleExecutor.executeWithMoveRuntime at hrun
    split_ifs at hrun with hempty
    · cases hrun
      rw [List.isEmpty_iff.1 hempty] at hsteps
      cases hsteps
      rfl
    · exact runtimeFrom_value hview hsteps hne hrun hcommit a
  constructor
  · rintro ⟨t, hok, hbalance, -⟩
    refine ⟨⟨t, hok⟩, fun a => (runValue_eq_iff (s.balanceOf a).val steps a).1 ?_⟩
    rw [← hvalue, hbalance, submitEach_value hne hok]
  · rintro ⟨⟨t, hok⟩, hfresh⟩
    have hbalance : ∀ a, s'.balanceOf a = t.balanceOf a := by
      intro a
      have heq := (runValue_eq_iff (s.balanceOf a).val steps a).2 (hfresh a)
      rw [← hvalue, ← submitEach_value hne hok] at heq
      exact Fin.ext (Int.ofNat.inj heq)
    refine ⟨t, hok, hbalance, ?_⟩
    have hledger : s'.ledger = t.ledger := funext fun a => congrArg Fin.val (hbalance a)
    exact supply_eq_of_transfersTo (hledger ▸ submitEach_ledger hok)

/-- A Move call of 40 from address 1 to address 2, and then 10 from address 1 to address 3. -/
def callFirst : Bundle := ⟨[.moveCall coinTransfer, .evm ⟨smallAddress 1, smallAddress 3, 10⟩]⟩

def callFirstSteps : List CoinStep :=
  [⟨true, smallAddress 1, smallAddress 2, 40⟩, ⟨false, smallAddress 1, smallAddress 3, 10⟩]

/-- The writes of `callFirst`, in order. -/
def callFirstState : State :=
  [(smallAddress 1, 60), (smallAddress 2, 40), (smallAddress 1, 50), (smallAddress 3, 10)].foldl
    (fun s p => s.apply (.setBalance p.1 p.2)) smallState

theorem callFirstSteps_fresh (a : Address) : LastCallFresh callFirstSteps a := by
  have hlast := lastCallFresh_append_singleton [⟨true, smallAddress 1, smallAddress 2, 40⟩]
    ⟨false, smallAddress 1, smallAddress 3, 10⟩ a
  have hfirst := lastCallFresh_append_singleton [] ⟨true, smallAddress 1, smallAddress 2, 40⟩ a
  refine hlast.2 ?_
  rw [if_neg (by simp)]
  refine hfirst.2 ?_
  split_ifs
  · rfl
  · intro before c after heq
    simp at heq

/-- The call comes first, so the view is up to date for it. -/
theorem callFirst_sequential :
    ∃ t, submitEach (callFirstSteps.map CoinStep.intent) smallState = some (.ok t) ∧
      (∀ a, callFirstState.balanceOf a = t.balanceOf a) ∧
      callFirstState.supply = smallState.supply :=
  (executeWithMoveRuntime_sequential_iff {} {} smallView default smallState callFirstState callFirst
    ⟨[.committed, .committed], .committed⟩ callFirstSteps
    (.cons (.moveCall coinTransfer (smallAddress 1) (smallAddress 2) [40, 0, 0, 0, 0, 0, 0, 0]
      ⟨⟨rfl, rfl, rfl⟩, rfl⟩ rfl rfl) (.cons (.evm _) .nil))
    (by decide) (fun a => congrArg smallState.balanceOf (MoveAddress.toEvm_fromEvm a)) rfl rfl).2
    ⟨⟨_, rfl⟩, callFirstSteps_fresh⟩

/-- The other way round, the call writes over the 10 that address 1 has paid: address 1 ends with 60
where the transfers leave 50, and the supply grows by 10. -/
theorem callLast_mints :
    (BundleExecutor.executeWithMoveRuntime mockMoveExecutor {} smallView default smallState
      ⟨[.evm ⟨smallAddress 1, smallAddress 3, 10⟩, .moveCall coinTransfer]⟩).map (fun r =>
        (r.2.2.outcome, r.1.balanceOf (smallAddress 1), r.1.supply)) =
      some (.committed, 60, 110) ∧
    (submitEach [.transfer (smallAddress 1) (smallAddress 3) 10,
      .transfer (smallAddress 1) (smallAddress 2) 40] smallState).map (fun r =>
        r.toOption.map fun t => (t.balanceOf (smallAddress 1), t.supply)) =
      some (some (50, 100)) := by
  decide +kernel

end SuwappuDb
