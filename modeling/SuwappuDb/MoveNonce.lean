import SuwappuDb.MoveBundle

/-!
# The nonces of Move writes

A Move executor returns the new coin value and the new nonce of an account. The bundle executor puts
them into the state with `SetBalance`, which has no nonce: the slot it makes has the nonce zero.

* `Modification`, `lastModification` — what a committed bundle does to an account, and what it does
  last.
* `Settles` — the slot that a modification leaves. `runtimeStep_settles` is one step,
  `Settles.trans` puts two together, `runtimeFrom_settles` is a run.
* `resource_writes_land_iff` — so every balance lands, and the nonces do if and only if they are
  zero. A coin transfer raises its caller's nonce, so that one never lands.
-/

namespace SuwappuDb

/-! ## Modifications of an account -/

/-- The balance of an account is written: by the bridge, for a transfer, or for a Move call. -/
inductive Modification where
  | transfer
  | resourceWrite (w : ResourceWrite)
  deriving DecidableEq

/-- A transfer between two accounts writes both balances; one to the sender itself writes none. -/
def transferModifications (a src dst : Address) : List Modification :=
  if src ≠ dst ∧ (a = src ∨ a = dst) then [.transfer] else []

section Modifications

variable (exec : MoveExecutor) (modules : InMemoryModuleStore) (view : MoveBalanceView)

/-- What a step does to `a`, if it succeeds. -/
def BundleStep.modifications (a : Address) : BundleStep → List Modification
  | .evm tx => transferModifications a tx.src tx.dst
  | .move tx => transferModifications a tx.signer tx.recipient
  | .moveCall call => ((stepWrites exec modules view (.moveCall call)).filter fun w =>
      moveAddrToEvm w.addr = a).map .resourceWrite
  | .deployModule _ _ _ => []

/-- What the steps do to `a` last. -/
def lastModification (a : Address) (steps : List BundleStep) : Option Modification :=
  (steps.flatMap (BundleStep.modifications exec modules view a)).getLast?

end Modifications

/-! ## What a modification leaves -/

/-- The slot after a modification, given the slot before. -/
def Settles (before after : BalanceSlot) : Option Modification → Prop
  | none => after = before
  | some .transfer => after.nonce = {}
  | some (.resourceWrite w) => after = BalanceSlot.new w.coinValue

theorem Settles.trans {x y z : BalanceSlot} {m m' : Option Modification} (h : Settles x y m)
    (h' : Settles y z m') : Settles x z (m'.or m) := by
  cases m' with
  | some m' =>
      rw [Option.some_or]
      cases m' with
      | transfer => exact h'
      | resourceWrite w => exact h'
  | none =>
      obtain rfl : z = y := h'
      exact h

theorem submit_settles {s s' : State} {src dst : Address} {amount : U128}
    (h : Bridge.submit s (.transfer src dst amount) = some (s', .ok ())) (a : Address) :
    Settles (s.slotOf a) (s'.slotOf a) (transferModifications a src dst).getLast? := by
  rcases Bridge.submit_cases s src dst amount with
    ⟨-, heq⟩ | ⟨-, hself, heq⟩ | ⟨-, -, -, heq⟩ | ⟨t, hmoved, heq⟩
  · cases h.symm.trans heq
  · cases h.symm.trans heq
    rw [transferModifications, if_neg fun hne => hne.1 hself]
    rfl
  · cases h.symm.trans heq
  · cases h.symm.trans heq
    rw [hmoved.eq, State.slotOf_setBalance, State.slotOf_setBalance]
    by_cases hdst : a = dst
    · rw [if_pos hdst, transferModifications, if_pos ⟨hmoved.ne, Or.inr hdst⟩]
      rfl
    · by_cases hsrc : a = src
      · rw [if_neg hdst, if_pos hsrc, transferModifications, if_pos ⟨hmoved.ne, Or.inl hsrc⟩]
        rfl
      · rw [if_neg hdst, if_neg hsrc, transferModifications,
          if_neg fun hnames => hnames.2.elim hsrc hdst]
        rfl

theorem applyResourceWrites_settles (s : State) (writes : List ResourceWrite) (a : Address) :
    Settles (s.slotOf a) ((BundleExecutor.applyResourceWrites s writes).slotOf a)
      ((writes.filter fun w => moveAddrToEvm w.addr = a).map .resourceWrite).getLast? := by
  rw [slotOf_applyResourceWrites, lastWriteTo, List.getLast?_map]
  cases (writes.filter fun w => moveAddrToEvm w.addr = a).getLast? <;> rfl

section Runtime

variable {exec : MoveExecutor} {modules : InMemoryModuleStore} {view : MoveBalanceView}

theorem runtimeStep_settles {s s' : State} {queued queued' : BundleExecutor.Queue}
    {step : BundleStep}
    (h : BundleExecutor.runtimeStep exec modules view s queued step = some (s', queued', .ok ()))
    (a : Address) : Settles (s.slotOf a) (s'.slotOf a)
      (step.modifications exec modules view a).getLast? := by
  cases step with
  | evm tx => exact submit_settles (runtimeStep_evm h) a
  | move tx => exact submit_settles (runtimeStep_move h) a
  | moveCall call =>
      obtain ⟨outcome, -, -, hwrites, rfl⟩ | ⟨e, hfail, -⟩ := runtimeStep_moveCall h
      · rw [BundleStep.modifications, hwrites]
        exact applyResourceWrites_settles s outcome.resourceWrites a
      · cases hfail
  | deployModule account name bytes =>
      simp only [BundleExecutor.runtimeStep] at h
      split_ifs at h
      · cases h
      · cases h
        rfl

/-- A committed run leaves in a slot what was done to it last. -/
theorem runtimeFrom_settles {order : IterOrder} {snap : OrdMap Address Balance}
    {steps : List BundleStep} {idx : Nat} {s s' : State} {queued : BundleExecutor.Queue}
    {outcomes : List TxOutcome} {modules' : InMemoryModuleStore} {result : BundleResult}
    (h : BundleExecutor.runtimeFrom exec modules view order snap idx steps s queued outcomes =
      some (s', modules', result)) (hcommit : result.outcome = .committed) (a : Address) :
    Settles (s.slotOf a) (s'.slotOf a) (lastModification exec modules view a steps) := by
  induction steps generalizing idx s queued outcomes with
  | nil =>
      cases h
      rfl
  | cons step rest ih =>
      obtain ⟨t, queued', hstep, hrest⟩ := runtimeFrom_cons_committed h hcommit
      rw [lastModification, List.flatMap_cons, List.getLast?_append]
      exact (runtimeStep_settles hstep a).trans (ih hrest)

theorem executeWithMoveRuntime_settles {order : IterOrder} {s s' : State} {bundle : Bundle}
    {modules' : InMemoryModuleStore} {result : BundleResult}
    (h : BundleExecutor.executeWithMoveRuntime exec modules view order s bundle =
      some (s', modules', result)) (hcommit : result.outcome = .committed) (a : Address) :
    Settles (s.slotOf a) (s'.slotOf a) (lastModification exec modules view a bundle.steps) := by
  unfold BundleExecutor.executeWithMoveRuntime at h
  split_ifs at h with hempty
  · cases h
    rw [List.isEmpty_iff.1 hempty]
    rfl
  · exact runtimeFrom_settles h hcommit a

end Runtime

/-! ## Nonces -/

/-- A nonce that has been raised is not the first one, even where it saturates. -/
theorem AccountNonce.next_ne_zero (n : AccountNonce) : n.next ≠ {} := by
  intro h
  have hvalue := congrArg (fun m : AccountNonce => m.value.val) h
  simp only [AccountNonce.next] at hvalue
  split_ifs at hvalue with hfits
  · exact absurd hvalue (Nat.succ_ne_zero _)
  · rw [hvalue] at hfits
    exact hfits (by decide)

/-- What a run is to do with the writes of its Move calls: an account that a resource write modified
last has the coin value and the nonce of the write, and a bundle that is one coin transfer of the
mock executor to another account raises the caller's nonce by one. -/
structure WritesLand (exec : MoveExecutor) (modules : InMemoryModuleStore) (view : MoveBalanceView)
    (steps : List BundleStep) (s' : State) : Prop where
  slot : ∀ a w, lastModification exec modules view a steps = some (.resourceWrite w) →
    s'.slotOf a = ⟨w.coinValue, w.nonce⟩
  nonce : exec = mockMoveExecutor → ∀ call dst amount, steps = [.moveCall call] →
    call.IsCoinTransfer dst amount → moveAddrToEvm dst ≠ moveAddrToEvm call.caller →
    (s'.slotOf (moveAddrToEvm call.caller)).nonce.value.val =
      (view.nonce call.caller).value.val + 1

/-- The last thing a coin transfer to another account does to its caller is to raise the nonce. -/
theorem lastModification_coinTransfer {modules : InMemoryModuleStore} {view : MoveBalanceView}
    {call : MoveCall} {dst : MoveAddress} {amount : List Byte}
    (hcall : call.IsCoinTransfer dst amount)
    (hne : moveAddrToEvm dst ≠ moveAddrToEvm call.caller) {outcome : MoveOutcome}
    (hexec : mockMoveExecutor call modules view = some (.ok outcome)) :
    ∃ callerNew, lastModification mockMoveExecutor modules view (moveAddrToEvm call.caller)
      [.moveCall call] = some (.resourceWrite
        ⟨call.caller, callerNew, (view.nonce call.caller).next⟩) := by
  obtain ⟨callerNew, recipientNew, -, -, hwrites⟩ := hcall.resourceWrites hexec
  have hstep : stepWrites mockMoveExecutor modules view (.moveCall call) =
      outcome.resourceWrites := by
    simp only [stepWrites, hexec]
  refine ⟨callerNew, ?_⟩
  simp [lastModification, BundleStep.modifications, hstep, hwrites, hne]

/-- The writes of the Move calls of a committed bundle. The coin values land in the state. The
writes land as a whole if and only if the nonce of every write that is the last modification of its
account is zero: `SetBalance` makes a slot without the nonce of the write. -/
theorem resource_writes_land_iff (exec : MoveExecutor) (modules modules' : InMemoryModuleStore)
    (view : MoveBalanceView) (order : IterOrder) (s s' : State) (bundle : Bundle)
    (result : BundleResult)
    (hrun : BundleExecutor.executeWithMoveRuntime exec modules view order s bundle =
      some (s', modules', result))
    (hcommit : result.outcome = .committed) :
    (∀ a w, lastModification exec modules view a bundle.steps = some (.resourceWrite w) →
      (s'.slotOf a).canonical = w.coinValue) ∧
    (WritesLand exec modules view bundle.steps s' ↔
      ∀ a w, lastModification exec modules view a bundle.steps = some (.resourceWrite w) →
        w.nonce = {}) := by
  have hslot : ∀ a w, lastModification exec modules view a bundle.steps = some (.resourceWrite w) →
      s'.slotOf a = BalanceSlot.new w.coinValue := by
    intro a w hlast
    have hsettles := executeWithMoveRuntime_settles hrun hcommit a
    rw [hlast] at hsettles
    exact hsettles
  refine ⟨fun a w hlast => congrArg BalanceSlot.canonical (hslot a w hlast), ?_, ?_⟩
  · intro hland a w hlast
    have heq := (hland.slot a w hlast).symm.trans (hslot a w hlast)
    exact congrArg BalanceSlot.nonce heq
  · intro hzero
    refine ⟨fun a w hlast => ?_, ?_⟩
    · rw [hslot a w hlast, hzero a w hlast]
      rfl
    · rintro rfl call dst amount hsteps hcall hne
      rw [show bundle = ⟨[.moveCall call]⟩ from congrArg Bundle.mk hsteps] at hrun
      obtain ⟨outcome, hexec, -⟩ := committed_moveCall hrun hcommit
      obtain ⟨callerNew, hlast⟩ := lastModification_coinTransfer hcall hne hexec
      rw [← hsteps] at hlast
      exact absurd (hzero _ _ hlast) (AccountNonce.next_ne_zero _)

/-- An executor that writes 7 to address 2, and no nonce. -/
def zeroNonceExecutor : MoveExecutor := fun _ _ _ =>
  some (.ok { resourceWrites := [⟨MoveAddress.fromEvm (smallAddress 2), 7, {}⟩] })

/-- A write whose nonce is zero lands. -/
theorem resource_writes_land_zero :
    WritesLand zeroNonceExecutor {} smallView [.moveCall coinTransfer]
      (smallState.apply (.setBalance (smallAddress 2) 7)) := by
  refine (resource_writes_land_iff zeroNonceExecutor {} {} smallView default smallState _
    ⟨[.moveCall coinTransfer]⟩ ⟨[.committed], .committed⟩ rfl rfl).2.2 ?_
  intro a w hlast
  by_cases ha : smallAddress 2 = a
  · subst ha
    cases hlast
    rfl
  · have hproj : moveAddrToEvm (MoveAddress.fromEvm (smallAddress 2)) = smallAddress 2 := rfl
    simp [lastModification, BundleStep.modifications, stepWrites, zeroNonceExecutor, hproj, ha]
      at hlast

/-- The coin transfer of 40 from address 1 to address 2 commits, and its writes have the nonce 1 for
address 1. The slot of address 1 has the nonce 0 after it, as before. -/
theorem coinTransfer_drops_nonce :
    (BundleExecutor.executeWithMoveRuntime mockMoveExecutor {} smallView default smallState
      ⟨[.moveCall coinTransfer]⟩).map (fun r =>
        (r.2.2.outcome, r.1.slotOf (smallAddress 1))) = some (.committed, ⟨60, ⟨0⟩⟩) ∧
    lastModification mockMoveExecutor {} smallView (smallAddress 1) [.moveCall coinTransfer] =
      some (.resourceWrite ⟨MoveAddress.fromEvm (smallAddress 1), 60, ⟨1⟩⟩) ∧
    smallView.nonce (MoveAddress.fromEvm (smallAddress 1)) = ⟨0⟩ := by
  decide +kernel

end SuwappuDb
