import SuwappuDb.Move

/-!
# The bridge

`crates/suwappudb-bridge/src/lib.rs`: intents, the reasons to reject one, and the bridge's
operations: `submit` and `transfer_internal`, which move balances, and the mutations of the
execution layer's own arms (mint, slashing, bonds, registry pins), `credit`, `debit` and
`write_bytes`. Each returns the state it leaves together with its verdict; `none` is the panic of a
subtraction that would wrap.

`submit_cases` and `transferInternal_cases` say everything the first two can do. In particular
neither panics, and neither touches the state when it rejects.
-/

namespace SuwappuDb

/-- An untrusted intent. -/
inductive Intent where
  | transfer (src dst : Address) (amount : U128)
  | call (caller target : Address) (value : U128) (calldata : List Byte)
  | deployModule (account : MoveAddress) (name : Identifier) (bytes : List Byte)
  deriving DecidableEq

/-- Why an intent or a bundle step was rejected. For a failed Move call the source keeps the
error's debug text; the error itself stands for it here. -/
inductive RejectReason where
  | insufficientBalance
  | amountOverflow
  | callRequiresRegistry
  | deployModuleRequiresModuleStore
  | moveRuntimeRequired
  | moveCallFailed (e : MoveExecutionError)
  | moduleDeployFailed (text : String)
  deriving DecidableEq

/-- The outcome reported for one transaction or bundle step. -/
inductive TxOutcome where
  | committed
  | rejected (reason : RejectReason)
  deriving DecidableEq

/-- A verdict: `Ok(())` or a reason. -/
abbrev Verdict := Except RejectReason Unit

namespace Bridge

/-- `Bridge::submit`. A transfer to oneself stops after the balance check. -/
def submit (s : State) : Intent → Option (State × Verdict)
  | .call .. => some (s, .error .callRequiresRegistry)
  | .deployModule .. => some (s, .error .deployModuleRequiresModuleStore)
  | .transfer src dst amount =>
      let fromBalance := s.balanceOf src
      if fromBalance < amount then some (s, .error .insufficientBalance)
      else if src = dst then some (s, .ok ())
      else
        match checkedAdd (s.balanceOf dst) amount with
        | none => some (s, .error .amountOverflow)
        | some newTo => do
            let newFrom ← sub? fromBalance amount
            some ((s.apply (.setBalance src newFrom)).apply (.setBalance dst newTo), .ok ())

/-- `Bridge::transfer_internal`. -/
def transferInternal (s : State) (src dst : Address) (amount : U128) : Option (State × Verdict) :=
  if amount = 0 ∨ src = dst then some (s, .ok ())
  else
    let fromBal := s.balanceOf src
    if fromBal < amount then some (s, .error .insufficientBalance)
    else
      match checkedAdd (s.balanceOf dst) amount with
      | none => some (s, .error .amountOverflow)
      | some newTo => do
          let newFrom ← sub? fromBal amount
          some ((s.apply (.setBalance src newFrom)).apply (.setBalance dst newTo), .ok ())

/-- `Bridge::credit`. -/
def credit (s : State) (addr : Address) (amount : U128) : State × Verdict :=
  if amount = 0 then (s, .ok ())
  else
    match checkedAdd (s.balanceOf addr) amount with
    | none => (s, .error .amountOverflow)
    | some new => (s.apply (.setBalance addr new), .ok ())

/-- `Bridge::debit`. -/
def debit (s : State) (addr : Address) (amount : U128) : Option (State × Verdict) :=
  if amount = 0 then some (s, .ok ())
  else
    let bal := s.balanceOf addr
    if bal < amount then some (s, .error .insufficientBalance)
    else do
      let new ← sub? bal amount
      some (s.apply (.setBalance addr new), .ok ())

/-- `Bridge::write_bytes`. -/
def writeBytes (s : State) (addr : Address) (bytes : List Byte) : State :=
  s.apply (.setBytes addr bytes)

end Bridge

/-- The calls of the bridge that change a state. -/
inductive BridgeOp where
  | submit (intent : Intent)
  | transferInternal (src dst : Address) (amount : U128)
  | credit (addr : Address) (amount : U128)
  | debit (addr : Address) (amount : U128)
  | writeBytes (addr : Address) (bytes : List Byte)

def BridgeOp.run (s : State) : BridgeOp → Option (State × Verdict)
  | .submit intent => Bridge.submit s intent
  | .transferInternal src dst amount => Bridge.transferInternal s src dst amount
  | .credit addr amount => some (Bridge.credit s addr amount)
  | .debit addr amount => Bridge.debit s addr amount
  | .writeBytes addr bytes => some (Bridge.writeBytes s addr bytes, .ok ())

namespace Bridge

/-! ## What the operations do -/

/-- `s'` is `s` with `amount` moved from `src` to `dst`, both balances written. -/
structure Moved (s s' : State) (src dst : Address) (amount : U128) : Prop where
  ne : src ≠ dst
  enough : amount.val ≤ (s.balanceOf src).val
  fits : (s.balanceOf dst).val + amount.val < 2 ^ 128
  eq : s' = (s.apply (.setBalance src ⟨(s.balanceOf src).val - amount.val, by omega⟩)).apply
    (.setBalance dst ⟨(s.balanceOf dst).val + amount.val, fits⟩)

/-- The two writes of a transfer that passed its checks. -/
theorem moved_of_checks {s : State} {src dst : Address} {amount newTo : U128} (hne : src ≠ dst)
    (henough : ¬ s.balanceOf src < amount)
    (hadd : checkedAdd (s.balanceOf dst) amount = some newTo) :
    ∃ newFrom, sub? (s.balanceOf src) amount = some newFrom ∧
      Moved s ((s.apply (.setBalance src newFrom)).apply (.setBalance dst newTo)) src dst
        amount := by
  have hsum := checkedAdd_eq_some.1 hadd
  have hlt := newTo.isLt
  refine ⟨_, sub?_of_not_lt henough, hne, not_lt.1 henough, by omega, ?_⟩
  congr 2
  exact Fin.ext hsum.symm

/-- Everything `submit` can do with a transfer. -/
theorem submit_cases (s : State) (src dst : Address) (amount : U128) :
    (s.balanceOf src < amount ∧
      submit s (.transfer src dst amount) = some (s, .error .insufficientBalance)) ∨
    (¬ s.balanceOf src < amount ∧ src = dst ∧
      submit s (.transfer src dst amount) = some (s, .ok ())) ∨
    (¬ s.balanceOf src < amount ∧ src ≠ dst ∧ checkedAdd (s.balanceOf dst) amount = none ∧
      submit s (.transfer src dst amount) = some (s, .error .amountOverflow)) ∨
    ∃ s', Moved s s' src dst amount ∧ submit s (.transfer src dst amount) = some (s', .ok ()) := by
  by_cases hlt : s.balanceOf src < amount
  · exact Or.inl ⟨hlt, by simp [submit, hlt]⟩
  by_cases heq : src = dst
  · subst heq
    exact Or.inr (Or.inl ⟨hlt, rfl, by simp [submit, hlt]⟩)
  cases hadd : checkedAdd (s.balanceOf dst) amount with
  | none => exact Or.inr (Or.inr (Or.inl ⟨hlt, heq, rfl, by simp [submit, hlt, heq, hadd]⟩))
  | some newTo =>
      obtain ⟨newFrom, hsub, hmoved⟩ := moved_of_checks heq hlt hadd
      exact Or.inr (Or.inr (Or.inr ⟨_, hmoved, by simp [submit, hlt, heq, hadd, hsub]⟩))

theorem submit_total (s : State) (src dst : Address) (amount : U128) :
    ∃ s' verdict, submit s (.transfer src dst amount) = some (s', verdict) := by
  rcases submit_cases s src dst amount with
    ⟨-, h⟩ | ⟨-, -, h⟩ | ⟨-, -, -, h⟩ | ⟨s', -, h⟩ <;> exact ⟨_, _, h⟩

/-- Everything `transferInternal` can do. -/
theorem transferInternal_cases (s : State) (src dst : Address) (amount : U128) :
    (∃ v, transferInternal s src dst amount = some (s, v)) ∨
    ∃ s', Moved s s' src dst amount ∧ transferInternal s src dst amount = some (s', .ok ()) := by
  by_cases hnoop : amount = 0 ∨ src = dst
  · exact Or.inl ⟨.ok (), by simp [transferInternal, hnoop]⟩
  by_cases hlt : s.balanceOf src < amount
  · exact Or.inl ⟨.error .insufficientBalance, by simp [transferInternal, hnoop, hlt]⟩
  cases hadd : checkedAdd (s.balanceOf dst) amount with
  | none => exact Or.inl ⟨.error .amountOverflow, by simp [transferInternal, hnoop, hlt, hadd]⟩
  | some newTo =>
      obtain ⟨newFrom, hsub, hmoved⟩ := moved_of_checks (fun h => hnoop (Or.inr h)) hlt hadd
      exact Or.inr ⟨_, hmoved, by simp [transferInternal, hnoop, hlt, hadd, hsub]⟩

/-- A rejected intent leaves the state alone. -/
theorem submit_rejected {s s' : State} {intent : Intent} {reason : RejectReason}
    (h : submit s intent = some (s', .error reason)) : s' = s := by
  cases intent with
  | call caller target value calldata => exact (Prod.mk.inj (Option.some.inj h)).1.symm
  | deployModule account name bytes => exact (Prod.mk.inj (Option.some.inj h)).1.symm
  | transfer src dst amount =>
      rcases submit_cases s src dst amount with
        ⟨-, hrun⟩ | ⟨-, -, hrun⟩ | ⟨-, -, -, hrun⟩ | ⟨t, -, hrun⟩
      · exact (Prod.mk.inj (Option.some.inj (h.symm.trans hrun))).1
      · exact (Prod.mk.inj (Option.some.inj (h.symm.trans hrun))).1
      · exact (Prod.mk.inj (Option.some.inj (h.symm.trans hrun))).1
      · cases h.symm.trans hrun

theorem transferInternal_rejected {s s' : State} {src dst : Address} {amount : U128}
    {reason : RejectReason} (h : transferInternal s src dst amount = some (s', .error reason)) :
    s' = s := by
  rcases transferInternal_cases s src dst amount with ⟨v, hrun⟩ | ⟨t, -, hrun⟩
  · exact (Prod.mk.inj (Option.some.inj (h.symm.trans hrun))).1
  · cases h.symm.trans hrun

end Bridge

end SuwappuDb
