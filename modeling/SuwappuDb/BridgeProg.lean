import SuwappuDb.Protocol

/-!
# The bridge's operations as programs

`Bridge` reads balances and writes through `State::apply`, whatever the backend of the state: an
operation of `crates/suwappudb-bridge/src/lib.rs` is a program over those two calls
(`BridgeOp.prog`).

Run on the state in memory a program is the bridge's function, and on its way it passes through the
state before, the state after, or a state with the debit of its transfer and not the credit
(`runs_all`).
-/

namespace SuwappuDb

open Prog

/-! ## The programs -/

/-- What the bridge asks of a state. -/
inductive StoreCall where
  | balanceOf (addr : Address)
  | apply (change : StateChange)

abbrev StoreCall.Res : StoreCall → Type
  | .balanceOf _ => Balance
  | .apply _ => Unit

/-- An operation's verdict, or the panic of a subtraction. -/
abbrev BridgeProg := Prog StoreCall StoreCall.Res (Option Verdict)

/-- The two writes of a transfer. -/
def legsProg (src dst : Address) (newFrom newTo : Balance) : BridgeProg :=
  .call (.apply (.setBalance src newFrom)) fun _ =>
    .call (.apply (.setBalance dst newTo)) fun _ => .ret (some (.ok ()))

/-- From the destination's balance on, which `submit` and `transfer_internal` have in common. -/
def moveProg (src dst : Address) (amount fromBalance : U128) : BridgeProg :=
  .call (.balanceOf dst) fun toBalance =>
    match checkedAdd toBalance amount with
    | none => .ret (some (.error .amountOverflow))
    | some newTo =>
        match sub? fromBalance amount with
        | none => .ret none
        | some newFrom => legsProg src dst newFrom newTo

/-- The program of an operation. -/
def BridgeOp.prog : BridgeOp → BridgeProg
  | .submit (.call ..) => .ret (some (.error .callRequiresRegistry))
  | .submit (.deployModule ..) => .ret (some (.error .deployModuleRequiresModuleStore))
  | .submit (.transfer src dst amount) =>
      .call (.balanceOf src) fun fromBalance =>
        if fromBalance < amount then .ret (some (.error .insufficientBalance))
        else if src = dst then .ret (some (.ok ()))
        else moveProg src dst amount fromBalance
  | .transferInternal src dst amount =>
      if amount = 0 ∨ src = dst then .ret (some (.ok ()))
      else
        .call (.balanceOf src) fun fromBal =>
          if fromBal < amount then .ret (some (.error .insufficientBalance))
          else moveProg src dst amount fromBal
  | .credit addr amount =>
      if amount = 0 then .ret (some (.ok ()))
      else
        .call (.balanceOf addr) fun bal =>
          match checkedAdd bal amount with
          | none => .ret (some (.error .amountOverflow))
          | some new => .call (.apply (.setBalance addr new)) fun _ => .ret (some (.ok ()))
  | .debit addr amount =>
      if amount = 0 then .ret (some (.ok ()))
      else
        .call (.balanceOf addr) fun bal =>
          if bal < amount then .ret (some (.error .insufficientBalance))
          else
            match sub? bal amount with
            | none => .ret none
            | some new => .call (.apply (.setBalance addr new)) fun _ => .ret (some (.ok ()))
  | .writeBytes addr bytes =>
      .call (.apply (.setBytes addr bytes)) fun _ => .ret (some (.ok ()))

/-- The state in memory. -/
def memorySem : (call : StoreCall) → State → call.Res × State
  | .balanceOf addr, s => (s.balanceOf addr, s)
  | .apply change, s => ((), s.apply change)

/-! ## In memory -/

/-- The transfer that an operation asks for. -/
def BridgeOp.transfer? : BridgeOp → Option (Address × Address × U128)
  | .submit (.transfer src dst amount) => some (src, dst, amount)
  | .transferInternal src dst amount => some (src, dst, amount)
  | _ => none

/-- `t` is `s` with the debit of a transfer written and not its credit. -/
structure HalfMoved (s : State) (src dst : Address) (amount : U128) (t : State) : Prop where
  ne : src ≠ dst
  enough : amount.val ≤ s.ledger src
  debited : t = s.apply (.setBalance src (s.balanceOf src - amount))

/-- Half a transfer has lost its amount. -/
theorem HalfMoved.supply {s t : State} {src dst : Address} {amount : U128}
    (h : HalfMoved s src dst amount t) : t.supply + amount.val = s.supply := by
  have hsupply := supply_setBalance s src (s.balanceOf src - amount)
  rw [Fin.sub_val_of_le h.enough, ← h.debited] at hsupply
  have henough := h.enough
  simp only [State.ledger] at hsupply henough
  omega

/-- What an operation passes through: the state before it, the state after it, or half of its
transfer. -/
def Passes (s s' : State) (transfer : Option (Address × Address × U128)) (t : State) : Prop :=
  t = s ∨ t = s' ∨ ∃ src dst amount, transfer = some (src, dst, amount) ∧
    HalfMoved s src dst amount t

theorem moveProg_spec (s : State) {src dst : Address} {amount : U128} (hne : src ≠ dst)
    (henough : ¬ s.balanceOf src < amount) :
    (checkedAdd (s.balanceOf dst) amount = none ∧
      (moveProg src dst amount (s.balanceOf src)).run memorySem s =
        (some (.error .amountOverflow), s) ∧
      ∀ t ∈ (moveProg src dst amount (s.balanceOf src)).states memorySem s, t = s) ∨
    ∃ newTo s', checkedAdd (s.balanceOf dst) amount = some newTo ∧
      s' = (s.apply (.setBalance src (s.balanceOf src - amount))).apply (.setBalance dst newTo) ∧
      (moveProg src dst amount (s.balanceOf src)).run memorySem s = (some (.ok ()), s') ∧
      ∀ t ∈ (moveProg src dst amount (s.balanceOf src)).states memorySem s,
        t = s ∨ t = s' ∨ HalfMoved s src dst amount t := by
  have hsub := sub?_eq_sub henough
  cases hadd : checkedAdd (s.balanceOf dst) amount with
  | none =>
      refine .inl ⟨rfl, ?_, fun t ht => ?_⟩
      · simp [moveProg, Prog.run, memorySem, hadd]
      · simpa [moveProg, Prog.states, memorySem, hadd] using ht
  | some newTo =>
      refine .inr ⟨newTo, _, rfl, rfl, ?_, fun t ht => ?_⟩
      · simp [moveProg, legsProg, Prog.run, memorySem, hadd, hsub]
      · simp only [moveProg, legsProg, Prog.states, memorySem, hadd, hsub, List.mem_cons,
          List.not_mem_nil, or_false] at ht
        rcases ht with h | h | h | h
        · exact .inl h
        · exact .inl h
        · exact .inr (.inr ⟨hne, not_lt.1 henough, h⟩)
        · exact .inr (.inl h)

/-- A program run in memory is the bridge's function, and on its way through half a transfer at
worst. -/
structure Runs (s : State) (op : BridgeOp) (s' : State) (verdict : Verdict) : Prop where
  run : op.run s = some (s', verdict)
  prog : op.prog.run memorySem s = (some verdict, s')
  passes : ∀ t ∈ op.prog.states memorySem s, Passes s s' op.transfer? t

/-- The transfer of an operation whose own checks have passed. -/
theorem runs_of_moveProg {s : State} {op : BridgeOp} {src dst : Address} {amount : U128}
    (hne : src ≠ dst) (henough : ¬ s.balanceOf src < amount)
    (htransfer : op.transfer? = some (src, dst, amount))
    (hprog : op.prog.run memorySem s =
      (moveProg src dst amount (s.balanceOf src)).run memorySem s)
    (hstates : ∀ t ∈ op.prog.states memorySem s,
      t = s ∨ t ∈ (moveProg src dst amount (s.balanceOf src)).states memorySem s)
    (hover : checkedAdd (s.balanceOf dst) amount = none →
      op.run s = some (s, .error .amountOverflow))
    (hmoved : ∀ newTo, checkedAdd (s.balanceOf dst) amount = some newTo → op.run s =
      some ((s.apply (.setBalance src (s.balanceOf src - amount))).apply (.setBalance dst newTo),
        .ok ())) :
    ∃ s' verdict, Runs s op s' verdict := by
  rcases moveProg_spec s hne henough with ⟨hadd, hrun, hmem⟩ | ⟨newTo, s', hadd, rfl, hrun, hmem⟩
  · refine ⟨s, _, hover hadd, hprog.trans hrun, fun t ht => .inl ?_⟩
    rcases hstates t ht with h | h
    · exact h
    · exact hmem t h
  · refine ⟨_, _, hmoved newTo hadd, hprog.trans hrun, fun t ht => ?_⟩
    rcases hstates t ht with h | h
    · exact .inl h
    rcases hmem t h with h | h | h
    · exact .inl h
    · exact .inr (.inl h)
    · exact .inr (.inr ⟨src, dst, amount, htransfer, h⟩)

theorem runs_submit (s : State) (src dst : Address) (amount : U128) :
    ∃ s' verdict, Runs s (.submit (.transfer src dst amount)) s' verdict := by
  by_cases hlt : s.balanceOf src < amount
  · refine ⟨s, .error .insufficientBalance, ?_, ?_, ?_⟩
    · simp [BridgeOp.run, Bridge.submit, hlt]
    · simp [BridgeOp.prog, Prog.run, memorySem, hlt]
    · simp [BridgeOp.prog, Prog.states, memorySem, hlt, Passes]
  by_cases heq : src = dst
  · subst heq
    refine ⟨s, .ok (), ?_, ?_, ?_⟩
    · simp [BridgeOp.run, Bridge.submit, hlt]
    · simp [BridgeOp.prog, Prog.run, memorySem, hlt]
    · simp [BridgeOp.prog, Prog.states, memorySem, hlt, Passes]
  refine runs_of_moveProg heq hlt rfl ?_ ?_ ?_ ?_
  · simp [BridgeOp.prog, Prog.run, memorySem, hlt, heq]
  · simp [BridgeOp.prog, Prog.states, memorySem, hlt, heq]
  · intro hadd
    simp [BridgeOp.run, Bridge.submit, hlt, heq, hadd]
  · intro newTo hadd
    simp [BridgeOp.run, Bridge.submit, hlt, heq, hadd, sub?_eq_sub hlt]

theorem runs_transferInternal (s : State) (src dst : Address) (amount : U128) :
    ∃ s' verdict, Runs s (.transferInternal src dst amount) s' verdict := by
  by_cases hnoop : amount = 0 ∨ src = dst
  · refine ⟨s, .ok (), ?_, ?_, ?_⟩
    · simp [BridgeOp.run, Bridge.transferInternal, hnoop]
    · simp [BridgeOp.prog, Prog.run, hnoop]
    · simp [BridgeOp.prog, Prog.states, hnoop, Passes]
  by_cases hlt : s.balanceOf src < amount
  · refine ⟨s, .error .insufficientBalance, ?_, ?_, ?_⟩
    · simp [BridgeOp.run, Bridge.transferInternal, hnoop, hlt]
    · simp [BridgeOp.prog, Prog.run, memorySem, hnoop, hlt]
    · simp [BridgeOp.prog, Prog.states, memorySem, hnoop, hlt, Passes]
  refine runs_of_moveProg (fun heq => hnoop (.inr heq)) hlt rfl ?_ ?_ ?_ ?_
  · simp [BridgeOp.prog, Prog.run, memorySem, hnoop, hlt]
  · simp [BridgeOp.prog, Prog.states, memorySem, hnoop, hlt]
  · intro hadd
    simp [BridgeOp.run, Bridge.transferInternal, hnoop, hlt, hadd]
  · intro newTo hadd
    simp [BridgeOp.run, Bridge.transferInternal, hnoop, hlt, hadd, sub?_eq_sub hlt]

theorem runs_credit (s : State) (addr : Address) (amount : U128) :
    ∃ s' verdict, Runs s (.credit addr amount) s' verdict := by
  by_cases hzero : amount = 0
  · refine ⟨s, .ok (), ?_, ?_, ?_⟩
    · simp [BridgeOp.run, Bridge.credit, hzero]
    · simp [BridgeOp.prog, Prog.run, hzero]
    · simp [BridgeOp.prog, Prog.states, hzero, Passes]
  cases hadd : checkedAdd (s.balanceOf addr) amount with
  | none =>
      refine ⟨s, .error .amountOverflow, ?_, ?_, ?_⟩
      · simp [BridgeOp.run, Bridge.credit, hzero, hadd]
      · simp [BridgeOp.prog, Prog.run, memorySem, hzero, hadd]
      · simp [BridgeOp.prog, Prog.states, memorySem, hzero, hadd, Passes]
  | some new =>
      refine ⟨s.apply (.setBalance addr new), .ok (), ?_, ?_, ?_⟩
      · simp [BridgeOp.run, Bridge.credit, hzero, hadd]
      · simp [BridgeOp.prog, Prog.run, memorySem, hzero, hadd]
      · simp [BridgeOp.prog, Prog.states, memorySem, hzero, hadd, Passes]

theorem runs_debit (s : State) (addr : Address) (amount : U128) :
    ∃ s' verdict, Runs s (.debit addr amount) s' verdict := by
  by_cases hzero : amount = 0
  · refine ⟨s, .ok (), ?_, ?_, ?_⟩
    · simp [BridgeOp.run, Bridge.debit, hzero]
    · simp [BridgeOp.prog, Prog.run, hzero]
    · simp [BridgeOp.prog, Prog.states, hzero, Passes]
  by_cases hlt : s.balanceOf addr < amount
  · refine ⟨s, .error .insufficientBalance, ?_, ?_, ?_⟩
    · simp [BridgeOp.run, Bridge.debit, hzero, hlt]
    · simp [BridgeOp.prog, Prog.run, memorySem, hzero, hlt]
    · simp [BridgeOp.prog, Prog.states, memorySem, hzero, hlt, Passes]
  · have hsub := sub?_eq_sub hlt
    refine ⟨s.apply (.setBalance addr (s.balanceOf addr - amount)), .ok (), ?_, ?_, ?_⟩
    · simp [BridgeOp.run, Bridge.debit, hzero, hlt, hsub]
    · simp [BridgeOp.prog, Prog.run, memorySem, hzero, hlt, hsub]
    · simp [BridgeOp.prog, Prog.states, memorySem, hzero, hlt, hsub, Passes]

theorem runs_all (s : State) (op : BridgeOp) : ∃ s' verdict, Runs s op s' verdict := by
  cases op with
  | submit intent =>
      cases intent with
      | call caller target value calldata =>
          exact ⟨s, _, rfl, rfl, by simp [BridgeOp.prog, Prog.states, Passes]⟩
      | deployModule account name bytes =>
          exact ⟨s, _, rfl, rfl, by simp [BridgeOp.prog, Prog.states, Passes]⟩
      | transfer src dst amount => exact runs_submit s src dst amount
  | transferInternal src dst amount => exact runs_transferInternal s src dst amount
  | credit addr amount => exact runs_credit s addr amount
  | debit addr amount => exact runs_debit s addr amount
  | writeBytes addr bytes =>
      refine ⟨s.apply (.setBytes addr bytes), .ok (), rfl, rfl, ?_⟩
      simp [BridgeOp.prog, Prog.states, memorySem, Passes]

end SuwappuDb
