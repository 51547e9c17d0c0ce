import SuwappuDb.Lib.Ledger
import SuwappuDb.Serializability

/-!
# Balances are a ledger

What the ways to move a balance are for: each is a `Ledger.transfer` of the state's balances,
capped at `2 ^ 128`, or several.

* `submit_ledger`, `transferInternal_ledger` — the bridge's operations.
* `overlay_transferBody`, `overlay_callSteps` — a speculative run, seen from what it reads to what
  it writes: one transfer, or the transfers of a bundle up to the first that is rejected, in which
  case none.
* `viewAt` — what transaction `i` of a settled store sees. It sees the state's balances after the
  transactions below it, and the state after consolidation is what a transaction behind the block
  would see.

`execute_eq_submit` — so a block of plain transfers leaves the balances that submitting the
transfers one by one does, although the two are written independently. They do not report alike:
a transfer to oneself that would overflow is rejected in a block and accepted by `submit`.
-/

namespace SuwappuDb

open Ledger Prog

/-- The cap of a balance. -/
def CAP : ℕ := 2 ^ 128

/-- A state's balances. -/
def State.ledger (s : State) : Address → ℕ := fun a => (s.balanceOf a).val

/-! ## The bridge -/

theorem Bridge.Moved.ledger_eq {s s' : State} {src dst : Address} {amount : U128}
    (h : Bridge.Moved s s' src dst amount) :
    s'.ledger = transfer CAP src dst amount.val s.ledger := by
  funext a
  have henough : amount.val ≤ s.ledger src := h.enough
  have hfits : s.ledger dst + amount.val < CAP := h.fits
  rw [transfer_apply henough h.ne hfits, h.eq, State.ledger, State.balanceOf_setBalance,
    State.balanceOf_setBalance]
  split_ifs <;> rfl

section Submit

variable {s : State} {src dst : Address} {amount : U128}

theorem submit_of_lt (hlt : s.ledger src < amount.val) :
    Bridge.submit s (.transfer src dst amount) = some (s, .error .insufficientBalance) := by
  have hlt' : s.balanceOf src < amount := hlt
  simp [Bridge.submit, hlt']

theorem submit_of_self (henough : amount.val ≤ s.ledger src) (heq : src = dst) :
    Bridge.submit s (.transfer src dst amount) = some (s, .ok ()) := by
  have hlt : ¬ s.balanceOf src < amount := not_lt.2 henough
  simp [Bridge.submit, hlt, ← heq]

theorem submit_of_overflow (henough : amount.val ≤ s.ledger src) (hne : src ≠ dst)
    (hover : CAP ≤ s.ledger dst + amount.val) :
    Bridge.submit s (.transfer src dst amount) = some (s, .error .amountOverflow) := by
  have hlt : ¬ s.balanceOf src < amount := not_lt.2 henough
  have hadd : checkedAdd (s.balanceOf dst) amount = none := checkedAdd_eq_none.2 hover
  simp [Bridge.submit, hlt, hne, hadd]

theorem submit_of_fits (henough : amount.val ≤ s.ledger src) (hne : src ≠ dst)
    (hfits : s.ledger dst + amount.val < CAP) :
    ∃ s', Bridge.Moved s s' src dst amount ∧
      Bridge.submit s (.transfer src dst amount) = some (s', .ok ()) := by
  have hlt : ¬ s.balanceOf src < amount := not_lt.2 henough
  obtain ⟨newTo, hadd⟩ : ∃ newTo, checkedAdd (s.balanceOf dst) amount = some newTo :=
    ⟨⟨_, hfits⟩, checkedAdd_eq_some.2 rfl⟩
  obtain ⟨newFrom, hsub, hmoved⟩ := Bridge.moved_of_checks hne hlt hadd
  exact ⟨_, hmoved, by simp [Bridge.submit, hlt, hne, hadd, hsub]⟩

end Submit

/-- Everything `submit` can do with a transfer, on the ledger. -/
theorem submit_ledger_cases (s : State) (src dst : Address) (amount : U128) :
    (s.ledger src < amount.val ∧
      Bridge.submit s (.transfer src dst amount) = some (s, .error .insufficientBalance)) ∨
    (amount.val ≤ s.ledger src ∧ src = dst ∧
      Bridge.submit s (.transfer src dst amount) = some (s, .ok ())) ∨
    (amount.val ≤ s.ledger src ∧ src ≠ dst ∧ CAP ≤ s.ledger dst + amount.val ∧
      Bridge.submit s (.transfer src dst amount) = some (s, .error .amountOverflow)) ∨
    (amount.val ≤ s.ledger src ∧ src ≠ dst ∧ s.ledger dst + amount.val < CAP ∧
      ∃ s', Bridge.Moved s s' src dst amount ∧
        Bridge.submit s (.transfer src dst amount) = some (s', .ok ())) := by
  rcases lt_or_ge (s.ledger src) amount.val with hlt | henough
  · exact .inl ⟨hlt, submit_of_lt hlt⟩
  by_cases heq : src = dst
  · exact .inr (.inl ⟨henough, heq, submit_of_self henough heq⟩)
  rcases lt_or_ge (s.ledger dst + amount.val) CAP with hfits | hover
  · exact .inr (.inr (.inr ⟨henough, heq, hfits, submit_of_fits henough heq hfits⟩))
  · exact .inr (.inr (.inl ⟨henough, heq, hover, submit_of_overflow henough heq hover⟩))

/-- `submit` of a transfer is a transfer. -/
theorem submit_ledger (s : State) (src dst : Address) (amount : U128) :
    ∃ s' verdict, Bridge.submit s (.transfer src dst amount) = some (s', verdict) ∧
      s'.ledger = transfer CAP src dst amount.val s.ledger := by
  rcases submit_ledger_cases s src dst amount with
    ⟨hlt, hsubmit⟩ | ⟨-, heq, hsubmit⟩ | ⟨-, -, hover, hsubmit⟩ | ⟨-, -, -, s', hmoved, hsubmit⟩
  · exact ⟨s, _, hsubmit, (transfer_eq_self (Or.inl hlt)).symm⟩
  · exact ⟨s, _, hsubmit, (transfer_eq_self (Or.inr (Or.inl heq))).symm⟩
  · exact ⟨s, _, hsubmit, (transfer_eq_self (Or.inr (Or.inr hover))).symm⟩
  · exact ⟨s', _, hsubmit, hmoved.ledger_eq⟩

theorem submit_transfersTo (s : State) (intent : Intent) :
    ∃ s' verdict, Bridge.submit s intent = some (s', verdict) ∧
      TransfersTo CAP s.ledger s'.ledger := by
  cases intent with
  | transfer src dst amount =>
      obtain ⟨s', verdict, hsubmit, hledger⟩ := submit_ledger s src dst amount
      exact ⟨s', verdict, hsubmit, hledger ▸ .one CAP amount.val src dst s.ledger⟩
  | call caller target value calldata => exact ⟨s, _, rfl, .refl CAP _⟩
  | deployModule account name bytes => exact ⟨s, _, rfl, .refl CAP _⟩

theorem transferInternal_ledger (s : State) (src dst : Address) (amount : U128) :
    ∃ s' verdict, Bridge.transferInternal s src dst amount = some (s', verdict) ∧
      TransfersTo CAP s.ledger s'.ledger := by
  rcases Bridge.transferInternal_cases s src dst amount with ⟨verdict, h⟩ | ⟨s', hmoved, h⟩
  · exact ⟨s, verdict, h, .refl CAP _⟩
  · exact ⟨s', _, h, hmoved.ledger_eq ▸ .one CAP amount.val src dst s.ledger⟩

/-! ## Speculative runs -/

/-- A ledger with some slots written over it. -/
def overlay (written : Address → Option BalanceSlot) (f : Address → ℕ) : Address → ℕ := fun a =>
  ((written a).map fun slot => slot.canonical.val).getD (f a)

/-- What a run writes when it is answered by `answer`. -/
def written (answer : (op : MvOp) → op.Res) (p : MvProg) (a : Address) : Option BalanceSlot :=
  (writesOf (p.calls answer)).lookup a

/-- How a run ends when it is answered by `answer`. -/
def outcomeOf (answer : (op : MvOp) → op.Res) (p : MvProg) : Option TxOutcome :=
  (p.eval answer).map Txn.outcome

/-- The answers to `i`'s reads show the ledger `f`. -/
def Shows (answer : (op : MvOp) → op.Res) (i : TxnIdx) (f : Address → ℕ) : Prop :=
  ∀ a, (answer (.read a i) : BalanceSlot × ReadSource).1.canonical.val = f a

/-- Everything `transferLegs` can do. -/
theorem transferLegs_cases (fromBalance toBalance amount : U128) :
    (fromBalance.val < amount.val ∧
      transferLegs fromBalance toBalance amount = some (.error .insufficientBalance)) ∨
    (amount.val ≤ fromBalance.val ∧ CAP ≤ toBalance.val + amount.val ∧
      transferLegs fromBalance toBalance amount = some (.error .amountOverflow)) ∨
    (amount.val ≤ fromBalance.val ∧ toBalance.val + amount.val < CAP ∧
      ∃ newFrom newTo : U128, newFrom.val = fromBalance.val - amount.val ∧
        newTo.val = toBalance.val + amount.val ∧
        transferLegs fromBalance toBalance amount = some (.ok (newFrom, newTo))) := by
  by_cases hlt : fromBalance < amount
  · exact Or.inl ⟨hlt, by simp [transferLegs, hlt]⟩
  · cases hadd : checkedAdd toBalance amount with
    | none =>
        exact Or.inr (Or.inl ⟨not_lt.1 hlt, checkedAdd_eq_none.1 hadd,
          by simp [transferLegs, hlt, hadd]⟩)
    | some newTo =>
        have hsum := checkedAdd_eq_some.1 hadd
        exact Or.inr (Or.inr ⟨not_lt.1 hlt, hsum ▸ newTo.isLt,
          ⟨fromBalance.val - amount.val, by omega⟩, newTo, rfl, hsum.symm,
          by simp [transferLegs, hlt, hadd, sub?_of_not_lt hlt]⟩)

/-- The write of a transfer's two sides, over the ledger they were computed from. -/
theorem overlay_sides {w w' : Address → Option BalanceSlot} {f : Address → ℕ} {src dst : Address}
    {amount : ℕ} {newFrom newTo : U128} (henough : amount ≤ overlay w f src) (hne : src ≠ dst)
    (hfits : overlay w f dst + amount < CAP) (hfrom : newFrom.val = overlay w f src - amount)
    (hto : newTo.val = overlay w f dst + amount)
    (hw : ∀ a, w' a = if a = dst then some (BalanceSlot.new newTo)
      else if a = src then some (BalanceSlot.new newFrom) else w a) :
    overlay w' f = transfer CAP src dst amount (overlay w f) := by
  funext a
  rw [transfer_apply henough hne hfits, overlay, hw]
  split_ifs with hd hs
  · exact hto
  · exact hfrom
  · rfl

/-- A slot written over itself, with the same balance. -/
theorem overlay_same {w w' : Address → Option BalanceSlot} {f : Address → ℕ} {src : Address}
    {bal : U128} (hbal : bal.val = overlay w f src)
    (hw : ∀ a, w' a = if a = src then some (BalanceSlot.new bal) else w a) :
    overlay w' f = overlay w f := by
  funext a
  rw [overlay, hw]
  split_ifs with hs
  · rw [hs, ← hbal]
    rfl
  · rfl

theorem outcomeOf_call (answer : (op : MvOp) → op.Res) (op : MvOp) (k : op.Res → MvProg) :
    outcomeOf answer (.call op k) = outcomeOf answer (k (answer op)) := rfl

/-- A read writes nothing. -/
theorem written_read (answer : (op : MvOp) → op.Res) (a : Address) (i : TxnIdx)
    (k : (MvOp.read a i).Res → MvProg) :
    written answer (.call (.read a i) k) = written answer (k (answer (.read a i))) := rfl

/-- A write comes before the writes after it. -/
theorem written_write (answer : (op : MvOp) → op.Res) (a b : Address) (slot : BalanceSlot)
    (i : TxnIdx) (k : (MvOp.write a slot i).Res → MvProg) :
    written answer (.call (.write a slot i) k) b =
      if b = a then some slot else written answer (k (answer (.write a slot i))) b :=
  lookup_cons_ite b a slot _

/-- Everything a speculative transfer can do. When it passes its checks it writes its two sides,
with the balances of a transfer. -/
theorem transferBody_spec {answer : (op : MvOp) → op.Res} {i : TxnIdx} {f : Address → ℕ}
    (hshows : Shows answer i f) (src dst : Address) (amount : U128) :
    (f src < amount.val ∧
      outcomeOf answer (transferBody src dst amount i) = some (.rejected .insufficientBalance) ∧
      ∀ a, written answer (transferBody src dst amount i) a = none) ∨
    (amount.val ≤ f src ∧ CAP ≤ f dst + amount.val ∧
      outcomeOf answer (transferBody src dst amount i) = some (.rejected .amountOverflow) ∧
      ∀ a, written answer (transferBody src dst amount i) a = none) ∨
    (amount.val ≤ f src ∧ f dst + amount.val < CAP ∧
      outcomeOf answer (transferBody src dst amount i) = some .committed ∧
      ∃ bal : Address → U128,
        (∀ a, a = src ∨ a = dst → (bal a).val = transfer CAP src dst amount.val f a) ∧
        ∀ a, written answer (transferBody src dst amount i) a =
          if a = src ∨ a = dst then some (BalanceSlot.new (bal a)) else none) := by
  have hsrc := hshows src
  have hdst := hshows dst
  rw [transferBody, outcomeOf_call, written_read]
  generalize answer (.read src i) = fromRead at hsrc
  obtain ⟨fromSlot, fromSrc⟩ := fromRead
  rw [outcomeOf_call, written_read]
  generalize answer (.read dst i) = toRead at hdst
  obtain ⟨toSlot, toSrc⟩ := toRead
  dsimp only at hsrc hdst
  rw [← hsrc, ← hdst]
  rcases transferLegs_cases fromSlot.canonical toSlot.canonical amount with
    ⟨hlt, hlegs⟩ | ⟨henough, hover, hlegs⟩ |
    ⟨henough, hfits, newFrom, newTo, hnewFrom, hnewTo, hlegs⟩
  · simp only [hlegs]
    exact .inl ⟨hlt, rfl, fun _ => rfl⟩
  · simp only [hlegs]
    exact .inr (.inl ⟨henough, hover, rfl, fun _ => rfl⟩)
  · simp only [hlegs]
    refine .inr (.inr ⟨henough, hfits, ?_⟩)
    split_ifs with heq
    · refine ⟨rfl, fun _ => fromSlot.canonical, fun a ha => ?_, fun a => ?_⟩
      · rw [transfer_eq_self (Or.inr (Or.inl heq)), hsrc]
        rcases ha with rfl | rfl
        · rfl
        · rw [heq]
      · rw [written_write]
        simp only [heq, or_self]
        rfl
    · refine ⟨rfl, fun a => if a = dst then newTo else newFrom, fun a ha => ?_, fun a => ?_⟩
      · rw [hsrc] at henough hnewFrom
        rw [hdst] at hfits hnewTo
        rw [transfer_apply henough heq hfits]
        rcases ha with rfl | rfl
        · simp [heq, hnewFrom]
        · simp [hnewTo]
      · rw [written_write, written_write]
        by_cases hs : a = src
        · simp [hs, heq]
        · by_cases hd : a = dst
          · simp [hd, Ne.symm heq]
          · simp only [hs, hd, if_false, or_self]
            rfl

/-- A speculative transfer is a transfer. -/
theorem overlay_transferBody {answer : (op : MvOp) → op.Res} {i : TxnIdx} {f : Address → ℕ}
    (hshows : Shows answer i f) (src dst : Address) (amount : U128) :
    overlay (written answer (transferBody src dst amount i)) f =
      transfer CAP src dst amount.val f := by
  rcases transferBody_spec hshows src dst amount with
    ⟨hlt, -, hwritten⟩ | ⟨-, hover, -, hwritten⟩ | ⟨henough, hfits, -, bal, hbal, hwritten⟩
  · rw [transfer_eq_self (Or.inl hlt), funext hwritten]
    rfl
  · rw [transfer_eq_self (Or.inr (Or.inr hover)), funext hwritten]
    rfl
  · funext a
    rw [overlay, hwritten]
    split_ifs with ha
    · exact hbal a ha
    · obtain ⟨hs, hd⟩ := not_or.1 ha
      by_cases heq : src = dst
      · rw [transfer_eq_self (Or.inr (Or.inl heq))]
        rfl
      · rw [transfer_apply henough heq hfits, if_neg hd, if_neg hs]
        rfl

/-- A value read through `localOrMv` is the balance the bundle sees. -/
theorem localOrMv_spec {answer : (op : MvOp) → op.Res} {i : TxnIdx} {f : Address → ℕ}
    (hshows : Shows answer i f) (loc : OrdMap Address BalanceSlot) (a : Address) :
    ∃ slot src, slot.canonical.val = overlay loc.get? f a ∧
      ∀ k, outcomeOf answer (localOrMv loc a i k) = outcomeOf answer (k slot src) ∧
        written answer (localOrMv loc a i k) = written answer (k slot src) := by
  unfold localOrMv
  cases hget : loc.get? a with
  | some slot => exact ⟨slot, none, by rw [overlay, hget]; rfl, fun k => ⟨rfl, rfl⟩⟩
  | none =>
      refine ⟨(answer (.read a i)).1, some (answer (.read a i)).2, ?_, fun k => ⟨rfl, rfl⟩⟩
      rw [overlay, hget]
      exact hshows a

/-- A bundle whose steps are done publishes its values. -/
theorem callSteps_nil (answer : (op : MvOp) → op.Res) (i : TxnIdx) (env : RunEnv)
    (loc : OrdMap Address BalanceSlot) (reads : List ReadEntry) :
    outcomeOf answer (callSteps env i [] loc reads) = some .committed ∧
      written answer (callSteps env i [] loc reads) = loc.get? := by
  obtain ⟨houtcome, hwrites⟩ := publish_spec answer i reads (env.order.arrange loc.entries) []
  refine ⟨houtcome, ?_⟩
  funext a
  rw [written, callSteps, hwrites]
  exact OrdMap.lookup_arranged (env.order.perm loc.entries) a

/-- Everything a transfer step of a bundle can do: end the run, with nothing written, or make the
transfer in the bundle's own values. -/
theorem callSteps_cons {answer : (op : MvOp) → op.Res} {i : TxnIdx} {f : Address → ℕ}
    (hshows : Shows answer i f) (env : RunEnv) {step : BundleStep} {src dst : Address}
    {amount : U128} (hstep : stepTransfer step = some (src, dst, amount)) (steps : List BundleStep)
    (loc : OrdMap Address BalanceSlot) (reads : List ReadEntry) :
    (overlay loc.get? f src < amount.val ∧
      outcomeOf answer (callSteps env i (step :: steps) loc reads) =
        some (.rejected .insufficientBalance) ∧
      written answer (callSteps env i (step :: steps) loc reads) = fun _ => none) ∨
    (amount.val ≤ overlay loc.get? f src ∧ CAP ≤ overlay loc.get? f dst + amount.val ∧
      outcomeOf answer (callSteps env i (step :: steps) loc reads) =
        some (.rejected .amountOverflow) ∧
      written answer (callSteps env i (step :: steps) loc reads) = fun _ => none) ∨
    (amount.val ≤ overlay loc.get? f src ∧ overlay loc.get? f dst + amount.val < CAP ∧
      ∃ loc' reads', overlay loc'.get? f = transfer CAP src dst amount.val (overlay loc.get? f) ∧
        (∃ bal : Address → U128, ∀ a, loc'.get? a =
          if a = src ∨ a = dst then some (BalanceSlot.new (bal a)) else loc.get? a) ∧
        outcomeOf answer (callSteps env i (step :: steps) loc reads) =
          outcomeOf answer (callSteps env i steps loc' reads') ∧
        written answer (callSteps env i (step :: steps) loc reads) =
          written answer (callSteps env i steps loc' reads')) := by
  obtain ⟨fromSlot, fromSrc, hsrc, hfrom⟩ := localOrMv_spec hshows loc src
  obtain ⟨toSlot, toSrc, hdst, hto⟩ := localOrMv_spec hshows loc dst
  rw [callSteps, hstep]
  dsimp only
  rw [(hfrom _).1, (hfrom _).2, (hto _).1, (hto _).2, ← hsrc, ← hdst]
  rcases transferLegs_cases fromSlot.canonical toSlot.canonical amount with
    ⟨hlt, hlegs⟩ | ⟨henough, hover, hlegs⟩ |
    ⟨henough, hfits, newFrom, newTo, hnewFrom, hnewTo, hlegs⟩
  · simp only [hlegs]
    exact .inl ⟨hlt, rfl, rfl⟩
  · simp only [hlegs]
    exact .inr (.inl ⟨henough, hover, rfl, rfl⟩)
  · simp only [hlegs]
    refine .inr (.inr ⟨henough, hfits, ?_⟩)
    split_ifs with heq
    · refine ⟨_, _, ?_, ⟨fun _ => fromSlot.canonical, fun a => ?_⟩, rfl, rfl⟩
      · rw [transfer_eq_self (Or.inr (Or.inl heq))]
        exact overlay_same hsrc fun a => OrdMap.get?_insert loc src a _
      · simp only [OrdMap.get?_insert, heq, or_self]
    · refine ⟨_, _, ?_, ⟨fun a => if a = dst then newTo else newFrom, fun a => ?_⟩, rfl, rfl⟩
      · rw [hsrc] at henough hnewFrom
        rw [hdst] at hfits hnewTo
        exact overlay_sides henough heq hfits hnewFrom hnewTo fun a => by
          rw [OrdMap.get?_insert, OrdMap.get?_insert]
      · rw [OrdMap.get?_insert, OrdMap.get?_insert]
        by_cases hd : a = dst
        · simp [hd]
        · simp [hd]

/-- The steps of a bundle are transfers, all of them or, after a rejected one, none. -/
theorem overlay_callSteps {answer : (op : MvOp) → op.Res} {i : TxnIdx} {f : Address → ℕ}
    (hshows : Shows answer i f) (env : RunEnv) (steps : List BundleStep)
    (loc : OrdMap Address BalanceSlot) (reads : List ReadEntry) :
    overlay (written answer (callSteps env i steps loc reads)) f = f ∨
      TransfersTo CAP (overlay loc.get? f)
        (overlay (written answer (callSteps env i steps loc reads)) f) := by
  induction steps generalizing loc reads with
  | nil =>
      rw [(callSteps_nil answer i env loc reads).2]
      exact Or.inr (.refl CAP _)
  | cons step steps ih =>
      cases hstep : stepTransfer step with
      | none =>
          rw [callSteps, hstep]
          exact ih loc reads
      | some p =>
          rcases callSteps_cons hshows env hstep steps loc reads with
            ⟨-, -, hwritten⟩ | ⟨-, -, -, hwritten⟩ | ⟨-, -, loc', reads', hmoved, -, -, hwritten⟩
          · rw [hwritten]
            exact Or.inl rfl
          · rw [hwritten]
            exact Or.inl rfl
          · rw [hwritten]
            refine (ih loc' reads').imp id fun hrest => ?_
            rw [hmoved] at hrest
            exact hrest.head

/-! ## What a transaction sees -/

theorem MvStore.read_zero (mv : MvStore) (s : State) (a : Address) :
    mv.read s a 0 = (s.slotOf a, .snapshot) := by
  rw [MvStore.read_eq, OrdMap.lastBelow_eq_none.2 fun j hj => absurd hj (Nat.not_lt_zero j)]

/-- The last version below `i + 1` is `i`'s, or else the last below `i`. -/
theorem MvStore.lastBelow_succ (mv : MvStore) (a : Address) (i : Nat) :
    (mv.row a).lastBelow (i + 1) = match mv.slotAt a i with
      | some slot => some (i, slot)
      | none => (mv.row a).lastBelow i := by
  cases hslot : mv.slotAt a i with
  | some slot =>
      exact OrdMap.lastBelow_eq_some.2 ⟨Nat.lt_succ_self i, hslot,
        fun j hij hj => absurd (Nat.lt_succ_iff.1 hj) (not_le_of_gt hij)⟩
  | none =>
      cases hi : (mv.row a).lastBelow i with
      | none =>
          refine OrdMap.lastBelow_eq_none.2 fun j hj => ?_
          rcases Nat.lt_succ_iff_lt_or_eq.1 hj with hlt | rfl
          · exact OrdMap.lastBelow_eq_none.1 hi j hlt
          · exact hslot
      | some p =>
          obtain ⟨hlt, hget, habove⟩ := OrdMap.lastBelow_eq_some.1 hi
          refine OrdMap.lastBelow_eq_some.2 ⟨Nat.lt_succ_of_lt hlt, hget, fun j hpj hj => ?_⟩
          rcases Nat.lt_succ_iff_lt_or_eq.1 hj with hlt' | rfl
          · exact habove j hpj hlt'
          · exact hslot

/-- A read at `i + 1` finds `i`'s version, or what a read at `i` finds. -/
theorem MvStore.read_succ (mv : MvStore) (s : State) (a : Address) (i : Nat) :
    mv.read s a (i + 1) = match mv.slotAt a i with
      | some slot => (slot, .version i)
      | none => mv.read s a i := by
  rw [MvStore.read_eq, MvStore.read_eq, MvStore.lastBelow_succ]
  cases mv.slotAt a i <;> rfl

/-- The balances transaction `i` sees. -/
def viewAt (s : State) (mv : MvStore) (i : TxnIdx) : Address → ℕ := fun a =>
  (mv.read s a i).1.canonical.val

theorem shows_viewAt (s : State) (mv : MvStore) (i : TxnIdx) :
    Shows (answers s mv) i (viewAt s mv i) := fun _ => rfl

/-- A transaction sees the last slots below it, over the state. -/
theorem viewAt_eq_overlay (s : State) (mv : MvStore) (i : TxnIdx) :
    viewAt s mv i = overlay (fun a => ((mv.row a).lastBelow i).map Prod.snd) s.ledger := by
  funext a
  rw [viewAt, MvStore.read_eq, overlay]
  cases (mv.row a).lastBelow i with
  | none => rfl
  | some p => rfl

theorem viewAt_zero (s : State) (mv : MvStore) : viewAt s mv 0 = s.ledger := by
  funext a
  rw [viewAt, MvStore.read_zero]
  rfl

theorem viewAt_succ (s : State) (mv : MvStore) (i : Nat) :
    viewAt s mv (i + 1) = overlay (fun a => mv.slotAt a i) (viewAt s mv i) := by
  funext a
  rw [viewAt, MvStore.read_succ, overlay]
  cases mv.slotAt a i with
  | some slot => rfl
  | none => rfl

theorem lookup_finalise {mv : MvStore} {n : Nat} (houtside : ∀ a i, n ≤ i → mv.slotAt a i = none)
    (order : IterOrder) (a : Address) :
    (mv.finalise order).lookup a = ((mv.row a).lastBelow n).map Prod.snd := by
  have hall : (mv.row a).entries.filter (fun p => p.1 < n) = (mv.row a).entries := by
    refine List.filter_eq_self.2 fun p hp => ?_
    have hget : mv.slotAt a p.1 = some p.2 := OrdMap.mem_entries.1 hp
    by_contra hlt
    rw [houtside a p.1 (by simpa using hlt)] at hget
    cases hget
  rw [OrdMap.lastBelow, hall]
  refine Option.ext fun slot => ?_
  rw [lookup_eq_some_iff (nodup_finalise mv order), MvStore.finalise, List.mem_filterMap]
  constructor
  · rintro ⟨p, hp, hlast⟩
    have hget := OrdMap.mem_entries.1 ((order.perm mv.versions.entries).mem_iff.1 hp)
    obtain ⟨v, hv, heq⟩ := Option.map_eq_some_iff.1 hlast
    obtain ⟨rfl, rfl⟩ := Prod.mk.inj heq
    rw [MvStore.row, hget, Option.getD_some, hv]
    rfl
  · intro hlast
    obtain ⟨v, hv, rfl⟩ := Option.map_eq_some_iff.1 hlast
    cases hget : mv.versions.get? a with
    | none =>
        rw [MvStore.row, hget] at hv
        cases hv
    | some perAddr =>
        rw [MvStore.row, hget, Option.getD_some] at hv
        exact ⟨(a, perAddr), (order.perm mv.versions.entries).mem_iff.2 (OrdMap.mem_entries.2 hget),
          by rw [hv]; rfl⟩

/-- The state after consolidation shows what a transaction behind all versions sees. -/
theorem ledger_consolidate {s : State} {mv : MvStore} {n : Nat}
    (houtside : ∀ a i, n ≤ i → mv.slotAt a i = none) (order : IterOrder) :
    (consolidate s (mv.finalise order)).ledger = viewAt s mv n := by
  rw [viewAt_eq_overlay]
  funext a
  rw [State.ledger, State.balanceOf, InMemoryBalanceStore.get,
    get?_slots_consolidate s (nodup_finalise mv order), lookup_finalise houtside, overlay]
  cases (mv.row a).lastBelow n with
  | none => rfl
  | some p => rfl

/-! ## Blocks -/

section Block

variable {s : State} {block : List Intent} {registry : ContractRegistry} {env : TxnIdx → RunEnv}
  {mv : MvStore} {txns : List Txn}

/-- The cells of a transaction in a settled store are what it writes on what it sees. -/
theorem Settled.slotAt_eq (h : Settled s block registry env mv txns) {i : Nat}
    (hi : i < block.length) (a : Address) :
    mv.slotAt a i = written (answers s mv) (executeAt s block registry (env i) i) a := by
  have hget := List.getElem?_eq_getElem (h.length.symm ▸ hi)
  obtain ⟨hist, hrec, ha⟩ := h.runs i _ hget
  rw [hrec.cells, ← (hrec.eval_eq ha).2]
  rfl

/-- The outcome of a transaction in a settled store is that of its run on what it sees. -/
theorem Settled.outcome_eq (h : Settled s block registry env mv txns) {i : Nat}
    (hi : i < block.length) :
    (txns.map Txn.outcome)[i]? =
      outcomeOf (answers s mv) (executeAt s block registry (env i) i) := by
  have hget := List.getElem?_eq_getElem (h.length.symm ▸ hi)
  obtain ⟨hist, hrec, ha⟩ := h.runs i _ hget
  rw [List.getElem?_map, hget, outcomeOf, (hrec.eval_eq ha).1]

/-- Every transaction makes transfers. -/
theorem Settled.transfersTo_succ (h : Settled s block registry env mv txns) {i : Nat}
    (hi : i < block.length) : TransfersTo CAP (viewAt s mv i) (viewAt s mv (i + 1)) := by
  have hshows := shows_viewAt s mv i
  rw [viewAt_succ, funext (h.slotAt_eq hi), executeAt, List.getElem?_eq_getElem hi]
  dsimp only
  cases block[i] with
  | transfer src dst amount =>
      rw [executeOne, overlay_transferBody hshows]
      exact .one CAP amount.val src dst _
  | deployModule account name bytes => exact .refl CAP _
  | call caller target value calldata =>
      rw [executeOne, executeCall]
      cases registry.get target with
      | none =>
          rw [executeTransferInto, overlay_transferBody hshows]
          exact .one CAP value.val caller target _
      | some g =>
          rcases overlay_callSteps hshows (env i) (callBundle (env i) g caller target value calldata
            s).steps ∅ [] with hsame | htransfers
          · rw [hsame]
            exact .refl CAP _
          · exact htransfers

theorem Settled.transfersTo (h : Settled s block registry env mv txns) (i : Nat)
    (hi : i ≤ block.length) : TransfersTo CAP s.ledger (viewAt s mv i) := by
  induction i with
  | zero =>
      rw [viewAt_zero]
      exact .refl CAP _
  | succ i ih => exact (ih (Nat.le_of_succ_le hi)).trans (h.transfersTo_succ hi)

end Block

/-- A block, under any registry and schedule, makes transfers. -/
theorem executeWithRegistry_ledger (blake3 : Blake3) (sched : Schedule) (s : State)
    (block : List Intent) (registry : ContractRegistry) :
    ∃ s' report,
      BlockExecutor.executeWithRegistry blake3 sched s block registry = some (s', report) ∧
      TransfersTo CAP s.ledger s'.ledger := by
  obtain ⟨fin, hloop, -, env, hsettled⟩ := runLoop_spec s block registry sched
  obtain ⟨s', report, hexec, rfl, -⟩ :=
    executeWithRegistry_eq blake3 sched s block registry hloop
  refine ⟨_, report, hexec, ?_⟩
  rw [ledger_consolidate hsettled.outside]
  exact hsettled.transfersTo block.length le_rfl

/-! ## Plain blocks -/

/-- An intent that the executor treats as a transfer. -/
def Intent.Plain (registry : ContractRegistry) : Intent → Prop
  | .transfer .. => True
  | .call _ target _ _ => registry.get target = none
  | .deployModule .. => False

instance (registry : ContractRegistry) : (intent : Intent) → Decidable (intent.Plain registry)
  | .transfer .. => isTrue trivial
  | .call _ target _ _ =>
      decidable_of_iff ((registry.get target).isNone = true) Option.isNone_iff_eq_none
  | .deployModule .. => isFalse id

/-- A call read as the transfer of its value. -/
def Intent.asTransfer : Intent → Intent
  | .call caller target value _ => .transfer caller target value
  | intent => intent

/-- The addresses an intent names. -/
def Intent.named : Intent → List Address
  | .transfer src dst _ => [src, dst]
  | .call caller target _ _ => [caller, target]
  | .deployModule .. => []

/-- Submit intents one after another, each as a transfer, and ignore what is rejected. -/
def submitAll (s : State) (block : List Intent) : Option State :=
  block.foldlM (fun s intent => (Bridge.submit s intent.asTransfer).map Prod.fst) s

theorem submitAll_take_succ {s t t' : State} {block : List Intent} {i : Nat} {intent : Intent}
    {verdict : Verdict} (hget : block[i]? = some intent)
    (ht : submitAll s (block.take i) = some t)
    (hsubmit : Bridge.submit t intent.asTransfer = some (t', verdict)) :
    submitAll s (block.take (i + 1)) = some t' := by
  rw [submitAll, List.take_add_one, hget, List.foldlM_append]
  change (submitAll s (block.take i)).bind _ = _
  rw [ht]
  simp [hsubmit]

/-- The run of a plain intent is that of a transfer, which is what it submits. -/
theorem Intent.Plain.cases {registry : ContractRegistry} {intent : Intent}
    (h : intent.Plain registry) :
    ∃ src dst amount, intent.asTransfer = .transfer src dst amount ∧ intent.named = [src, dst] ∧
      ∀ env i s, executeOne env intent i s registry = transferBody src dst amount i := by
  cases intent with
  | transfer src dst amount => exact ⟨src, dst, amount, rfl, rfl, fun _ _ _ => rfl⟩
  | call caller target value calldata =>
      refine ⟨caller, target, value, rfl, rfl, fun env i s => ?_⟩
      have hget : registry.get target = none := h
      rw [executeOne, executeCall, hget]
      rfl
  | deployModule account name bytes => exact absurd h id

section Block

variable {s : State} {block : List Intent} {registry : ContractRegistry} {env : TxnIdx → RunEnv}
  {mv : MvStore} {txns : List Txn}

/-- Transaction by transaction, what the executor's transactions see is what `submit` leaves. -/
theorem Settled.submitAll_take (h : Settled s block registry env mv txns)
    (hplain : ∀ intent ∈ block, intent.Plain registry) (i : Nat) (hi : i ≤ block.length) :
    ∃ t, submitAll s (block.take i) = some t ∧ t.ledger = viewAt s mv i := by
  induction i with
  | zero => exact ⟨s, rfl, (viewAt_zero s mv).symm⟩
  | succ i ih =>
      obtain ⟨t, ht, hledger⟩ := ih (Nat.le_of_succ_le hi)
      have hget := List.getElem?_eq_getElem hi
      obtain ⟨src, dst, amount, htransfer, -, hrun⟩ := (hplain _ (List.getElem_mem hi)).cases
      obtain ⟨t', verdict, hsubmit, hledger'⟩ := submit_ledger t src dst amount
      refine ⟨t', ?_, ?_⟩
      · rw [← htransfer] at hsubmit
        exact submitAll_take_succ hget ht hsubmit
      · rw [hledger', hledger, viewAt_succ, funext (h.slotAt_eq hi), executeAt, hget]
        simp only [hrun]
        exact (overlay_transferBody (shows_viewAt s mv i) src dst amount).symm

/-- An address that no intent names has no versions. -/
theorem Settled.slotAt_unnamed (h : Settled s block registry env mv txns)
    (hplain : ∀ intent ∈ block, intent.Plain registry) {a : Address}
    (ha : ∀ intent ∈ block, a ∉ intent.named) (i : Nat) : mv.slotAt a i = none := by
  by_cases hi : i < block.length
  · have hmem := List.getElem_mem hi
    obtain ⟨src, dst, amount, -, hnamed, hrun⟩ := (hplain _ hmem).cases
    have hne := ha _ hmem
    rw [hnamed, List.mem_cons, List.mem_singleton, not_or] at hne
    rw [h.slotAt_eq hi, executeAt, List.getElem?_eq_getElem hi]
    simp only [hrun]
    rcases transferBody_spec (shows_viewAt s mv i) src dst amount with
      ⟨-, -, hnone⟩ | ⟨-, -, -, hnone⟩ | ⟨-, -, -, bal, -, hwritten⟩
    · exact hnone a
    · exact hnone a
    · rw [hwritten, if_neg (not_or.2 hne)]
  · exact h.outside a i (not_lt.1 hi)

end Block

/-- A block of transfers, and of calls that are transfers, leaves the balances that submitting them
one by one does. Slots of addresses that are not named, and the bytes, stay. -/
theorem execute_eq_submit (blake3 : Blake3) (sched : Schedule) (s : State) (block : List Intent)
    (registry : ContractRegistry) (hplain : ∀ intent ∈ block, intent.Plain registry) :
    ∃ s' report t,
      BlockExecutor.executeWithRegistry blake3 sched s block registry = some (s', report) ∧
      submitAll s block = some t ∧
      (∀ a, s'.balanceOf a = t.balanceOf a) ∧
      (∀ a, (∀ intent ∈ block, a ∉ intent.named) →
        s'.store.slots.get? a = s.store.slots.get? a) ∧
      ∀ a, s'.bytesOf a = s.bytesOf a := by
  obtain ⟨fin, hloop, -, env, hsettled⟩ := runLoop_spec s block registry sched
  obtain ⟨s', report, hexec, hstate, -⟩ :=
    executeWithRegistry_eq blake3 sched s block registry hloop
  obtain ⟨t, hsubmit, hledger⟩ := hsettled.submitAll_take hplain block.length le_rfl
  rw [List.take_length] at hsubmit
  refine ⟨s', report, t, hexec, hsubmit, fun a => ?_, fun a ha => ?_, fun a => ?_⟩
  · have hsame : s'.ledger = t.ledger := by
      rw [hstate, ledger_consolidate hsettled.outside, hledger]
    exact Fin.ext (congrFun hsame a)
  · have hnone : (fin.mv.row a).lastBelow block.length = none :=
      OrdMap.lastBelow_eq_none.2 fun i _ => hsettled.slotAt_unnamed hplain ha i
    rw [hstate, get?_slots_consolidate s (nodup_finalise _ _), lookup_finalise hsettled.outside,
      hnone]
    rfl
  · rw [hstate, bytesOf_consolidate]

/-- A chain of payments, with a call of an address that has no contract, and a transfer to
oneself. -/
def plainBlock : List Intent := [
  .transfer (smallAddress 1) (smallAddress 2) 60,
  .call (smallAddress 2) (smallAddress 3) 50 [],
  .transfer (smallAddress 3) (smallAddress 3) 7]

theorem plainBlock_plain : ∀ intent ∈ plainBlock, intent.Plain smallRegistry := by decide

theorem execute_eq_submit_plainBlock :
    (∀ intent ∈ plainBlock, intent.Plain smallRegistry) ∧
    ∀ (blake3 : Blake3) (sched : Schedule), ∃ s' report t,
      BlockExecutor.executeWithRegistry blake3 sched smallState plainBlock smallRegistry =
        some (s', report) ∧
      submitAll smallState plainBlock = some t ∧
      (∀ a, s'.balanceOf a = t.balanceOf a) ∧
      (∀ a, (∀ intent ∈ plainBlock, a ∉ intent.named) →
        s'.store.slots.get? a = smallState.store.slots.get? a) ∧
      ∀ a, s'.bytesOf a = smallState.bytesOf a :=
  ⟨plainBlock_plain, fun blake3 sched =>
    execute_eq_submit blake3 sched smallState plainBlock smallRegistry plainBlock_plain⟩

end SuwappuDb
