import SuwappuDb.Conservation

/-!
# Protocol-owned mutations

`crates/suwappudb-bridge/src/lib.rs`: `credit`, `debit` and `write_bytes`, the mutations of the
execution layer's own arms (mint, slashing, bonds, registry pins). They are the ones that change how
much there is, and the only ones that reach the bytes column.

* `protocol_accounted` — over any run of every mutation the bridge and the executors offer: what
  there is at the end is what there was, plus the accepted credits, minus the accepted debits, and
  an address' blob is the last one written to it.
* `debit_credit_agrees` — a `debit` followed by a `credit` against `transfer_internal`: where the
  pair is not the transfer, and what is lost there.
-/

namespace SuwappuDb

/-! ## The bytes column -/

/-- What a list of blob writes leaves at an address: its last write, an empty blob being none. -/
def blobAfter (a : Address) (old : Option (List Byte)) :
    List (Address × List Byte) → Option (List Byte)
  | [] => old
  | (addr, bytes) :: rest =>
      blobAfter a (if addr = a then if bytes = [] then none else some bytes else old) rest

theorem bytesOf_setBytes (s : State) (addr a : Address) (bytes : List Byte) :
    (s.apply (.setBytes addr bytes)).bytesOf a =
      if addr = a then if bytes = [] then none else some bytes else s.bytesOf a := by
  simp only [State.apply, State.bytesOf, InMemoryBalanceStore.getBytes,
    InMemoryBalanceStore.setBytes]
  split_ifs with hempty ha ha
  · simp [OrdMap.get?_erase, ha]
  · simp [OrdMap.get?_erase, Ne.symm ha]
  · simp [ha]
  · simp [OrdMap.get?_insert, Ne.symm ha]

theorem bytesOf_setBalances (s : State) (writes : List (Address × Balance)) (a : Address) :
    (s.setBalances writes).bytesOf a = s.bytesOf a := by
  induction writes generalizing s with
  | nil => rfl
  | cons p rest ih => exact ih _

theorem submit_bytes {s s' : State} {intent : Intent} {verdict : Verdict}
    (h : Bridge.submit s intent = some (s', verdict)) (a : Address) :
    s'.bytesOf a = s.bytesOf a := by
  cases intent with
  | transfer src dst amount =>
      rcases Bridge.submit_cases s src dst amount with
        ⟨-, hrun⟩ | ⟨-, -, hrun⟩ | ⟨-, -, -, hrun⟩ | ⟨t, hmoved, hrun⟩
      all_goals obtain ⟨rfl, rfl⟩ := Prod.mk.inj (Option.some.inj (hrun.symm.trans h))
      · rfl
      · rfl
      · rfl
      · rw [hmoved.eq]
        rfl
  | call caller target value calldata =>
      obtain ⟨rfl, rfl⟩ := Prod.mk.inj (Option.some.inj h)
      rfl
  | deployModule account name bytes =>
      obtain ⟨rfl, rfl⟩ := Prod.mk.inj (Option.some.inj h)
      rfl

theorem executeFrom_bytes {order : IterOrder} {snapshot : OrdMap Address Balance} {idx : Nat}
    {steps : List BundleStep} {s s' : State} {outcomes : List TxOutcome} {result : BundleResult}
    (h : BundleExecutor.executeFrom order snapshot idx steps s outcomes = some (s', result))
    (a : Address) : s'.bytesOf a = s.bytesOf a := by
  induction steps generalizing idx s outcomes with
  | nil =>
      obtain ⟨rfl, -⟩ := Prod.mk.inj (Option.some.inj h)
      rfl
  | cons step steps ih =>
      rw [BundleExecutor.executeFrom] at h
      cases hstep : stepToIntent step with
      | none =>
          simp only [hstep] at h
          obtain ⟨rfl, -⟩ := Prod.mk.inj (Option.some.inj h)
          exact bytesOf_setBalances s _ a
      | some intent =>
          simp only [hstep] at h
          obtain ⟨⟨t, verdict⟩, hsubmit, hrest⟩ := Option.bind_eq_some_iff.1 h
          cases verdict with
          | ok => exact (ih hrest).trans (submit_bytes hsubmit a)
          | error reason =>
              obtain ⟨rfl, -⟩ := Prod.mk.inj (Option.some.inj hrest)
              exact (bytesOf_setBalances t _ a).trans (submit_bytes hsubmit a)

theorem transferInternal_bytes {s s' : State} {src dst : Address} {amount : U128}
    {verdict : Verdict} (h : Bridge.transferInternal s src dst amount = some (s', verdict))
    (a : Address) : s'.bytesOf a = s.bytesOf a := by
  rcases Bridge.transferInternal_cases s src dst amount with ⟨v, hrun⟩ | ⟨t, hmoved, hrun⟩
  · obtain ⟨rfl, -⟩ := Prod.mk.inj (Option.some.inj (hrun.symm.trans h))
    rfl
  · obtain ⟨rfl, -⟩ := Prod.mk.inj (Option.some.inj (hrun.symm.trans h))
    rw [hmoved.eq]
    rfl

/-- The blob an operation writes. -/
def BridgeOp.blob : BridgeOp → Option (Address × List Byte)
  | .writeBytes addr bytes => some (addr, bytes)
  | _ => none

def StateOp.blob : StateOp → Option (Address × List Byte)
  | .bridge op => op.blob
  | _ => none

/-- Only `write_bytes` reaches the bytes column. -/
theorem BridgeOp.run_bytes {s s' : State} {op : BridgeOp} {verdict : Verdict}
    (h : op.run s = some (s', verdict)) (a : Address) :
    s'.bytesOf a = blobAfter a (s.bytesOf a) op.blob.toList := by
  cases op with
  | submit intent => exact submit_bytes h a
  | transferInternal src dst amount => exact transferInternal_bytes h a
  | credit addr amount =>
      have hrun : some (Bridge.credit s addr amount) = some (s', verdict) := h
      rcases credit_cases s addr amount with ⟨-, hcase⟩ | ⟨-, -, hcase⟩ | ⟨-, new, -, hcase⟩
      all_goals
        rw [hcase] at hrun
        obtain ⟨rfl, -⟩ := Prod.mk.inj (Option.some.inj hrun)
        rfl
  | debit addr amount =>
      have hrun : Bridge.debit s addr amount = some (s', verdict) := h
      rcases debit_cases s addr amount with ⟨-, hcase⟩ | ⟨-, -, hcase⟩ | ⟨-, -, new, -, hcase⟩
      all_goals
        rw [hcase] at hrun
        obtain ⟨rfl, -⟩ := Prod.mk.inj (Option.some.inj hrun)
        rfl
  | writeBytes addr bytes =>
      obtain ⟨rfl, -⟩ := Prod.mk.inj (Option.some.inj h)
      exact bytesOf_setBytes s addr a bytes

theorem StateOp.run_bytes {blake3 : Blake3} {s s' : State} {op : StateOp} {result : OpResult}
    (h : op.run blake3 s = some (s', result)) (a : Address) :
    s'.bytesOf a = blobAfter a (s.bytesOf a) op.blob.toList := by
  cases op with
  | bridge op =>
      obtain ⟨⟨t, verdict⟩, hrun, heq⟩ := Option.map_eq_some_iff.1 h
      obtain ⟨rfl, -⟩ := Prod.mk.inj heq
      exact BridgeOp.run_bytes hrun a
  | block sched intents registry =>
      obtain ⟨⟨t, report⟩, hrun, heq⟩ := Option.map_eq_some_iff.1 h
      obtain ⟨rfl, -⟩ := Prod.mk.inj heq
      obtain ⟨fin, hloop, -, -⟩ := runLoop_spec s intents registry sched
      obtain ⟨t', report', hexec, rfl, -⟩ :=
        executeWithRegistry_eq blake3 sched s intents registry hloop
      obtain ⟨rfl, -⟩ := Prod.mk.inj (Option.some.inj (hexec.symm.trans hrun))
      exact bytesOf_consolidate s _ a
  | bundle order b =>
      obtain ⟨⟨t, bundleResult⟩, hrun, heq⟩ := Option.map_eq_some_iff.1 h
      obtain ⟨rfl, -⟩ := Prod.mk.inj heq
      rw [BundleExecutor.execute] at hrun
      split_ifs at hrun
      · obtain ⟨rfl, -⟩ := Prod.mk.inj (Option.some.inj hrun)
        rfl
      · exact executeFrom_bytes hrun a

/-! ## Runs of every mutation -/

theorem blobAfter_append (a : Address) (old : Option (List Byte))
    (l l' : List (Address × List Byte)) :
    blobAfter a old (l ++ l') = blobAfter a (blobAfter a old l) l' := by
  induction l generalizing old with
  | nil => rfl
  | cons p rest ih => exact ih _

/-- The operations that were not rejected. -/
def accepted (ops : List StateOp) (results : List OpResult) : List StateOp :=
  ((ops.zip results).filter fun p => !p.2.rejected).map Prod.fst

/-- Over any run of every mutation there is: the run goes through, the supply at the end is the
supply at the start with the accepted credits added and the accepted debits taken out, each address
holds the last blob written to it, and the calls that the bridge rejected might as well not have
been made. -/
theorem protocol_accounted (blake3 : Blake3) (s : State) (ops : List StateOp) :
    ∃ s' results, runOps blake3 s ops = some (s', results) ∧ results.length = ops.length ∧
      s'.supply + ((ops.zip results).map fun p => p.1.burned p.2).sum =
        s.supply + ((ops.zip results).map fun p => p.1.minted p.2).sum ∧
      (∀ a, s'.bytesOf a = blobAfter a (s.bytesOf a) (ops.filterMap StateOp.blob)) ∧
      runOps blake3 s (accepted ops results) =
        some (s', results.filter fun r => !r.rejected) := by
  induction ops generalizing s with
  | nil => exact ⟨s, [], rfl, rfl, rfl, fun a => rfl, rfl⟩
  | cons op ops ih =>
      obtain ⟨t, result, hop, hkept, hsupply⟩ := op.run_spec blake3 s
      obtain ⟨s', results, hops, hlength, hrest, hblobs, haccepted⟩ := ih t
      refine ⟨s', result :: results, ?_, by simp [hlength], ?_, fun a => ?_, ?_⟩
      · rw [runOps, runAll_cons hop]
        exact congrArg (Option.map _) hops
      · simp only [List.zip_cons_cons, List.map_cons, List.sum_cons]
        omega
      · have hcons : (op :: ops).filterMap StateOp.blob =
            op.blob.toList ++ ops.filterMap StateOp.blob := by
          cases hblob : op.blob <;> simp [hblob]
        rw [hcons, blobAfter_append, ← StateOp.run_bytes hop a, hblobs a]
      · cases hrejected : result.rejected with
        | true =>
            rw [hkept hrejected] at haccepted
            simpa [accepted, hrejected] using haccepted
        | false =>
            have hcons : accepted (op :: ops) (result :: results) = op :: accepted ops results := by
              simp [accepted, hrejected]
            rw [hcons, runOps, runAll_cons hop, List.filter_cons_of_pos (by simp [hrejected])]
            exact congrArg (Option.map _) haccepted

/-! ## A debit and a credit for a transfer -/

/-- `debit` and, if it is accepted, `credit`. -/
def debitCredit (s : State) (src dst : Address) (amount : U128) : Option (State × Verdict) := do
  let (s', verdict) ← Bridge.debit s src amount
  match verdict with
  | .ok () => some (Bridge.credit s' dst amount)
  | .error reason => some (s', .error reason)

/-- Where the pair parts from `transfer_internal`: the debit stands when the credit overflows, and
an address that pays itself has to have the money. -/
def PairDiffers (s : State) (src dst : Address) (amount : U128) : Prop :=
  (src ≠ dst ∧ amount.val ≤ s.ledger src ∧ CAP ≤ s.ledger dst + amount.val) ∨
    (src = dst ∧ s.ledger src < amount.val)

theorem ledger_lt_CAP (s : State) (a : Address) : s.ledger a < CAP := (s.balanceOf a).isLt

/-- An accepted debit, and the credit it is followed by. -/
theorem debitCredit_of_debit {s t : State} {src dst : Address} {amount : U128}
    (h : Bridge.debit s src amount = some (t, .ok ())) :
    debitCredit s src dst amount = some (Bridge.credit t dst amount) := by
  rw [debitCredit, h]
  rfl

/-- A payment to oneself that is covered leaves every balance as it was. -/
theorem debitCredit_self {s : State} {src : Address} {amount : U128} (hzero : amount ≠ 0)
    (henough : amount.val ≤ s.ledger src) :
    ∃ s', debitCredit s src src amount = some (s', .ok ()) ∧ s'.ledger = s.ledger := by
  rcases debit_cases s src amount with ⟨h, -⟩ | ⟨-, hlt, -⟩ | ⟨-, -, low, hlow, hdebit⟩
  · exact absurd h hzero
  · omega
  have hmid : (s.apply (.setBalance src low)).ledger src = low.val := by
    rw [ledger_setBalance, Function.update_self]
  have hcap := ledger_lt_CAP s src
  rcases credit_cases (s.apply (.setBalance src low)) src amount with
    ⟨h, -⟩ | ⟨-, hover, -⟩ | ⟨-, high, hhigh, hcredit⟩
  · exact absurd h hzero
  · omega
  refine ⟨_, (debitCredit_of_debit hdebit).trans (congrArg some hcredit), ?_⟩
  have hback : high.val = s.ledger src := by omega
  rw [ledger_setBalance, ledger_setBalance, Function.update_idem, hback, Function.update_eq_self]

/-- Between two addresses a covered payment is the transfer, unless the receiver overflows: then the
debit stands and the transfer does nothing. -/
theorem debitCredit_apart {s : State} {src dst : Address} {amount : U128} (hzero : amount ≠ 0)
    (hne : src ≠ dst) (henough : amount.val ≤ s.ledger src) :
    (CAP ≤ s.ledger dst + amount.val ∧ ∃ low : U128, low.val = s.ledger src - amount.val ∧
      debitCredit s src dst amount =
        some (s.apply (.setBalance src low), .error .amountOverflow) ∧
      Bridge.transferInternal s src dst amount = some (s, .error .amountOverflow)) ∨
    (s.ledger dst + amount.val < CAP ∧ ∃ s', debitCredit s src dst amount = some (s', .ok ()) ∧
      Bridge.transferInternal s src dst amount = some (s', .ok ())) := by
  have hnot : ¬ s.balanceOf src < amount := not_lt.2 henough
  rcases debit_cases s src amount with ⟨h, -⟩ | ⟨-, hlt, -⟩ | ⟨-, -, low, hlow, hdebit⟩
  · exact absurd h hzero
  · omega
  have hmid : (s.apply (.setBalance src low)).ledger dst = s.ledger dst := by
    rw [ledger_setBalance, Function.update_of_ne (Ne.symm hne)]
  rcases credit_cases (s.apply (.setBalance src low)) dst amount with
    ⟨h, -⟩ | ⟨-, hover, hcredit⟩ | ⟨-, high, hhigh, hcredit⟩
  · exact absurd h hzero
  · rw [hmid] at hover
    have hadd : checkedAdd (s.balanceOf dst) amount = none := checkedAdd_eq_none.2 hover
    refine .inl ⟨hover, low, hlow, (debitCredit_of_debit hdebit).trans (congrArg some hcredit), ?_⟩
    simp [Bridge.transferInternal, hzero, hne, hnot, hadd]
  · rw [hmid] at hhigh
    have hadd : checkedAdd (s.balanceOf dst) amount = some high :=
      checkedAdd_eq_some.2 hhigh.symm
    have hsub : sub? (s.balanceOf src) amount = some low := by
      rw [sub?_of_not_lt hnot]
      exact congrArg some (Fin.ext hlow.symm)
    refine .inr ⟨by rw [← hhigh]; exact high.isLt, _,
      (debitCredit_of_debit hdebit).trans (congrArg some hcredit), ?_⟩
    simp [Bridge.transferInternal, hzero, hne, hnot, hadd, hsub]

theorem PairDiffers.ne_zero {s : State} {src dst : Address} {amount : U128}
    (h : PairDiffers s src dst amount) : amount ≠ 0 := by
  rintro rfl
  rcases h with ⟨-, -, hover⟩ | ⟨-, hlt⟩
  · exact absurd (ledger_lt_CAP s dst) (not_lt.2 hover)
  · exact absurd hlt (Nat.not_lt_zero _)

/-- What is not there is not paid. -/
theorem debitCredit_overdrawn {s : State} {src dst : Address} {amount : U128}
    (hlt : s.ledger src < amount.val) :
    debitCredit s src dst amount = some (s, .error .insufficientBalance) := by
  have hlt' : s.balanceOf src < amount := hlt
  have hzero : amount ≠ 0 := by
    rintro rfl
    exact absurd hlt (Nat.not_lt_zero _)
  simp [debitCredit, Bridge.debit, hzero, hlt']

/-- Outside the exceptions the pair and the transfer have the same verdict and the same balances. -/
theorem debitCredit_same {s : State} {src dst : Address} {amount : U128}
    (h : ¬ PairDiffers s src dst amount) :
    ∃ s' t verdict, debitCredit s src dst amount = some (s', verdict) ∧
      Bridge.transferInternal s src dst amount = some (t, verdict) ∧ s'.ledger = t.ledger := by
  by_cases hzero : amount = 0
  · subst hzero
    exact ⟨s, s, .ok (), by simp [debitCredit, Bridge.debit, Bridge.credit],
      by simp [Bridge.transferInternal], rfl⟩
  by_cases heq : src = dst
  · subst heq
    have henough : amount.val ≤ s.ledger src := not_lt.1 fun hlt => h (.inr ⟨rfl, hlt⟩)
    obtain ⟨s', hpair, hledger⟩ := debitCredit_self hzero henough
    exact ⟨s', s, .ok (), hpair, by simp [Bridge.transferInternal], hledger⟩
  rcases Nat.lt_or_ge (s.ledger src) amount.val with hlt | henough
  · have hlt' : s.balanceOf src < amount := hlt
    exact ⟨s, s, _, debitCredit_overdrawn hlt,
      by simp [Bridge.transferInternal, hzero, heq, hlt'], rfl⟩
  · rcases debitCredit_apart hzero heq henough with ⟨hover, -⟩ | ⟨-, s', hpair, htransfer⟩
    · exact absurd (.inl ⟨heq, henough, hover⟩) h
    · exact ⟨s', s', .ok (), hpair, htransfer, rfl⟩

/-- A `debit` and a `credit` do what `transfer_internal` does, verdict and balances, except where
the receiver overflows, and then the amount is gone, or where an address pays itself more than it
has, which `transfer_internal` accepts and the pair rejects. -/
theorem debit_credit_agrees (s : State) (src dst : Address) (amount : U128) :
    ∃ s' verdict t verdict', debitCredit s src dst amount = some (s', verdict) ∧
      Bridge.transferInternal s src dst amount = some (t, verdict') ∧
      (s'.ledger = t.ledger ∧ verdict = verdict' ↔ ¬ PairDiffers s src dst amount) ∧
      (src ≠ dst → PairDiffers s src dst amount → s'.supply + amount.val = s.supply) ∧
      (src = dst → PairDiffers s src dst amount →
        verdict = .error .insufficientBalance ∧ verdict' = .ok ()) := by
  by_cases hdiffers : PairDiffers s src dst amount
  swap
  · obtain ⟨s', t, verdict, hpair, htransfer, hledger⟩ := debitCredit_same hdiffers
    exact ⟨s', verdict, t, verdict, hpair, htransfer, iff_of_true ⟨hledger, rfl⟩ hdiffers,
      fun _ h => absurd h hdiffers, fun _ h => absurd h hdiffers⟩
  have hzero := hdiffers.ne_zero
  have hcases := hdiffers
  rcases hcases with ⟨hne, henough, hover⟩ | ⟨rfl, hlt⟩
  · -- The receiver overflows: the debit stands.
    have hpos : 0 < amount.val := Nat.pos_of_ne_zero fun h => hzero (Fin.ext h)
    rcases debitCredit_apart hzero hne henough with
      ⟨-, low, hlow, hpair, htransfer⟩ | ⟨hfits, -⟩
    swap
    · omega
    refine ⟨_, _, s, _, hpair, htransfer, iff_of_false (fun h => ?_) (not_not.2 hdiffers),
      fun _ _ => ?_, fun h => absurd h hne⟩
    · have hat := congrFun h.1 src
      rw [ledger_setBalance, Function.update_self] at hat
      omega
    · have hsupply := supply_setBalance s src low
      omega
  · -- An address that pays itself what it does not have.
    refine ⟨s, _, s, .ok (), debitCredit_overdrawn hlt, by simp [Bridge.transferInternal],
      iff_of_false (fun h => ?_) (not_not.2 hdiffers), fun h => absurd rfl h,
      fun _ _ => ⟨rfl, rfl⟩⟩
    cases h.2

end SuwappuDb
