import SuwappuDb.LedgerRefinement

/-!
# A block against the submission of its transfers

A block of transfers leaves the balances of submitting its transfers one by one
(`execute_eq_submit`). The two paths were written separately, and this is where else they agree.

* `legsVerdict`, `submitVerdict` — the checks of either path, on the balances a transfer finds. They
  differ for a transfer to oneself: `submit` stops after the balance check, and the block executor
  goes on to check a sum that it then does not use.
* `executeWithRegistry_outcomes_iff` — so the reported outcomes are those of `submit` unless such a
  sum overflows.
* `Settled.entries_take` — transaction by transaction, the addresses with an entry. A transfer to
  oneself is written back by the block executor and not by `submit`, which shows where the amount is
  zero and the address had no entry.
* `executeWithRegistry_entries_iff` — so the entries and the root are those of submission unless
  that happens.
-/

namespace SuwappuDb

open Ledger

/-! ## Verdicts -/

def Intent.IsTransfer : Intent → Prop
  | .transfer .. => True
  | .call .. => False
  | .deployModule .. => False

instance : (intent : Intent) → Decidable intent.IsTransfer
  | .transfer .. => isTrue trivial
  | .call .. => isFalse id
  | .deployModule .. => isFalse id

theorem Intent.IsTransfer.cases {intent : Intent} (h : intent.IsTransfer) :
    ∃ src dst amount, intent = .transfer src dst amount := by
  cases intent with
  | transfer src dst amount => exact ⟨src, dst, amount, rfl⟩
  | call caller target value calldata => exact h.elim
  | deployModule account name bytes => exact h.elim

theorem Intent.IsTransfer.plain {intent : Intent} (h : intent.IsTransfer)
    (registry : ContractRegistry) : intent.Plain registry := by
  obtain ⟨src, dst, amount, rfl⟩ := h.cases
  trivial

/-- The reported form of a verdict. -/
def verdictOutcome : Verdict → TxOutcome
  | .ok () => .committed
  | .error reason => .rejected reason

/-- What `submit` says to the intent at `i` once those before it have been submitted. -/
def submitOutcome (s : State) (block : List Intent) (i : Nat) : Option TxOutcome := do
  let t ← submitAll s (block.take i)
  let intent ← block[i]?
  let (_, verdict) ← Bridge.submit t intent
  some (verdictOutcome verdict)

/-- The checks of a speculative transfer, in order. -/
def legsVerdict (f : Address → ℕ) (src dst : Address) (amount : ℕ) : TxOutcome :=
  if f src < amount then .rejected .insufficientBalance
  else if CAP ≤ f dst + amount then .rejected .amountOverflow
  else .committed

/-- The checks of `submit`, in order. -/
def submitVerdict (f : Address → ℕ) (src dst : Address) (amount : ℕ) : TxOutcome :=
  if f src < amount then .rejected .insufficientBalance
  else if src = dst then .committed
  else if CAP ≤ f dst + amount then .rejected .amountOverflow
  else .committed

theorem legsVerdict_eq_submitVerdict_iff (f : Address → ℕ) (src dst : Address) (amount : ℕ) :
    legsVerdict f src dst amount = submitVerdict f src dst amount ↔
      (src = dst → amount ≤ f src → f src + amount < CAP) := by
  unfold legsVerdict submitVerdict
  by_cases hlt : f src < amount
  · simp [hlt, Nat.not_le_of_lt hlt]
  by_cases heq : src = dst
  · subst heq
    by_cases hover : CAP ≤ f src + amount
    · simp [hlt, hover, not_lt.1 hlt]
    · simp [hlt, hover, Nat.lt_of_not_le hover]
  · simp [hlt, heq]

theorem submit_verdict (t : State) (src dst : Address) (amount : U128) :
    ∃ t' verdict, Bridge.submit t (.transfer src dst amount) = some (t', verdict) ∧
      verdictOutcome verdict = submitVerdict t.ledger src dst amount.val := by
  unfold submitVerdict
  rcases submit_ledger_cases t src dst amount with
    ⟨hlt, hsubmit⟩ | ⟨henough, heq, hsubmit⟩ | ⟨henough, hne, hover, hsubmit⟩ |
    ⟨henough, hne, hfits, t', -, hsubmit⟩
  · exact ⟨t, _, hsubmit, (if_pos hlt).symm⟩
  · exact ⟨t, _, hsubmit, by rw [if_neg (not_lt.2 henough), if_pos heq]; rfl⟩
  · exact ⟨t, _, hsubmit, by rw [if_neg (not_lt.2 henough), if_neg hne, if_pos hover]; rfl⟩
  · refine ⟨t', _, hsubmit, ?_⟩
    rw [if_neg (not_lt.2 henough), if_neg hne, if_neg (not_le.2 hfits)]
    rfl

theorem outcomeOf_transferBody {answer : (op : MvOp) → op.Res} {i : TxnIdx} {f : Address → ℕ}
    (hshows : Shows answer i f) (src dst : Address) (amount : U128) :
    outcomeOf answer (transferBody src dst amount i) = some (legsVerdict f src dst amount.val) := by
  unfold legsVerdict
  rcases transferBody_spec hshows src dst amount with
    ⟨hlt, houtcome, -⟩ | ⟨henough, hover, houtcome, -⟩ | ⟨henough, hfits, houtcome, -⟩
  · rw [houtcome, if_pos hlt]
  · rw [houtcome, if_neg (not_lt.2 henough), if_pos hover]
  · rw [houtcome, if_neg (not_lt.2 henough), if_neg (not_le.2 hfits)]

section Block

variable {s : State} {block : List Intent} {registry : ContractRegistry} {env : TxnIdx → RunEnv}
  {mv : MvStore} {txns : List Txn}

/-- Transaction by transaction, the outcomes of the two paths are those of their checks on the same
balances. -/
theorem Settled.outcomes_take (h : Settled s block registry env mv txns)
    (htransfers : ∀ intent ∈ block, intent.IsTransfer) {i : Nat} {src dst : Address}
    {amount : U128} (hget : block[i]? = some (.transfer src dst amount)) :
    ∃ t, submitAll s (block.take i) = some t ∧
      (txns.map Txn.outcome)[i]? = some (legsVerdict t.ledger src dst amount.val) ∧
      submitOutcome s block i = some (submitVerdict t.ledger src dst amount.val) := by
  have hi := (List.getElem?_eq_some_iff.1 hget).1
  obtain ⟨t, ht, hledger⟩ :=
    h.submitAll_take (fun intent hmem => (htransfers intent hmem).plain registry) i hi.le
  obtain ⟨t', verdict, hsubmit, hverdict⟩ := submit_verdict t src dst amount
  refine ⟨t, ht, ?_, ?_⟩
  · rw [h.outcome_eq hi, executeAt, hget]
    simp only [executeOne]
    rw [outcomeOf_transferBody (shows_viewAt s mv i), hledger]
  · simp only [submitOutcome, ht, hget, hsubmit, Option.bind_eq_bind, Option.bind_some, hverdict]

end Block

/-- The outcomes a block reports are the verdicts `submit` gives one by one, exactly when no
transfer of the block to oneself, of an amount that is there, would overflow the balance. -/
theorem executeWithRegistry_outcomes_iff (blake3 : Blake3) (sched : Schedule) (s : State)
    (block : List Intent) (registry : ContractRegistry)
    (htransfers : ∀ intent ∈ block, intent.IsTransfer) :
    ∃ s' report,
      BlockExecutor.executeWithRegistry blake3 sched s block registry = some (s', report) ∧
      ((∀ i, report.outcomes[i]? = submitOutcome s block i) ↔
        ∀ i a amount t, block[i]? = some (.transfer a a amount) →
          submitAll s (block.take i) = some t → amount ≤ t.balanceOf a →
          (t.balanceOf a).val + amount.val < 2 ^ 128) := by
  obtain ⟨fin, hloop, -, env, hsettled⟩ := runLoop_spec s block registry sched
  obtain ⟨s', report, hexec, -, houtcomes, -⟩ :=
    executeWithRegistry_eq blake3 sched s block registry hloop
  refine ⟨s', report, hexec, ?_⟩
  rw [houtcomes]
  constructor
  · intro hagree i a amount t hget ht henough
    obtain ⟨t', ht', hblock, hsubmit⟩ := hsettled.outcomes_take htransfers hget
    cases ht.symm.trans ht'
    have hverdict := hagree i
    rw [hblock, hsubmit, Option.some.injEq, legsVerdict_eq_submitVerdict_iff] at hverdict
    exact hverdict rfl henough
  · intro hfits i
    cases hget : block[i]? with
    | none =>
        have hi : block.length ≤ i := List.getElem?_eq_none_iff.1 hget
        have hnone : (fin.txns.map Txn.outcome)[i]? = none :=
          List.getElem?_eq_none (by rwa [List.length_map, hsettled.length])
        rw [hnone, submitOutcome, hget]
        cases submitAll s (block.take i) <;> rfl
    | some intent =>
        obtain ⟨src, dst, amount, rfl⟩ := (htransfers intent (List.mem_of_getElem? hget)).cases
        obtain ⟨t, ht, hblock, hsubmit⟩ := hsettled.outcomes_take htransfers hget
        rw [hblock, hsubmit, Option.some.injEq, legsVerdict_eq_submitVerdict_iff]
        rintro rfl henough
        exact hfits i src amount t hget ht henough

/-- Two payments, the second of more than is there, with a transfer to oneself between them. -/
def paymentBlock : List Intent := [
  .transfer (smallAddress 1) (smallAddress 2) 60,
  .transfer (smallAddress 2) (smallAddress 2) 7,
  .transfer (smallAddress 2) (smallAddress 3) 61]

theorem paymentBlock_transfers : ∀ intent ∈ paymentBlock, intent.IsTransfer := by decide

theorem outcomes_paymentBlock :
    (∀ intent ∈ paymentBlock, intent.IsTransfer) ∧
    ∀ (blake3 : Blake3) (sched : Schedule), ∃ s' report,
      BlockExecutor.executeWithRegistry blake3 sched smallState paymentBlock {} =
        some (s', report) ∧
      ∀ i, report.outcomes[i]? = submitOutcome smallState paymentBlock i := by
  refine ⟨paymentBlock_transfers, fun blake3 sched => ?_⟩
  obtain ⟨s', report, hexec, hiff⟩ := executeWithRegistry_outcomes_iff blake3 sched smallState
    paymentBlock {} paymentBlock_transfers
  refine ⟨s', report, hexec, hiff.2 fun i a amount t hget ht _ => ?_⟩
  match i with
  | 0 =>
      obtain ⟨hsrc, hdst, -⟩ := Intent.transfer.inj (Option.some.inj hget)
      exact absurd (hsrc.trans hdst.symm) (by decide)
  | 1 =>
      cases hget
      cases ht
      decide
  | 2 =>
      obtain ⟨hsrc, hdst, -⟩ := Intent.transfer.inj (Option.some.inj hget)
      exact absurd (hsrc.trans hdst.symm) (by decide)
  | i + 3 => simp [paymentBlock] at hget

/-- Address 1 holds half of what a balance can hold, rounded up. -/
def halfState : State :=
  ({} : State).apply (.setBalance (smallAddress 1) 0x80000000000000000000000000000000)

/-- All of that from address 1 to itself. -/
def halfBlock : List Intent :=
  [.transfer (smallAddress 1) (smallAddress 1) 0x80000000000000000000000000000000]

theorem outcomes_halfBlock :
    (∀ blake3 : Blake3, (BlockExecutor.execute blake3 default halfState halfBlock).map
      (fun r => r.2.outcomes) = some [.rejected .amountOverflow]) ∧
    submitOutcome halfState halfBlock 0 = some .committed :=
  ⟨fun _ => rfl, rfl⟩

/-! ## Entries -/

/-- The addresses that have an entry in the state, or a version of a transaction below `i`. -/
def EntryAt (s : State) (mv : MvStore) (i : Nat) (a : Address) : Prop :=
  s.HasEntry a ∨ ∃ j < i, (mv.slotAt a j).isSome

theorem entryAt_zero (s : State) (mv : MvStore) (a : Address) :
    EntryAt s mv 0 a ↔ s.HasEntry a := by
  simp [EntryAt]

theorem entryAt_succ (s : State) (mv : MvStore) (i : Nat) (a : Address) :
    EntryAt s mv (i + 1) a ↔ EntryAt s mv i a ∨ (mv.slotAt a i).isSome := by
  rw [EntryAt, EntryAt, or_assoc]
  refine or_congr Iff.rfl ⟨?_, ?_⟩
  · rintro ⟨j, hj, hslot⟩
    rcases Nat.lt_succ_iff_lt_or_eq.1 hj with hlt | rfl
    · exact Or.inl ⟨j, hlt, hslot⟩
    · exact Or.inr hslot
  · rintro (⟨j, hj, hslot⟩ | hslot)
    · exact ⟨j, Nat.lt_succ_of_lt hj, hslot⟩
    · exact ⟨i, Nat.lt_succ_self i, hslot⟩

/-- The entries after consolidation. -/
theorem hasEntry_consolidate {s : State} {mv : MvStore} {n : Nat}
    (houtside : ∀ a i, n ≤ i → mv.slotAt a i = none) (order : IterOrder) (a : Address) :
    (consolidate s (mv.finalise order)).HasEntry a ↔ EntryAt s mv n a := by
  have hlast : ((mv.row a).lastBelow n).isSome ↔ ∃ j < n, (mv.slotAt a j).isSome := by
    rw [← Option.ne_none_iff_isSome, Ne, OrdMap.lastBelow_eq_none]
    simp only [not_forall, exists_prop, ← Option.ne_none_iff_isSome]
    rfl
  rw [State.HasEntry, get?_slots_consolidate s (nodup_finalise mv order), lookup_finalise houtside,
    Option.isSome_or, Option.isSome_map, Option.isSome_map, Bool.or_eq_true, hlast, or_comm]
  rfl

/-- A balance above zero has an entry. -/
theorem State.hasEntry_of_pos {t : State} {a : Address} (h : 0 < t.ledger a) : t.HasEntry a := by
  rw [State.HasEntry]
  cases hslot : t.store.slots.get? a with
  | some slot => rfl
  | none =>
      rw [State.ledger, State.balanceOf, InMemoryBalanceStore.get, hslot] at h
      exact absurd h (Nat.lt_irrefl 0)

/-- Entries with the same balance are the same to the tree. -/
theorem State.canonical_congr {s t : State} {a : Address} (hentry : s.HasEntry a ↔ t.HasEntry a)
    (hbalance : s.balanceOf a = t.balanceOf a) :
    (s.store.slots.get? a).map BalanceSlot.canonical =
      (t.store.slots.get? a).map BalanceSlot.canonical := by
  rw [State.HasEntry, State.HasEntry] at hentry
  rw [State.balanceOf, State.balanceOf, InMemoryBalanceStore.get, InMemoryBalanceStore.get]
    at hbalance
  cases hs : s.store.slots.get? a <;> cases ht : t.store.slots.get? a <;>
    simp_all

/-- A submitted transfer between two addresses gives both an entry. One to oneself gives none. -/
theorem submit_hasEntry {t t' : State} {src dst : Address} {amount : U128} {verdict : Verdict}
    (h : Bridge.submit t (.transfer src dst amount) = some (t', verdict)) (a : Address) :
    t'.HasEntry a ↔ t.HasEntry a ∨ (src ≠ dst ∧ amount.val ≤ t.ledger src ∧
      t.ledger dst + amount.val < CAP ∧ (a = src ∨ a = dst)) := by
  rcases submit_ledger_cases t src dst amount with
    ⟨hlt, heq⟩ | ⟨-, hself, heq⟩ | ⟨-, -, hover, heq⟩ | ⟨henough, hne, hfits, t'', hmoved, heq⟩ <;>
    rw [h] at heq <;> obtain ⟨rfl, -⟩ := Prod.mk.inj (Option.some.inj heq)
  · simp [Nat.not_le_of_lt hlt]
  · simp [hself]
  · simp [Nat.not_lt_of_le hover]
  · rw [State.HasEntry, hmoved.eq, State.get?_slots_setBalance, State.get?_slots_setBalance,
      State.HasEntry]
    by_cases hd : a = dst
    · simp [hd, hne, henough, hfits]
    · by_cases hs : a = src
      · simp [hs, hne, henough, hfits]
      · simp [hd, hs]

section Block

variable {s : State} {block : List Intent} {registry : ContractRegistry} {env : TxnIdx → RunEnv}
  {mv : MvStore} {txns : List Txn}

/-- A transfer of a block that passes its checks gives both its sides a version. -/
theorem Settled.isSome_slotAt (h : Settled s block registry env mv txns) {i : Nat}
    {src dst : Address} {amount : U128} (hget : block[i]? = some (.transfer src dst amount))
    (a : Address) :
    (mv.slotAt a i).isSome ↔ amount.val ≤ viewAt s mv i src ∧
      viewAt s mv i dst + amount.val < CAP ∧ (a = src ∨ a = dst) := by
  rw [h.slotAt_eq (List.getElem?_eq_some_iff.1 hget).1, executeAt, hget]
  simp only [executeOne]
  rcases transferBody_spec (shows_viewAt s mv i) src dst amount with
    ⟨hlt, -, hnone⟩ | ⟨-, hover, -, hnone⟩ | ⟨henough, hfits, -, bal, -, hwritten⟩
  · simp [hnone, Nat.not_le_of_lt hlt]
  · simp [hnone, Nat.not_lt_of_le hover]
  · rw [hwritten]
    split_ifs with ha <;> simp [henough, hfits, ha]

/-- Transaction by transaction, the addresses with an entry are those of submission and those that
have sent zero to themselves. -/
theorem Settled.entries_take (h : Settled s block registry env mv txns)
    (htransfers : ∀ intent ∈ block, intent.IsTransfer) (i : Nat) (hi : i ≤ block.length) :
    ∃ t, submitAll s (block.take i) = some t ∧ t.ledger = viewAt s mv i ∧
      ∀ a, EntryAt s mv i a ↔ t.HasEntry a ∨ .transfer a a 0 ∈ block.take i := by
  induction i with
  | zero => exact ⟨s, rfl, (viewAt_zero s mv).symm, fun a => by simp [entryAt_zero]⟩
  | succ i ih =>
      obtain ⟨t, ht, hledger, hentries⟩ := ih (Nat.le_of_succ_le hi)
      obtain ⟨t', ht', hledger'⟩ := h.submitAll_take
        (fun intent hmem => (htransfers intent hmem).plain registry) (i + 1) hi
      refine ⟨t', ht', hledger', fun a => ?_⟩
      obtain ⟨src, dst, amount, hintent⟩ := (htransfers _ (List.getElem_mem hi)).cases
      have hget : block[i]? = some (.transfer src dst amount) := by
        rw [List.getElem?_eq_getElem hi, hintent]
      obtain ⟨t'', verdict, hsubmit⟩ := Bridge.submit_total t src dst amount
      cases ht'.symm.trans (submitAll_take_succ hget ht hsubmit)
      rw [entryAt_succ, hentries, h.isSome_slotAt hget, ← hledger, submit_hasEntry hsubmit,
        List.take_add_one, hget, List.mem_append, Option.mem_toList, Option.some.injEq,
        Intent.transfer.injEq]
      by_cases hself : src = dst
      · subst hself
        -- An amount above zero that is there comes with an entry.
        have hpos : 0 < amount.val → amount.val ≤ t.ledger src → t.HasEntry src := fun hpos hle =>
          State.hasEntry_of_pos (hpos.trans_le hle)
        have hcap : t.ledger src < CAP := (t.balanceOf src).isLt
        have hzero : amount = 0 ↔ amount.val = 0 := Fin.ext_iff
        rw [hzero]
        by_cases ha : a = src
        · subst ha
          rcases Nat.eq_zero_or_pos amount.val with h0 | h0
          · simp [h0, hcap]
          · have hne : amount.val ≠ 0 := Nat.ne_of_gt h0
            simp only [hne, and_false, or_false, ne_eq, not_true_eq_false, false_and]
            constructor
            · rintro (hentry | ⟨hle, -⟩)
              · exact hentry
              · exact Or.inl (hpos h0 hle)
            · exact Or.inl
        · simp [ha, Ne.symm ha]
      · have hnot : ¬ (src = a ∧ dst = a ∧ amount = 0) := fun hsame =>
          hself (hsame.1.trans hsame.2.1.symm)
        simp only [hself, hnot, ne_eq, not_false_eq_true, true_and, or_false]
        exact or_right_comm

end Block

/-- A block creates the entries that submitting its transfers one by one creates, and reports the
root of the state that reaches, exactly when every address that sends zero to itself in the block
has an entry in that state. -/
theorem executeWithRegistry_entries_iff (blake3 : Blake3) (sched : Schedule) (order : IterOrder)
    (s : State) (block : List Intent) (registry : ContractRegistry)
    (htransfers : ∀ intent ∈ block, intent.IsTransfer) :
    ∃ s' report t,
      BlockExecutor.executeWithRegistry blake3 sched s block registry = some (s', report) ∧
      submitAll s block = some t ∧
      (((∀ a, s'.HasEntry a ↔ t.HasEntry a) ∧
          report.stateRoot = (StateTree.fromState order t).root blake3) ↔
        ∀ a, .transfer a a 0 ∈ block → t.HasEntry a) := by
  obtain ⟨fin, hloop, -, env, hsettled⟩ := runLoop_spec s block registry sched
  obtain ⟨s', report, hexec, hstate, -, -, hroot⟩ :=
    executeWithRegistry_eq blake3 sched s block registry hloop
  obtain ⟨t, ht, hledger, hentries⟩ := hsettled.entries_take htransfers block.length le_rfl
  rw [List.take_length] at ht hentries
  have hentries' : ∀ a, s'.HasEntry a ↔ t.HasEntry a ∨ .transfer a a 0 ∈ block := by
    intro a
    rw [hstate, hasEntry_consolidate hsettled.outside, hentries]
  refine ⟨s', report, t, hexec, ht, ?_, ?_⟩
  · rintro ⟨hsame, -⟩ a ha
    exact (hsame a).1 ((hentries' a).2 (Or.inr ha))
  · intro hzero
    have hsame : ∀ a, s'.HasEntry a ↔ t.HasEntry a := fun a => by
      rw [hentries' a]
      exact or_iff_left_of_imp (hzero a)
    refine ⟨hsame, hroot.trans (StateTree.root_fromState_congr blake3 _ _ fun a => ?_)⟩
    have hbalances : s'.ledger = t.ledger := by
      rw [hstate, ledger_consolidate hsettled.outside, hledger]
    exact State.canonical_congr (hsame a) (Fin.ext (congrFun hbalances a))

/-- Address 1, which has an entry, sends zero to itself and pays address 2. -/
def knownBlock : List Intent := [
  .transfer (smallAddress 1) (smallAddress 1) 0,
  .transfer (smallAddress 1) (smallAddress 2) 60]

theorem entries_knownBlock :
    (∀ intent ∈ knownBlock, intent.IsTransfer) ∧
    ∀ (blake3 : Blake3) (sched : Schedule) (order : IterOrder), ∃ s' report t,
      BlockExecutor.executeWithRegistry blake3 sched smallState knownBlock {} =
        some (s', report) ∧
      submitAll smallState knownBlock = some t ∧
      (∀ a, s'.HasEntry a ↔ t.HasEntry a) ∧
      report.stateRoot = (StateTree.fromState order t).root blake3 := by
  have htransfers : ∀ intent ∈ knownBlock, intent.IsTransfer := by decide
  refine ⟨htransfers, fun blake3 sched order => ?_⟩
  obtain ⟨s', report, t, hexec, ht, hiff⟩ := executeWithRegistry_entries_iff blake3 sched order
    smallState knownBlock {} htransfers
  refine ⟨s', report, t, hexec, ht, hiff.2 fun a ha => ?_⟩
  have hsrc : a = smallAddress 1 := by
    simp only [knownBlock, List.mem_cons, List.not_mem_nil, or_false, Intent.transfer.injEq] at ha
    rcases ha with ⟨ha, -⟩ | ⟨ha, -⟩ <;> exact ha
  cases ht
  rw [hsrc]
  decide

/-- Address 2, which has no entry, sends zero to itself. The block gives it one. -/
theorem entries_unknownBlock :
    (∀ blake3 : Blake3, (BlockExecutor.execute blake3 default smallState
      [.transfer (smallAddress 2) (smallAddress 2) 0]).map
        (fun r => decide (r.1.HasEntry (smallAddress 2))) = some true) ∧
    (submitAll smallState [.transfer (smallAddress 2) (smallAddress 2) 0]).map
      (fun t => decide (t.HasEntry (smallAddress 2))) = some false :=
  ⟨fun _ => rfl, rfl⟩

end SuwappuDb
