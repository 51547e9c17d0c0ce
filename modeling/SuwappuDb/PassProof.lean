import SuwappuDb.BlockExecutor

/-!
# One parallel pass

What a pass of the block executor leaves behind, whatever the order of its store operations.

Two facts about a single run carry everything (`Tidy`): it touches no cell but its own, at the
addresses its intent names, writing each at most once and clearing only before it has written; and
what it returns records the reads and the writes it made. So during a pass cells are only ever
added, and a value once read stays where it was read. At the end (`executePass_spec`) every pending
transaction's record comes from a run whose writes are its cells and whose reads are still in the
store (`Trace`).

The results about blocks are for all schedules. That they are for all interleavings is
`executePass_complete`, which says so of the model and is used by no other proof: whatever the
threads of a pass do, some picks of a schedule make `executePass` do it.

That does not make the reads the *latest* ones: a lower transaction may have written in between.
They are for the lowest pending transaction, since nothing below it moves.
-/

namespace SuwappuDb

open Prog

/-- A store operation with its answer. -/
abbrev MvEvent := Event MvOp MvOp.Res

/-- The transaction an operation is made for. -/
def MvOp.idx : MvOp → TxnIdx
  | .read _ idx => idx
  | .write _ _ idx => idx
  | .clearWrites idx => idx

/-- The reads of a history, as a read set records them. -/
def readsOf (h : List MvEvent) : List ReadEntry :=
  h.filterMap fun e => match e with
    | ⟨.read addr _, r⟩ => some ⟨addr, r.2⟩
    | ⟨.write .., _⟩ => none
    | ⟨.clearWrites _, _⟩ => none

/-- The writes among some operations. -/
def writesOf (ops : List MvOp) : List (Address × BalanceSlot) :=
  ops.filterMap fun op => match op with
    | .write addr slot _ => some (addr, slot)
    | .read .. => none
    | .clearWrites _ => none

theorem readsOf_append (h h' : List MvEvent) : readsOf (h ++ h') = readsOf h ++ readsOf h' :=
  List.filterMap_append

theorem writesOf_append (ops ops' : List MvOp) :
    writesOf (ops ++ ops') = writesOf ops ++ writesOf ops' :=
  List.filterMap_append

/-- The addresses a history has written, in the order of the writes. -/
def writtenAt (h : List MvEvent) : List Address := (writesOf (h.map Sigma.fst)).map Prod.fst

theorem writtenAt_append (h h' : List MvEvent) :
    writtenAt (h ++ h') = writtenAt h ++ writtenAt h' := by
  simp only [writtenAt, List.map_append, writesOf_append]

/-! ## The addresses of a transaction -/

/-- The transfers of an intent in one run. A contract answers a call with the state `base` and what
the surroundings of the run show it. -/
def Intent.transfersIn (env : RunEnv) (registry : ContractRegistry) (base : State) :
    Intent → List (Address × Address × U128)
  | .transfer src dst amount => [(src, dst, amount)]
  | .deployModule .. => []
  | .call caller target value calldata =>
      match registry.get target with
      | none => [(caller, target, value)]
      | some g => (callBundle env g caller target value calldata base).steps.filterMap stepTransfer

/-- The addresses that transfers name. -/
def partiesOf (transfers : List (Address × Address × U128)) : Set Address :=
  {a | ∃ p ∈ transfers, a = p.1 ∨ a = p.2.1}

theorem src_mem_partiesOf {transfers : List (Address × Address × U128)}
    {p : Address × Address × U128} (hp : p ∈ transfers) : p.1 ∈ partiesOf transfers :=
  ⟨p, hp, .inl rfl⟩

theorem dst_mem_partiesOf {transfers : List (Address × Address × U128)}
    {p : Address × Address × U128} (hp : p ∈ transfers) : p.2.1 ∈ partiesOf transfers :=
  ⟨p, hp, .inr rfl⟩

/-! ## Tidy runs -/

/-- A program of transaction `i` over the addresses `F` that has recorded `reads` and written at
`written`: whatever it is answered, it returns a record of just that. -/
inductive Tidy (i : TxnIdx) (F : Set Address) : List ReadEntry → List Address → MvProg → Prop
  | ret {reads : List ReadEntry} {written : List Address} {t : Txn} :
      t.idx = i → t.readSet = reads → t.writeSet.map WriteEntry.addr = written →
      Tidy i F reads written (.ret (some t))
  | read {reads : List ReadEntry} {written : List Address} {a : Address}
      {k : BalanceSlot × ReadSource → MvProg} :
      a ∈ F → (∀ slot src, Tidy i F (reads ++ [⟨a, src⟩]) written (k (slot, src))) →
      Tidy i F reads written (.call (.read a i) k)
  | write {reads : List ReadEntry} {written : List Address} {a : Address} {slot : BalanceSlot}
      {k : Unit → MvProg} :
      a ∈ F → a ∉ written → Tidy i F reads (written ++ [a]) (k ()) →
      Tidy i F reads written (.call (.write a slot i) k)
  | clear {reads : List ReadEntry} {written : List Address} {k : Unit → MvProg} :
      written = [] → Tidy i F reads written (k ()) →
      Tidy i F reads written (.call (.clearWrites i) k)

/-- The subtraction behind the balance check never wraps. -/
theorem transferLegs_ne_none (fromBalance toBalance amount : U128) :
    transferLegs fromBalance toBalance amount ≠ none := by
  unfold transferLegs
  split_ifs with h
  · simp
  · cases checkedAdd toBalance amount with
    | none => simp
    | some newTo => simp [sub?_of_not_lt h]

section Programs

variable {i : TxnIdx} {F : Set Address}

theorem tidy_transferBody {src dst : Address} (hsrc : src ∈ F) (hdst : dst ∈ F) (amount : U128) :
    Tidy i F [] [] (transferBody src dst amount i) := by
  refine .read hsrc fun fromSlot fromSrc => .read hdst fun toSlot toSrc => ?_
  simp only
  split
  · next h => exact absurd h (transferLegs_ne_none _ _ _)
  · exact .ret rfl rfl rfl
  · split_ifs with heq
    · exact .write hsrc (by simp) (.ret rfl rfl rfl)
    · refine .write hsrc (by simp) (.write hdst ?_ (.ret rfl rfl rfl))
      simpa [eq_comm] using heq

theorem tidy_publish {reads : List ReadEntry} {l : List (Address × BalanceSlot)}
    (ws : List WriteEntry) (hF : ∀ a ∈ l.map Prod.fst, a ∈ F) (hnodup : (l.map Prod.fst).Nodup)
    (hnew : ∀ a ∈ l.map Prod.fst, a ∉ ws.map WriteEntry.addr) :
    Tidy i F reads (ws.map WriteEntry.addr) (publish i reads l ws) := by
  induction l generalizing ws with
  | nil => exact .ret rfl rfl rfl
  | cons p rest ih =>
      obtain ⟨a, slot⟩ := p
      obtain ⟨hnot, hrest⟩ := List.nodup_cons.1 hnodup
      have hlater := ih (ws ++ [⟨a, slot⟩])
        (fun b hb => hF b (List.mem_cons_of_mem _ hb)) hrest fun b hb => by
          have hb' := hnew b (List.mem_cons_of_mem _ hb)
          have hba : b ≠ a := fun h => hnot (h ▸ hb)
          simp [hba] at hb' ⊢
          exact hb'
      rw [List.map_append] at hlater
      exact .write (hF a List.mem_cons_self) (hnew a List.mem_cons_self) hlater

theorem tidy_localOrMv {reads : List ReadEntry} {loc : OrdMap Address BalanceSlot} {a : Address}
    (ha : a ∈ F) {k : BalanceSlot → Option ReadSource → MvProg}
    (h : ∀ slot src, Tidy i F (pushRead reads a src) [] (k slot src)) :
    Tidy i F reads [] (localOrMv loc a i k) := by
  unfold localOrMv
  cases loc.get? a with
  | some slot => exact h slot none
  | none => exact .read ha fun slot src => h slot (some src)

theorem tidy_callSteps (env : RunEnv) {steps : List BundleStep}
    (hsteps : ∀ p ∈ steps.filterMap stepTransfer, p.1 ∈ F ∧ p.2.1 ∈ F)
    {loc : OrdMap Address BalanceSlot} (hloc : ∀ a, (loc.get? a).isSome → a ∈ F)
    (reads : List ReadEntry) : Tidy i F reads [] (callSteps env i steps loc reads) := by
  induction steps generalizing loc reads with
  | nil =>
      have hperm := (env.order.perm loc.entries).map Prod.fst
      refine tidy_publish [] (fun a ha => ?_)
        (hperm.nodup_iff.2 loc.sorted.nodup_keys) (by simp)
      exact hloc a (OrdMap.mem_keys.1 (hperm.mem_iff.1 ha))
  | cons step steps ih =>
      rw [callSteps]
      cases hstep : stepTransfer step with
      | none => exact ih (fun p hp => hsteps p (by simpa [hstep] using hp)) hloc reads
      | some p =>
          obtain ⟨src, dst, amount⟩ := p
          have hnamed : src ∈ F ∧ dst ∈ F := hsteps (src, dst, amount) (by simp [hstep])
          have hrest : ∀ p ∈ steps.filterMap stepTransfer, p.1 ∈ F ∧ p.2.1 ∈ F :=
            fun p hp => hsteps p (by simp [hstep, hp])
          have hinsert : ∀ {loc : OrdMap Address BalanceSlot} {a : Address} (slot : BalanceSlot),
              (∀ b, (loc.get? b).isSome → b ∈ F) → a ∈ F →
                ∀ b, ((loc.insert a slot).get? b).isSome → b ∈ F := by
            intro loc a slot hloc ha b hb
            rw [OrdMap.get?_insert] at hb
            split_ifs at hb with hba
            · exact hba ▸ ha
            · exact hloc b hb
          refine tidy_localOrMv hnamed.1 fun fromSlot fromSrc =>
            tidy_localOrMv hnamed.2 fun toSlot toSrc => ?_
          simp only
          split
          · next h => exact absurd h (transferLegs_ne_none _ _ _)
          · exact .clear rfl (.ret rfl rfl rfl)
          · split_ifs with heq
            · exact ih hrest (hinsert _ hloc hnamed.1) _
            · exact ih hrest (hinsert _ (hinsert _ hloc hnamed.1) hnamed.2) _

/-- A speculative run keeps to the addresses of its intent. -/
theorem tidy_executeOne (env : RunEnv) (intent : Intent) (i : TxnIdx) (s : State)
    (registry : ContractRegistry) :
    Tidy i (partiesOf (intent.transfersIn env registry s)) [] []
      (executeOne env intent i s registry) := by
  cases intent with
  | transfer src dst amount =>
      exact tidy_transferBody (src_mem_partiesOf (List.mem_singleton_self (src, dst, amount)))
        (dst_mem_partiesOf (List.mem_singleton_self (src, dst, amount))) amount
  | deployModule account name bytes => exact .ret rfl rfl rfl
  | call caller target value calldata =>
      rw [executeOne, executeCall, Intent.transfersIn]
      cases registry.get target with
      | none =>
          exact tidy_transferBody
            (src_mem_partiesOf (List.mem_singleton_self (caller, target, value)))
            (dst_mem_partiesOf (List.mem_singleton_self (caller, target, value))) value
      | some g =>
          exact tidy_callSteps env
            (fun p hp => ⟨src_mem_partiesOf hp, dst_mem_partiesOf hp⟩) (by simp) []

/-- What a tidy program has done by the calls of `h`, and can still do as `q`. -/
structure TidyAfter (i : TxnIdx) (F : Set Address) (h : List MvEvent) (q : MvProg) : Prop where
  tidy : Tidy i F (readsOf h) (writtenAt h) q
  own : ∀ e ∈ h, e.1.idx = i
  nodup : (writtenAt h).Nodup
  named : ∀ a ∈ writtenAt h, a ∈ F

theorem TidyAfter.call {h : List MvEvent} {op : MvOp} {k : op.Res → MvProg}
    (ht : TidyAfter i F h (.call op k)) (r : op.Res) : TidyAfter i F (h ++ [⟨op, r⟩]) (k r) := by
  have htidy := ht.tidy
  refine ⟨?_, fun e he => ?_, ?_, fun a ha => ?_⟩
  · rw [readsOf_append, writtenAt_append]
    cases htidy with
    | read ha hk =>
        change Tidy i F (readsOf h ++ [⟨_, _⟩]) (_ ++ []) _
        rw [List.append_nil]
        exact hk _ _
    | write ha hnot hk =>
        change Tidy i F (readsOf h ++ []) (_ ++ [_]) _
        rw [List.append_nil]
        exact hk
    | clear hnil hk =>
        change Tidy i F (readsOf h ++ []) (_ ++ []) _
        rw [List.append_nil, List.append_nil]
        exact hk
  · rcases List.mem_append.1 he with he | he
    · exact ht.own e he
    · rw [List.mem_singleton.1 he]
      cases htidy <;> rfl
  · rw [writtenAt_append]
    cases htidy with
    | read ha hk => exact (List.append_nil (writtenAt h)).symm ▸ ht.nodup
    | @write _ _ a _ _ ha hnot hk =>
        refine List.nodup_append.2 ⟨ht.nodup, List.nodup_singleton a, fun b hb c hc heq => ?_⟩
        have hca : c = a := List.mem_singleton.1 hc
        exact hnot (hca ▸ heq ▸ hb)
    | clear hnil hk => exact (List.append_nil (writtenAt h)).symm ▸ ht.nodup
  · rw [writtenAt_append] at ha
    rcases List.mem_append.1 ha with ha | ha
    · exact ht.named a ha
    · cases htidy with
      | read hb hk => cases ha
      | write hb hnot hk => exact List.mem_singleton.1 ha ▸ hb
      | clear hnil hk => cases ha

theorem Tidy.after {p q : MvProg} (hp : Tidy i F [] [] p) {h : List MvEvent}
    (hafter : After p h q) : TidyAfter i F h q := by
  induction hafter with
  | start => exact ⟨hp, by simp, List.nodup_nil, by simp [writtenAt, writesOf]⟩
  | call r _ ih => exact ih.call r

end Programs

/-! ## What a run leaves -/

/-- What the store answers to each operation now. -/
def answers (s : State) (mv : MvStore) (op : MvOp) : op.Res := (mvSem s op mv).1

/-- The value a read returned is still where the read found it. -/
def Sourced (s : State) (mv : MvStore) : MvEvent → Prop
  | ⟨.read addr _, (slot, .version k)⟩ => mv.slotAt addr k = some slot
  | ⟨.read addr _, (slot, .snapshot)⟩ => slot = s.slotOf addr
  | ⟨.write .., _⟩ => True
  | ⟨.clearWrites _, _⟩ => True

/-- A tidy run of `p` for `i` has become `q` by the operations of `h`, and its traces are in the
store. -/
structure Trace (s : State) (p : MvProg) (i : TxnIdx) (mv : MvStore) (h : List MvEvent)
    (q : MvProg) : Prop where
  after : After p h q
  tidy : ∃ F, TidyAfter i F h q
  cells : ∀ a, mv.slotAt a i = (writesOf (h.map Sigma.fst)).lookup a
  sourced : ∀ e ∈ h, Sourced s mv e

/-- From one store to the other, cells were added, all of them `i`'s. -/
structure Extends (i : TxnIdx) (mv mv' : MvStore) : Prop where
  frame : ∀ a, ∀ j ≠ i, mv'.slotAt a j = mv.slotAt a j
  grows : ∀ a j slot, mv.slotAt a j = some slot → mv'.slotAt a j = some slot

theorem Extends.refl (i : TxnIdx) (mv : MvStore) : Extends i mv mv :=
  ⟨fun _ _ _ => rfl, fun _ _ _ h => h⟩

theorem Extends.agreeBelow {i j : TxnIdx} {mv mv' : MvStore} (h : Extends i mv mv') (hj : j ≤ i) :
    MvStore.AgreeBelow mv mv' j := fun a k hk => (h.frame a k (hk.trans_le hj).ne).symm

theorem Sourced.mono {s : State} {mv mv' : MvStore} {e : MvEvent}
    (hgrows : ∀ a j slot, mv.slotAt a j = some slot → mv'.slotAt a j = some slot)
    (h : Sourced s mv e) : Sourced s mv' e := by
  obtain ⟨op, r⟩ := e
  cases op with
  | read addr j =>
      obtain ⟨slot, src⟩ := r
      cases src with
      | version k => exact hgrows _ _ _ h
      | snapshot => exact h
  | write addr slot j => trivial
  | clearWrites j => trivial

/-- What the store answers now is sourced. -/
theorem sourced_answers (s : State) (mv : MvStore) (op : MvOp) :
    Sourced s mv ⟨op, answers s mv op⟩ := by
  cases op with
  | read addr j =>
      generalize hr : answers s mv (.read addr j) = r
      obtain ⟨slot, src⟩ := r
      cases src with
      | version k => exact (MvStore.read_version hr).2
      | snapshot => exact MvStore.read_snapshot hr
  | write addr slot j => trivial
  | clearWrites j => trivial

/-- Answers to `i`'s operations depend on the cells below `i`. -/
theorem answers_congr {s : State} {mv mv' : MvStore} {op : MvOp}
    (h : MvStore.AgreeBelow mv mv' op.idx) : answers s mv op = answers s mv' op := by
  cases op with
  | read addr j => exact h.read_eq s addr
  | write addr slot j => rfl
  | clearWrites j => rfl

theorem agrees_congr {s : State} {mv mv' : MvStore} {i : TxnIdx} {h : List MvEvent}
    (hbelow : MvStore.AgreeBelow mv mv' i) (hown : ∀ e ∈ h, e.1.idx = i)
    (ha : Agrees (answers s mv) h) : Agrees (answers s mv') h := fun e he => by
  rw [← answers_congr (hown e he ▸ hbelow)]
  exact ha e he

namespace Trace

variable {s : State} {p q : MvProg} {i j : TxnIdx} {mv mv' : MvStore} {h : List MvEvent}

theorem start {F : Set Address} (htidy : Tidy i F [] [] p) (hcells : ∀ a, mv.slotAt a i = none) :
    Trace s p i mv [] p :=
  ⟨.start, ⟨F, htidy.after .start⟩, hcells, by simp⟩

theorem own (ht : Trace s p i mv h q) : ∀ e ∈ h, e.1.idx = i := by
  obtain ⟨F, htidy⟩ := ht.tidy
  exact htidy.own

/-- A trace survives the addition of other transactions' cells. -/
theorem mono (ht : Trace s p i mv h q) (hcells : ∀ a, mv'.slotAt a i = mv.slotAt a i)
    (hgrows : ∀ a j slot, mv.slotAt a j = some slot → mv'.slotAt a j = some slot) :
    Trace s p i mv' h q :=
  { ht with
    cells := fun a => (hcells a).trans (ht.cells a)
    sourced := fun e he => (ht.sourced e he).mono hgrows }

theorem slotAt_fresh (ht : Trace s p i mv h q) {a : Address} (hnot : a ∉ writtenAt h) :
    mv.slotAt a i = none := by
  rw [ht.cells, List.lookup_eq_none_iff]
  intro p hp
  simpa using fun heq : a = p.1 => hnot (heq ▸ List.mem_map_of_mem hp)

/-- Before its first write, a run has nothing to clear. -/
theorem clearWrites_eq (ht : Trace s p i mv h q) (hnil : writtenAt h = []) :
    mv.clearWrites i = mv :=
  MvStore.ext_slotAt fun a j => by
    rw [MvStore.slotAt_clearWrites]
    split_ifs with hj
    · rw [hj, ht.slotAt_fresh (by simp [hnil])]
    · rfl

/-- The store after the next operation of a run: cells of the run's own are added, and no cell is
written twice. -/
theorem extends_sem {op : MvOp} {k : op.Res → MvProg} (ht : Trace s p i mv h (.call op k)) :
    Extends i mv (mvSem s op mv).2 := by
  obtain ⟨F, htidy⟩ := ht.tidy
  cases htidy.tidy with
  | read _ _ => exact .refl i mv
  | @write _ _ a _ _ _ hnot _ =>
      have hnone := ht.slotAt_fresh hnot
      refine ⟨fun b j hj => ?_, fun b j w hw => ?_⟩
      · simp [mvSem, MvStore.slotAt_write, hj]
      · have hne : ¬(b = a ∧ j = i) := by
          rintro ⟨rfl, rfl⟩
          simp [hnone] at hw
        simpa [mvSem, MvStore.slotAt_write, hne] using hw
  | clear hnil _ => simpa only [mvSem, ht.clearWrites_eq hnil] using Extends.refl i mv

/-- The next operation, answered by the store, prolongs the trace. -/
theorem step {op : MvOp} {k : op.Res → MvProg} (ht : Trace s p i mv h (.call op k)) :
    Trace s p i (mvSem s op mv).2 (h ++ [⟨op, answers s mv op⟩]) (k (answers s mv op)) := by
  have hext := ht.extends_sem
  obtain ⟨F, htidy⟩ := ht.tidy
  refine ⟨ht.after.call _, ⟨F, htidy.call _⟩, fun a => ?_, fun e he => ?_⟩
  · rw [List.map_append, writesOf_append, List.lookup_append, ← ht.cells]
    cases htidy.tidy with
    | read _ _ => exact Option.or_none.symm
    | @write _ _ b slot _ _ hnot _ =>
        have hnone := ht.slotAt_fresh hnot
        by_cases hab : a = b
        · simp [mvSem, MvStore.slotAt_write, writesOf, hab, hnone]
        · simp [mvSem, MvStore.slotAt_write, writesOf, List.lookup_cons, beq_false_of_ne hab, hab]
    | clear hnil _ =>
        rw [mvSem, ht.clearWrites_eq hnil]
        exact Option.or_none.symm
  · rcases List.mem_append.1 he with he | he
    · exact (ht.sourced e he).mono hext.grows
    · rw [List.mem_singleton.1 he]
      exact (sourced_answers s mv op).mono hext.grows

/-- A finished run: it did not panic, and its record holds the reads of its history. -/
theorem ret_inv {r : Option Txn} (ht : Trace s p i mv h (.ret r)) :
    ∃ t, r = some t ∧ t.idx = i ∧ t.readSet = readsOf h := by
  obtain ⟨F, htidy⟩ := ht.tidy
  cases htidy.tidy with
  | ret hidx hreads _ => exact ⟨_, rfl, hidx, hreads⟩

end Trace

/-! ## The pass -/

section Pass

variable {s : State} {pending : List TxnIdx} {progs : TxnIdx → MvProg} {mv₀ : MvStore}

/-- The traces of a pending transaction's run; those of the lowest one are what it would read
now. -/
structure Thread (s : State) (pending : List TxnIdx) (p : MvProg) (i : TxnIdx) (mv : MvStore)
    (h : List MvEvent) (q : MvProg) : Prop extends Trace s p i mv h q where
  lowest : (∀ j ∈ pending, i ≤ j) → Agrees (answers s mv) h

/-- A thread does not notice the step of another one. -/
theorem Thread.other {p q : MvProg} {i j : TxnIdx} {mv mv' : MvStore} {h : List MvEvent}
    (ht : Thread s pending p i mv h q) (hext : Extends j mv mv') (hij : i ≠ j) (hj : j ∈ pending) :
    Thread s pending p i mv' h q where
  toTrace := ht.mono (fun a => hext.frame a i hij) hext.grows
  lowest hlow := agrees_congr (hext.agreeBelow (hlow j hj)) ht.own (ht.lowest hlow)

theorem Thread.step {p : MvProg} {i : TxnIdx} {mv : MvStore} {h : List MvEvent} {op : MvOp}
    {k : op.Res → MvProg} (ht : Thread s pending p i mv h (.call op k)) :
    Thread s pending p i (mvSem s op mv).2 (h ++ [⟨op, answers s mv op⟩])
      (k (answers s mv op)) where
  toTrace := ht.toTrace.step
  lowest hlow e he := by
    have hbelow := ht.extends_sem.agreeBelow le_rfl
    have hown := ht.toTrace.step.own e he
    rw [← answers_congr (hown ▸ hbelow)]
    rcases List.mem_append.1 he with he | he
    · exact ht.lowest hlow e he
    · rw [List.mem_singleton.1 he]

/-- What a pass over the pending transactions leaves: their records, each with its traces. -/
structure PassDone (s : State) (pending : List TxnIdx) (progs : TxnIdx → MvProg) (mv₀ : MvStore)
    (txns : List Txn) (mv : MvStore) : Prop where
  length : txns.length = pending.length
  threads : ∀ (pos : Nat) (i : TxnIdx) (t : Txn), pending[pos]? = some i → txns[pos]? = some t →
    ∃ h, Thread s pending (progs i) i mv h (.ret (some t))
  frame : ∀ a, ∀ i ∉ pending, mv.slotAt a i = mv₀.slotAt a i
  grows : ∀ a i slot, mv₀.slotAt a i = some slot → mv.slotAt a i = some slot

/-- Runs none of which panicked, collected. -/
theorem mapM_map_some (txns : List Txn) : (txns.map some).mapM id = some txns := by
  induction txns with
  | nil => rfl
  | cons t rest ih =>
      rw [List.map_cons, List.mapM_cons, ih]
      rfl

theorem mapM_runs {runs : List (Option Txn)} (h : ∀ r ∈ runs, ∃ t, r = some t) :
    ∃ txns, runs.mapM id = some txns ∧ runs = txns.map some := by
  choose! txn htxn using h
  have hruns : runs = (runs.map txn).map some := by
    rw [List.map_map]
    exact (List.map_id runs).symm.trans (List.map_congr_left htxn)
  exact ⟨runs.map txn, by rw [hruns, mapM_map_some, ← hruns], hruns⟩

/-- Whatever the order of their calls, the threads of the pending transactions return, and leave
their traces. -/
theorem passDone_of_run (hnodup : pending.Nodup)
    (htidy : ∀ i ∈ pending, ∃ F, Tidy i F [] [] (progs i))
    (hcells : ∀ i ∈ pending, ∀ a, mv₀.slotAt a i = none) {picks : List Nat}
    {runs : List (Option Txn)} {mv : MvStore}
    (hrun : Pool.run (mvSem s) picks ⟨pending.map progs, mv₀⟩ = (runs, mv)) :
    ∃ txns, runs.mapM id = some txns ∧ PassDone s pending progs mv₀ txns mv := by
  obtain ⟨hlength, ⟨hframe, hgrows⟩, hthread⟩ := Pool.run_rule (mvSem s) hnodup
    (G := fun mv => (∀ a, ∀ i ∉ pending, mv.slotAt a i = mv₀.slotAt a i) ∧
      ∀ a i slot, mv₀.slotAt a i = some slot → mv.slotAt a i = some slot)
    (T := fun mv i q => ∃ h, Thread s pending (progs i) i mv h q)
    (fun mv i op k hi hG ht => by
      obtain ⟨h, ht⟩ := ht
      have hext := ht.extends_sem
      refine ⟨⟨fun a j hj => ?_, fun a j w hw => hext.grows a j w (hG.2 a j w hw)⟩, ⟨_, ht.step⟩,
        fun j hj q hq => ?_⟩
      · exact (hext.frame a j fun heq => hj (heq ▸ hi)).trans (hG.1 a j hj)
      · obtain ⟨h', ht'⟩ := hq
        exact ⟨h', ht'.other hext hj hi⟩)
    ⟨fun _ _ _ => rfl, fun _ _ _ hw => hw⟩
    (fun i hi => by
      obtain ⟨F, hF⟩ := htidy i hi
      exact ⟨[], .start hF (hcells i hi), fun _ => by simp [Agrees]⟩) picks hrun
  have hsome : ∀ r ∈ runs, ∃ t, r = some t := by
    intro r hr
    obtain ⟨pos, hpos, rfl⟩ := List.getElem_of_mem hr
    obtain ⟨h, ht⟩ := hthread pos _ _ (List.getElem?_eq_getElem (hlength ▸ hpos))
      (List.getElem?_eq_getElem hpos)
    obtain ⟨t, heq, -⟩ := ht.ret_inv
    exact ⟨t, heq⟩
  obtain ⟨txns, hmap, rfl⟩ := mapM_runs hsome
  refine ⟨txns, hmap, by simpa using hlength, fun pos i t hi ht => ?_, hframe, hgrows⟩
  exact hthread pos i (some t) hi (by simp [ht])

end Pass

section Block

variable (s : State) {block : List Intent} (registry : ContractRegistry)

theorem tidy_executeAt (env : RunEnv) {i : TxnIdx} {intent : Intent}
    (hi : block[i]? = some intent) :
    Tidy i (partiesOf (intent.transfersIn env registry s)) [] []
      (executeAt s block registry env i) := by
  rw [executeAt, hi]
  exact tidy_executeOne env intent i s registry

/-- A parallel pass never panics, and leaves the records of all its transactions. -/
theorem executePass_spec (sched : PassSchedule) {mv : MvStore} {pending : List TxnIdx}
    (hnodup : pending.Nodup) (hbound : ∀ i ∈ pending, i < block.length)
    (hcells : ∀ i ∈ pending, ∀ a, mv.slotAt a i = none) :
    ∃ txns mv', executePass s block registry sched mv pending = some (txns, mv') ∧
      PassDone s pending (fun i => executeAt s block registry (sched.env i) i) mv txns mv' := by
  generalize hrun : Pool.run (mvSem s) sched.picks
    ⟨pending.map fun i => executeAt s block registry (sched.env i) i, mv⟩ = fin
  obtain ⟨runs, mv'⟩ := fin
  obtain ⟨txns, hruns, hdone⟩ := passDone_of_run hnodup
    (fun i hi => ⟨_, tidy_executeAt s registry (sched.env i)
      (List.getElem?_eq_getElem (hbound i hi))⟩) hcells hrun
  refine ⟨txns, mv', ?_, hdone⟩
  simp [executePass, hrun, hruns]

/-- The picks of a schedule leave no interleaving out: whatever the threads of a pass do, some picks
make `executePass` do it. -/
theorem executePass_complete (env : TxnIdx → RunEnv) {mv mv' : MvStore} {pending : List TxnIdx}
    {txns : List Txn}
    (h : Relation.ReflTransGen (Pool.Step (mvSem s))
      ⟨pending.map fun i => executeAt s block registry (env i) i, mv⟩
      (Pool.done (txns.map some) mv')) :
    ∃ picks, executePass s block registry { env, picks } mv pending = some (txns, mv') := by
  obtain ⟨picks, hrun⟩ := Pool.exists_picks (mvSem s) h
  refine ⟨picks, ?_⟩
  rw [executePass, hrun]
  simp only [mapM_map_some, Option.bind_eq_bind, Option.bind_some]

/-- A run alone is a pass of one: what it read is what it would read now. -/
theorem run_spec (env : RunEnv) {mv : MvStore} {i : TxnIdx} (hi : i < block.length)
    (hcells : ∀ a, mv.slotAt a i = none) :
    ∃ t mv' h, (executeAt s block registry env i).run (mvSem s) mv = (some t, mv') ∧
      Trace s (executeAt s block registry env i) i mv' h (.ret (some t)) ∧
      Agrees (answers s mv') h ∧ Extends i mv mv' := by
  obtain ⟨txns, mv', hpass, hdone⟩ := executePass_spec s registry
    { env := fun _ => env } (List.nodup_singleton i) (by simpa using hi) (by simpa using hcells)
  obtain ⟨t, rfl⟩ := List.length_eq_one_iff.1 hdone.length
  obtain ⟨h, ht⟩ := hdone.threads 0 i t rfl rfl
  have hext : Extends i mv mv' := ⟨fun a j hj => hdone.frame a j (by simpa), hdone.grows⟩
  refine ⟨t, mv', h, ?_, ht.toTrace, ht.lowest (by simp), hext⟩
  generalize hrun : (executeAt s block registry env i).run (mvSem s) mv = r
  obtain ⟨o, m⟩ := r
  cases o with
  | none => simp [executePass, Pool.run, Pool.drain, hrun] at hpass
  | some t' => simpa [executePass, Pool.run, Pool.drain, hrun] using hpass

end Block

end SuwappuDb
