import SuwappuDb.LoopProof
import SuwappuDb.StateTreeProof

/-!
# The block executor is serializable

A settled store is determined, from the bottom up: the cells below `i` determine what `i` reads,
hence its run, hence its cells (`settled_unique`). The loop ends settled whatever the schedule,
and so does the serial run of the transactions in order; so they agree.

Two runs of one transaction may still differ in what they take from their surroundings. The
order in which a bundle's values are published makes no difference to the outcome and the cells
(`Similar`), and a pure generator does not see which invocation it is.

* `executeWithRegistry_serializable` — outcomes, store, state and root are those of the serial run.
* `loop_converges` — the loop's lowest pending transaction rises with every pass.
-/

namespace SuwappuDb

open Prog

/-! ## Runs that differ in their surroundings -/

/-- On the same answers, the same outcome and the same cells. -/
structure Similar (p p' : MvProg) : Prop where
  outcome : ∀ answer, (p.eval answer).map Txn.outcome = (p'.eval answer).map Txn.outcome
  writes : ∀ answer a, (writesOf (p.calls answer)).lookup a = (writesOf (p'.calls answer)).lookup a

namespace Similar

theorem refl (p : MvProg) : Similar p p := ⟨fun _ => rfl, fun _ _ => rfl⟩

theorem call {op : MvOp} {k k' : op.Res → MvProg} (h : ∀ r, Similar (k r) (k' r)) :
    Similar (.call op k) (.call op k') where
  outcome answer := (h (answer op)).outcome answer
  writes answer a := by
    have hcons : ∀ p : MvProg, writesOf (op :: p.calls answer) =
        writesOf [op] ++ writesOf (p.calls answer) := fun p => writesOf_append [op] _
    rw [Prog.calls, Prog.calls, hcons, hcons, List.lookup_append, List.lookup_append,
      (h (answer op)).writes answer a]

theorem localOrMv {loc : OrdMap Address BalanceSlot} {addr : Address} {idx : TxnIdx}
    {k k' : BalanceSlot → Option ReadSource → MvProg}
    (h : ∀ slot src, Similar (k slot src) (k' slot src)) :
    Similar (SuwappuDb.localOrMv loc addr idx k) (SuwappuDb.localOrMv loc addr idx k') := by
  unfold SuwappuDb.localOrMv
  cases loc.get? addr with
  | some slot => exact h slot none
  | none => exact .call fun r => h r.1 (some r.2)

end Similar

theorem publish_spec (answer : (op : MvOp) → op.Res) (idx : TxnIdx) (reads : List ReadEntry)
    (l : List (Address × BalanceSlot)) (ws : List WriteEntry) :
    ((publish idx reads l ws).eval answer).map Txn.outcome = some .committed ∧
      writesOf ((publish idx reads l ws).calls answer) = l := by
  induction l generalizing ws with
  | nil => exact ⟨rfl, rfl⟩
  | cons p rest ih =>
      obtain ⟨houtcome, hwrites⟩ := ih (ws ++ [⟨p.1, p.2⟩])
      exact ⟨houtcome, congrArg (p :: ·) hwrites⟩

theorem similar_callSteps (env env' : RunEnv) (idx : TxnIdx) (steps : List BundleStep)
    (loc : OrdMap Address BalanceSlot) (reads : List ReadEntry) :
    Similar (callSteps env idx steps loc reads) (callSteps env' idx steps loc reads) := by
  induction steps generalizing loc reads with
  | nil =>
      have hperm := (env.order.perm loc.entries).trans (env'.order.perm loc.entries).symm
      have hnodup := ((env.order.perm loc.entries).map Prod.fst).nodup_iff.2 loc.sorted.nodup_keys
      refine ⟨fun answer => ?_, fun answer a => ?_⟩
      · rw [callSteps, callSteps, (publish_spec answer idx reads _ _).1,
          (publish_spec answer idx reads _ _).1]
      · rw [callSteps, callSteps, (publish_spec answer idx reads _ _).2,
          (publish_spec answer idx reads _ _).2]
        exact lookup_perm hnodup hperm a
  | cons step steps ih =>
      rw [callSteps, callSteps]
      cases stepTransfer step with
      | none => exact ih loc reads
      | some p =>
          refine .localOrMv fun fromSlot fromSrc => .localOrMv fun toSlot toSrc => ?_
          dsimp only
          split
          · exact .refl _
          · exact .refl _
          · split_ifs
            · exact ih _ _
            · exact ih _ _

theorem similar_executeAt {registry : ContractRegistry} (hpure : registry.Pure) (env env' : RunEnv)
    (s : State) (block : List Intent) (idx : TxnIdx) :
    Similar (executeAt s block registry env idx) (executeAt s block registry env' idx) := by
  unfold executeAt
  cases block[idx]? with
  | none => exact .refl _
  | some intent =>
      cases intent with
      | transfer src dst amount => exact .refl _
      | deployModule account name bytes => exact .refl _
      | call caller target value calldata =>
          simp only [executeOne, executeCall]
          cases hget : registry.get target with
          | none => exact .refl _
          | some g =>
              simp only [callBundle, hpure target g hget env.tick env'.tick]
              exact similar_callSteps env env' idx _ ∅ []

/-! ## Settled stores agree -/

section Block

variable {s : State} {block : List Intent} {registry : ContractRegistry}

/-- A recorded run, evaluated on what its store answers. -/
theorem RecordedAs.eval_eq {env : RunEnv} {mv : MvStore} {i : TxnIdx} {t : Txn} {h : List MvEvent}
    (ht : RecordedAs s block registry env mv i t h) {answer : (op : MvOp) → op.Res}
    (ha : Agrees answer h) :
    (executeAt s block registry env i).eval answer = some t ∧
      (executeAt s block registry env i).calls answer = h.map Sigma.fst := by
  obtain ⟨heval, hcalls⟩ := ht.after.eval_eq ha
  exact ⟨heval, hcalls.trans (List.append_nil _)⟩

/-- Runs over stores that agree below them have the same outcome and the same cells. -/
theorem recorded_similar {env env' : RunEnv} {mv mv' : MvStore} {i : TxnIdx} {t t' : Txn}
    {h h' : List MvEvent}
    (hsim : Similar (executeAt s block registry env i) (executeAt s block registry env' i))
    (hbelow : MvStore.AgreeBelow mv mv' i) (ht : RecordedAs s block registry env mv i t h)
    (ha : Agrees (answers s mv) h) (ht' : RecordedAs s block registry env' mv' i t' h')
    (ha' : Agrees (answers s mv') h') :
    t.outcome = t'.outcome ∧ ∀ a, mv.slotAt a i = mv'.slotAt a i := by
  obtain ⟨heval, hcalls⟩ := ht.eval_eq (agrees_congr hbelow ht.own ha)
  obtain ⟨heval', hcalls'⟩ := ht'.eval_eq ha'
  constructor
  · have houtcome := hsim.outcome (answers s mv')
    rw [heval, heval'] at houtcome
    exact Option.some.inj houtcome
  · intro a
    rw [ht.cells, ht'.cells, ← hcalls, ← hcalls']
    exact hsim.writes _ a

theorem settled_unique {env env' : TxnIdx → RunEnv} {mv mv' : MvStore} {txns txns' : List Txn}
    (hsim : ∀ i,
      Similar (executeAt s block registry (env i) i) (executeAt s block registry (env' i) i))
    (hset : Settled s block registry env mv txns)
    (hset' : Settled s block registry env' mv' txns') :
    mv = mv' ∧ txns.map Txn.outcome = txns'.map Txn.outcome := by
  have hrun : ∀ (i : Nat) (t t' : Txn), txns[i]? = some t → txns'[i]? = some t' →
      MvStore.AgreeBelow mv mv' i →
      t.outcome = t'.outcome ∧ ∀ a, mv.slotAt a i = mv'.slotAt a i := by
    intro i t t' ht ht' hbelow
    obtain ⟨h, hrec, ha⟩ := hset.runs i t ht
    obtain ⟨h', hrec', ha'⟩ := hset'.runs i t' ht'
    exact recorded_similar (hsim i) hbelow hrec ha hrec' ha'
  have hlen : txns.length = txns'.length := hset.length.trans hset'.length.symm
  have hcells : ∀ i a, mv.slotAt a i = mv'.slotAt a i := by
    intro i
    induction i using Nat.strong_induction_on with
    | _ i ih =>
        intro a
        by_cases hi : i < block.length
        · have hlt : i < txns.length := hset.length ▸ hi
          exact (hrun i _ _ (List.getElem?_eq_getElem hlt) (List.getElem?_eq_getElem (hlen ▸ hlt))
            fun a j hj => ih j hj a).2 a
        · rw [hset.outside a i (not_lt.1 hi), hset'.outside a i (not_lt.1 hi)]
  refine ⟨MvStore.ext_slotAt fun a i => hcells i a, ?_⟩
  refine List.ext_getElem (by simpa using hlen) fun i hi hi' => ?_
  rw [List.length_map] at hi hi'
  rw [List.getElem_map, List.getElem_map]
  exact (hrun i _ _ (List.getElem?_eq_getElem hi) (List.getElem?_eq_getElem hi')
    fun a j _ => hcells j a).1

end Block

/-! ## Consolidation -/

theorem bytesOf_consolidate (s : State) (writes : List (Address × BalanceSlot)) (a : Address) :
    (consolidate s writes).bytesOf a = s.bytesOf a := by
  induction writes generalizing s with
  | nil => rfl
  | cons p rest ih => exact ih _

theorem get?_slots_consolidate (s : State) {writes : List (Address × BalanceSlot)}
    (hnodup : (writes.map Prod.fst).Nodup) (a : Address) :
    (consolidate s writes).store.slots.get? a =
      ((writes.lookup a).map fun slot => BalanceSlot.new slot.canonical).or
        (s.store.slots.get? a) := by
  have hmap : consolidate s writes = (writes.map fun p => (p.1, p.2.canonical)).foldl
      (fun s p => s.apply (.setBalance p.1 p.2)) s := by
    rw [List.foldl_map]
    rfl
  have hkeys : ((writes.map fun p => (p.1, p.2.canonical)).map Prod.fst).Nodup := by
    rw [List.map_map]
    exact hnodup
  rw [hmap, State.get?_slots_setBalances s hkeys, lookup_map_snd BalanceSlot.canonical,
    Option.map_map]
  rfl

theorem nodup_finalise (mv : MvStore) (order : IterOrder) :
    ((mv.finalise order).map Prod.fst).Nodup := by
  have hkeys := ((order.perm mv.versions.entries).map Prod.fst).nodup_iff.2
    mv.versions.sorted.nodup_keys
  rw [List.nodup_iff_pairwise_ne, List.pairwise_map] at hkeys ⊢
  refine hkeys.filterMap _ fun p q hne p' hp q' hq => ?_
  obtain ⟨v, -, rfl⟩ := Option.map_eq_some_iff.1 hp
  obtain ⟨w, -, rfl⟩ := Option.map_eq_some_iff.1 hq
  exact hne

/-- The consolidated state does not depend on the order the versions are visited in. -/
theorem consolidate_finalise (s : State) (mv : MvStore) (order order' : IterOrder) :
    consolidate s (mv.finalise order) = consolidate s (mv.finalise order') := by
  have hperm : (mv.finalise order).Perm (mv.finalise order') :=
    ((order.perm mv.versions.entries).trans (order'.perm mv.versions.entries).symm).filterMap _
  refine State.ext_columns (fun a => ?_) fun a => ?_
  · rw [get?_slots_consolidate s (nodup_finalise mv order),
      get?_slots_consolidate s (nodup_finalise mv order'),
      lookup_perm (nodup_finalise mv order) hperm]
  · rw [bytesOf_consolidate, bytesOf_consolidate]

/-! ## The executor -/

/-- What the executor returns, from what its loop ends with. -/
theorem executeWithRegistry_eq (blake3 : Blake3) (sched : Schedule) (s : State)
    (block : List Intent) (registry : ContractRegistry) {fin : Loop}
    (hloop : runLoop s block registry sched = some fin) :
    ∃ s' report,
      BlockExecutor.executeWithRegistry blake3 sched s block registry = some (s', report) ∧
      s' = consolidate s (fin.mv.finalise sched.finalise) ∧
      report.outcomes = fin.txns.map Txn.outcome ∧ report.iterations = fin.iterations ∧
      report.stateRoot = (StateTree.fromState sched.entries s').root blake3 := by
  unfold BlockExecutor.executeWithRegistry
  split_ifs with hempty
  · -- The early return of an empty block is what the loop would have come to.
    obtain rfl := List.eq_nil_of_length_eq_zero hempty
    obtain rfl : Loop.start [] = fin := Option.some.inj hloop
    have hnil : ({} : MvStore).finalise sched.finalise = [] := by
      have harrange : sched.finalise.arrange ({} : MvStore).versions.entries = [] :=
        (sched.finalise.perm _).eq_nil
      rw [MvStore.finalise, harrange, List.filterMap_nil]
    exact ⟨s, _, rfl, by rw [Loop.start, hnil]; rfl, rfl, rfl, rfl⟩
  · rw [hloop]
    exact ⟨_, _, rfl, rfl, rfl, rfl, rfl⟩

/-- Two executions of a block on one state agree, whatever their schedules. -/
theorem executeWithRegistry_agree (blake3 : Blake3) (s : State) (block : List Intent)
    {registry : ContractRegistry} (hpure : registry.Pure) (sched sched' : Schedule) :
    ∃ s' report report',
      BlockExecutor.executeWithRegistry blake3 sched s block registry = some (s', report) ∧
      BlockExecutor.executeWithRegistry blake3 sched' s block registry = some (s', report') ∧
      report.stateRoot = (StateTree.fromState default s').root blake3 ∧
      report'.stateRoot = (StateTree.fromState default s').root blake3 := by
  obtain ⟨fin, hloop, -, env, hsettled⟩ := runLoop_spec s block registry sched
  obtain ⟨fin', hloop', -, env', hsettled'⟩ := runLoop_spec s block registry sched'
  obtain ⟨hmv, -⟩ := settled_unique
    (fun i => similar_executeAt hpure (env' i) (env i) s block i) hsettled' hsettled
  obtain ⟨s₁, report, hexec, hstate, -, -, hroot⟩ :=
    executeWithRegistry_eq blake3 sched s block registry hloop
  obtain ⟨s₂, report', hexec', hstate', -, -, hroot'⟩ :=
    executeWithRegistry_eq blake3 sched' s block registry hloop'
  rw [hmv, consolidate_finalise s fin.mv _ sched.finalise, ← hstate] at hstate'
  subst hstate'
  exact ⟨s₂, report, report', hexec, hexec', hroot.trans (StateTree.root_fromState blake3 _ _ _),
    hroot'.trans (StateTree.root_fromState blake3 _ _ _)⟩

/-- Under any schedule, a block comes out as it does when its transactions run one after another,
in order, on an empty store. -/
theorem executeWithRegistry_serializable (blake3 : Blake3) (s : State) (block : List Intent)
    (registry : ContractRegistry) (hpure : registry.Pure) (env : TxnIdx → RunEnv)
    (order entries : IterOrder) :
    ∃ mv txns,
      runSequential s block registry env (List.range block.length) {} (Loop.start block).txns =
        some (mv, txns) ∧
      ∀ sched, ∃ fin s' report, runLoop s block registry sched = some fin ∧
        BlockExecutor.executeWithRegistry blake3 sched s block registry = some (s', report) ∧
        report.outcomes = txns.map Txn.outcome ∧
        fin.mv = mv ∧
        s' = consolidate s (mv.finalise order) ∧
        report.stateRoot =
          (StateTree.fromState entries (consolidate s (mv.finalise order))).root blake3 := by
  obtain ⟨mv, txns, hseq, hserial⟩ :=
    runSequential_settled s registry env (loopInv_start s block registry).length
  refine ⟨mv, txns, hseq, fun sched => ?_⟩
  obtain ⟨fin, hloop, -, env', hsettled⟩ := runLoop_spec s block registry sched
  obtain ⟨hmv, houtcomes⟩ := settled_unique
    (fun i => similar_executeAt hpure (env' i) (env i) s block i) hsettled hserial
  obtain ⟨s', report, hexec, hstate, hreport, -, hroot⟩ :=
    executeWithRegistry_eq blake3 sched s block registry hloop
  rw [hmv, consolidate_finalise s mv _ order] at hstate
  refine ⟨fin, s', report, hloop, hexec, hreport.trans houtcomes, hmv, hstate, ?_⟩
  rw [hroot, hstate]
  exact StateTree.root_fromState blake3 _ _ _

/-- A contract that takes the value it is called with. -/
def takeValue : BundleGenerator where
  generate _ ctx := ⟨[.evm ⟨ctx.caller, ctx.target, ctx.value⟩]⟩

/-- A contract at address 9. -/
def smallRegistry : ContractRegistry :=
  ⟨(∅ : OrdMap Address BundleGenerator).insert (smallAddress 9) takeValue⟩

/-- A registry of one pure contract is pure. -/
theorem pure_single (addr : Address) {g : BundleGenerator} (hg : g.Pure) :
    ContractRegistry.Pure ⟨(∅ : OrdMap Address BundleGenerator).insert addr g⟩ := by
  intro a g' hget
  rw [ContractRegistry.get, OrdMap.get?_insert] at hget
  split_ifs at hget with haddr
  · cases hget
    exact hg
  · cases hget

theorem smallRegistry_pure : smallRegistry.Pure := pure_single _ fun _ _ _ => rfl

/-- A chain of two payments and a call of the contract, which depend on each other. -/
def smallBlock : List Intent := [
  .transfer (smallAddress 1) (smallAddress 2) 60,
  .transfer (smallAddress 2) (smallAddress 3) 50,
  .call (smallAddress 3) (smallAddress 9) 20 []]

theorem serializable_smallBlock :
    smallRegistry.Pure ∧ ∀ blake3 : Blake3, ∃ mv txns,
      runSequential smallState smallBlock smallRegistry (fun _ => {})
        (List.range smallBlock.length) {} (Loop.start smallBlock).txns = some (mv, txns) ∧
      ∀ sched, ∃ fin s' report, runLoop smallState smallBlock smallRegistry sched = some fin ∧
        BlockExecutor.executeWithRegistry blake3 sched smallState smallBlock smallRegistry =
          some (s', report) ∧
        report.outcomes = txns.map Txn.outcome ∧
        fin.mv = mv ∧
        s' = consolidate smallState (mv.finalise default) ∧
        report.stateRoot =
          (StateTree.fromState default (consolidate smallState (mv.finalise default))).root
            blake3 :=
  ⟨smallRegistry_pure, fun blake3 => executeWithRegistry_serializable blake3 smallState smallBlock
    smallRegistry smallRegistry_pure (fun _ => {}) default default⟩

/-! ## Convergence -/

section Block

variable (s : State) (block : List Intent) (registry : ContractRegistry)

/-- The loop's variables before some pass. -/
inductive LoopReaches (sched : Schedule) : Loop → Prop
  | start : LoopReaches sched (Loop.start block)
  | next {st st' : Loop} : LoopReaches sched st → st.pending ≠ [] →
      iterate s block registry (sched.pass st.iterations) sched.collapse st = some (st', false) →
      LoopReaches sched st'

variable {s block registry}

theorem LoopReaches.inv {sched : Schedule} {st : Loop} (h : LoopReaches s block registry sched st) :
    LoopInv s block registry st := by
  induction h with
  | start => exact loopInv_start s block registry
  | next _ _ hiter ih =>
      obtain ⟨st', broke, heq, -, -, hkeep⟩ := iterate_spec ih _ _
      rw [hiter] at heq
      obtain ⟨rfl, rfl⟩ := Prod.mk.inj (Option.some.inj heq)
      exact (hkeep rfl).1

end Block

/-- The lowest pending transaction rises from pass to pass, so the loop ends after at most as many
passes as the block has transactions, and its assertion holds. -/
theorem loop_converges (blake3 : Blake3) (s : State) (block : List Intent)
    (registry : ContractRegistry) (sched : Schedule) :
    (∀ st st' m m', LoopReaches s block registry sched st → st.pending.min? = some m →
      iterate s block registry (sched.pass st.iterations) sched.collapse st = some (st', false) →
      st'.pending.min? = some m' → m < m') ∧
    ∃ fin s' report, runLoop s block registry sched = some fin ∧ fin.iterations ≤ block.length ∧
      BlockExecutor.executeWithRegistry blake3 sched s block registry = some (s', report) ∧
      report.iterations ≤ block.length := by
  constructor
  · intro st st' m m' hreach hm hiter hm'
    obtain ⟨st'', broke, heq, -, -, hkeep⟩ := iterate_spec hreach.inv _ _
    rw [hiter] at heq
    obtain ⟨rfl, rfl⟩ := Prod.mk.inj (Option.some.inj heq)
    obtain ⟨hinv', hrise⟩ := hkeep rfl
    have hmem' := (List.min?_eq_some_iff.1 hm').1
    by_contra hle
    exact hrise m' (hinv'.bound m' hmem')
      (fun j hj => (not_lt.1 hle).trans ((List.min?_eq_some_iff.1 hm).2 j hj)) hmem'
  · obtain ⟨fin, hloop, hle, -⟩ := runLoop_spec s block registry sched
    obtain ⟨s', report, hexec, -, -, hiter, -⟩ :=
      executeWithRegistry_eq blake3 sched s block registry hloop
    exact ⟨fin, s', report, hloop, hle, hexec, hiter ▸ hle⟩

/-- When every transaction of the small block reads before the first one writes, it takes three
passes. -/
example : (runLoop smallState smallBlock smallRegistry
    { pass := fun _ => { picks := [0, 1, 2, 0, 1, 2] } }).map (fun fin =>
      (fin.iterations, fin.txns.map Txn.outcome)) =
    some (3, [.committed, .committed, .committed]) := by
  decide +kernel

end SuwappuDb
