import SuwappuDb.BundleProof

/-!
# What bundles deploy

`execute_with_move_runtime` queues the modules that a bundle deploys, flushes the queue when the
bundle commits and drops it when the bundle reverts. The flush ignores what `put` answers, so a
module that `put` rejected would be lost without a trace.

* `modules_append_only` — over any run of bundles nothing is lost and nothing is replaced: the store
  at the end holds the modules it held before, each under its id, and all the modules of the bundles
  that committed, whose ids were free and are all distinct.
* `deploys_unseen` — a bundle that commits leaves the state that its other steps leave alone: no
  step sees a module which its own bundle deploys.

The invariant is `Deployable`: the ids in the queue are distinct and free in the store.
-/

namespace SuwappuDb

open BundleExecutor

/-- What a step deploys. -/
def BundleStep.deployed : BundleStep → Queue
  | .deployModule account name bytes => [(⟨account, name⟩, ⟨bytes⟩)]
  | _ => []

/-- What a bundle deploys, in order. -/
def Bundle.deployed (bundle : Bundle) : Queue := bundle.steps.flatMap BundleStep.deployed

/-- A bundle without the steps that deploy. -/
def Bundle.undeployed (bundle : Bundle) : Bundle :=
  ⟨bundle.steps.filter fun step => step.deployed.isEmpty⟩

/-- The modules go to distinct ids that are free in the store. -/
structure Deployable (store : InMemoryModuleStore) (queued : Queue) : Prop where
  free : ∀ q ∈ queued, store.get q.1 = none
  nodup : (queued.map Prod.fst).Nodup

namespace Deployable

variable {store : InMemoryModuleStore} {queued : Queue}

theorem nil (store : InMemoryModuleStore) : Deployable store [] := by
  constructor <;> simp

/-- The check that `execute_with_move_runtime` makes before it queues a module. -/
theorem concat (h : Deployable store queued) {id : ModuleId} {module : CompiledModule}
    (hfree : ¬ (store.contains id || queued.any fun q => q.1 == id) = true) :
    Deployable store (queued ++ [(id, module)]) := by
  simp only [InMemoryModuleStore.contains, Bool.or_eq_true, Option.isSome_iff_ne_none, ne_eq,
    List.any_eq_true, beq_iff_eq, not_or, not_not, not_exists, not_and] at hfree
  refine ⟨fun q hq => ?_, ?_⟩
  · rcases List.mem_append.1 hq with hold | hnew
    · exact h.free q hold
    · rw [List.mem_singleton.1 hnew]
      exact hfree.1
  · rw [List.map_append, List.nodup_append]
    refine ⟨h.nodup, List.nodup_singleton _, fun a ha b hb => ?_⟩
    obtain ⟨q, hq, rfl⟩ := List.mem_map.1 ha
    rw [List.mem_singleton.1 hb]
    exact hfree.2 q hq

/-- No `put` of the flush is rejected. -/
theorem modules_flush (h : Deployable store queued) :
    (flush store queued).modules = store.modules.insertAll queued := by
  induction queued generalizing store with
  | nil => rfl
  | cons q queued ih =>
      obtain ⟨hq, hrest⟩ := List.forall_mem_cons.1 h.free
      obtain ⟨hne, hnodup⟩ := List.nodup_cons.1 h.nodup
      have hput : store.put q.1 q.2 = .ok ⟨store.modules.insert q.1 q.2⟩ := by
        rw [InMemoryModuleStore.put, if_neg]
        exact Option.not_isSome_iff_eq_none.2 hq
      have hstep : flush store (q :: queued) =
          flush ⟨store.modules.insert q.1 q.2⟩ queued := by
        rw [flush, List.foldl_cons, hput]
        rfl
      rw [hstep, ih ⟨fun p hp => ?_, hnodup⟩]
      · rfl
      · show (store.modules.insert q.1 q.2).get? p.1 = none
        rw [OrdMap.get?_insert, if_neg]
        · exact hrest p hp
        · intro heq
          rw [← heq] at hne
          exact hne (List.mem_map_of_mem hp)

/-- The store after the flush: its own modules, and the queue's. -/
theorem get_flush (h : Deployable store queued) {id : ModuleId} {module : CompiledModule} :
    (flush store queued).get id = some module ↔
      store.get id = some module ∨ (id, module) ∈ queued := by
  rw [InMemoryModuleStore.get, h.modules_flush, OrdMap.get?_insertAll_eq_some h.nodup]
  constructor
  · rintro (hnew | ⟨-, hold⟩)
    · exact .inr hnew
    · exact .inl hold
  · rintro (hold | hnew)
    · refine .inr ⟨fun hmem => ?_, hold⟩
      obtain ⟨q, hq, rfl⟩ := List.mem_map.1 hmem
      cases hold.symm.trans (h.free q hq)
    · exact .inl hnew

/-- A second queue may follow where the first has been flushed. -/
theorem append {later : Queue} (h : Deployable store queued)
    (hlater : Deployable (flush store queued) later) : Deployable store (queued ++ later) := by
  have hfree : ∀ q ∈ later, store.get q.1 = none ∧ q.1 ∉ queued.map Prod.fst := by
    intro q hq
    have hnone := hlater.free q hq
    refine ⟨Option.eq_none_iff_forall_ne_some.2 fun module hget => ?_, fun hmem => ?_⟩
    · cases (h.get_flush.2 (.inl hget)).symm.trans hnone
    · obtain ⟨p, hp, heq⟩ := List.mem_map.1 hmem
      rw [← heq] at hnone
      cases (h.get_flush.2 (.inr hp)).symm.trans hnone
  refine ⟨fun q hq => ?_, ?_⟩
  · rcases List.mem_append.1 hq with hold | hnew
    · exact h.free q hold
    · exact (hfree q hnew).1
  · rw [List.map_append, List.nodup_append]
    refine ⟨h.nodup, hlater.nodup, fun a ha b hb heq => ?_⟩
    obtain ⟨q, hq, rfl⟩ := List.mem_map.1 hb
    exact (hfree q hq).2 (heq ▸ ha)

end Deployable

/-! ## One bundle -/

section Bundle

variable {exec : MoveExecutor} {store store' : InMemoryModuleStore} {view : MoveBalanceView}
  {order : IterOrder}

/-- A step that succeeds queues what it deploys; the other steps queue nothing and read nothing of
the queue. -/
theorem runtimeStep_ok {s s' : State} {queued queued' : Queue} {step : BundleStep}
    (h : runtimeStep exec store view s queued step = some (s', queued', .ok ())) :
    queued' = queued ++ step.deployed ∧
      (Deployable store queued → Deployable store queued') ∧
      if step.deployed.isEmpty then
        ∀ other, runtimeStep exec store view s other step = some (s', other, .ok ())
      else s' = s := by
  cases step with
  | evm tx =>
      obtain ⟨⟨t, verdict⟩, hsubmit, heq⟩ := Option.bind_eq_some_iff.1 h
      cases heq
      refine ⟨(List.append_nil _).symm, id, fun other => ?_⟩
      simp only [runtimeStep, hsubmit]
      rfl
  | move tx =>
      obtain ⟨⟨t, verdict⟩, hsubmit, heq⟩ := Option.bind_eq_some_iff.1 h
      cases heq
      refine ⟨(List.append_nil _).symm, id, fun other => ?_⟩
      simp only [runtimeStep, hsubmit]
      rfl
  | moveCall call =>
      obtain ⟨ran, hexec, heq⟩ := Option.bind_eq_some_iff.1 h
      cases ran with
      | error e => cases heq
      | ok outcome =>
          cases heq
          refine ⟨(List.append_nil _).symm, id, fun other => ?_⟩
          simp only [runtimeStep, hexec]
          rfl
  | deployModule account name bytes =>
      simp only [runtimeStep] at h
      split_ifs at h with htaken
      · cases h
      · cases h
        exact ⟨rfl, fun hdeployable => hdeployable.concat htaken, rfl⟩

/-- A run of the steps that commits flushes all they deploy. -/
theorem runtimeFrom_deployed {snap : OrdMap Address Balance} {steps : List BundleStep} {idx : Nat}
    {s s' : State} {queued : Queue} {outcomes : List TxOutcome} {result : BundleResult}
    (h : runtimeFrom exec store view order snap idx steps s queued outcomes =
      some (s', store', result)) (hcommit : result.outcome = .committed)
    (hdeployable : Deployable store queued) :
    store' = flush store (queued ++ steps.flatMap BundleStep.deployed) ∧
      Deployable store (queued ++ steps.flatMap BundleStep.deployed) := by
  induction steps generalizing idx s queued outcomes with
  | nil =>
      cases h
      rw [List.flatMap_nil, List.append_nil]
      exact ⟨rfl, hdeployable⟩
  | cons step steps ih =>
      obtain ⟨t, queued', hstep, hrest⟩ := runtimeFrom_cons_committed h hcommit
      obtain ⟨rfl, hkeeps, -⟩ := runtimeStep_ok hstep
      rw [List.flatMap_cons, ← List.append_assoc]
      exact ih hrest (hkeeps hdeployable)

/-- A run that reverts flushes nothing. -/
theorem runtimeFrom_reverted {snap : OrdMap Address Balance} {steps : List BundleStep} {idx : Nat}
    {s s' : State} {queued : Queue} {outcomes : List TxOutcome} {result : BundleResult}
    (h : runtimeFrom exec store view order snap idx steps s queued outcomes =
      some (s', store', result)) (hrevert : result.outcome ≠ .committed) : store' = store := by
  induction steps generalizing idx s queued outcomes with
  | nil =>
      cases h
      exact absurd rfl hrevert
  | cons step steps ih =>
      obtain ⟨⟨t, queued', verdict⟩, -, heq⟩ := Option.bind_eq_some_iff.1 h
      cases verdict with
      | ok u => exact ih heq
      | error reason =>
          cases heq
          rfl

/-- What a bundle deploys, if it commits. -/
def landed (bundle : Bundle) (result : BundleResult) : Queue :=
  match result.outcome with
  | .committed => bundle.deployed
  | .reverted _ => []

/-- What one bundle does to the store. -/
theorem executeWithMoveRuntime_store {s s' : State} {bundle : Bundle} {result : BundleResult}
    (h : executeWithMoveRuntime exec store view order s bundle = some (s', store', result)) :
    store' = flush store (landed bundle result) ∧ Deployable store (landed bundle result) := by
  unfold executeWithMoveRuntime at h
  split_ifs at h with hempty
  · cases h
    have hnone : landed bundle ⟨[], .committed⟩ = [] := by
      rw [landed, Bundle.deployed, List.isEmpty_iff.1 hempty]
      rfl
    rw [hnone]
    exact ⟨rfl, .nil store⟩
  · cases houtcome : result.outcome with
    | committed =>
        obtain ⟨hstore, hdeployable⟩ := runtimeFrom_deployed h houtcome (.nil store)
        rw [landed, houtcome]
        exact ⟨hstore, hdeployable⟩
    | reverted idx =>
        rw [landed, houtcome]
        exact ⟨runtimeFrom_reverted h (by simp [houtcome]), .nil store⟩

/-- The steps of a run that commits, without those that deploy. -/
theorem runtimeFrom_undeployed {snap snap' : OrdMap Address Balance} {steps : List BundleStep}
    {idx : Nat} {s s' : State} {queued : Queue} {outcomes : List TxOutcome} {result : BundleResult}
    (h : runtimeFrom exec store view order snap idx steps s queued outcomes =
      some (s', store', result)) (hcommit : result.outcome = .committed)
    (idx' : Nat) (outcomes' : List TxOutcome) :
    ∃ result', runtimeFrom exec store view order snap' idx'
        (steps.filter fun step => step.deployed.isEmpty) s [] outcomes' =
          some (s', store, result') ∧ result'.outcome = .committed := by
  induction steps generalizing idx s queued outcomes idx' outcomes' with
  | nil =>
      cases h
      exact ⟨_, rfl, rfl⟩
  | cons step steps ih =>
      obtain ⟨t, queued', hstep, hrest⟩ := runtimeFrom_cons_committed h hcommit
      obtain ⟨-, -, hreads⟩ := runtimeStep_ok hstep
      split_ifs at hreads with hdeploys
      · obtain ⟨result', hrun, hcommit'⟩ := ih hrest (idx' + 1) (outcomes' ++ [.committed])
        refine ⟨result', ?_, hcommit'⟩
        rw [List.filter_cons, if_pos hdeploys, runtimeFrom, hreads []]
        exact hrun
      · rw [List.filter_cons, if_neg hdeploys, ← hreads]
        exact ih hrest idx' outcomes'

end Bundle

/-- A bundle that commits leaves the state that its other steps leave: what it deploys, none of its
own calls sees. -/
theorem deploys_unseen (exec : MoveExecutor) (view : MoveBalanceView) (order : IterOrder)
    {store store' : InMemoryModuleStore} {s s' : State} {bundle : Bundle} {result : BundleResult}
    (h : executeWithMoveRuntime exec store view order s bundle = some (s', store', result))
    (hcommit : result.outcome = .committed) :
    ∃ result', executeWithMoveRuntime exec store view order s bundle.undeployed =
        some (s', store, result') ∧ result'.outcome = .committed := by
  have hrest : ∃ result', runtimeFrom exec store view order (collectSnapshot s bundle.undeployed) 0
      bundle.undeployed.steps s [] [] = some (s', store, result') ∧
        result'.outcome = .committed := by
    unfold executeWithMoveRuntime at h
    split_ifs at h with hempty
    · cases h
      rw [Bundle.undeployed, List.isEmpty_iff.1 hempty]
      exact ⟨_, rfl, rfl⟩
    · exact runtimeFrom_undeployed h hcommit 0 []
  obtain ⟨result', hrun, hcommit'⟩ := hrest
  unfold executeWithMoveRuntime
  split_ifs with hnone
  · -- Only deployments: the loop would have nothing to do.
    rw [List.isEmpty_iff.1 hnone] at hrun
    cases hrun
    exact ⟨_, rfl, rfl⟩
  · exact ⟨result', hrun, hcommit'⟩

/-- Deploy the coin module and call the coin module in one bundle. -/
def deployAndCall : Bundle :=
  ⟨[.deployModule CANONICAL_COIN_ADDRESS coinTransfer.module.name [1], .moveCall coinTransfer]⟩

/-- The built-in transfer runs without the module, so the bundle commits. -/
theorem deploys_unseen_deployAndCall :
    ∃ s' store' result result',
      executeWithMoveRuntime mockMoveExecutor {} smallView default smallState deployAndCall =
        some (s', store', result) ∧ result.outcome = .committed ∧
      executeWithMoveRuntime mockMoveExecutor {} smallView default smallState
        deployAndCall.undeployed = some (s', {}, result') ∧ result'.outcome = .committed := by
  obtain ⟨⟨s', store', result⟩, hrun, hcommit⟩ : ∃ r,
      executeWithMoveRuntime mockMoveExecutor {} smallView default smallState deployAndCall =
        some r ∧ r.2.2.outcome = .committed := ⟨_, rfl, rfl⟩
  obtain ⟨result', halone⟩ := deploys_unseen mockMoveExecutor smallView default hrun hcommit
  exact ⟨s', store', result, result', hrun, hcommit, halone⟩

/-! ## Bundles one after another -/

/-- A call of `execute_with_move_runtime`, on whatever the state is by then. -/
structure RuntimeCall where
  exec : MoveExecutor
  view : MoveBalanceView
  order : IterOrder := default
  state : State
  bundle : Bundle

/-- The calls that share a module store. -/
def runBundles : List RuntimeCall → InMemoryModuleStore →
    Option (InMemoryModuleStore × List BundleResult)
  | [], store => some (store, [])
  | call :: calls, store => do
      let (_, store', result) ←
        executeWithMoveRuntime call.exec store call.view call.order call.state call.bundle
      let (store'', results) ← runBundles calls store'
      some (store'', result :: results)

/-- What the bundles deploy that commit. -/
def allLanded (calls : List RuntimeCall) (results : List BundleResult) : Queue :=
  (List.zipWith landed (calls.map RuntimeCall.bundle) results).flatten

theorem flush_append (store : InMemoryModuleStore) (queued later : Queue) :
    flush store (queued ++ later) = flush (flush store queued) later :=
  List.foldl_append

theorem runBundles_store {calls : List RuntimeCall} {store store' : InMemoryModuleStore}
    {results : List BundleResult} (h : runBundles calls store = some (store', results)) :
    store' = flush store (allLanded calls results) ∧
      Deployable store (allLanded calls results) := by
  induction calls generalizing store results with
  | nil =>
      cases h
      exact ⟨rfl, .nil _⟩
  | cons call calls ih =>
      obtain ⟨⟨s, mid, result⟩, hcall, hbind⟩ := Option.bind_eq_some_iff.1 h
      obtain ⟨⟨last, rest⟩, hcalls, heq⟩ := Option.bind_eq_some_iff.1 hbind
      cases heq
      obtain ⟨rfl, hfirst⟩ := executeWithMoveRuntime_store hcall
      obtain ⟨rfl, hlater⟩ := ih hcalls
      have hcons : allLanded (call :: calls) (result :: rest) =
          landed call.bundle result ++ allLanded calls rest := rfl
      rw [hcons, flush_append]
      exact ⟨rfl, hfirst.append hlater⟩

/-- Over any run of bundles, with any executors and on any states, the store keeps every module and
gains all the modules of the bundles that committed and no others; their ids are distinct and were
free. -/
theorem modules_append_only (calls : List RuntimeCall) {store store' : InMemoryModuleStore}
    {results : List BundleResult} (h : runBundles calls store = some (store', results)) :
    (∀ id module, store'.get id = some module ↔
      store.get id = some module ∨ (id, module) ∈ allLanded calls results) ∧
    Deployable store (allLanded calls results) := by
  obtain ⟨rfl, hdeployable⟩ := runBundles_store h
  exact ⟨fun id module => hdeployable.get_flush, hdeployable⟩

/-- Three bundles: the second deploys the coin module again, with other bytes. -/
def deployCalls : List RuntimeCall :=
  [deployAndCall, ⟨[.deployModule CANONICAL_COIN_ADDRESS coinTransfer.module.name [2]]⟩,
    ⟨[.deployModule CANONICAL_COIN_ADDRESS coinTransfer.function [3]]⟩].map fun bundle =>
      { exec := mockMoveExecutor, view := smallView, state := smallState, bundle }

/-- The second bundle reverts, and the coin module stays as it is. -/
theorem modules_append_only_deployCalls :
    ∃ store' results, runBundles deployCalls {} = some (store', results) ∧
      results.map BundleResult.outcome = [.committed, .reverted 0, .committed] ∧
      store'.get coinTransfer.module = some ⟨[1]⟩ := by
  have hrun : ∃ r, runBundles deployCalls {} = some r ∧
      r.2.map BundleResult.outcome = [.committed, .reverted 0, .committed] ∧
      (coinTransfer.module, (⟨[1]⟩ : CompiledModule)) ∈ allLanded deployCalls r.2 :=
    ⟨_, rfl, rfl, by decide⟩
  obtain ⟨⟨store', results⟩, h, houtcomes, hlanded⟩ := hrun
  exact ⟨store', results, h, houtcomes,
    ((modules_append_only deployCalls h).1 _ _).2 (.inr hlanded)⟩

end SuwappuDb
