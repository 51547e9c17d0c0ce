import SuwappuDb.BundleProof
import SuwappuDb.StateTreeProof

/-!
# Transfer bundles are all or nothing

What `BundleExecutor.execute` is for: the steps are submitted one after another, and either all of
them stand or none does.

* `submitEach` — submitting intents up to the first that is rejected.
* `executeFrom_spec` — the step loop does that. The invariant is a frame: after any prefix of the
  steps, the slots outside the snapshot are those from before the bundle, so writing the snapshot
  back determines every slot (`execute_spec`).
* `execute_all_or_nothing` — so the balances after a bundle are those of the submission, or those
  from before.
* `execute_reverted_iff` — balances only. The snapshot gives an address that had no entry one with
  balance zero, and the tree tells the two apart.
-/

namespace SuwappuDb

/-! ## Submitting until one is rejected -/

/-- Submit an intent and go on, unless it is rejected. -/
def submitThen (s : State) (intent : Intent)
    (rest : State → Option (Except (Nat × RejectReason) State)) :
    Option (Except (Nat × RejectReason) State) := do
  let (s', verdict) ← Bridge.submit s intent
  match verdict with
  | .ok () => (rest s').map (Except.mapError fun p => (p.1 + 1, p.2))
  | .error reason => some (.error (0, reason))

/-- Submit intents one after another, up to the first that is rejected: the state they leave, or the
index of the rejected one and the reason. -/
def submitEach : List Intent → State → Option (Except (Nat × RejectReason) State)
  | [], s => some (.ok s)
  | intent :: rest, s => submitThen s intent (submitEach rest)

/-- Submit the steps of a bundle; the first that is no transfer is rejected. -/
def submitSteps : List BundleStep → State → Option (Except (Nat × RejectReason) State)
  | [], s => some (.ok s)
  | step :: rest, s =>
      match stepToIntent step with
      | none => some (.error (0, .moveRuntimeRequired))
      | some intent => submitThen s intent (submitSteps rest)

/-- The transfers among a bundle's steps. -/
def Bundle.intents (bundle : Bundle) : List Intent := bundle.steps.filterMap stepToIntent

/-- Every step is a transfer. -/
def Bundle.Transfers (bundle : Bundle) : Prop :=
  ∀ step ∈ bundle.steps, (stepToIntent step).isSome

instance (bundle : Bundle) : Decidable bundle.Transfers :=
  inferInstanceAs (Decidable (∀ step ∈ bundle.steps, (stepToIntent step).isSome))

/-- A submission that goes through starts with one that does. -/
theorem submitThen_eq_ok {s t : State} {intent : Intent}
    {rest : State → Option (Except (Nat × RejectReason) State)}
    (h : submitThen s intent rest = some (.ok t)) :
    ∃ s', Bridge.submit s intent = some (s', .ok ()) ∧ rest s' = some (.ok t) := by
  obtain ⟨⟨s', verdict⟩, hsubmit, heq⟩ := Option.bind_eq_some_iff.1 h
  cases verdict with
  | error reason => cases heq
  | ok u =>
      obtain ⟨result, hrest, hresult⟩ := Option.map_eq_some_iff.1 heq
      cases result with
      | error p => cases hresult
      | ok t' =>
          cases hresult
          exact ⟨s', hsubmit, hrest⟩

theorem submitSteps_eq_submitEach {steps : List BundleStep}
    (h : ∀ step ∈ steps, (stepToIntent step).isSome) (s : State) :
    submitSteps steps s = submitEach (steps.filterMap stepToIntent) s := by
  induction steps generalizing s with
  | nil => rfl
  | cons step rest ih =>
      obtain ⟨hstep, hrest⟩ := List.forall_mem_cons.1 h
      obtain ⟨intent, hintent⟩ := Option.isSome_iff_exists.1 hstep
      rw [submitSteps, List.filterMap_cons_some hintent, submitEach, ← funext (ih hrest)]
      simp only [hintent]

/-! ## The step loop -/

section Loop

variable (order : IterOrder) (snap : OrdMap Address Balance) {recorded : List Address}

/-- The step loop submits the steps one after another, and writes the snapshot back when one is
rejected. What it has changed until then lies among the recorded addresses. -/
theorem executeFrom_spec {steps : List BundleStep}
    (hrecorded : ∀ step ∈ steps, step.recorded ⊆ recorded) (idx : Nat) (s : State)
    (outcomes : List TxOutcome) :
    (∃ t, submitSteps steps s = some (.ok t) ∧
      BundleExecutor.executeFrom order snap idx steps s outcomes =
        some (t, ⟨outcomes ++ List.replicate steps.length .committed, .committed⟩)) ∨
    ∃ k reason t, submitSteps steps s = some (.error (k, reason)) ∧
      BundleExecutor.executeFrom order snap idx steps s outcomes =
        some (restoreSnapshot order t snap,
          ⟨outcomes ++ (List.replicate k .committed ++ [.rejected reason]), .reverted (idx + k)⟩) ∧
      ∀ a ∉ recorded, t.store.slots.get? a = s.store.slots.get? a := by
  induction steps generalizing idx s outcomes with
  | nil => exact .inl ⟨s, rfl, by simp [BundleExecutor.executeFrom]⟩
  | cons step rest ih =>
      obtain ⟨hstep, hrest⟩ := List.forall_mem_cons.1 hrecorded
      rw [BundleExecutor.executeFrom, submitSteps]
      cases hintent : stepToIntent step with
      | none => exact .inr ⟨0, _, s, rfl, rfl, fun _ _ => rfl⟩
      | some intent =>
          obtain ⟨src, dst, amount, rfl, hsides⟩ := stepToIntent_cases hintent
          obtain ⟨t, verdict, hsubmit⟩ := Bridge.submit_total s src dst amount
          have hframe : ∀ a ∉ recorded, t.store.slots.get? a = s.store.slots.get? a := by
            intro a ha
            have hnot : a ∉ step.recorded := fun hmem => ha (hstep hmem)
            rw [hsides, List.mem_cons, List.mem_singleton, not_or] at hnot
            exact submit_slots_of_ne hsubmit hnot.1 hnot.2
          simp only [submitThen, hsubmit, Option.bind_eq_bind, Option.bind_some]
          cases verdict with
          | error reason => exact .inr ⟨0, reason, t, rfl, rfl, hframe⟩
          | ok u =>
              rcases ih hrest (idx + 1) t (outcomes ++ [.committed]) with
                ⟨t', heach, hrun⟩ | ⟨k, reason, t', heach, hrun, hframe'⟩
              · refine .inl ⟨t', by rw [heach]; rfl, ?_⟩
                rw [hrun, List.append_assoc, List.length_cons, List.replicate_succ]
                rfl
              · refine .inr ⟨k + 1, reason, t', by rw [heach]; rfl, ?_, fun a ha => ?_⟩
                · rw [hrun, List.append_assoc, List.replicate_succ, Nat.add_right_comm,
                    Nat.add_assoc]
                  rfl
                · rw [hframe' a ha, hframe a ha]

end Loop

/-- What `execute` returns, from the submission of its steps. -/
theorem execute_spec (order : IterOrder) (s : State) (bundle : Bundle) :
    (∃ t, submitSteps bundle.steps s = some (.ok t) ∧ BundleExecutor.execute order s bundle =
      some (t, ⟨List.replicate bundle.steps.length .committed, .committed⟩)) ∨
    ∃ k reason s', submitSteps bundle.steps s = some (.error (k, reason)) ∧
      BundleExecutor.execute order s bundle =
        some (s', ⟨List.replicate k .committed ++ [.rejected reason], .reverted k⟩) ∧
      ∀ a, s'.store.slots.get? a =
        if a ∈ bundle.recorded then some (BalanceSlot.new (s.balanceOf a))
        else s.store.slots.get? a := by
  unfold BundleExecutor.execute
  split_ifs with hempty
  · rw [List.isEmpty_iff.1 hempty]
    exact .inl ⟨s, rfl, rfl⟩
  · rcases executeFrom_spec order (collectSnapshot s bundle)
      (fun step hstep a ha => List.mem_flatMap.2 ⟨step, hstep, ha⟩) 0 s [] with
      hcommit | ⟨k, reason, t, heach, hrun, hframe⟩
    · exact .inl hcommit
    · refine .inr ⟨k, reason, _, heach, by rw [hrun, Nat.zero_add]; rfl, fun a => ?_⟩
      rw [get?_slots_restoreSnapshot]
      split_ifs with ha
      · rfl
      · exact hframe a ha

theorem balanceOf_restored {s s' : State} {recorded : List Address}
    (hslots : ∀ a, s'.store.slots.get? a =
      if a ∈ recorded then some (BalanceSlot.new (s.balanceOf a)) else s.store.slots.get? a)
    (a : Address) : s'.balanceOf a = s.balanceOf a := by
  rw [State.balanceOf, InMemoryBalanceStore.get, hslots]
  split_ifs <;> rfl

/-- A bundle of transfers behaves like the sequence of its transfers, or like nothing. -/
theorem execute_all_or_nothing (order : IterOrder) (s : State) (bundle : Bundle)
    (htransfers : bundle.Transfers) :
    ∃ s' result, BundleExecutor.execute order s bundle = some (s', result) ∧
      (result.outcome = .committed ↔ ∃ t, submitEach bundle.intents s = some (.ok t)) ∧
      (∀ t, submitEach bundle.intents s = some (.ok t) →
        ∀ a, s'.balanceOf a = t.balanceOf a) ∧
      (result.outcome ≠ .committed → ∃ k reason,
        submitEach bundle.intents s = some (.error (k, reason)) ∧
        result = ⟨List.replicate k .committed ++ [.rejected reason], .reverted k⟩ ∧
        ∀ a, s'.balanceOf a = s.balanceOf a) := by
  have heach : submitSteps bundle.steps s = submitEach bundle.intents s :=
    submitSteps_eq_submitEach htransfers s
  rcases execute_spec order s bundle with ⟨t, hok, hrun⟩ | ⟨k, reason, s', herror, hrun, hslots⟩
  · rw [heach] at hok
    refine ⟨t, _, hrun, ⟨fun _ => ⟨t, hok⟩, fun _ => rfl⟩, fun t' hok' a => ?_, fun h => ?_⟩
    · obtain rfl : t = t' := by simpa [hok] using hok'
      rfl
    · exact absurd rfl h
  · rw [heach] at herror
    refine ⟨s', _, hrun, ⟨fun h => ?_, fun ⟨t, hok⟩ => ?_⟩, fun t hok => ?_, fun _ => ?_⟩
    · cases h
    · simp [herror] at hok
    · simp [herror] at hok
    · exact ⟨k, reason, herror, rfl, balanceOf_restored hslots⟩

/-- Address 1 pays 40 to address 2, which cannot pay 50 on. -/
def splitBundle : Bundle :=
  ⟨[.evm ⟨smallAddress 1, smallAddress 2, 40⟩, .move ⟨smallAddress 2, smallAddress 3, 50⟩]⟩

theorem execute_splitBundle :
    splitBundle.Transfers ∧
    ∃ s' result, BundleExecutor.execute default smallState splitBundle = some (s', result) ∧
      result = ⟨[.committed, .rejected .insufficientBalance], .reverted 1⟩ ∧
      ∀ a, s'.balanceOf a = smallState.balanceOf a := by
  have htransfers : splitBundle.Transfers := by decide
  have hfails : submitEach splitBundle.intents smallState =
      some (.error (1, .insufficientBalance)) := rfl
  obtain ⟨s', result, hrun, hcommit, -, hrevert⟩ :=
    execute_all_or_nothing default smallState splitBundle htransfers
  have hnot : result.outcome ≠ .committed := by
    rw [Ne, hcommit, hfails]
    rintro ⟨t, ht⟩
    cases ht
  obtain ⟨k, reason, hfails', hresult, hbalance⟩ := hrevert hnot
  cases hfails.symm.trans hfails'
  exact ⟨htransfers, s', result, hrun, hresult, hbalance⟩

/-- A reverted bundle leaves the entries, and with them the root, as they were exactly when every
address its steps name had an entry. -/
theorem execute_reverted_iff (blake3 : Blake3) (order treeOrder treeOrder' : IterOrder)
    (s s' : State) (bundle : Bundle) (result : BundleResult) (k : Nat)
    (hrun : BundleExecutor.execute order s bundle = some (s', result))
    (hreverted : result.outcome = .reverted k) :
    ((∀ a, s'.HasEntry a ↔ s.HasEntry a) ∧
      (StateTree.fromState treeOrder s').root blake3 =
        (StateTree.fromState treeOrder' s).root blake3) ↔
    ∀ a ∈ bundle.recorded, s.HasEntry a := by
  obtain ⟨t, -, hcommit⟩ | ⟨j, reason, t, -, hrevert, hslots⟩ := execute_spec order s bundle
  · cases hrun.symm.trans hcommit
    cases hreverted
  cases hrun.symm.trans hrevert
  constructor
  · intro ⟨hentries, _⟩ a ha
    rw [← hentries a, State.HasEntry, hslots, if_pos ha]
    rfl
  · intro hrecorded
    -- A recorded address gets its balance back in a slot of its own.
    have hsame : ∀ a, (s'.store.slots.get? a).map BalanceSlot.canonical =
        (s.store.slots.get? a).map BalanceSlot.canonical := by
      intro a
      rw [hslots]
      split_ifs with ha
      · obtain ⟨slot, hslot⟩ := Option.isSome_iff_exists.1 (hrecorded a ha)
        rw [State.balanceOf, InMemoryBalanceStore.get, hslot]
        rfl
      · rfl
    refine ⟨fun a => ?_, StateTree.root_fromState_congr blake3 treeOrder treeOrder' hsame⟩
    have hsome := congrArg Option.isSome (hsame a)
    rw [Option.isSome_map, Option.isSome_map] at hsome
    rw [State.HasEntry, State.HasEntry, hsome]

/-- The zero address cannot pay 200 to itself; it has an entry already. -/
theorem execute_reverted_known :
    (∀ a, (zeroState.apply (.setBalance zeroAddress 100)).HasEntry a ↔ zeroState.HasEntry a) ∧
    (StateTree.fromState default (zeroState.apply (.setBalance zeroAddress 100))).root
      (tableHash zeroTable) = (StateTree.fromState default zeroState).root (tableHash zeroTable) :=
  (execute_reverted_iff (tableHash zeroTable) default default default zeroState _
    ⟨[.evm ⟨zeroAddress, zeroAddress, 200⟩]⟩
    ⟨[.rejected .insufficientBalance], .reverted 0⟩ 0 rfl rfl).2 (by decide)

/-- Address 1, which holds 100, cannot pay 200 to address 2, and the revert gives address 2 an
entry. -/
theorem execute_reverted_adds_entry :
    (BundleExecutor.execute default smallState
      ⟨[.evm ⟨smallAddress 1, smallAddress 2, 200⟩]⟩).map (fun r =>
        (r.2.outcome, decide (r.1.HasEntry (smallAddress 2)))) = some (.reverted 0, true) ∧
    ¬ smallState.HasEntry (smallAddress 2) := by
  decide +kernel

end SuwappuDb
