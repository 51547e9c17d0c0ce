import SuwappuDb.PassProof

/-!
# The re-execution loop

From one pass to the whole loop of the block executor.

* `validateFrom_spec` — the validation pass keeps exactly the transactions that are valid in the
  store it leaves. Since stale writes are cleared as it goes, a reader of a cleared version is
  stale itself, and no kept transaction has a read whose value is gone.
* `LoopInv` — between passes: pending transactions have no cells; every other one has a run in
  the store whose reads are what it would read now. Validity names only the writer of a value,
  but while the reader is kept the writer has not been run again.
* `iterate_spec` — an iteration never panics, keeps the invariant, and what was at or below the
  lowest pending transaction is not pending afterwards.
* `Settled` — the invariant with nothing pending. The loop ends in such a store, by its own end
  or by the collapse, and so does a serial run.
-/

namespace SuwappuDb

open Prog

/-! ## Validity of a recorded run -/

theorem mem_readsOf {h : List MvEvent} {a : Address} {src : ReadSource} :
    ⟨a, src⟩ ∈ readsOf h ↔ ∃ i slot, (⟨.read a i, (slot, src)⟩ : MvEvent) ∈ h := by
  constructor
  · intro hmem
    obtain ⟨⟨op, r⟩, he, heq⟩ := List.mem_filterMap.1 hmem
    cases op with
    | read b i =>
        obtain ⟨rfl, rfl⟩ := ReadEntry.mk.inj (Option.some.inj heq)
        exact ⟨i, r.1, he⟩
    | write b slot i => cases heq
    | clearWrites i => cases heq
  · rintro ⟨i, slot, he⟩
    exact List.mem_filterMap.2 ⟨_, he, rfl⟩

theorem isValid_congr {t : Txn} {i : TxnIdx} {mv mv' : MvStore} (hidx : t.idx = i)
    (h : MvStore.AgreeBelow mv mv' i) : Validator.isValid t mv = Validator.isValid t mv' := by
  subst hidx
  unfold Validator.isValid
  congr 1
  funext e
  rw [h.highestWriterBelow_eq]

/-- A consistent version is there. -/
theorem slotAt_of_stillConsistent {mv : MvStore} {a : Address} {i k : TxnIdx}
    (h : Validator.stillConsistent (.version k) (mv.highestWriterBelow a i) = true) :
    ∃ slot, mv.slotAt a k = some slot := by
  rw [MvStore.highestWriterBelow_eq] at h
  cases hlast : (mv.row a).lastBelow i with
  | none => simp [hlast, Validator.stillConsistent] at h
  | some p =>
      have hk : k = p.1 := by simpa [hlast, Validator.stillConsistent] using h
      obtain ⟨-, hget, -⟩ := OrdMap.lastBelow_eq_some.1 hlast
      exact ⟨p.2, hk ▸ hget⟩

namespace Trace

variable {s : State} {p : MvProg} {i : TxnIdx} {mv mv' : MvStore} {h : List MvEvent} {t : Txn}

theorem idx_eq (ht : Trace s p i mv h (.ret (some t))) : t.idx = i := by
  obtain ⟨t', heq, hidx, -⟩ := ht.ret_inv
  exact Option.some.inj heq ▸ hidx

theorem readSet_eq (ht : Trace s p i mv h (.ret (some t))) : t.readSet = readsOf h := by
  obtain ⟨t', heq, -, hreads⟩ := ht.ret_inv
  exact Option.some.inj heq ▸ hreads

/-- What would read the same now is valid. -/
theorem isValid_of_agrees (ht : Trace s p i mv h (.ret (some t)))
    (ha : Agrees (answers s mv') h) : Validator.isValid t mv' = true := by
  rw [Validator.isValid, List.all_eq_true, ht.readSet_eq, ht.idx_eq]
  rintro ⟨a, src⟩ hmem
  obtain ⟨j, slot, he⟩ := mem_readsOf.1 hmem
  obtain rfl : j = i := ht.own _ he
  have hr : mv'.read s a j = (slot, src) := ha _ he
  simpa [hr] using Validator.stillConsistent_read mv' s a j

theorem stillConsistent_of_isValid (ht : Trace s p i mv h (.ret (some t)))
    (hv : Validator.isValid t mv' = true) {a : Address} {j : TxnIdx} {slot : BalanceSlot}
    {src : ReadSource} (he : (⟨.read a j, (slot, src)⟩ : MvEvent) ∈ h) :
    Validator.stillConsistent src (mv'.highestWriterBelow a i) = true := by
  rw [Validator.isValid, List.all_eq_true, ht.readSet_eq, ht.idx_eq] at hv
  exact hv ⟨a, src⟩ (mem_readsOf.2 ⟨j, slot, he⟩)

/-- What is valid would read the same now. -/
theorem agrees_of_isValid (ht : Trace s p i mv h (.ret (some t)))
    (hv : Validator.isValid t mv = true) : Agrees (answers s mv) h := by
  rintro ⟨op, r⟩ he
  cases op with
  | read a j =>
      obtain ⟨slot, src⟩ := r
      obtain rfl : j = i := ht.own _ he
      have hsourced := ht.sourced _ he
      refine Validator.read_of_stillConsistent (ht.stillConsistent_of_isValid hv he) ?_ ?_
      · rintro k rfl
        exact hsourced
      · rintro rfl
        exact hsourced
  | write a slot j => rfl
  | clearWrites j => rfl

/-- A trace that is valid after some transactions were cleared is a trace still: its sources are
not among them. -/
theorem of_cleared (ht : Trace s p i mv h (.ret (some t))) {gone : List TxnIdx}
    (hslot : ∀ a j, mv'.slotAt a j = if j ∈ gone then none else mv.slotAt a j) (hi : i ∉ gone)
    (hv : Validator.isValid t mv' = true) : Trace s p i mv' h (.ret (some t)) := by
  refine { ht with cells := fun a => ?_, sourced := ?_ }
  · rw [hslot, if_neg hi, ht.cells]
  · rintro ⟨op, r⟩ he
    cases op with
    | read a j =>
        obtain ⟨slot, src⟩ := r
        have hsourced := ht.sourced _ he
        cases src with
        | version k =>
            obtain ⟨slot', hk⟩ := slotAt_of_stillConsistent (ht.stillConsistent_of_isValid hv he)
            have hgone : k ∉ gone := fun hmem => by simp [hslot, hmem] at hk
            change mv'.slotAt a k = some slot
            rw [hslot, if_neg hgone]
            exact hsourced
        | snapshot => exact hsourced
    | write a slot j => trivial
    | clearWrites j => trivial

end Trace

/-! ## The validation pass -/

/-- What the validation of the transactions from `idx` on found stale, and the store it left. -/
structure Validated (idx : Nat) (txns : List Txn) (mv mv' : MvStore) (stale : List Nat) :
    Prop where
  sorted : stale.Pairwise (· < ·)
  bound : ∀ j ∈ stale, idx ≤ j ∧ j < idx + txns.length
  slotAt_eq : ∀ a j, mv'.slotAt a j = if j ∈ stale then none else mv.slotAt a j
  mem_iff : ∀ (k : Nat) (t : Txn), txns[k]? = some t →
    (idx + k ∈ stale ↔ Validator.isValid t mv' = false)

namespace Validated

variable {idx : Nat} {t : Txn} {rest : List Txn} {mv mv' : MvStore} {stale : List Nat}

/-- Clearing from `idx` on does not touch what is below. -/
theorem agreeBelow (h : Validated idx rest mv mv' stale) : MvStore.AgreeBelow mv mv' idx := by
  intro a j hj
  have hnot : j ∉ stale := fun hmem => absurd (h.bound j hmem).1 (not_le_of_gt hj)
  rw [h.slotAt_eq, if_neg hnot]

theorem notMem_of_succ (h : Validated (idx + 1) rest mv mv' stale) : idx ∉ stale := fun hmem =>
  absurd (h.bound idx hmem).1 (Nat.not_succ_le_self idx)

theorem keep (h : Validated (idx + 1) rest mv mv' stale) (hidx : t.idx = idx)
    (hv : Validator.isValid t mv = true) : Validated idx (t :: rest) mv mv' stale := by
  refine ⟨h.sorted, fun j hj => ?_, h.slotAt_eq, fun k t' hk => ?_⟩
  · have := h.bound j hj
    simp only [List.length_cons]
    omega
  · cases k with
    | zero =>
        obtain rfl : t = t' := by simpa using hk
        have hv' := isValid_congr hidx (h.agreeBelow.mono (Nat.le_succ idx))
        simp [h.notMem_of_succ, ← hv', hv]
    | succ k =>
        rw [← h.mem_iff k t' (by simpa using hk), Nat.add_right_comm, Nat.add_assoc]

theorem drop (h : Validated (idx + 1) rest (mv.clearWrites idx) mv' stale) (hidx : t.idx = idx)
    (hv : Validator.isValid t mv = false) : Validated idx (t :: rest) mv mv' (idx :: stale) := by
  refine ⟨?_, fun j hj => ?_, fun a j => ?_, fun k t' hk => ?_⟩
  · exact List.pairwise_cons.2 ⟨fun j hj => (h.bound j hj).1, h.sorted⟩
  · simp only [List.length_cons]
    rcases List.mem_cons.1 hj with rfl | hj
    · omega
    · have := h.bound j hj
      omega
  · rw [h.slotAt_eq, MvStore.slotAt_clearWrites]
    by_cases hj : j = idx <;> simp [hj]
  · cases k with
    | zero =>
        obtain rfl : t = t' := by simpa using hk
        have hclear : MvStore.AgreeBelow mv (mv.clearWrites idx) idx := fun a j hj => by
          rw [MvStore.slotAt_clearWrites, if_neg hj.ne]
        have hv' := (isValid_congr hidx hclear).trans
          (isValid_congr hidx (h.agreeBelow.mono (Nat.le_succ idx)))
        simp [← hv', hv]
    | succ k =>
        rw [← h.mem_iff k t' (by simpa using hk), Nat.add_right_comm, Nat.add_assoc]
        simp

end Validated

theorem validateFrom_spec (idx : Nat) (txns : List Txn) (v : Validation)
    (hidx : ∀ (k : Nat) (t : Txn), txns[k]? = some t → t.idx = idx + k) :
    ∃ stale, (validateFrom idx txns v).nextPending = v.nextPending ++ stale ∧
      Validated idx txns v.mv (validateFrom idx txns v).mv stale := by
  induction txns generalizing idx v with
  | nil =>
      exact ⟨[], by simp [validateFrom], .nil, by simp, by simp [validateFrom], by simp⟩
  | cons t rest ih =>
      have hhead : t.idx = idx := hidx 0 t rfl
      have hrest : ∀ (k : Nat) (t : Txn), rest[k]? = some t → t.idx = idx + 1 + k := by
        intro k t' hk
        rw [hidx (k + 1) t' hk, Nat.add_right_comm, Nat.add_assoc]
      rw [validateFrom]
      split_ifs with hvalid
      · obtain ⟨stale, hpending, hval⟩ := ih (idx + 1) v hrest
        exact ⟨stale, hpending, hval.keep hhead hvalid⟩
      · generalize hcleared : Validation.mk (v.mv.clearWrites idx) _ _ _ = v'
        obtain ⟨stale, hpending, hval⟩ := ih (idx + 1) v' hrest
        subst hcleared
        refine ⟨idx :: stale, by simpa using hpending, hval.drop hhead (by simpa using hvalid)⟩

/-! ## The loop invariant -/

section Block

variable (s : State) (block : List Intent) (registry : ContractRegistry)

/-- A run of transaction `i` is recorded as `t`, with the history `h`. -/
def RecordedAs (env : RunEnv) (mv : MvStore) (i : TxnIdx) (t : Txn) (h : List MvEvent) : Prop :=
  Trace s (executeAt s block registry env i) i mv h (.ret (some t))

/-- Between passes. -/
structure LoopInv (st : Loop) : Prop where
  length : st.txns.length = block.length
  sorted : st.pending.Pairwise (· < ·)
  bound : ∀ i ∈ st.pending, i < block.length
  cleared : ∀ a, ∀ i ∈ st.pending, st.mv.slotAt a i = none
  outside : ∀ a i, block.length ≤ i → st.mv.slotAt a i = none
  kept : ∀ (i : Nat) (t : Txn), st.txns[i]? = some t → i ∉ st.pending →
    ∃ env h, RecordedAs s block registry env st.mv i t h ∧ Agrees (answers s st.mv) h

/-- Nothing is pending: every transaction has a run in the store, that of the environment
`env i`, whose reads are what it would read now. -/
structure Settled (env : TxnIdx → RunEnv) (mv : MvStore) (txns : List Txn) : Prop where
  length : txns.length = block.length
  outside : ∀ a i, block.length ≤ i → mv.slotAt a i = none
  runs : ∀ (i : Nat) (t : Txn), txns[i]? = some t →
    ∃ h, RecordedAs s block registry (env i) mv i t h ∧ Agrees (answers s mv) h

theorem loopInv_start : LoopInv s block registry (Loop.start block) where
  length := by simp [Loop.start]
  sorted := List.pairwise_lt_range
  bound i hi := List.mem_range.1 hi
  cleared _ _ _ := rfl
  outside _ _ _ := rfl
  kept i t hi hnot := by
    have hlt : i < block.length := by
      simpa [Loop.start] using (List.getElem?_eq_some_iff.1 hi).1
    exact absurd (List.mem_range.2 hlt) hnot

/-- After the parallel pass and before validation: every transaction has a run in the store, and
up to the lowest pending one the runs read what they would read now. -/
structure Ran (st : Loop) (txns : List Txn) (mv : MvStore) : Prop where
  length : txns.length = block.length
  outside : ∀ a i, block.length ≤ i → mv.slotAt a i = none
  runs : ∀ (i : Nat) (t : Txn), txns[i]? = some t → ∃ env h,
    RecordedAs s block registry env mv i t h ∧
      ((∀ j ∈ st.pending, i ≤ j) → Agrees (answers s mv) h)

variable {s block registry}

/-- An entry of the record table after new records are put in: a new one, or an old one whose
place got none. -/
theorem getElem?_foldl_set {α : Type} (ps : List (Nat × α)) (l : List α) {i : Nat} {t : α}
    (h : (ps.foldl (fun l p => l.set p.1 p.2) l)[i]? = some t) :
    (∃ pos : Nat, ps[pos]? = some (i, t)) ∨ (i ∉ ps.map Prod.fst ∧ l[i]? = some t) := by
  induction ps generalizing l with
  | nil => exact .inr ⟨by simp, h⟩
  | cons p ps ih =>
      rcases ih (l.set p.1 p.2) h with ⟨pos, hpos⟩ | ⟨hnot, hset⟩
      · exact .inl ⟨pos + 1, hpos⟩
      · by_cases hp : p.1 = i
        · have hlt := (List.getElem?_eq_some_iff.1 hset).1
          have ht : p.2 = t := by
            simpa [hp, List.getElem?_set, List.length_set] using
              ((List.getElem?_eq_some_iff.1 hset).2)
          exact .inl ⟨0, by simp [← hp, ← ht]⟩
        · rw [List.getElem?_set_ne hp] at hset
          exact .inr ⟨List.not_mem_cons_of_ne_of_not_mem (Ne.symm hp) hnot, hset⟩

theorem length_foldl_set {α : Type} (ps : List (Nat × α)) (l : List α) :
    (ps.foldl (fun l p => l.set p.1 p.2) l).length = l.length := by
  induction ps generalizing l with
  | nil => rfl
  | cons p ps ih => rw [List.foldl_cons, ih, List.length_set]

theorem ran_of_passDone {st : Loop} (hinv : LoopInv s block registry st) {sched : PassSchedule}
    {runs : List Txn} {mv : MvStore}
    (hdone : PassDone s st.pending (fun i => executeAt s block registry (sched.env i) i)
      st.mv runs mv) :
    Ran s block registry st
      ((st.pending.zip runs).foldl (fun txns p => txns.set p.1 p.2) st.txns) mv where
  length := (length_foldl_set _ _).trans hinv.length
  outside a i hi := by
    rw [hdone.frame a i fun hmem => absurd (hinv.bound i hmem) (not_lt_of_ge hi)]
    exact hinv.outside a i hi
  runs i t hi := by
    rcases getElem?_foldl_set _ _ hi with ⟨pos, hpos⟩ | ⟨hnot, hold⟩
    · obtain ⟨hpending, hrun⟩ := List.getElem?_zip_eq_some.1 hpos
      obtain ⟨h, ht⟩ := hdone.threads pos i t hpending hrun
      exact ⟨_, h, ht.toTrace, ht.lowest⟩
    · rw [List.map_fst_zip (hdone.length.ge)] at hnot
      obtain ⟨env, h, ht, ha⟩ := hinv.kept i t hold hnot
      refine ⟨env, h, ht.mono (fun a => hdone.frame a i hnot) hdone.grows, fun hlow => ?_⟩
      -- Nothing below the lowest pending transaction was run.
      have hbelow : MvStore.AgreeBelow st.mv mv i := fun a j hj =>
        (hdone.frame a j fun hmem => absurd (hlow j hmem) (not_le_of_gt hj)).symm
      exact agrees_congr hbelow ht.own ha

/-- Validation after a pass restores the invariant, and nothing up to the lowest pending
transaction is stale. -/
theorem Ran.validated {st st' : Loop} {txns : List Txn} {mv : MvStore}
    (hran : Ran s block registry st txns mv) (hval : Validated 0 txns mv st'.mv st'.pending)
    (htxns : st'.txns = txns) :
    LoopInv s block registry st' ∧
      ∀ i < block.length, (∀ j ∈ st.pending, i ≤ j) → i ∉ st'.pending := by
  subst htxns
  have hmem : ∀ (i : Nat) (t : Txn), st'.txns[i]? = some t →
      (i ∈ st'.pending ↔ Validator.isValid t st'.mv = false) := fun i t hi => by
    simpa using hval.mem_iff i t hi
  constructor
  · refine
      { length := hran.length
        sorted := hval.sorted
        bound := fun i hi => by simpa [hran.length] using (hval.bound i hi).2
        cleared := fun a i hi => by rw [hval.slotAt_eq, if_pos hi]
        outside := fun a i hi => by
          rw [hval.slotAt_eq, hran.outside a i hi, ite_self]
        kept := fun i t hi hnot => ?_ }
    obtain ⟨env, h, ht, -⟩ := hran.runs i t hi
    have hv : Validator.isValid t st'.mv = true := by
      simpa [hmem i t hi] using hnot
    have ht' := ht.of_cleared hval.slotAt_eq hnot hv
    exact ⟨env, h, ht', ht'.agrees_of_isValid hv⟩
  · intro i
    induction i using Nat.strong_induction_on with
    | _ i ih =>
        intro hi hlow hstale
        have hget := List.getElem?_eq_getElem (hran.length.symm ▸ hi)
        obtain ⟨env, h, ht, ha⟩ := hran.runs i _ hget
        -- Nothing below was cleared, so what `i` read is what it would read now.
        have hbelow : MvStore.AgreeBelow mv st'.mv i := fun a j hj => by
          rw [hval.slotAt_eq, if_neg (ih j hj (hj.trans hi) fun k hk => hj.le.trans (hlow k hk))]
        have hv := ht.isValid_of_agrees (agrees_congr hbelow ht.own (ha hlow))
        simp [(hmem i _ hget).1 hstale] at hv

/-! ## The end of the loop -/

theorem LoopInv.settled {st : Loop} (hinv : LoopInv s block registry st) (hnil : st.pending = []) :
    ∃ env, Settled s block registry env st.mv st.txns := by
  have hkept : ∀ i, ∃ env, ∀ t, st.txns[i]? = some t →
      ∃ h, RecordedAs s block registry env st.mv i t h ∧ Agrees (answers s st.mv) h := by
    intro i
    cases hi : st.txns[i]? with
    | none => exact ⟨default, by simp⟩
    | some t =>
        obtain ⟨env, h, ht⟩ := hinv.kept i t hi (by simp [hnil])
        exact ⟨env, fun t' ht' => Option.some.inj ht' ▸ ⟨h, ht⟩⟩
  choose env henv using hkept
  exact ⟨env, hinv.length, hinv.outside, henv⟩

/-- A serial run from `k` on, over a store settled below `k`, settles. -/
theorem runSequential_settled_from (env : TxnIdx → RunEnv) (m k : Nat) (mv : MvStore)
    (txns : List Txn) (hk : k + m = block.length) (hlength : txns.length = block.length)
    (hempty : ∀ a i, k ≤ i → mv.slotAt a i = none)
    (hbelow : ∀ i < k, ∀ t, txns[i]? = some t →
      ∃ h, RecordedAs s block registry (env i) mv i t h ∧ Agrees (answers s mv) h) :
    ∃ mv' txns', runSequential s block registry env (List.range' k m) mv txns = some (mv', txns') ∧
      Settled s block registry env mv' txns' := by
  induction m generalizing k mv txns with
  | zero =>
      refine ⟨mv, txns, rfl, hlength, fun a i hi => hempty a i (by omega), fun i t hi => ?_⟩
      have hlt := (List.getElem?_eq_some_iff.1 hi).1
      exact hbelow i (by omega) t hi
  | succ m ih =>
      obtain ⟨t, mv', h, hrun, ht, ha, hext⟩ := run_spec s registry (env k)
        (show k < block.length by omega) fun a => hempty a k le_rfl
      have hempty' : ∀ a i, k + 1 ≤ i → mv'.slotAt a i = none := fun a i hi => by
        rw [hext.frame a i (Nat.ne_of_gt hi), hempty a i (Nat.le_of_lt hi)]
      have hbelow' : ∀ i < k + 1, ∀ t', (txns.set k t)[i]? = some t' →
          ∃ h, RecordedAs s block registry (env i) mv' i t' h ∧ Agrees (answers s mv') h := by
        intro i hi t' ht'
        rcases Nat.lt_succ_iff_lt_or_eq.1 hi with hlt | rfl
        · rw [List.getElem?_set_ne hlt.ne'] at ht'
          obtain ⟨h', hrec, ha'⟩ := hbelow i hlt t' ht'
          exact ⟨h', hrec.mono (fun a => hext.frame a i hlt.ne) hext.grows,
            agrees_congr (hext.agreeBelow hlt.le) hrec.own ha'⟩
        · have hlt : i < txns.length := by omega
          obtain rfl : t = t' := by simpa [hlt] using ht'
          exact ⟨h, ht, ha⟩
      obtain ⟨mv₁, txns₁, hseq, hsettled⟩ := ih (k + 1) mv' (txns.set k t) (by omega)
        (by simpa using hlength) hempty' hbelow'
      refine ⟨mv₁, txns₁, ?_, hsettled⟩
      rw [List.range'_succ, runSequential, hrun]
      exact hseq

/-- A serial run over an empty store settles, whatever the record table held. -/
theorem runSequential_settled (s : State) (registry : ContractRegistry) (env : TxnIdx → RunEnv)
    {txns : List Txn}
    (hlength : txns.length = block.length) :
    ∃ mv txns', runSequential s block registry env (List.range block.length) {} txns =
      some (mv, txns') ∧ Settled s block registry env mv txns' := by
  rw [List.range_eq_range']
  exact runSequential_settled_from env block.length 0 {} txns (Nat.zero_add _) hlength
    (fun _ _ _ => rfl) fun i hi => absurd hi (Nat.not_lt_zero i)

theorem slotAt_foldl_clearWrites (idxs : List TxnIdx) (mv : MvStore) (a : Address) (i : TxnIdx) :
    (idxs.foldl (fun mv idx => mv.clearWrites idx) mv).slotAt a i =
      if i ∈ idxs then none else mv.slotAt a i := by
  induction idxs generalizing mv with
  | nil => simp
  | cons idx idxs ih =>
      rw [List.foldl_cons, ih, MvStore.slotAt_clearWrites]
      by_cases hi : i = idx <;> simp [hi]

/-- Clearing every transaction of the block empties the store. -/
theorem clearAll_eq {mv : MvStore} (houtside : ∀ a i, block.length ≤ i → mv.slotAt a i = none) :
    clearAll block mv = {} := by
  refine MvStore.ext_slotAt fun a i => ?_
  rw [clearAll, slotAt_foldl_clearWrites, MvStore.slotAt_empty]
  split_ifs with hi
  · rfl
  · exact houtside a i (by simpa using hi)

/-- One iteration: it does not panic; it leaves the loop settled, by the collapse, or it keeps the
invariant, with nothing pending up to what was the lowest pending transaction. -/
theorem iterate_spec {st : Loop} (hinv : LoopInv s block registry st) (sched : PassSchedule)
    (collapse : TxnIdx → RunEnv) :
    ∃ st' broke, iterate s block registry sched collapse st = some (st', broke) ∧
      st'.iterations = st.iterations + 1 ∧
      (broke = true → ∃ env, Settled s block registry env st'.mv st'.txns) ∧
      (broke = false → LoopInv s block registry st' ∧
        ∀ i < block.length, (∀ j ∈ st.pending, i ≤ j) → i ∉ st'.pending) := by
  obtain ⟨runs, mv, hpass, hdone⟩ := executePass_spec s registry sched
    (hinv.sorted.imp Nat.ne_of_lt) hinv.bound fun i hi a => hinv.cleared a i hi
  have hran := ran_of_passDone hinv hdone
  have hidx : ∀ (k : Nat) (t : Txn), ((st.pending.zip runs).foldl
      (fun txns p => txns.set p.1 p.2) st.txns)[k]? = some t → t.idx = 0 + k := by
    intro k t hk
    obtain ⟨_, _, ht, -⟩ := hran.runs k t hk
    rw [ht.idx_eq, Nat.zero_add]
  unfold iterate
  simp only [hpass, Option.bind_eq_bind, Option.bind_some]
  generalize (st.pending.zip runs).foldl (fun txns p => txns.set p.1 p.2) st.txns = txns
    at hran hidx
  obtain ⟨stale, hpending, hval⟩ := validateFrom_spec 0 txns { mv, aborts := st.aborts } hidx
  rw [List.nil_append] at hpending
  generalize validateFrom 0 txns { mv, aborts := st.aborts } = v at hpending hval
  subst hpending
  generalize (if (st.collapsedHotAddr.isNone && decide (0 < st.pending.length)) = true then
    hotAddr v.abortsByAddr st.pending.length else st.collapsedHotAddr) = hot
  split_ifs with hhot
  · have houtside : ∀ a i, block.length ≤ i → v.mv.slotAt a i = none := fun a i hi => by
      rw [hval.slotAt_eq, hran.outside a i hi, ite_self]
    obtain ⟨mv', txns', hseq, hsettled⟩ :=
      runSequential_settled s registry collapse hran.length
    simp only [clearAll_eq houtside, hseq, Option.bind_some]
    exact ⟨_, true, rfl, rfl, fun _ => ⟨collapse, hsettled⟩, by simp⟩
  · exact ⟨_, false, rfl, rfl, by simp, fun _ => hran.validated hval rfl⟩

/-- The loop, with fuel for the transactions that can still be pending. -/
theorem loop_spec (sched : Schedule) (fuel : Nat) {st : Loop} (hinv : LoopInv s block registry st)
    (hlow : ∀ i ∈ st.pending, st.iterations ≤ i) (hle : st.iterations ≤ block.length)
    (hfuel : block.length ≤ fuel + st.iterations) :
    ∃ fin, loop s block registry sched fuel st = some fin ∧ fin.iterations ≤ block.length ∧
      ∃ env, Settled s block registry env fin.mv fin.txns := by
  induction fuel generalizing st with
  | zero =>
      have hnil : st.pending = [] := List.eq_nil_iff_forall_not_mem.2 fun i hi => by
        have hlt : st.iterations < block.length := (hlow i hi).trans_lt (hinv.bound i hi)
        omega
      exact ⟨st, by simp [loop, hnil], hle, hinv.settled hnil⟩
  | succ fuel ih =>
      rw [loop]
      split_ifs with hempty
      · exact ⟨st, rfl, hle, hinv.settled (List.isEmpty_iff.1 hempty)⟩
      · obtain ⟨i, hi⟩ := List.exists_mem_of_ne_nil _ fun hnil => hempty (List.isEmpty_iff.2 hnil)
        have hlt : st.iterations < block.length := (hlow i hi).trans_lt (hinv.bound i hi)
        obtain ⟨st', broke, hiter, hcount, hbroke, hkeep⟩ :=
          iterate_spec hinv (sched.pass st.iterations) sched.collapse
        simp only [hiter, Option.bind_eq_bind, Option.bind_some]
        cases broke with
        | true => exact ⟨st', rfl, by omega, hbroke rfl⟩
        | false =>
            obtain ⟨hinv', hrise⟩ := hkeep rfl
            refine ih hinv' (fun j hj => ?_) (by omega) (by omega)
            -- What is at or below the old `iterations` is at or below every pending transaction.
            by_contra hnot
            rw [hcount] at hnot
            have hj' : j ≤ st.iterations := Nat.lt_succ_iff.1 (Nat.lt_of_not_le hnot)
            exact hrise j (hinv'.bound j hj) (fun k hk => hj'.trans (hlow k hk)) hj

/-- The loop never fails its assertion, ends within as many passes as there are transactions, and
ends settled. -/
theorem runLoop_spec (s : State) (block : List Intent) (registry : ContractRegistry)
    (sched : Schedule) :
    ∃ fin, runLoop s block registry sched = some fin ∧ fin.iterations ≤ block.length ∧
      ∃ env, Settled s block registry env fin.mv fin.txns :=
  loop_spec sched _ (loopInv_start s block registry) (fun _ _ => Nat.zero_le _) (Nat.zero_le _)
    (by omega)

/-- A block of one transaction is settled by the first pass, as that pass runs it. -/
theorem runLoop_single (s : State) (intent : Intent) (registry : ContractRegistry)
    (sched : Schedule) :
    ∃ fin, runLoop s [intent] registry sched = some fin ∧
      Settled s [intent] registry (sched.pass 0).env fin.mv fin.txns := by
  have hbound : ∀ i ∈ [0], i < [intent].length := by simp
  have hcells : ∀ i ∈ [0], ∀ a, ({} : MvStore).slotAt a i = none := fun _ _ _ => rfl
  obtain ⟨runs, mv, hpass, hdone⟩ := executePass_spec s registry (sched.pass 0)
    (List.nodup_singleton 0) hbound hcells
  obtain ⟨t, rfl⟩ := List.length_eq_one_iff.1 hdone.length
  obtain ⟨h, ht⟩ := hdone.threads 0 0 t rfl rfl
  have hagrees : Agrees (answers s mv) h := ht.lowest (by simp)
  have hvalid : Validator.isValid t mv = true := ht.toTrace.isValid_of_agrees hagrees
  have hkeeps : validateFrom 0 [t] { mv, aborts := 0 } = { mv, aborts := 0 } := by
    simp [validateFrom, hvalid]
  have hiter : iterate s [intent] registry (sched.pass 0) sched.collapse (Loop.start [intent]) =
      some ({ mv, txns := [t], pending := [], iterations := 1 }, false) := by
    have hpass' : executePass s [intent] registry (sched.pass 0) (Loop.start [intent]).mv
        (Loop.start [intent]).pending = some ([t], mv) := hpass
    have htxns : ((Loop.start [intent]).pending.zip [t]).foldl (fun txns p => txns.set p.1 p.2)
        (Loop.start [intent]).txns = [t] := rfl
    have haborts : (Loop.start [intent]).aborts = 0 := rfl
    rw [iterate, hpass']
    simp only [Option.bind_eq_bind, Option.bind_some]
    rw [htxns, haborts, hkeeps]
    rfl
  refine ⟨{ mv, txns := [t], pending := [], iterations := 1 }, ?_, rfl, fun a i hi => ?_, ?_⟩
  · change (iterate s [intent] registry (sched.pass 0) sched.collapse
      (Loop.start [intent])).bind _ = _
    rw [hiter]
    rfl
  · have hpos : i ∉ [0] := fun hmem => absurd hi (by simp [List.mem_singleton.1 hmem])
    rw [hdone.frame a i hpos]
    rfl
  · intro i t' hi
    obtain ⟨rfl, rfl⟩ : i = 0 ∧ t = t' := by simpa [List.getElem?_singleton] using hi
    exact ⟨h, ht.toTrace, hagrees⟩

end Block

end SuwappuDb
