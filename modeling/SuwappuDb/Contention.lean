import SuwappuDb.SerialBlock

/-!
# What a block's report says about contention

`crates/suwappudb-bridge/src/occ/block_executor.rs`: the three numbers of a `BlockReport` that
operators watch, `iterations`, `aborts` and `collapsed_to_sequential`.

* `report_consistent` — over every run. A pass settles the lowest pending transaction, so the passes
  abort at most `n - 1`, `n - 2`, … transactions. One pass may stand beside aborts: a collapse ends
  the loop in the pass that finds it.
* `disjoint_single_pass` — a block whose transactions name different addresses is settled by its
  first pass, whatever the threads do.
* `collapsed_contended` — the address of a collapse is named by two transactions of the block, and
  the first transaction is not one of them.

A run reads and writes at addresses of its own transaction (`Tidy`). Where no other transaction
names them, it reads the snapshot, and its record stays valid (`Undisturbed`).
-/

namespace SuwappuDb

open Prog

/-! ## The addresses of a transaction -/

/-- The addresses an intent names. -/
def Intent.touched (registry : ContractRegistry) (base : State) (intent : Intent) : Set Address :=
  partiesOf (intent.transfers registry base)

theorem Intent.transfersIn_eq {registry : ContractRegistry} (hpure : registry.Pure) (env : RunEnv)
    (base : State) (intent : Intent) :
    intent.transfersIn env registry base = intent.transfers registry base := by
  cases intent with
  | transfer src dst amount => rfl
  | deployModule account name bytes => rfl
  | call caller target value calldata =>
      rw [transfers, transfersIn, transfersIn]
      cases hget : registry.get target with
      | none => rfl
      | some g =>
          have hbundle : callBundle env g caller target value calldata base =
              callBundle {} g caller target value calldata base := hpure target g hget _ _ _
          simp only [hbundle]

/-! ## The counts of a validation pass -/

/-- The aborts an address is charged with. -/
def chargedTo (tally : OrdMap Address Nat) (a : Address) : Nat := (tally.get? a).getD 0

theorem chargedTo_tallyAborts (tally : OrdMap Address Nat) (writes : List WriteEntry)
    (a : Address) : chargedTo (tallyAborts tally writes) a =
      chargedTo tally a + (writes.map WriteEntry.addr).count a := by
  induction writes generalizing tally with
  | nil => rfl
  | cons w rest ih =>
      have hinsert : chargedTo (tally.insert w.addr (chargedTo tally w.addr + 1)) a =
          chargedTo tally a + if w.addr = a then 1 else 0 := by
        unfold chargedTo
        rw [OrdMap.get?_insert]
        by_cases ha : a = w.addr
        · simp [ha]
        · simp [ha, Ne.symm ha]
      rw [List.map_cons, List.count_cons]
      show chargedTo (tallyAborts (tally.insert w.addr (chargedTo tally w.addr + 1)) rest) a = _
      rw [ih, hinsert]
      simp only [beq_iff_eq]
      omega

/-- Every abort is a transaction that becomes pending. -/
theorem validateFrom_aborts (idx : Nat) (txns : List Txn) (v : Validation) :
    (validateFrom idx txns v).aborts + v.nextPending.length =
      v.aborts + (validateFrom idx txns v).nextPending.length := by
  induction txns generalizing idx v with
  | nil => rfl
  | cons t rest ih =>
      rw [validateFrom]
      split_ifs
      · exact ih (idx + 1) v
      · have h := ih (idx + 1) {
          mv := v.mv.clearWrites idx
          nextPending := v.nextPending ++ [idx]
          aborts := v.aborts + 1
          abortsByAddr := tallyAborts v.abortsByAddr t.writeSet }
        simp only [List.length_append, List.length_singleton] at h
        omega

theorem mem_nextPending_validateFrom {idx : Nat} {txns : List Txn} {v : Validation} {j : TxnIdx}
    (hj : j ∈ v.nextPending) : j ∈ (validateFrom idx txns v).nextPending := by
  induction txns generalizing idx v with
  | nil => exact hj
  | cons t rest ih =>
      rw [validateFrom]
      split_ifs
      · exact ih hj
      · exact ih (List.mem_append_left _ hj)

/-- An address is charged once for every aborted transaction that has written it. -/
theorem validateFrom_charged (idx : Nat) {txns : List Txn}
    (hnodup : ∀ t ∈ txns, (t.writeSet.map WriteEntry.addr).Nodup) (v : Validation) (a : Address) :
    ∃ hits : List TxnIdx, hits.Pairwise (· < ·) ∧
      (∀ j ∈ hits, idx ≤ j ∧ j ∈ (validateFrom idx txns v).nextPending ∧
        ∃ t, txns[j - idx]? = some t ∧ a ∈ t.writeSet.map WriteEntry.addr) ∧
      chargedTo (validateFrom idx txns v).abortsByAddr a =
        chargedTo v.abortsByAddr a + hits.length := by
  induction txns generalizing idx v with
  | nil => exact ⟨[], .nil, by simp, rfl⟩
  | cons t rest ih =>
      have hrest : ∀ t ∈ rest, (t.writeSet.map WriteEntry.addr).Nodup :=
        fun t' ht' => hnodup t' (List.mem_cons_of_mem _ ht')
      have hshift : ∀ j t', idx + 1 ≤ j → rest[j - (idx + 1)]? = some t' →
          (t :: rest)[j - idx]? = some t' := by
        intro j t' hj ht'
        rwa [show j - idx = j - (idx + 1) + 1 by omega, List.getElem?_cons_succ]
      rw [validateFrom]
      split_ifs
      · obtain ⟨hits, hsorted, hhits, hcount⟩ := ih (idx + 1) hrest v
        refine ⟨hits, hsorted, fun j hj => ?_, hcount⟩
        obtain ⟨hle, hmem, t', ht', ha⟩ := hhits j hj
        exact ⟨by omega, hmem, t', hshift j t' hle ht', ha⟩
      · generalize hstale : Validation.mk (v.mv.clearWrites idx) _ _ _ = v'
        have hnew : idx ∈ v'.nextPending := by simp [← hstale]
        have htally : v'.abortsByAddr = tallyAborts v.abortsByAddr t.writeSet := by rw [← hstale]
        obtain ⟨hits, hsorted, hhits, hcount⟩ := ih (idx + 1) hrest v'
        have hlater : ∀ j ∈ hits, idx ≤ j ∧ j ∈ (validateFrom (idx + 1) rest v').nextPending ∧
            ∃ t', (t :: rest)[j - idx]? = some t' ∧ a ∈ t'.writeSet.map WriteEntry.addr := by
          intro j hj
          obtain ⟨hle, hmem, t', ht', ha⟩ := hhits j hj
          exact ⟨by omega, hmem, t', hshift j t' hle ht', ha⟩
        rw [htally, chargedTo_tallyAborts] at hcount
        by_cases ha : a ∈ t.writeSet.map WriteEntry.addr
        · rw [List.count_eq_one_of_mem (hnodup t List.mem_cons_self) ha] at hcount
          refine ⟨idx :: hits, List.pairwise_cons.2 ⟨fun j hj => (hhits j hj).1, hsorted⟩, ?_, ?_⟩
          · intro j hj
            rcases List.mem_cons.1 hj with rfl | hj
            · exact ⟨le_rfl, mem_nextPending_validateFrom hnew, t, by simp, ha⟩
            · exact hlater j hj
          · rw [hcount, List.length_cons]
            omega
        · rw [List.count_eq_zero_of_not_mem ha] at hcount
          exact ⟨hits, hsorted, hlater, hcount⟩

/-! ## One iteration and the loop -/

section Block

variable {s : State} {block : List Intent} {registry : ContractRegistry}

/-- What an iteration does, as far as the report can tell: it aborts the transactions it leaves
pending, none of them the lowest one, and leaves the loop when an address is charged too often. -/
structure Iterated (s : State) (block : List Intent) (registry : ContractRegistry) (st st' : Loop)
    (broke : Bool) : Prop where
  iterations : st'.iterations = st.iterations + 1
  aborts : st'.aborts = st.aborts + st'.pending.length
  sorted : st'.pending.Pairwise (· < ·)
  above : ∀ i ∈ st'.pending, i < block.length ∧ ∃ j ∈ st.pending, j < i
  broke_eq : broke = st'.collapsedHotAddr.isSome
  hot : ∀ a, st'.collapsedHotAddr = some a → ∃ hits : List TxnIdx, 2 ≤ hits.length ∧
    hits.Pairwise (· < ·) ∧ ∀ j ∈ hits, j ∈ st'.pending ∧
      ∃ env mv t h, RecordedAs s block registry env mv j t h ∧
        a ∈ t.writeSet.map WriteEntry.addr

/-- A collapse has an address that is charged twice or more. -/
theorem hotAddr_charged {tally : OrdMap Address Nat} {pendingCount : Nat} {a : Address}
    (h : hotAddr tally pendingCount = some a) : 2 ≤ chargedTo tally a := by
  obtain ⟨⟨a', count⟩, hfind, rfl⟩ := Option.map_eq_some_iff.1 h
  have hcount := List.find?_some hfind
  simp only [Bool.and_eq_true, decide_eq_true_eq] at hcount
  have hget : tally.get? a' = some count := OrdMap.mem_entries.1 (List.mem_of_find?_eq_some hfind)
  simpa [chargedTo, hget] using hcount.2

theorem RecordedAs.writeSet {env : RunEnv} {mv : MvStore} {i : TxnIdx} {t : Txn}
    {h : List MvEvent} (hrec : RecordedAs s block registry env mv i t h) {intent : Intent}
    (hi : block[i]? = some intent) :
    (t.writeSet.map WriteEntry.addr).Nodup ∧
      ∀ a ∈ t.writeSet.map WriteEntry.addr, a ∈ partiesOf (intent.transfersIn env registry s) := by
  have hdone := (tidy_executeAt s registry env hi).after hrec.after
  cases hdone.tidy with
  | ret _ _ hwritten => exact hwritten ▸ ⟨hdone.nodup, hdone.named⟩

theorem iterated_of_iterate {st st' : Loop} {broke : Bool} {sched : PassSchedule}
    {collapse : TxnIdx → RunEnv} (hinv : LoopInv s block registry st)
    (hnone : st.collapsedHotAddr = none) (hne : st.pending ≠ [])
    (h : iterate s block registry sched collapse st = some (st', broke)) :
    Iterated s block registry st st' broke := by
  obtain ⟨runs, mv, hpass, hdone⟩ := executePass_spec s registry sched
    (hinv.sorted.imp Nat.ne_of_lt) hinv.bound fun i hi a => hinv.cleared a i hi
  have hran := ran_of_passDone hinv hdone
  unfold iterate at h
  simp only [hpass, Option.bind_eq_bind, Option.bind_some] at h
  generalize (st.pending.zip runs).foldl (fun txns p => txns.set p.1 p.2) st.txns = txns
    at hran h
  have hidx : ∀ (k : Nat) (t : Txn), txns[k]? = some t → t.idx = 0 + k := by
    intro k t hk
    obtain ⟨_, _, ht, -⟩ := hran.runs k t hk
    rw [ht.idx_eq, Nat.zero_add]
  obtain ⟨stale, hpending, hval⟩ := validateFrom_spec 0 txns { mv, aborts := st.aborts } hidx
  have haborts := validateFrom_aborts 0 txns { mv, aborts := st.aborts }
  have hnodup : ∀ t ∈ txns, (t.writeSet.map WriteEntry.addr).Nodup := by
    intro t ht
    obtain ⟨i, hi⟩ := List.mem_iff_getElem?.1 ht
    obtain ⟨env, h, hrec, -⟩ := hran.runs i t hi
    have hlt : i < block.length := hran.length ▸ (List.getElem?_eq_some_iff.1 hi).1
    exact (hrec.writeSet (List.getElem?_eq_getElem hlt)).1
  have hcharged := validateFrom_charged 0 hnodup { mv, aborts := st.aborts }
  generalize validateFrom 0 txns { mv, aborts := st.aborts } = v
    at h hpending hval haborts hcharged
  rw [List.nil_append] at hpending
  subst hpending
  have hkept : LoopInv s block registry { mv := v.mv, txns, pending := v.nextPending } ∧
      ∀ i < block.length, (∀ j ∈ st.pending, i ≤ j) → i ∉ v.nextPending := hran.validated hval rfl
  have habove : ∀ i ∈ v.nextPending, i < block.length ∧ ∃ j ∈ st.pending, j < i := by
    intro i hi
    refine ⟨hkept.1.bound i hi, ?_⟩
    by_contra hlow
    push Not at hlow
    exact hkept.2 i (hkept.1.bound i hi) hlow hi
  have hhot : ∀ a, hotAddr v.abortsByAddr st.pending.length = some a →
      ∃ hits : List TxnIdx, 2 ≤ hits.length ∧ hits.Pairwise (· < ·) ∧
        ∀ j ∈ hits, j ∈ v.nextPending ∧ ∃ env mv t h, RecordedAs s block registry env mv j t h ∧
          a ∈ t.writeSet.map WriteEntry.addr := by
    intro a ha
    obtain ⟨hits, hsorted, hhits, hcount⟩ := hcharged a
    have htwo := hotAddr_charged ha
    rw [hcount] at htwo
    refine ⟨hits, by simpa [chargedTo] using htwo, hsorted, fun j hj => ?_⟩
    obtain ⟨-, hmem, t, ht, hta⟩ := hhits j hj
    obtain ⟨env, h, hrec, -⟩ := hran.runs j t ht
    exact ⟨hmem, env, mv, t, h, hrec, hta⟩
  have hpos : 0 < st.pending.length := List.length_pos_iff.2 hne
  simp only [hnone, Option.isNone_none, hpos, decide_true, Bool.and_self, if_true] at h
  generalize hotAddr v.abortsByAddr st.pending.length = hot at h hhot
  split_ifs at h with hbroke
  · obtain ⟨⟨mv', txns'⟩, -, hst⟩ := Option.bind_eq_some_iff.1 h
    obtain ⟨rfl, rfl⟩ := Prod.mk.inj (Option.some.inj hst)
    exact ⟨rfl, by simpa using haborts, hval.sorted, habove, hbroke.symm, hhot⟩
  · obtain ⟨rfl, rfl⟩ := Prod.mk.inj (Option.some.inj h)
    exact ⟨rfl, by simpa using haborts, hval.sorted, habove, (Bool.eq_false_iff.2 hbroke).symm,
      hhot⟩

/-- A rule for the loop: what holds between iterations, and what holds when it is left. -/
theorem loop_rule {sched : Schedule} {I Q : Loop → Prop}
    (hstep : ∀ st st', I st → st.pending ≠ [] →
      iterate s block registry (sched.pass st.iterations) sched.collapse st = some (st', false) →
      I st')
    (hbreak : ∀ st st', I st → st.pending ≠ [] →
      iterate s block registry (sched.pass st.iterations) sched.collapse st = some (st', true) →
      Q st')
    (hdone : ∀ st, I st → st.pending = [] → Q st) {fuel : Nat} {st fin : Loop} (hst : I st)
    (h : loop s block registry sched fuel st = some fin) : Q fin := by
  induction fuel generalizing st with
  | zero =>
      rw [loop] at h
      split_ifs at h with hempty
      exact Option.some.inj h ▸ hdone st hst (List.isEmpty_iff.1 hempty)
  | succ fuel ih =>
      rw [loop] at h
      split_ifs at h with hempty
      · exact Option.some.inj h ▸ hdone st hst (List.isEmpty_iff.1 hempty)
      · have hne : st.pending ≠ [] := fun hnil => hempty (List.isEmpty_iff.2 hnil)
        obtain ⟨⟨st', broke⟩, hiter, hrest⟩ := Option.bind_eq_some_iff.1 h
        cases broke with
        | true => exact Option.some.inj hrest ▸ hbreak st st' hst hne hiter
        | false => exact ih (hstep st st' hst hne hiter) hrest

/-! ## What the report says -/

/-- Transaction `i` has written at the address in one of its runs. -/
def WroteAt (s : State) (block : List Intent) (registry : ContractRegistry) (i : TxnIdx)
    (a : Address) : Prop :=
  ∃ env mv t h, RecordedAs s block registry env mv i t h ∧ a ∈ t.writeSet.map WriteEntry.addr

/-- Between iterations. -/
structure Counted (s : State) (block : List Intent) (registry : ContractRegistry) (st : Loop) :
    Prop where
  inv : LoopInv s block registry st
  low : ∀ i ∈ st.pending, st.iterations ≤ i
  parallel : st.collapsedHotAddr = none
  few : 2 * st.aborts + st.iterations * (st.iterations + 1) ≤ 2 * (st.iterations * block.length)
  le : st.iterations ≤ block.length
  busy : st.pending ≠ [] → st.iterations ≤ st.aborts
  idle : st.pending = [] → st.iterations ≤ st.aborts + 1 ∧ (st.iterations ≤ 1 → st.aborts = 0)

/-- When the loop has been left. -/
structure Accounted (s : State) (block : List Intent) (registry : ContractRegistry) (fin : Loop) :
    Prop where
  few : 2 * fin.aborts ≤ block.length * (block.length - 1)
  iterations : fin.iterations ≤ fin.aborts + 1
  quiet : fin.aborts = 0 ↔ fin.iterations ≤ 1 ∧ fin.collapsedHotAddr = none
  hot : ∀ a, fin.collapsedHotAddr = some a → 2 ≤ fin.aborts ∧ ∃ i j, 0 < i ∧ i < j ∧
    j < block.length ∧ WroteAt s block registry i a ∧ WroteAt s block registry j a

/-- `1 + 2 + … + (n - 1)`, the first `k` passes counted. -/
theorem two_mul_le_of_passes {a k n : Nat} (hk : k ≤ n) (h : 2 * a + k * (k + 1) ≤ 2 * (k * n)) :
    2 * a ≤ n * (n - 1) := by
  obtain ⟨d, rfl⟩ := Nat.exists_eq_add_of_le hk
  have hd : d ≤ d * d := Nat.le_mul_self d
  have hpred : (k + d) * (k + d - 1) + (k + d) = (k + d) * (k + d) := by
    cases hkd : k + d with
    | zero => rfl
    | succ m => rw [Nat.add_sub_cancel, Nat.mul_succ (m + 1) m]
  have hsquare : (k + d) * (k + d) = k * k + 2 * (k * d) + d * d := by ring
  have hleft : k * (k + 1) = k * k + k := by ring
  have hright : k * (k + d) = k * k + k * d := by ring
  omega

/-- The transactions left pending are above the passes made. -/
theorem Iterated.length_pending_le {st st' : Loop} {broke : Bool}
    (h : Iterated s block registry st st' broke) (hlow : ∀ i ∈ st.pending, st.iterations ≤ i) :
    st'.pending.length ≤ block.length - (st.iterations + 1) := by
  have hsub : st'.pending ⊆
      List.range' (st.iterations + 1) (block.length - (st.iterations + 1)) := by
    intro i hi
    obtain ⟨hlt, j, hj, hji⟩ := h.above i hi
    have hhigh : st.iterations < i := Nat.lt_of_le_of_lt (hlow j hj) hji
    exact List.mem_range'_1.2 ⟨hhigh, Nat.lt_of_lt_of_le hlt (by omega)⟩
  have hperm := List.subperm_of_subset (h.sorted.imp Nat.ne_of_lt) hsub
  simpa using hperm.length_le

theorem counted_start : Counted s block registry (Loop.start block) where
  inv := loopInv_start s block registry
  low _ _ := Nat.zero_le _
  parallel := rfl
  few := by simp [Loop.start]
  le := Nat.zero_le _
  busy _ := Nat.zero_le _
  idle _ := ⟨Nat.zero_le _, fun _ => rfl⟩

theorem Counted.lt_length {st : Loop} (h : Counted s block registry st) (hne : st.pending ≠ []) :
    st.iterations < block.length := by
  obtain ⟨i, hi⟩ := List.exists_mem_of_ne_nil _ hne
  exact (h.low i hi).trans_lt (h.inv.bound i hi)

/-- One more pass and its aborts, counted. -/
theorem Counted.few_iterated {st st' : Loop} {broke : Bool} (h : Counted s block registry st)
    (hne : st.pending ≠ []) (hiter : Iterated s block registry st st' broke) :
    2 * st'.aborts + st'.iterations * (st'.iterations + 1) ≤
      2 * (st'.iterations * block.length) := by
  have hlen := hiter.length_pending_le h.low
  have hlt := h.lt_length hne
  have hfew := h.few
  rw [hiter.aborts, hiter.iterations]
  have hsum : (st.iterations + 1) * (st.iterations + 1 + 1) =
      st.iterations * (st.iterations + 1) + 2 * (st.iterations + 1) := by ring
  have hprod : (st.iterations + 1) * block.length =
      st.iterations * block.length + block.length := by ring
  omega

theorem Counted.step {sched : PassSchedule} {collapse : TxnIdx → RunEnv} {st st' : Loop}
    (h : Counted s block registry st) (hne : st.pending ≠ [])
    (hiter : iterate s block registry sched collapse st = some (st', false)) :
    Counted s block registry st' := by
  have hit := iterated_of_iterate h.inv h.parallel hne hiter
  have hlt := h.lt_length hne
  obtain ⟨st'', broke, hiter', -, -, hkeep⟩ := iterate_spec h.inv sched collapse
  obtain ⟨rfl, rfl⟩ := Prod.mk.inj (Option.some.inj (hiter'.symm.trans hiter))
  have hbusy := h.busy hne
  have haborts := hit.aborts
  have hcount := hit.iterations
  refine ⟨(hkeep rfl).1, fun i hi => ?_, ?_, h.few_iterated hne hit, by omega, fun hne' => ?_,
    fun hnil => ⟨by omega, fun hle => ?_⟩⟩
  · obtain ⟨-, j, hj, hji⟩ := hit.above i hi
    rw [hcount]
    exact Nat.lt_of_le_of_lt (h.low j hj) hji
  · exact Option.not_isSome_iff_eq_none.1 (by simp [← hit.broke_eq])
  · have hpos : 0 < st''.pending.length := List.length_pos_iff.2 hne'
    omega
  · -- The only pass so far: before it, nothing had been aborted.
    have hfew := h.few
    have hzero : st.iterations = 0 := by omega
    rw [hzero] at hfew
    rw [hnil, List.length_nil] at haborts
    omega

theorem Counted.accounted {st : Loop} (h : Counted s block registry st) (hnil : st.pending = []) :
    Accounted s block registry st where
  few := two_mul_le_of_passes h.le h.few
  iterations := (h.idle hnil).1
  quiet := by
    have hle := (h.idle hnil).1
    exact ⟨fun hzero => ⟨by omega, h.parallel⟩, fun hone => (h.idle hnil).2 hone.1⟩
  hot a ha := by simp [h.parallel] at ha

theorem Counted.accounted_break {sched : PassSchedule} {collapse : TxnIdx → RunEnv}
    {st st' : Loop} (h : Counted s block registry st) (hne : st.pending ≠ [])
    (hiter : iterate s block registry sched collapse st = some (st', true)) :
    Accounted s block registry st' := by
  have hit := iterated_of_iterate h.inv h.parallel hne hiter
  have hlt := h.lt_length hne
  have hbusy := h.busy hne
  have haborts := hit.aborts
  have hcount := hit.iterations
  obtain ⟨a, ha⟩ := Option.isSome_iff_exists.1 hit.broke_eq.symm
  have htwo : ∀ a, st'.collapsedHotAddr = some a → 2 ≤ st'.aborts ∧ ∃ i j, 0 < i ∧ i < j ∧
      j < block.length ∧ WroteAt s block registry i a ∧ WroteAt s block registry j a := by
    intro a ha
    obtain ⟨hits, hlen, hsorted, hhits⟩ := hit.hot a ha
    obtain ⟨i, j, rest, rfl⟩ : ∃ i j rest, hits = i :: j :: rest := by
      match hits, hlen with
      | i :: j :: rest, _ => exact ⟨i, j, rest, rfl⟩
    obtain ⟨hi, hwrote⟩ := hhits i (by simp)
    obtain ⟨hj, hwrote'⟩ := hhits j (by simp)
    have hij : i < j := (List.pairwise_cons.1 hsorted).1 j (by simp)
    obtain ⟨-, k, -, hki⟩ := hit.above i hi
    refine ⟨?_, i, j, Nat.lt_of_le_of_lt (Nat.zero_le k) hki, hij, (hit.above j hj).1, hwrote,
      hwrote'⟩
    have hpair : [i, j] ⊆ st'.pending := by simp [hi, hj]
    have hle := (List.subperm_of_subset (by simpa using Nat.ne_of_lt hij) hpair).length_le
    simp only [List.length_cons, List.length_nil] at hle
    omega
  refine ⟨two_mul_le_of_passes (by omega) (h.few_iterated hne hit), by omega, ?_, htwo⟩
  have hmany := (htwo a ha).1
  constructor
  · intro hzero
    omega
  · intro hone
    simp [ha] at hone

end Block

namespace BlockExecutor

variable (blake3 : Blake3)

/-- The report of a block is the loop's account. -/
theorem executeWithRegistry_accounted (sched : Schedule) (s : State) (block : List Intent)
    (registry : ContractRegistry) :
    ∃ s' report fin, executeWithRegistry blake3 sched s block registry = some (s', report) ∧
      Accounted s block registry fin ∧ report.iterations = fin.iterations ∧
      report.aborts = fin.aborts ∧ report.collapsedToSequential = fin.collapsedHotAddr := by
  by_cases hnil : block.length = 0
  · have hempty : (Loop.start block).pending = [] := by simp [Loop.start, hnil]
    refine ⟨s, _, Loop.start block, by rw [executeWithRegistry, if_pos hnil], ?_, rfl, rfl, rfl⟩
    exact counted_start.accounted hempty
  · obtain ⟨fin, hloop, -, -⟩ := runLoop_spec s block registry sched
    have hacc : Accounted s block registry fin :=
      loop_rule (I := Counted s block registry) (fun st st' hst hne hiter => hst.step hne hiter)
        (fun st st' hst hne hiter => hst.accounted_break hne hiter)
        (fun st hst hnil => hst.accounted hnil) counted_start hloop
    refine ⟨_, _, fin, by rw [executeWithRegistry, if_neg hnil, hloop]; rfl, hacc, rfl, rfl, rfl⟩

end BlockExecutor

/-- Over every run of a block of `n` transactions, under every schedule: at most `n (n - 1) / 2`
transactions are aborted, there is at most one pass more than there are aborts, and nothing is
aborted just when the loop ends within one pass and without a collapse. -/
theorem report_consistent (blake3 : Blake3) (sched : Schedule) (s : State) (block : List Intent)
    (registry : ContractRegistry) :
    ∃ s' report, BlockExecutor.executeWithRegistry blake3 sched s block registry =
        some (s', report) ∧
      2 * report.aborts ≤ block.length * (block.length - 1) ∧
      report.iterations ≤ report.aborts + 1 ∧
      (report.aborts = 0 ↔ report.iterations ≤ 1 ∧ report.collapsedToSequential = none) ∧
      (report.collapsedToSequential.isSome → 2 ≤ report.aborts) := by
  obtain ⟨s', report, fin, hexec, hacc, hiter, haborts, hhot⟩ :=
    BlockExecutor.executeWithRegistry_accounted blake3 sched s block registry
  refine ⟨s', report, hexec, ?_⟩
  rw [hiter, haborts, hhot]
  refine ⟨hacc.few, hacc.iterations, hacc.quiet, fun hsome => ?_⟩
  obtain ⟨a, ha⟩ := Option.isSome_iff_exists.1 hsome
  exact (hacc.hot a ha).1

/-! ## Who is charged, and who never is -/

section Footprints

variable {s : State} {block : List Intent} {registry : ContractRegistry}

theorem WroteAt.touched (hpure : registry.Pure) {i : TxnIdx} {a : Address}
    (h : WroteAt s block registry i a) {intent : Intent} (hi : block[i]? = some intent) :
    a ∈ intent.touched registry s := by
  obtain ⟨env, mv, t, events, hrec, ha⟩ := h
  have hmem := (hrec.writeSet hi).2 a ha
  rwa [Intent.transfersIn_eq hpure] at hmem

/-- The addresses of the transaction at a position of the block. -/
def footprint (s : State) (block : List Intent) (registry : ContractRegistry) (i : TxnIdx) :
    Set Address :=
  {a | ∃ intent, block[i]? = some intent ∧ a ∈ intent.touched registry s}

theorem tidy_footprint (hpure : registry.Pure) (env : RunEnv) {i : TxnIdx}
    (hi : i < block.length) :
    Tidy i (footprint s block registry i) [] [] (executeAt s block registry env i) := by
  have hget : block[i]? = some block[i] := List.getElem?_eq_getElem hi
  have htidy := tidy_executeAt s registry env hget
  have hfoot : footprint s block registry i = (block[i]).touched registry s := by
    ext a
    simp [footprint, hget]
  rwa [Intent.transfersIn_eq hpure, ← Intent.touched, ← hfoot] at htidy

/-- No two transactions of the block name one address. -/
def DisjointBlock (s : State) (registry : ContractRegistry) (block : List Intent) : Prop :=
  block.Pairwise fun x y => ∀ a ∈ x.touched registry s, a ∉ y.touched registry s

theorem DisjointBlock.eq_of_mem (h : DisjointBlock s registry block) {i j : TxnIdx} {a : Address}
    (hi : a ∈ footprint s block registry i) (hj : a ∈ footprint s block registry j) : i = j := by
  obtain ⟨x, hx, hax⟩ := hi
  obtain ⟨y, hy, hay⟩ := hj
  have hlt : ∀ {i j : Nat} {x y : Intent}, block[i]? = some x → block[j]? = some y →
      a ∈ x.touched registry s → a ∈ y.touched registry s → ¬ i < j := by
    intro i j x y hx hy hax hay hij
    obtain ⟨hi, rfl⟩ := List.getElem?_eq_some_iff.1 hx
    obtain ⟨hj, rfl⟩ := List.getElem?_eq_some_iff.1 hy
    exact List.pairwise_iff_getElem.1 h i j hi hj hij a hax hay
  exact le_antisymm (not_lt.1 (hlt hy hx hay hax)) (not_lt.1 (hlt hx hy hax hay))

/-- A thread that has read nothing but the snapshot, and reads and writes at the addresses `F`. -/
def Undisturbed (F : Set Address) (i : TxnIdx) (q : MvProg) : Prop :=
  ∃ reads written, Tidy i F reads written q ∧ ∀ e ∈ reads, e.addr ∈ F ∧ e.source = .snapshot

/-- Every cell is at an address of its transaction. -/
def OwnCells (F : TxnIdx → Set Address) (mv : MvStore) : Prop :=
  ∀ a j slot, mv.slotAt a j = some slot → a ∈ F j

/-- No other transaction below writes where this one reads. -/
theorem OwnCells.highestWriterBelow_eq_none {F : TxnIdx → Set Address} {mv : MvStore}
    (hcells : OwnCells F mv) (hF : ∀ {i j : TxnIdx} {a : Address}, a ∈ F i → a ∈ F j → i = j)
    {a : Address} {i : TxnIdx} (ha : a ∈ F i) : mv.highestWriterBelow a i = none := by
  rw [MvStore.highestWriterBelow_eq, Option.map_eq_none_iff, OrdMap.lastBelow_eq_none]
  intro j hj
  by_contra hne
  obtain ⟨slot, hslot⟩ := Option.ne_none_iff_exists'.1 hne
  exact absurd (hF (hcells a j slot hslot) ha) hj.ne

/-- A call of an undisturbed thread leaves it undisturbed, and cells in their places. -/
theorem Undisturbed.call {F : TxnIdx → Set Address}
    (hF : ∀ {i j : TxnIdx} {a : Address}, a ∈ F i → a ∈ F j → i = j) {mv : MvStore} {i : TxnIdx}
    {op : MvOp} {k : op.Res → MvProg} (hcells : OwnCells F mv)
    (h : Undisturbed (F i) i (.call op k)) :
    OwnCells F (mvSem s op mv).2 ∧ Undisturbed (F i) i (k (mvSem s op mv).1) := by
  obtain ⟨reads, written, htidy, hreads⟩ := h
  cases htidy with
  | @read _ _ a _ ha hk =>
      have hsnapshot : (mv.read s a i).2 = .snapshot := by
        have hstill := Validator.stillConsistent_read mv s a i
        rw [hcells.highestWriterBelow_eq_none hF ha] at hstill
        cases hsrc : (mv.read s a i).2 with
        | snapshot => rfl
        | version v => simp [hsrc, Validator.stillConsistent] at hstill
      refine ⟨hcells, _, written, hk (mv.read s a i).1 (mv.read s a i).2, fun e he => ?_⟩
      rcases List.mem_append.1 he with he | he
      · exact hreads e he
      · rw [List.mem_singleton.1 he]
        exact ⟨ha, hsnapshot⟩
  | write ha _ hk =>
      refine ⟨fun b j slot hslot => ?_, reads, _, hk, hreads⟩
      simp only [mvSem, MvStore.slotAt_write] at hslot
      split_ifs at hslot with hat
      · exact hat.1 ▸ hat.2 ▸ ha
      · exact hcells b j slot hslot
  | clear _ hk =>
      refine ⟨fun b j slot hslot => ?_, reads, written, hk, hreads⟩
      simp only [mvSem, MvStore.slotAt_clearWrites] at hslot
      split_ifs at hslot
      exact hcells b j slot hslot

/-- An undisturbed thread returns a valid record. -/
theorem Undisturbed.valid {F : TxnIdx → Set Address}
    (hF : ∀ {i j : TxnIdx} {a : Address}, a ∈ F i → a ∈ F j → i = j) {mv : MvStore} {i : TxnIdx}
    {r : Option Txn} (hcells : OwnCells F mv) (h : Undisturbed (F i) i (.ret r)) :
    ∃ t, r = some t ∧ Validator.isValid t mv = true := by
  obtain ⟨reads, written, htidy, hreads⟩ := h
  cases htidy with
  | @ret _ _ t hidx hread _ =>
      refine ⟨t, rfl, List.all_eq_true.2 fun e he => ?_⟩
      obtain ⟨haddr, hsource⟩ := hreads e (hread ▸ he)
      rw [hidx, hsource]
      exact congrArg (Validator.stillConsistent .snapshot)
        (hcells.highestWriterBelow_eq_none hF haddr)

/-- The first pass over a block of strangers: every record is valid against what the pass left. -/
theorem executePass_disjoint (hpure : registry.Pure) (hdisj : DisjointBlock s registry block)
    (sched : PassSchedule) :
    ∃ txns mv, executePass s block registry sched {} (List.range block.length) = some (txns, mv) ∧
      ∀ t ∈ txns, Validator.isValid t mv = true := by
  generalize hrun : Pool.run (mvSem s) sched.picks
    ⟨(List.range block.length).map fun i => executeAt s block registry (sched.env i) i, {}⟩ = fin
  obtain ⟨runs, mv⟩ := fin
  obtain ⟨hlength, hcells, hthreads⟩ := Pool.run_rule (mvSem s) List.nodup_range
    (G := OwnCells (footprint s block registry))
    (T := fun _ i q => Undisturbed (footprint s block registry i) i q)
    (fun mv i op k _ hcells ht =>
      have hnext := ht.call hdisj.eq_of_mem hcells
      ⟨hnext.1, hnext.2, fun _ _ _ hq => hq⟩)
    (fun a j slot hslot => by simp at hslot)
    (fun i hi => ⟨[], [], tidy_footprint hpure (sched.env i) (List.mem_range.1 hi), by simp⟩)
    sched.picks hrun
  have hvalid : ∀ r ∈ runs, ∃ t, r = some t ∧ Validator.isValid t mv = true := by
    intro r hr
    obtain ⟨pos, hpos, rfl⟩ := List.getElem_of_mem hr
    exact (hthreads pos _ _ (List.getElem?_eq_getElem (hlength ▸ hpos))
      (List.getElem?_eq_getElem hpos)).valid hdisj.eq_of_mem hcells
  obtain ⟨txns, hmapM, hruns⟩ := mapM_runs fun r hr => (hvalid r hr).imp fun t h => h.1
  refine ⟨txns, mv, by simp [executePass, hrun, hmapM], fun t ht => ?_⟩
  obtain ⟨t', heq, ht'⟩ := hvalid (some t) (hruns ▸ List.mem_map_of_mem ht)
  exact Option.some.inj heq ▸ ht'

/-- A validation pass that finds nothing stale changes nothing. -/
theorem validateFrom_of_valid (idx : Nat) {txns : List Txn} {v : Validation}
    (h : ∀ t ∈ txns, Validator.isValid t v.mv = true) : validateFrom idx txns v = v := by
  induction txns generalizing idx with
  | nil => rfl
  | cons t rest ih =>
      rw [validateFrom, if_pos (h t List.mem_cons_self)]
      exact ih (idx + 1) fun t' ht' => h t' (List.mem_cons_of_mem _ ht')

theorem mem_foldl_set {runs : List (TxnIdx × Txn)} {txns : List Txn} {t : Txn}
    (ht : t ∈ runs.foldl (fun txns p => txns.set p.1 p.2) txns) :
    t ∈ txns ∨ t ∈ runs.map Prod.snd := by
  induction runs generalizing txns with
  | nil => exact .inl ht
  | cons p rest ih =>
      rcases ih ht with h | h
      · rcases List.mem_or_eq_of_mem_set h with h | rfl
        · exact .inl h
        · exact .inr List.mem_cons_self
      · exact .inr (List.mem_cons_of_mem _ h)

/-- One pass settles a block of strangers. -/
theorem iterate_disjoint (hpure : registry.Pure) (hdisj : DisjointBlock s registry block)
    {sched : PassSchedule} {collapse : TxnIdx → RunEnv} {st : Loop} {broke : Bool}
    (h : iterate s block registry sched collapse (Loop.start block) = some (st, broke)) :
    broke = false ∧ st.pending = [] ∧ st.iterations = 1 ∧ st.aborts = 0 ∧
      st.collapsedHotAddr = none := by
  obtain ⟨runs, mv, hpass, hvalid⟩ := executePass_disjoint hpure hdisj sched
  have hall : ∀ t ∈ ((List.range block.length).zip runs).foldl (fun txns p => txns.set p.1 p.2)
      (Loop.start block).txns, Validator.isValid t mv = true := by
    intro t ht
    rcases mem_foldl_set ht with ht | ht
    · obtain ⟨idx, -, rfl⟩ := List.mem_map.1 ht
      rfl
    · obtain ⟨p, hp, rfl⟩ := List.mem_map.1 ht
      exact hvalid p.2 (List.of_mem_zip hp).2
  have hquiet := validateFrom_of_valid 0 (v := { mv, aborts := 0 }) hall
  have hcold : hotAddr ∅ (List.range block.length).length = none := rfl
  unfold iterate at h
  simp only [Loop.start] at h hquiet
  simp only [hpass, hquiet, hcold, Option.bind_eq_bind, Option.bind_some, ite_self,
    Option.isSome_none, Bool.false_eq_true, if_false] at h
  obtain ⟨rfl, rfl⟩ := Prod.mk.inj (Option.some.inj h)
  exact ⟨rfl, rfl, rfl, rfl, rfl⟩

end Footprints

/-- A block whose transactions name different addresses is settled by one pass without an abort,
under every schedule. -/
theorem disjoint_single_pass (blake3 : Blake3) (sched : Schedule) {s : State} {block : List Intent}
    {registry : ContractRegistry} (hpure : registry.Pure)
    (hdisj : DisjointBlock s registry block) :
    ∃ s' report, BlockExecutor.executeWithRegistry blake3 sched s block registry =
        some (s', report) ∧
      report.iterations = min block.length 1 ∧ report.aborts = 0 ∧
      report.collapsedToSequential = none := by
  by_cases hnil : block.length = 0
  · exact ⟨s, _, by rw [BlockExecutor.executeWithRegistry, if_pos hnil], by simp [hnil], rfl, rfl⟩
  · obtain ⟨fin, hloop, -, -⟩ := runLoop_spec s block registry sched
    have hfin : fin.iterations = 1 ∧ fin.aborts = 0 ∧ fin.collapsedHotAddr = none := by
      refine loop_rule (I := fun st => st = Loop.start block ∨
        st.pending = [] ∧ st.iterations = 1 ∧ st.aborts = 0 ∧ st.collapsedHotAddr = none)
        (Q := fun st => st.iterations = 1 ∧ st.aborts = 0 ∧ st.collapsedHotAddr = none)
        ?_ ?_ ?_ (.inl rfl) hloop
      · intro st st' hst hne hiter
        rcases hst with rfl | hst
        · exact .inr (iterate_disjoint hpure hdisj hiter).2
        · exact absurd hst.1 hne
      · intro st st' hst hne hiter
        rcases hst with rfl | hst
        · exact absurd (iterate_disjoint hpure hdisj hiter).1 (by simp)
        · exact absurd hst.1 hne
      · intro st hst hempty
        rcases hst with rfl | hst
        · exact absurd hempty (by simpa [Loop.start] using hnil)
        · exact hst.2
    refine ⟨_, _, by rw [BlockExecutor.executeWithRegistry, if_neg hnil, hloop]; rfl, ?_, hfin.2⟩
    show fin.iterations = _
    rw [hfin.1]
    omega

/-- Two payments between four addresses. -/
def strangersBlock : List Intent := [
  .transfer (smallAddress 1) (smallAddress 2) 60,
  .transfer (smallAddress 3) (smallAddress 4) 50]

theorem disjoint_single_pass_strangers :
    smallRegistry.Pure ∧ DisjointBlock smallState smallRegistry strangersBlock ∧
    ∀ (blake3 : Blake3) (sched : Schedule), ∃ s' report,
      BlockExecutor.executeWithRegistry blake3 sched smallState strangersBlock smallRegistry =
        some (s', report) ∧
      report.iterations = min 2 1 ∧ report.aborts = 0 ∧ report.collapsedToSequential = none := by
  have hdisj : DisjointBlock smallState smallRegistry strangersBlock := by
    refine List.pairwise_pair.2 fun a ha hb => ?_
    obtain ⟨p, hp, ha⟩ := ha
    obtain ⟨q, hq, hb⟩ := hb
    rw [List.mem_singleton.1 hp] at ha
    rw [List.mem_singleton.1 hq] at hb
    rcases ha with rfl | rfl <;> revert hb <;> decide
  exact ⟨smallRegistry_pure, hdisj, fun blake3 sched =>
    disjoint_single_pass blake3 sched smallRegistry_pure hdisj⟩

/-- The address of a collapse is named by two transactions of the block, neither of them the first:
the first never reads a stale balance. -/
theorem collapsed_contended (blake3 : Blake3) {sched : Schedule} {s s' : State}
    {block : List Intent} {registry : ContractRegistry} (hpure : registry.Pure)
    {report : BlockReport} {a : Address}
    (hexec : BlockExecutor.executeWithRegistry blake3 sched s block registry = some (s', report))
    (ha : report.collapsedToSequential = some a) :
    ∃ i j x y, 0 < i ∧ i < j ∧ block[i]? = some x ∧ block[j]? = some y ∧
      a ∈ x.touched registry s ∧ a ∈ y.touched registry s := by
  obtain ⟨_, _, fin, hexec', hacc, -, -, hhot⟩ :=
    BlockExecutor.executeWithRegistry_accounted blake3 sched s block registry
  obtain ⟨rfl, rfl⟩ := Prod.mk.inj (Option.some.inj (hexec'.symm.trans hexec))
  obtain ⟨-, i, j, hpos, hij, hj, hwrote, hwrote'⟩ := hacc.hot a (hhot ▸ ha)
  have hx : block[i]? = some block[i] := List.getElem?_eq_getElem (hij.trans hj)
  have hy : block[j]? = some block[j] := List.getElem?_eq_getElem hj
  exact ⟨i, j, _, _, hpos, hij, hx, hy, hwrote.touched hpure hx, hwrote'.touched hpure hy⟩

/-- One sender pays one receiver three times. -/
def hotBlock : List Intent := List.replicate 3 (.transfer (smallAddress 1) (smallAddress 2) 10)

/-- All three read before one of them writes. -/
def lockstep : Schedule where
  pass _ := { picks := [0, 0, 1, 1, 2, 2] }

theorem runLoop_hotBlock : (runLoop smallState hotBlock smallRegistry lockstep).map
    Loop.collapsedHotAddr = some (some (smallAddress 1)) := by decide +kernel

theorem collapsed_contended_hotBlock :
    smallRegistry.Pure ∧ ∀ blake3 : Blake3, ∃ s' report,
      BlockExecutor.executeWithRegistry blake3 lockstep smallState hotBlock smallRegistry =
        some (s', report) ∧
      report.collapsedToSequential = some (smallAddress 1) ∧
      ∃ i j x y, 0 < i ∧ i < j ∧ hotBlock[i]? = some x ∧ hotBlock[j]? = some y ∧
        smallAddress 1 ∈ x.touched smallRegistry smallState ∧
        smallAddress 1 ∈ y.touched smallRegistry smallState := by
  refine ⟨smallRegistry_pure, fun blake3 => ?_⟩
  obtain ⟨fin, hloop, hhot⟩ := Option.map_eq_some_iff.1 runLoop_hotBlock
  obtain ⟨s', report, hexec, hreport⟩ : ∃ s' report,
      BlockExecutor.executeWithRegistry blake3 lockstep smallState hotBlock smallRegistry =
        some (s', report) ∧ report.collapsedToSequential = some (smallAddress 1) :=
    ⟨_, _, by rw [BlockExecutor.executeWithRegistry, if_neg (by decide), hloop]; rfl, hhot⟩
  exact ⟨s', report, hexec, hreport, collapsed_contended blake3 smallRegistry_pure hexec hreport⟩

end SuwappuDb
