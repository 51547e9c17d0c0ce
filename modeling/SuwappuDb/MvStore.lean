import SuwappuDb.Bridge

/-!
# The multi-version store

`crates/suwappudb-bridge/src/occ/{mv_store,txn}.rs`: the versioned balance store of one block, the
record a speculative run leaves, and the validator.

A store is determined by its cells, `slotAt a i` being what transaction `i` has written at `a`:
`clear_writes` drops an address whose last version went away, so no address maps to an empty
version map and stores with the same cells are equal (`ext_slotAt`). The rest of the file says
what each operation does to cells, and that a read at `i` looks only at the cells below `i`.
-/

namespace SuwappuDb

/-- Position of a transaction in its block. -/
abbrev TxnIdx := Nat

/-- What a read resolved against: a writer's index, but not which run of the writer. -/
inductive ReadSource where
  | version (idx : TxnIdx)
  | snapshot
  deriving DecidableEq

theorem get?_empty_ne_row (a : Address) :
    (∅ : OrdMap Address (OrdMap TxnIdx BalanceSlot)).get? a ≠ some ∅ := by
  simp

/-- Versions by address and writer. -/
structure MvStore where
  versions : OrdMap Address (OrdMap TxnIdx BalanceSlot) := ∅
  occupied : ∀ a, versions.get? a ≠ some ∅ := by exact get?_empty_ne_row

namespace MvStore

instance : Inhabited MvStore := ⟨{}⟩

/-- The versions at an address. -/
def row (mv : MvStore) (addr : Address) : OrdMap TxnIdx BalanceSlot :=
  (mv.versions.get? addr).getD ∅

/-- What transaction `idx` has written at `addr`. -/
def slotAt (mv : MvStore) (addr : Address) (idx : TxnIdx) : Option BalanceSlot :=
  (mv.row addr).get? idx

/-- `MvStore::read`: the highest version below `myIdx`, else the state. -/
def read (mv : MvStore) (s : State) (addr : Address) (myIdx : TxnIdx) : BalanceSlot × ReadSource :=
  match mv.versions.get? addr with
  | some perAddr =>
      match perAddr.lastBelow myIdx with
      | some (vIdx, slot) => (slot, .version vIdx)
      | none => (s.slotOf addr, .snapshot)
  | none => (s.slotOf addr, .snapshot)

/-- `MvStore::write`. -/
def write (mv : MvStore) (addr : Address) (slot : BalanceSlot) (myIdx : TxnIdx) : MvStore where
  versions := mv.versions.insert addr ((mv.row addr).insert myIdx slot)
  occupied a := by
    rw [OrdMap.get?_insert]
    split_ifs with h
    · intro hempty
      have hget := congrArg (fun m => OrdMap.get? m myIdx) (Option.some.inj hempty)
      simp at hget
    · exact mv.occupied a

/-- `MvStore::clear_writes`. -/
def clearWrites (mv : MvStore) (idx : TxnIdx) : MvStore where
  versions := mv.versions.filterMap fun _ perAddr =>
    let perAddr' := perAddr.erase idx
    if perAddr'.entries.isEmpty then none else some perAddr'
  occupied a := by
    rw [OrdMap.get?_filterMap]
    intro h
    obtain ⟨perAddr, -, hsome⟩ := Option.bind_eq_some_iff.1 h
    dsimp only at hsome
    split_ifs at hsome with hnil
    rw [Option.some.inj hsome] at hnil
    exact hnil rfl

/-- `MvStore::highest_writer_below`. -/
def highestWriterBelow (mv : MvStore) (addr : Address) (bound : TxnIdx) : Option TxnIdx :=
  (mv.versions.get? addr).bind fun perAddr => (perAddr.lastBelow bound).map Prod.fst

/-- `MvStore::finalise`: the highest version of every address, in the order the `HashMap` is
visited. -/
def finalise (mv : MvStore) (order : IterOrder) : List (Address × BalanceSlot) :=
  (order.arrange mv.versions.entries).filterMap fun p =>
    p.2.entries.getLast?.map fun v => (p.1, v.2)

/-! ## Cells -/

@[simp] theorem slotAt_empty (a : Address) (i : TxnIdx) : ({} : MvStore).slotAt a i = none := rfl

theorem read_eq (mv : MvStore) (s : State) (a : Address) (i : TxnIdx) :
    mv.read s a i = match (mv.row a).lastBelow i with
      | some (v, slot) => (slot, .version v)
      | none => (s.slotOf a, .snapshot) := by
  unfold read row
  cases mv.versions.get? a with
  | none => rfl
  | some perAddr => rfl

theorem highestWriterBelow_eq (mv : MvStore) (a : Address) (i : TxnIdx) :
    mv.highestWriterBelow a i = ((mv.row a).lastBelow i).map Prod.fst := by
  unfold highestWriterBelow row
  cases mv.versions.get? a with
  | none => rfl
  | some perAddr => rfl

theorem slotAt_write (mv : MvStore) (a a' : Address) (slot : BalanceSlot) (i j : TxnIdx) :
    (mv.write a slot i).slotAt a' j = if a' = a ∧ j = i then some slot else mv.slotAt a' j := by
  unfold slotAt row write
  simp only [OrdMap.get?_insert]
  by_cases ha : a' = a
  · subst ha
    simp only [true_and, if_true, Option.getD_some]
    rw [OrdMap.get?_insert]
    rfl
  · simp [ha]

theorem slotAt_clearWrites (mv : MvStore) (a : Address) (i j : TxnIdx) :
    (mv.clearWrites i).slotAt a j = if j = i then none else mv.slotAt a j := by
  unfold slotAt row clearWrites
  simp only [OrdMap.get?_filterMap]
  cases mv.versions.get? a with
  | none => simp
  | some perAddr =>
      simp only [Option.bind_some, Option.getD_some]
      rw [← OrdMap.get?_erase]
      split_ifs with hnil
      · rw [OrdMap.entries_eq_nil.1 (List.isEmpty_iff.1 hnil) j]
        rfl
      · rfl

/-- Stores with the same cells are equal. -/
theorem ext_slotAt {mv mv' : MvStore} (h : ∀ a i, mv.slotAt a i = mv'.slotAt a i) : mv = mv' := by
  have hrow : ∀ a, mv.row a = mv'.row a := fun a => OrdMap.ext_get? (h a)
  have hget : ∀ a, mv.versions.get? a = mv'.versions.get? a := by
    intro a
    have ha := hrow a
    have hocc := mv.occupied a
    have hocc' := mv'.occupied a
    unfold row at ha
    cases hm : mv.versions.get? a <;> cases hm' : mv'.versions.get? a <;>
      simp_all [eq_comm]
  obtain ⟨versions, _⟩ := mv
  obtain ⟨versions', _⟩ := mv'
  have hv : versions = versions' := OrdMap.ext_get? hget
  subst hv
  rfl

/-! ## Reads look below -/

/-- Two stores agree on every cell below `i`. -/
def AgreeBelow (mv mv' : MvStore) (i : TxnIdx) : Prop :=
  ∀ a, ∀ j < i, mv.slotAt a j = mv'.slotAt a j

theorem AgreeBelow.mono {mv mv' : MvStore} {i j : TxnIdx} (h : AgreeBelow mv mv' i) (hj : j ≤ i) :
    AgreeBelow mv mv' j := fun a k hk => h a k (hk.trans_le hj)

theorem AgreeBelow.lastBelow_eq {mv mv' : MvStore} {i : TxnIdx} (h : AgreeBelow mv mv' i)
    (a : Address) : (mv.row a).lastBelow i = (mv'.row a).lastBelow i :=
  OrdMap.lastBelow_congr (h a)

theorem AgreeBelow.read_eq {mv mv' : MvStore} {i : TxnIdx} (h : AgreeBelow mv mv' i) (s : State)
    (a : Address) : mv.read s a i = mv'.read s a i := by
  rw [MvStore.read_eq, MvStore.read_eq, h.lastBelow_eq]

theorem AgreeBelow.highestWriterBelow_eq {mv mv' : MvStore} {i : TxnIdx} (h : AgreeBelow mv mv' i)
    (a : Address) : mv.highestWriterBelow a i = mv'.highestWriterBelow a i := by
  rw [MvStore.highestWriterBelow_eq, MvStore.highestWriterBelow_eq, h.lastBelow_eq]

/-- A read that resolves against a version finds that version's cell, below the reader. -/
theorem read_version {mv : MvStore} {s : State} {a : Address} {i k : TxnIdx} {slot : BalanceSlot}
    (h : mv.read s a i = (slot, .version k)) : k < i ∧ mv.slotAt a k = some slot := by
  rw [read_eq] at h
  split at h
  · next v slot' hlast =>
      obtain ⟨rfl, hsrc⟩ := Prod.mk.inj h
      obtain rfl := ReadSource.version.inj hsrc
      obtain ⟨hlt, hget, -⟩ := OrdMap.lastBelow_eq_some.1 hlast
      exact ⟨hlt, hget⟩
  · cases (Prod.mk.inj h).2

theorem read_snapshot {mv : MvStore} {s : State} {a : Address} {i : TxnIdx} {slot : BalanceSlot}
    (h : mv.read s a i = (slot, .snapshot)) : slot = s.slotOf a := by
  rw [read_eq] at h
  split at h
  · cases (Prod.mk.inj h).2
  · exact (Prod.mk.inj h).1.symm

end MvStore

/-! ## Transactions and their validation -/

/-- One observed read. -/
structure ReadEntry where
  addr : Address
  source : ReadSource
  deriving DecidableEq

/-- One intended write. -/
structure WriteEntry where
  addr : Address
  value : BalanceSlot
  deriving DecidableEq

/-- What a speculative run recorded. -/
structure Txn where
  idx : TxnIdx := 0
  readSet : List ReadEntry := []
  writeSet : List WriteEntry := []
  rejected : Option RejectReason := none
  deriving DecidableEq, Inhabited

namespace Validator

/-- A recorded source against the highest writer there is now. -/
def stillConsistent : ReadSource → Option TxnIdx → Bool
  | .snapshot, none => true
  | .version v, some c => v == c
  | .snapshot, some _ => false
  | .version _, none => false

/-- `Validator::is_valid`. -/
def isValid (txn : Txn) (mv : MvStore) : Bool :=
  txn.readSet.all fun entry =>
    stillConsistent entry.source (mv.highestWriterBelow entry.addr txn.idx)

/-- A read that the store would resolve against the same source today is still consistent. -/
theorem stillConsistent_read (mv : MvStore) (s : State) (a : Address) (i : TxnIdx) :
    stillConsistent (mv.read s a i).2 (mv.highestWriterBelow a i) = true := by
  rw [MvStore.read_eq, MvStore.highestWriterBelow_eq]
  cases (mv.row a).lastBelow i with
  | none => rfl
  | some p => simp [stillConsistent]

/-- A consistent source is the source the store would report today, with the value of that cell. -/
theorem read_of_stillConsistent {mv : MvStore} {s : State} {a : Address} {i : TxnIdx}
    {src : ReadSource} {slot : BalanceSlot}
    (h : stillConsistent src (mv.highestWriterBelow a i) = true)
    (hversion : ∀ k, src = .version k → mv.slotAt a k = some slot)
    (hsnapshot : src = .snapshot → slot = s.slotOf a) : mv.read s a i = (slot, src) := by
  rw [MvStore.highestWriterBelow_eq] at h
  rw [MvStore.read_eq]
  cases hlast : (mv.row a).lastBelow i with
  | none =>
      cases src with
      | version k => simp [hlast, stillConsistent] at h
      | snapshot => simp [hsnapshot rfl]
  | some p =>
      obtain ⟨v, w⟩ := p
      cases src with
      | snapshot => simp [hlast, stillConsistent] at h
      | version k =>
          have hk : k = v := by simpa [hlast, stillConsistent] using h
          subst hk
          obtain ⟨-, hget, -⟩ := OrdMap.lastBelow_eq_some.1 hlast
          have hslot := hversion k rfl
          rw [MvStore.slotAt, hget] at hslot
          simp [Option.some.inj hslot]

end Validator

end SuwappuDb
