import SuwappuDb.Lib.Bytes
import SuwappuDb.Lib.OrdMap

/-!
# The authoritative state

`crates/suwappudb-state/src/{lib,balance_slot,nonce_semantics,store}.rs`: addresses, balance
slots, the in-memory balance store and `State::apply`, the one way a state changes.

A machine integer is a `Fin`. Rust's `-` on `u128` has no result when it would go below zero (it
panics, or wraps in a build without overflow checks), so `sub?` is `none` there and a model that
subtracts has to say where the `none` goes.

The `HashMap` of slots is an `OrdMap`; what visits its entries takes the order of the visit as an
`IterOrder`.
-/

namespace SuwappuDb

/-! ## Machine integers -/

abbrev U64 := Fin (2 ^ 64)
abbrev U128 := Fin (2 ^ 128)

instance U64.neZero : NeZero (2 ^ 64) := ⟨by decide⟩
instance U128.neZero : NeZero (2 ^ 128) := ⟨by decide⟩

/-- `checked_add`. -/
def checkedAdd (a b : U128) : Option U128 :=
  if h : a.val + b.val < 2 ^ 128 then some ⟨a.val + b.val, h⟩ else none

/-- Rust's `a - b`: no result when it would wrap around. -/
def sub? (a b : U128) : Option U128 :=
  if b ≤ a then some ⟨a.val - b.val, by omega⟩ else none

theorem checkedAdd_eq_some {a b c : U128} : checkedAdd a b = some c ↔ a.val + b.val = c.val := by
  unfold checkedAdd
  split_ifs with h
  · simp [Fin.ext_iff]
  · have hc := c.isLt
    simp only [false_iff]
    omega

theorem checkedAdd_eq_none {a b : U128} : checkedAdd a b = none ↔ 2 ^ 128 ≤ a.val + b.val := by
  unfold checkedAdd
  split_ifs with h
  · simp only [false_iff]
    omega
  · simpa using h

theorem sub?_of_not_lt {a b : U128} (h : ¬ a < b) :
    sub? a b = some ⟨a.val - b.val, by omega⟩ :=
  if_pos (not_lt.1 h)

theorem sub?_eq_sub {a b : U128} (h : ¬ a < b) : sub? a b = some (a - b) := by
  rw [sub?_of_not_lt h]
  exact congrArg some (Fin.ext (Fin.sub_val_of_le (not_lt.1 h)).symm)

/-! ## Addresses and slots -/

/-- A 20-byte address. -/
abbrev Address := ByteArr 20

/-- A 32-byte Move address. -/
abbrev MoveAddress := ByteArr 32

abbrev Balance := U128

/-- The nonce both VMs share. -/
structure AccountNonce where
  value : U64 := 0
  deriving DecidableEq, Inhabited

/-- `AccountNonce::next`: `saturating_add`. -/
def AccountNonce.next (n : AccountNonce) : AccountNonce :=
  if h : n.value.val + 1 < 2 ^ 64 then ⟨⟨n.value.val + 1, h⟩⟩ else n

/-- A canonical balance and nonce, with one projection for each VM. -/
structure BalanceSlot where
  canonical : U128 := 0
  nonce : AccountNonce := {}
  deriving DecidableEq, Inhabited

/-- `BalanceSlot::new`: the nonce is zero. -/
def BalanceSlot.new (value : U128) : BalanceSlot := { canonical := value }

theorem BalanceSlot.new_canonical_eq_iff {slot : BalanceSlot} :
    BalanceSlot.new slot.canonical = slot ↔ slot.nonce = {} := by
  constructor
  · intro h
    rw [← h]
    rfl
  · intro h
    cases slot
    cases h
    rfl

/-- Slots without nonces are their balances. -/
theorem map_new_canonical {m : OrdMap Address BalanceSlot}
    (h : ∀ a slot, m.get? a = some slot → slot.nonce = {}) :
    (m.entries.map fun p => (p.1, BalanceSlot.new p.2.canonical)) = m.entries := by
  refine (List.map_congr_left fun p hp => ?_).trans (List.map_id _)
  have hzero := h p.1 p.2 (OrdMap.mem_entries.1 hp)
  exact Prod.ext rfl (BalanceSlot.new_canonical_eq_iff.2 hzero)

/-! ## The balance store -/

theorem get?_empty_ne_blob (a : Address) : (∅ : OrdMap Address (List Byte)).get? a ≠ some [] := by
  simp

/-- `InMemoryBalanceStore`: the slots, and the bytes column, which never holds an empty blob. -/
structure InMemoryBalanceStore where
  slots : OrdMap Address BalanceSlot := ∅
  bytes : OrdMap Address (List Byte) := ∅
  filled : ∀ a, bytes.get? a ≠ some [] := by exact get?_empty_ne_blob

namespace InMemoryBalanceStore

/-- The slot at `addr`, or the default slot. -/
def get (s : InMemoryBalanceStore) (addr : Address) : BalanceSlot :=
  (s.slots.get? addr).getD {}

def set (s : InMemoryBalanceStore) (addr : Address) (slot : BalanceSlot) : InMemoryBalanceStore :=
  { s with slots := s.slots.insert addr slot }

/-- The slots, in the order the `HashMap` is visited. -/
def entries (s : InMemoryBalanceStore) (order : IterOrder) : List (Address × BalanceSlot) :=
  order.arrange s.slots.entries

def getBytes (s : InMemoryBalanceStore) (addr : Address) : Option (List Byte) :=
  s.bytes.get? addr

/-- An empty blob clears the entry. -/
def setBytes (s : InMemoryBalanceStore) (addr : Address) (blob : List Byte) :
    InMemoryBalanceStore :=
  if h : blob = [] then
    { s with
      bytes := s.bytes.erase addr
      filled := fun a => by
        rw [OrdMap.get?_erase]
        split_ifs
        · simp
        · exact s.filled a }
  else
    { s with
      bytes := s.bytes.insert addr blob
      filled := fun a => by
        rw [OrdMap.get?_insert]
        split_ifs
        · simpa using h
        · exact s.filled a }

def bytesEntries (s : InMemoryBalanceStore) : List (Address × List Byte) := s.bytes.entries

end InMemoryBalanceStore

/-! ## The state -/

/-- `State` over the in-memory backend. -/
structure State where
  store : InMemoryBalanceStore := {}

instance : Inhabited State := ⟨{}⟩

/-- A validated change to the state. -/
inductive StateChange where
  | setBalance (addr : Address) (bal : Balance)
  | setBytes (addr : Address) (bytes : List Byte)

namespace State

def balanceOf (s : State) (addr : Address) : Balance := (s.store.get addr).canonical

def slotOf (s : State) (addr : Address) : BalanceSlot := s.store.get addr

def entries (s : State) (order : IterOrder) : List (Address × BalanceSlot) := s.store.entries order

def bytesOf (s : State) (addr : Address) : Option (List Byte) := s.store.getBytes addr

def bytesEntries (s : State) : List (Address × List Byte) := s.store.bytesEntries

/-- `State::apply`. Setting a balance writes a fresh slot, so it also zeroes the nonce. -/
def apply (s : State) : StateChange → State
  | .setBalance addr bal => ⟨s.store.set addr (BalanceSlot.new bal)⟩
  | .setBytes addr bytes => ⟨s.store.setBytes addr bytes⟩

/-- The addresses that have an entry. -/
def HasEntry (s : State) (addr : Address) : Prop := (s.store.slots.get? addr).isSome

instance (s : State) (addr : Address) : Decidable (s.HasEntry addr) :=
  inferInstanceAs (Decidable ((s.store.slots.get? addr).isSome))

/-- States with the same slots and the same bytes are equal. -/
theorem ext_columns {s t : State} (hs : ∀ a, s.store.slots.get? a = t.store.slots.get? a)
    (hb : ∀ a, s.bytesOf a = t.bytesOf a) : s = t := by
  obtain ⟨⟨slots, bytes, _⟩⟩ := s
  obtain ⟨⟨slots', bytes', _⟩⟩ := t
  have hslots : slots = slots' := OrdMap.ext_get? hs
  have hbytes : bytes = bytes' := OrdMap.ext_get? hb
  subst hslots hbytes
  rfl

theorem get?_slots_setBalance (s : State) (addr a : Address) (bal : Balance) :
    (s.apply (.setBalance addr bal)).store.slots.get? a =
      if a = addr then some (BalanceSlot.new bal) else s.store.slots.get? a :=
  OrdMap.get?_insert _ _ _ _

theorem slotOf_setBalance (s : State) (addr a : Address) (bal : Balance) :
    (s.apply (.setBalance addr bal)).slotOf a =
      if a = addr then BalanceSlot.new bal else s.slotOf a := by
  simp only [slotOf, InMemoryBalanceStore.get, get?_slots_setBalance]
  split_ifs <;> rfl

theorem balanceOf_setBalance (s : State) (addr a : Address) (bal : Balance) :
    (s.apply (.setBalance addr bal)).balanceOf a = if a = addr then bal else s.balanceOf a := by
  have h := congrArg BalanceSlot.canonical (slotOf_setBalance s addr a bal)
  rw [apply_ite BalanceSlot.canonical] at h
  exact h

/-- Set balances, one after another. -/
def setBalances (s : State) (writes : List (Address × Balance)) : State :=
  writes.foldl (fun s p => s.apply (.setBalance p.1 p.2)) s

/-- Setting the balances of distinct addresses. -/
theorem get?_slots_setBalances (s : State) {l : List (Address × Balance)}
    (hnodup : (l.map Prod.fst).Nodup) (a : Address) :
    (l.foldl (fun s p => s.apply (.setBalance p.1 p.2)) s).store.slots.get? a =
      ((l.lookup a).map BalanceSlot.new).or (s.store.slots.get? a) := by
  induction l generalizing s with
  | nil => rfl
  | cons p rest ih =>
      obtain ⟨hnot, hrest⟩ := List.nodup_cons.1 hnodup
      rw [List.foldl_cons, ih _ hrest, get?_slots_setBalance, lookup_cons_ite]
      by_cases ha : a = p.1
      · subst ha
        simp [lookup_eq_none_iff.2 hnot]
      · simp [ha]

end State

/-! ## A small state -/

/-- The address with the one byte `b`. -/
def smallAddress (b : Byte) : Address := ⟨List.replicate 19 0 ++ [b], by simp⟩

/-- Address 1 holds 100. -/
def smallState : State := ({} : State).apply (.setBalance (smallAddress 1) 100)

end SuwappuDb
