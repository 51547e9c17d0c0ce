import SuwappuDb.Lib.TxnStore
import SuwappuDb.StateTree

/-!
# The durable balance store

`crates/suwappudb-state/src/redb_store.rs`: `RedbBalanceStore`, with the operations of the
`BalanceStore` trait and the table of nonces. The crate `redb` is a parameter, a `TxnStore`: every
call of it may return an error, on which the store panics. A panic is `none`, and so is one of an
assertion.

The tables of a database are a function of an in-memory store and of the nonces that were written
(`fileOf`): keys are the addresses' bytes, a slot is its balance in 16 bytes, a blob is itself.
Every operation keeps this (`Holds.set`, `Holds.setBytes`, `Holds.setEvmNonce`), and opening a file
again does. The nonce of a slot is not in the table, so a slot is read back with nonce zero, and the
backends are interchangeable exactly while all nonces are (`backends_interchangeable_iff`).
-/

namespace SuwappuDb

open TxnStore

/-! ## The store -/

/-- The tables of `redb_store.rs`. -/
inductive Table where
  | state
  | aggregates
  | evmStorage
  | evmNonces
  | moveResources
  | bytesState
  deriving DecidableEq

def ALL_TABLES : List Table :=
  [.state, .aggregates, .evmStorage, .evmNonces, .moveResources, .bytesState]

theorem mem_ALL_TABLES (table : Table) : table ∈ ALL_TABLES := by
  cases table <;> decide

namespace RedbBalanceStore

def VALUE_LEN : Nat := 16

def encodeValue (slot : BalanceSlot) : List Byte := U128.toBeBytes slot.canonical

def decodeValue (bytes : List Byte) : Option BalanceSlot :=
  if bytes.length = VALUE_LEN then some (BalanceSlot.new (Fin.ofNat (2 ^ 128) (beValue bytes)))
  else none

/-- The address whose bytes are a key. -/
def keyAddress (key : List Byte) : Option Address :=
  if h : key.length = 20 then some ⟨key, h⟩ else none

/-- A row of the balances, or none. -/
def slotOfRow : Option (List Byte) → Option BalanceSlot
  | some v => decodeValue v
  | none => some {}

/-- `u64::to_be_bytes`. -/
def encodeNonce (nonce : U64) : List Byte := beBytes 8 nonce.val

/-- A row of the nonces, or none. -/
def nonceOfRow : Option (List Byte) → Option (Option U64)
  | some v => if v.length = 8 then some (some (Fin.ofNat (2 ^ 64) (beValue v))) else none
  | none => some none

section Calls

variable (redb : TxnStore Table)

/-- `RedbBalanceStore::open`: every table is there afterwards. -/
def openFile (file : redb.File) : Option redb.Db := do
  let db ← redb.create file
  let txn ← redb.beginWrite db
  let txn ← ALL_TABLES.foldlM redb.openWrite txn
  redb.commit txn

/-- The points of a transaction that opens some tables, as far as its calls succeed. -/
def txnPoints : redb.WriteTxn → List Table → List redb.Point
  | txn, [] => [.busy txn]
  | txn, table :: tables => .busy txn :: match redb.openWrite txn table with
      | none => []
      | some txn => txnPoints txn tables

/-- The points of `openFile`, as far as its calls succeed. -/
def openPoints (file : redb.File) : List redb.Point :=
  .closed file :: match redb.create file with
    | none => []
    | some db => .idle db :: match redb.beginWrite db with
      | none => []
      | some txn => txnPoints redb txn ALL_TABLES

/-- The change that `set` makes in its transaction. -/
def setChange (addr : Address) (slot : BalanceSlot) (txn : redb.WriteTxn) : Option redb.WriteTxn :=
  redb.insert txn .state addr.val (encodeValue slot)

/-- The change that `set_bytes` makes: an empty blob clears the entry. -/
def setBytesChange (addr : Address) (bytes : List Byte) (txn : redb.WriteTxn) :
    Option redb.WriteTxn :=
  if bytes = [] then redb.remove txn .bytesState addr.val
  else redb.insert txn .bytesState addr.val bytes

/-- The change that `set_evm_nonce` makes. -/
def setEvmNonceChange (addr : Address) (nonce : U64) (txn : redb.WriteTxn) : Option redb.WriteTxn :=
  redb.insert txn .evmNonces addr.val (encodeNonce nonce)

variable (db : redb.Db)

def get (addr : Address) : Option BalanceSlot := do
  let table ← redb.readTable db .state
  slotOfRow (← redb.get table addr.val)

def set (addr : Address) (slot : BalanceSlot) : Option redb.Db :=
  redb.writeTable db .state (setChange redb addr slot)

def len : Option Nat := do
  let table ← redb.readTable db .state
  redb.len table

def entries : Option (List (Address × BalanceSlot)) := do
  let table ← redb.readTable db .state
  let rows ← redb.iter table
  rows.mapM fun row => do
    let (k, v) ← row
    let addr ← keyAddress k
    let slot ← decodeValue v
    return (addr, slot)

def getBytes (addr : Address) : Option (Option (List Byte)) := do
  let table ← redb.readTable db .bytesState
  redb.get table addr.val

def setBytes (addr : Address) (bytes : List Byte) : Option redb.Db :=
  redb.writeTable db .bytesState (setBytesChange redb addr bytes)

def bytesEntries : Option (List (Address × List Byte)) := do
  let table ← redb.readTable db .bytesState
  let rows ← redb.iter table
  rows.mapM fun row => do
    let (k, v) ← row
    let addr ← keyAddress k
    return (addr, v)

def setEvmNonce (addr : Address) (nonce : U64) : Option redb.Db :=
  redb.writeTable db .evmNonces (setEvmNonceChange redb addr nonce)

def getEvmNonce (addr : Address) : Option (Option U64) := do
  let table ← redb.readTable db .evmNonces
  nonceOfRow (← redb.get table addr.val)

end Calls

end RedbBalanceStore

/-- `InMemoryBalanceStore::len`. -/
def InMemoryBalanceStore.len (store : InMemoryBalanceStore) : Nat := store.slots.entries.length

/-! ## Operations -/

/-- A write to a balance store. -/
inductive BalanceOp where
  | set (addr : Address) (slot : BalanceSlot)
  | setBytes (addr : Address) (bytes : List Byte)

def RedbBalanceStore.exec (redb : TxnStore Table) (db : redb.Db) : BalanceOp → Option redb.Db
  | .set addr slot => set redb db addr slot
  | .setBytes addr bytes => setBytes redb db addr bytes

def InMemoryBalanceStore.exec (store : InMemoryBalanceStore) : BalanceOp → InMemoryBalanceStore
  | .set addr slot => store.set addr slot
  | .setBytes addr bytes => store.setBytes addr bytes

/-- From a file that is not there yet. -/
def RedbBalanceStore.run (redb : TxnStore Table) (ops : List BalanceOp) : Option redb.Db := do
  let db ← openFile redb redb.fresh
  ops.foldlM (exec redb) db

def InMemoryBalanceStore.run (ops : List BalanceOp) : InMemoryBalanceStore := ops.foldl exec {}

/-- The slot that an operation sets, with its address. -/
def BalanceOp.slot? : BalanceOp → Option (Address × BalanceSlot)
  | .set addr slot => some (addr, slot)
  | .setBytes _ _ => none

/-- The slot last set at an address. -/
def lastSet (ops : List BalanceOp) (a : Address) : Option BalanceSlot :=
  OrdMap.lastAt a (ops.filterMap BalanceOp.slot?)

namespace RedbBalanceStore

/-! ## The tables of an in-memory store -/

/-- Addresses as byte strings, in the same order. -/
def addressKey : Address ↪o List Byte := OrderEmbedding.subtype _

/-- The tables that hold what an in-memory store holds, and some nonces. -/
def fileOf (store : InMemoryBalanceStore) (nonces : OrdMap Address U64) : Tables Table
  | .state => some (store.slots.embed addressKey encodeValue)
  | .bytesState => some (store.bytes.embed addressKey id)
  | .evmNonces => some (nonces.embed addressKey encodeNonce)
  | _ => some ∅

section FileOf

variable (store : InMemoryBalanceStore) (nonces : OrdMap Address U64) (addr : Address)

theorem fileOf_set (slot : BalanceSlot) :
    Function.update (fileOf store nonces) .state (some ((store.slots.embed addressKey
      encodeValue).insert addr.val (encodeValue slot))) = fileOf (store.set addr slot) nonces := by
  funext table
  rw [Function.update_apply]
  split_ifs with htable
  · subst htable
    exact congrArg some (OrdMap.embed_insert addressKey encodeValue store.slots addr slot).symm
  · cases table with
    | state => exact absurd rfl htable
    | _ => rfl

theorem fileOf_setBytes (bytes : List Byte) :
    Function.update (fileOf store nonces) .bytesState (some (if bytes = [] then
      (store.bytes.embed addressKey id).erase addr.val
      else (store.bytes.embed addressKey id).insert addr.val bytes)) =
        fileOf (store.setBytes addr bytes) nonces := by
  have hslots : (store.setBytes addr bytes).slots = store.slots := by
    rw [InMemoryBalanceStore.setBytes]
    split_ifs <;> rfl
  funext table
  rw [Function.update_apply]
  split_ifs with htable hempty
  · subst htable
    show _ = some ((store.setBytes addr bytes).bytes.embed addressKey id)
    rw [InMemoryBalanceStore.setBytes, dif_pos hempty]
    exact congrArg some (OrdMap.embed_erase addressKey id store.bytes addr).symm
  · subst htable
    show _ = some ((store.setBytes addr bytes).bytes.embed addressKey id)
    rw [InMemoryBalanceStore.setBytes, dif_neg hempty]
    exact congrArg some (OrdMap.embed_insert addressKey id store.bytes addr bytes).symm
  · cases table with
    | bytesState => exact absurd rfl htable
    | state =>
        show _ = some ((store.setBytes addr bytes).slots.embed addressKey encodeValue)
        rw [hslots]
        rfl
    | _ => rfl

theorem fileOf_setEvmNonce (nonce : U64) :
    Function.update (fileOf store nonces) .evmNonces (some ((nonces.embed addressKey
      encodeNonce).insert addr.val (encodeNonce nonce))) =
        fileOf store (nonces.insert addr nonce) := by
  funext table
  rw [Function.update_apply]
  split_ifs with htable
  · subst htable
    exact congrArg some (OrdMap.embed_insert addressKey encodeNonce nonces addr nonce).symm
  · cases table with
    | evmNonces => exact absurd rfl htable
    | _ => rfl

/-- All tables are there. -/
theorem getD_fileOf :
    (fun table => some ((fileOf store nonces table).getD ∅)) = fileOf store nonces := by
  funext table
  cases table <;> rfl

theorem decodeValue_encodeValue (slot : BalanceSlot) :
    decodeValue (encodeValue slot) = some (BalanceSlot.new slot.canonical) := by
  have hlen : (encodeValue slot).length = VALUE_LEN := length_beBytes 16 _
  have hvalue : beValue (encodeValue slot) = slot.canonical.val :=
    beValue_beBytes slot.canonical.isLt
  rw [decodeValue, if_pos hlen, hvalue]
  simp

theorem keyAddress_addressKey (addr : Address) : keyAddress (addressKey addr) = some addr :=
  dif_pos addr.property

theorem slotOfRow_embed : slotOfRow ((store.slots.embed addressKey encodeValue).get? addr.val) =
    some (BalanceSlot.new (store.get addr).canonical) := by
  have hrow : (store.slots.embed addressKey encodeValue).get? addr.val =
      (store.slots.get? addr).map encodeValue :=
    OrdMap.get?_embed addressKey encodeValue store.slots addr
  rw [hrow, InMemoryBalanceStore.get]
  cases store.slots.get? addr with
  | none => rfl
  | some slot => exact decodeValue_encodeValue slot

theorem nonceOfRow_embed :
    nonceOfRow ((nonces.embed addressKey encodeNonce).get? addr.val) = some (nonces.get? addr) := by
  have hrow : (nonces.embed addressKey encodeNonce).get? addr.val =
      (nonces.get? addr).map encodeNonce :=
    OrdMap.get?_embed addressKey encodeNonce nonces addr
  rw [hrow]
  cases nonces.get? addr with
  | none => rfl
  | some nonce =>
      have hlen : (encodeNonce nonce).length = 8 := length_beBytes 8 _
      have hvalue : beValue (encodeNonce nonce) = nonce.val := beValue_beBytes nonce.isLt
      simp [nonceOfRow, hlen, hvalue]

end FileOf

/-! ## What the calls keep -/

/-- The database holds what an in-memory store holds, and some nonces. -/
def Holds {redb : TxnStore Table} (view : redb.View) (db : redb.Db) (store : InMemoryBalanceStore)
    (nonces : OrdMap Address U64) : Prop :=
  view.contents db = fileOf store nonces

section Sound

variable {redb : TxnStore Table} {view : redb.View} (hsound : view.Sound) {db db' : redb.Db}
  {store : InMemoryBalanceStore} {nonces : OrdMap Address U64}

include hsound

theorem makes_set (addr : Address) (slot : BalanceSlot) :
    view.Makes .state (setChange redb addr slot) fun rows =>
      rows.insert addr.val (encodeValue slot) :=
  fun _ _ hchange => hsound.insert hchange

theorem makes_setBytes (addr : Address) (bytes : List Byte) :
    view.Makes .bytesState (setBytesChange redb addr bytes) fun rows =>
      if bytes = [] then rows.erase addr.val else rows.insert addr.val bytes := by
  intro txn txn' hchange
  unfold setBytesChange at hchange
  split_ifs at hchange ⊢
  · exact hsound.remove hchange
  · exact hsound.insert hchange

theorem makes_setEvmNonce (addr : Address) (nonce : U64) :
    view.Makes .evmNonces (setEvmNonceChange redb addr nonce) fun rows =>
      rows.insert addr.val (encodeNonce nonce) :=
  fun _ _ hchange => hsound.insert hchange

variable (h : Holds view db store nonces)

include h

theorem Holds.set {addr : Address} {slot : BalanceSlot}
    (hset : RedbBalanceStore.set redb db addr slot = some db') :
    Holds view db' (store.set addr slot) nonces := by
  rw [Holds, hsound.writeTable (congrFun h .state) (makes_set hsound addr slot) hset, h, fileOf_set]

theorem Holds.setBytes {addr : Address} {bytes : List Byte}
    (hset : RedbBalanceStore.setBytes redb db addr bytes = some db') :
    Holds view db' (store.setBytes addr bytes) nonces := by
  rw [Holds, hsound.writeTable (congrFun h .bytesState) (makes_setBytes hsound addr bytes) hset, h,
    fileOf_setBytes]

theorem Holds.setEvmNonce {addr : Address} {nonce : U64}
    (hset : RedbBalanceStore.setEvmNonce redb db addr nonce = some db') :
    Holds view db' store (nonces.insert addr nonce) := by
  rw [Holds, hsound.writeTable (congrFun h .evmNonces) (makes_setEvmNonce hsound addr nonce) hset,
    h, fileOf_setEvmNonce]

/-! A crash in a write leaves the tables as they were, or as they are to be. -/

theorem Holds.shows_set {addr : Address} {slot : BalanceSlot} {point : redb.Point}
    (hpoint : point ∈ redb.writePoints db .state (setChange redb addr slot)) {tables : Tables Table}
    (hshows : view.Shows point tables) :
    tables = fileOf store nonces ∨ tables = fileOf (store.set addr slot) nonces := by
  have hcases := hsound.shows_writePoints (congrFun h .state) (makes_set hsound addr slot) hpoint
    hshows
  rwa [h, fileOf_set] at hcases

theorem Holds.shows_setBytes {addr : Address} {bytes : List Byte} {point : redb.Point}
    (hpoint : point ∈ redb.writePoints db .bytesState (setBytesChange redb addr bytes))
    {tables : Tables Table} (hshows : view.Shows point tables) :
    tables = fileOf store nonces ∨ tables = fileOf (store.setBytes addr bytes) nonces := by
  have hcases := hsound.shows_writePoints (congrFun h .bytesState)
    (makes_setBytes hsound addr bytes) hpoint hshows
  rwa [h, fileOf_setBytes] at hcases

theorem Holds.shows_setEvmNonce {addr : Address} {nonce : U64} {point : redb.Point}
    (hpoint : point ∈ redb.writePoints db .evmNonces (setEvmNonceChange redb addr nonce))
    {tables : Tables Table} (hshows : view.Shows point tables) :
    tables = fileOf store nonces ∨ tables = fileOf store (nonces.insert addr nonce) := by
  have hcases := hsound.shows_writePoints (congrFun h .evmNonces)
    (makes_setEvmNonce hsound addr nonce) hpoint hshows
  rwa [h, fileOf_setEvmNonce] at hcases

/-- A balance that is read is the one that is held. -/
theorem Holds.get_of_some {addr : Address} {slot : BalanceSlot}
    (hget : RedbBalanceStore.get redb db addr = some slot) :
    slot = BalanceSlot.new (store.get addr).canonical := by
  obtain ⟨t, hread, hget⟩ := Option.bind_eq_some_iff.1 hget
  obtain ⟨row, hrow, hslot⟩ := Option.bind_eq_some_iff.1 hget
  have hrows : view.rows t = store.slots.embed addressKey encodeValue :=
    Option.some.inj ((hsound.readTable hread).symm.trans (congrFun h .state))
  rw [hsound.get hrow, hrows, slotOfRow_embed] at hslot
  exact (Option.some.inj hslot).symm

end Sound

/-! ### Opening -/

section Opening

variable {redb : TxnStore Table} {view : redb.View} (hsound : view.Sound)

include hsound

/-- The transaction that opens some tables. -/
theorem foldlM_openWrite {tables : List Table} {txn txn' : redb.WriteTxn}
    (h : tables.foldlM redb.openWrite txn = some txn') :
    view.before txn' = view.before txn ∧ ∀ table, view.pending txn' table =
      if table ∈ tables then some ((view.pending txn table).getD ∅)
      else view.pending txn table := by
  induction tables generalizing txn with
  | nil =>
      obtain rfl := Option.some.inj h
      exact ⟨rfl, fun _ => rfl⟩
  | cons first rest ih =>
      rw [List.foldlM_cons] at h
      obtain ⟨mid, hopen, hrest⟩ := Option.bind_eq_some_iff.1 h
      have hchanged := hsound.openWrite hopen
      obtain ⟨hbefore, hpending⟩ := ih hrest
      refine ⟨hbefore.trans hchanged.before, fun table => ?_⟩
      rw [hpending table, hchanged.pending, Function.update_apply]
      by_cases heq : table = first
      · subst heq
        simp
      · simp [heq]

/-- Opening a file creates what is missing and keeps the rest. -/
theorem contents_openFile {file : redb.File} {db : redb.Db} (h : openFile redb file = some db) :
    ∃ db₀, redb.create file = some db₀ ∧
      view.contents db = fun table => some ((view.contents db₀ table).getD ∅) := by
  obtain ⟨db₀, hcreate, h⟩ := Option.bind_eq_some_iff.1 h
  obtain ⟨txn, hbegin, h⟩ := Option.bind_eq_some_iff.1 h
  obtain ⟨txn', htables, hcommit⟩ := Option.bind_eq_some_iff.1 h
  refine ⟨db₀, hcreate, funext fun table => ?_⟩
  rw [hsound.commit hcommit, (foldlM_openWrite hsound htables).2, if_pos (mem_ALL_TABLES table),
    (hsound.beginWrite hbegin).2]

/-- A file that was just created holds nothing. -/
theorem holds_openFile_fresh {db : redb.Db} (h : openFile redb redb.fresh = some db) :
    Holds view db {} ∅ := by
  obtain ⟨db₀, hcreate, hcontents⟩ := contents_openFile hsound h
  rw [Holds, hcontents, hsound.create_fresh hcreate]
  funext table
  cases table <;> rfl

/-- A file that holds a store goes on doing so. -/
theorem holds_openFile {file : redb.File} {db : redb.Db} {store : InMemoryBalanceStore}
    {nonces : OrdMap Address U64}
    (hfile : ∀ {db₀}, redb.create file = some db₀ → view.contents db₀ = fileOf store nonces)
    (h : openFile redb file = some db) : Holds view db store nonces := by
  obtain ⟨db₀, hcreate, hcontents⟩ := contents_openFile hsound h
  rw [Holds, hcontents, hfile hcreate]
  exact getD_fileOf store nonces

/-- Opening tables that are there changes nothing. -/
theorem shows_txnPoints {store : InMemoryBalanceStore} {nonces : OrdMap Address U64}
    {opened : List Table} {txn : redb.WriteTxn} (hbefore : view.before txn = fileOf store nonces)
    (hpending : view.pending txn = fileOf store nonces) {point : redb.Point}
    (hpoint : point ∈ txnPoints redb txn opened) {tables : Tables Table}
    (hshows : view.Shows point tables) : tables = fileOf store nonces := by
  induction opened generalizing txn with
  | nil =>
      rw [List.mem_singleton.1 hpoint] at hshows
      exact or_self_iff.1 (hshows.busy hbefore hpending)
  | cons first rest ih =>
      rw [txnPoints] at hpoint
      rcases List.mem_cons.1 hpoint with rfl | hpoint
      · exact or_self_iff.1 (hshows.busy hbefore hpending)
      cases hopen : redb.openWrite txn first with
      | none =>
          rw [hopen] at hpoint
          cases hpoint
      | some txn' =>
          rw [hopen] at hpoint
          have hchanged := hsound.openWrite hopen
          have hsome : some ((fileOf store nonces first).getD ∅) = fileOf store nonces first :=
            congrFun (getD_fileOf store nonces) first
          refine ih (hchanged.before.trans hbefore) ?_ hpoint
          rw [hchanged.pending, hpending, hsome, Function.update_eq_self]

/-- Where the process can be while it opens a file whose tables are all there: nothing changes. -/
theorem shows_openPoints {file : redb.File} {store : InMemoryBalanceStore}
    {nonces : OrdMap Address U64}
    (hfile : ∀ {db}, redb.create file = some db → view.contents db = fileOf store nonces)
    {point : redb.Point} (hpoint : point ∈ openPoints redb file) {tables : Tables Table}
    (hshows : view.Shows point tables) : tables = fileOf store nonces := by
  unfold openPoints at hpoint
  rcases List.mem_cons.1 hpoint with rfl | hpoint
  · obtain ⟨db, hcreate, rfl⟩ := hshows
    exact hfile hcreate
  cases hcreate : redb.create file with
  | none =>
      rw [hcreate] at hpoint
      cases hpoint
  | some db =>
      rw [hcreate] at hpoint
      rcases List.mem_cons.1 hpoint with rfl | hpoint
      · exact hshows.trans (hfile hcreate)
      cases hbegin : redb.beginWrite db with
      | none =>
          rw [hbegin] at hpoint
          cases hpoint
      | some txn =>
          rw [hbegin] at hpoint
          obtain ⟨hbefore, hpending⟩ := hsound.beginWrite hbegin
          exact shows_txnPoints hsound (hbefore.trans (hfile hcreate))
            (hpending.trans (hfile hcreate)) hpoint hshows

end Opening

/-! ## Calls that succeed -/

section Faultless

variable {redb : TxnStore Table} {view : redb.View} (hfault : view.Faultless) (db : redb.Db)

include hfault

theorem foldlM_openWrite_isSome (tables : List Table) (txn : redb.WriteTxn) :
    ∃ txn', tables.foldlM redb.openWrite txn = some txn' := by
  induction tables generalizing txn with
  | nil => exact ⟨txn, rfl⟩
  | cons first rest ih =>
      obtain ⟨mid, hmid⟩ := Option.isSome_iff_exists.1 (hfault.openWrite txn first)
      obtain ⟨txn', hrest⟩ := ih mid
      exact ⟨txn', by rw [List.foldlM_cons, hmid]; exact hrest⟩

theorem openFile_isSome {file : redb.File} (hcreate : (redb.create file).isSome) :
    ∃ db, openFile redb file = some db := by
  obtain ⟨db₀, hdb₀⟩ := Option.isSome_iff_exists.1 hcreate
  obtain ⟨txn, hbegin⟩ := Option.isSome_iff_exists.1 (hfault.beginWrite db₀)
  obtain ⟨txn', htables⟩ := foldlM_openWrite_isSome hfault ALL_TABLES txn
  obtain ⟨db, hcommit⟩ := Option.isSome_iff_exists.1 (hfault.commit txn')
  refine ⟨db, ?_⟩
  rw [openFile, hdb₀]
  simp [hbegin, htables, hcommit]

theorem set_isSome (addr : Address) (slot : BalanceSlot) :
    ∃ db', RedbBalanceStore.set redb db addr slot = some db' :=
  hfault.writeTable db .state fun txn => hfault.insert txn _ _ _

theorem setBytes_isSome (addr : Address) (bytes : List Byte) :
    ∃ db', RedbBalanceStore.setBytes redb db addr bytes = some db' := by
  refine hfault.writeTable db .bytesState fun txn => ?_
  unfold setBytesChange
  split_ifs
  · exact hfault.remove txn _ _
  · exact hfault.insert txn _ _ _

theorem setEvmNonce_isSome (addr : Address) (nonce : U64) :
    ∃ db', RedbBalanceStore.setEvmNonce redb db addr nonce = some db' :=
  hfault.writeTable db .evmNonces fun txn => hfault.insert txn _ _ _

end Faultless

/-! ### Queries -/

section Queries

variable {redb : TxnStore Table} {view : redb.View} (hsound : view.Sound)
  (hfault : view.Faultless) {db : redb.Db} {store : InMemoryBalanceStore}
  {nonces : OrdMap Address U64} (h : Holds view db store nonces)

include hsound hfault

/-- A row of a table that is there. -/
theorem read_row {table : Table} {rows : OrdMap (List Byte) (List Byte)}
    (hrows : view.contents db table = some rows) (key : List Byte) :
    ∃ t, redb.readTable db table = some t ∧ redb.get t key = some (rows.get? key) := by
  obtain ⟨t, hread, rfl⟩ := hfault.readTable hsound hrows
  obtain ⟨value, hget⟩ := Option.isSome_iff_exists.1 (hfault.get t key)
  exact ⟨t, hread, by rw [hget, hsound.get hget]⟩

/-- All rows of a table that is there. -/
theorem read_rows {table : Table} {rows : OrdMap (List Byte) (List Byte)}
    (hrows : view.contents db table = some rows) :
    ∃ t, redb.readTable db table = some t ∧ redb.len t = some rows.entries.length ∧
      redb.iter t = some (rows.entries.map some) := by
  obtain ⟨t, hread, rfl⟩ := hfault.readTable hsound hrows
  obtain ⟨n, hlen⟩ := Option.isSome_iff_exists.1 (hfault.len t)
  obtain ⟨items, hiter⟩ := hfault.iter t
  have hitems : items = (view.rows t).entries :=
    hsound.iter hiter (List.mapM_map.trans (List.mapM_pure.trans (congrArg some (List.map_id _))))
  exact ⟨t, hread, by rw [hlen, hsound.len hlen], by rw [hiter, hitems]⟩

include h

theorem get_of_holds (addr : Address) :
    RedbBalanceStore.get redb db addr = some (BalanceSlot.new (store.get addr).canonical) := by
  obtain ⟨t, hread, hget⟩ := read_row hsound hfault (congrFun h .state) addr.val
  rw [RedbBalanceStore.get, hread]
  simp only [Option.bind_eq_bind, Option.bind_some, hget]
  exact slotOfRow_embed store addr

theorem getEvmNonce_of_holds (addr : Address) :
    getEvmNonce redb db addr = some (nonces.get? addr) := by
  obtain ⟨t, hread, hget⟩ := read_row hsound hfault (congrFun h .evmNonces) addr.val
  rw [getEvmNonce, hread]
  simp only [Option.bind_eq_bind, Option.bind_some, hget]
  exact nonceOfRow_embed nonces addr

theorem len_of_holds : RedbBalanceStore.len redb db = some store.len := by
  obtain ⟨t, hread, hlen, -⟩ := read_rows hsound hfault (congrFun h .state)
  rw [RedbBalanceStore.len, hread]
  simp only [Option.bind_eq_bind, Option.bind_some, hlen]
  exact congrArg some (List.length_map _)

theorem entries_of_holds : RedbBalanceStore.entries redb db =
    some (store.slots.entries.map fun p => (p.1, BalanceSlot.new p.2.canonical)) := by
  obtain ⟨t, hread, -, hiter⟩ := read_rows hsound hfault (congrFun h .state)
  rw [RedbBalanceStore.entries, hread]
  simp only [Option.bind_eq_bind, Option.bind_some, hiter, List.mapM_map]
  refine List.mapM_map.trans (Eq.trans ?_ List.mapM_pure)
  congr 1
  funext p
  show ((keyAddress (addressKey p.1)).bind fun addr =>
    (decodeValue (encodeValue p.2)).bind fun slot => some (addr, slot)) = _
  rw [keyAddress_addressKey, decodeValue_encodeValue]
  rfl

theorem getBytes_of_holds (addr : Address) :
    RedbBalanceStore.getBytes redb db addr = some (store.getBytes addr) := by
  obtain ⟨t, hread, hget⟩ := read_row hsound hfault (congrFun h .bytesState) addr.val
  rw [RedbBalanceStore.getBytes, hread]
  simp only [Option.bind_eq_bind, Option.bind_some, hget]
  exact congrArg some ((OrdMap.get?_embed addressKey id store.bytes addr).trans Option.map_id')

theorem bytesEntries_of_holds :
    RedbBalanceStore.bytesEntries redb db = some store.bytesEntries := by
  obtain ⟨t, hread, -, hiter⟩ := read_rows hsound hfault (congrFun h .bytesState)
  have hmap : store.bytes.entries.map (fun p => (p.1, p.2)) = store.bytes.entries := List.map_id _
  rw [RedbBalanceStore.bytesEntries, hread]
  simp only [Option.bind_eq_bind, Option.bind_some, hiter, List.mapM_map]
  rw [InMemoryBalanceStore.bytesEntries, ← hmap]
  refine List.mapM_map.trans (Eq.trans ?_ List.mapM_pure)
  congr 1
  funext p
  show ((keyAddress (addressKey p.1)).bind fun addr => some (addr, p.2)) = _
  rw [keyAddress_addressKey]
  rfl

end Queries

end RedbBalanceStore

/-! ## Interchangeable backends -/

theorem slots_exec (store : InMemoryBalanceStore) (op : BalanceOp) :
    (store.exec op).slots = store.slots.insertAll op.slot?.toList := by
  cases op with
  | set addr slot => rfl
  | setBytes addr bytes =>
      rw [InMemoryBalanceStore.exec, InMemoryBalanceStore.setBytes]
      split_ifs
      · rfl
      · rfl

theorem slots_foldl_exec (ops : List BalanceOp) (store : InMemoryBalanceStore) :
    (ops.foldl InMemoryBalanceStore.exec store).slots =
      store.slots.insertAll (ops.filterMap BalanceOp.slot?) := by
  induction ops generalizing store with
  | nil => rfl
  | cons op ops ih =>
      rw [List.foldl_cons, ih, slots_exec]
      cases hslot : op.slot? with
      | none => rw [List.filterMap_cons_none hslot]; rfl
      | some p => rw [List.filterMap_cons_some hslot]; rfl

/-- What the in-memory store keeps at an address is what was last set there. -/
theorem get?_slots_run (ops : List BalanceOp) (a : Address) :
    (InMemoryBalanceStore.run ops).slots.get? a = lastSet ops a := by
  rw [InMemoryBalanceStore.run, slots_foldl_exec, OrdMap.get?_insertAll_lastAt]
  exact Option.or_none

/-- The two stores give the same answers, the entries in any order. -/
structure Interchangeable (redb : TxnStore Table) (db : redb.Db) (store : InMemoryBalanceStore) :
    Prop where
  get : ∀ a, RedbBalanceStore.get redb db a = some (store.get a)
  len : RedbBalanceStore.len redb db = some store.len
  entries : ∀ order, ∃ l, RedbBalanceStore.entries redb db = some l ∧ l.Perm (store.entries order)
  getBytes : ∀ a, RedbBalanceStore.getBytes redb db a = some (store.getBytes a)
  bytesEntries : ∃ l, RedbBalanceStore.bytesEntries redb db = some l ∧ l.Perm store.bytesEntries

section Interchangeable

variable {redb : TxnStore Table} {view : redb.View} (hsound : view.Sound)
  (hfault : view.Faultless)

include hsound hfault

open RedbBalanceStore in
theorem interchangeable_of_holds {db : redb.Db} {store : InMemoryBalanceStore}
    {nonces : OrdMap Address U64} (h : Holds view db store nonces)
    (hnonce : ∀ a slot, store.slots.get? a = some slot → slot.nonce = {}) :
    Interchangeable redb db store where
  get a := by
    rw [get_of_holds hsound hfault h, BalanceSlot.new_canonical_eq_iff.2]
    cases hget : store.slots.get? a with
    | none => rw [InMemoryBalanceStore.get, hget]; rfl
    | some slot =>
        rw [InMemoryBalanceStore.get, hget]
        exact hnonce a slot hget
  len := len_of_holds hsound hfault h
  entries order := by
    refine ⟨_, entries_of_holds hsound hfault h, ?_⟩
    rw [map_new_canonical hnonce]
    exact (order.perm _).symm
  getBytes := getBytes_of_holds hsound hfault h
  bytesEntries := ⟨_, bytesEntries_of_holds hsound hfault h, List.Perm.refl _⟩

theorem RedbBalanceStore.exec_holds {db : redb.Db} {store : InMemoryBalanceStore}
    {nonces : OrdMap Address U64} (h : Holds view db store nonces) (op : BalanceOp) :
    ∃ db', exec redb db op = some db' ∧ Holds view db' (store.exec op) nonces := by
  cases op with
  | set addr slot =>
      obtain ⟨db', hset⟩ := set_isSome hfault db addr slot
      exact ⟨db', hset, Holds.set hsound h hset⟩
  | setBytes addr bytes =>
      obtain ⟨db', hset⟩ := setBytes_isSome hfault db addr bytes
      exact ⟨db', hset, Holds.setBytes hsound h hset⟩

theorem RedbBalanceStore.foldlM_exec_holds {db : redb.Db} {store : InMemoryBalanceStore}
    {nonces : OrdMap Address U64} (h : Holds view db store nonces) (ops : List BalanceOp) :
    ∃ db', ops.foldlM (exec redb) db = some db' ∧
      Holds view db' (ops.foldl InMemoryBalanceStore.exec store) nonces := by
  induction ops generalizing db store with
  | nil => exact ⟨db, rfl, h⟩
  | cons op ops ih =>
      obtain ⟨mid, hop, hmid⟩ := exec_holds hsound hfault h op
      obtain ⟨db', hrest, hholds⟩ := ih hmid
      exact ⟨db', by rw [List.foldlM_cons, hop]; exact hrest, hholds⟩

/-- After any operations the database holds what the same operations make of a store in memory. -/
theorem RedbBalanceStore.run_holds (ops : List BalanceOp) :
    ∃ db, run redb ops = some db ∧ Holds view db (InMemoryBalanceStore.run ops) ∅ := by
  obtain ⟨db₀, hopen⟩ := openFile_isSome hfault hfault.create_fresh
  obtain ⟨db, hops, hholds⟩ :=
    foldlM_exec_holds hsound hfault (holds_openFile_fresh hsound hopen) ops
  exact ⟨db, by rw [run, hopen]; exact hops, hholds⟩

/-- After any writes, of any slots and blobs, the durable and the in-memory store give the same
answers and every address reads as it was last set, if and only if all slots last set have nonce
zero. -/
theorem backends_interchangeable_iff (ops : List BalanceOp) :
    ∃ db, RedbBalanceStore.run redb ops = some db ∧
      ((Interchangeable redb db (InMemoryBalanceStore.run ops) ∧
        ∀ a slot, lastSet ops a = some slot → RedbBalanceStore.get redb db a = some slot ∧
          (InMemoryBalanceStore.run ops).get a = slot) ↔
      ∀ a slot, lastSet ops a = some slot → slot.nonce = {}) := by
  obtain ⟨db, hrun, hholds⟩ := RedbBalanceStore.run_holds hsound hfault ops
  refine ⟨db, hrun, ?_⟩
  simp only [← get?_slots_run]
  generalize InMemoryBalanceStore.run ops = store at hholds
  constructor
  · rintro ⟨-, hlast⟩ a slot hslot
    obtain ⟨hredb, hmem⟩ := hlast a slot hslot
    rw [RedbBalanceStore.get_of_holds hsound hfault hholds, hmem] at hredb
    exact BalanceSlot.new_canonical_eq_iff.1 (Option.some.inj hredb)
  · intro hnonce
    have hsame := interchangeable_of_holds hsound hfault hholds hnonce
    refine ⟨hsame, fun a slot hslot => ?_⟩
    have hget : store.get a = slot := by rw [InMemoryBalanceStore.get, hslot]; rfl
    exact ⟨hget ▸ hsame.get a, hget⟩

end Interchangeable

/-- The database in memory. -/
abbrev memoryRedb : TxnStore Table := TxnStore.memory Table

/-- Two slots and a blob, all of nonce zero. -/
def plainOps : List BalanceOp := [
  .set (smallAddress 1) (BalanceSlot.new 100), .set (smallAddress 2) (BalanceSlot.new 7),
  .setBytes (smallAddress 1) [1, 2, 3], .set (smallAddress 1) (BalanceSlot.new 60)]

theorem backends_interchangeable_plainOps :
    (TxnStore.memoryView Table).Sound ∧ (TxnStore.memoryView Table).Faultless ∧
    ∃ db, RedbBalanceStore.run memoryRedb plainOps = some db ∧
      RedbBalanceStore.get memoryRedb db (smallAddress 1) = some (BalanceSlot.new 60) := by
  refine ⟨TxnStore.memory_sound Table, TxnStore.memory_faultless Table, ?_⟩
  obtain ⟨db, hrun, hiff⟩ := backends_interchangeable_iff (TxnStore.memory_sound Table)
    (TxnStore.memory_faultless Table) plainOps
  have hnonce : ∀ a slot, lastSet plainOps a = some slot → slot.nonce = {} := by
    intro a slot hlast
    have hmem : (a, slot) ∈ plainOps.filterMap BalanceOp.slot? := OrdMap.mem_of_lastAt hlast
    simp only [plainOps, BalanceOp.slot?, List.filterMap_cons, List.filterMap_nil, List.mem_cons,
      Prod.mk.injEq, List.not_mem_nil, or_false] at hmem
    rcases hmem with ⟨-, rfl⟩ | ⟨-, rfl⟩ | ⟨-, rfl⟩ <;> rfl
  exact ⟨db, hrun, ((hiff.2 hnonce).2 (smallAddress 1) _ (by decide +kernel)).1⟩

/-- A slot with nonce 1 is read back with nonce 0. -/
theorem redb_forgets_nonce :
    (InMemoryBalanceStore.run [.set (smallAddress 1) ⟨100, ⟨1⟩⟩]).get (smallAddress 1) =
      ⟨100, ⟨1⟩⟩ ∧
    (RedbBalanceStore.run memoryRedb [.set (smallAddress 1) ⟨100, ⟨1⟩⟩]).bind
      (fun db => RedbBalanceStore.get memoryRedb db (smallAddress 1)) = some ⟨100, ⟨0⟩⟩ :=
  ⟨by decide +kernel, by decide +kernel⟩

end SuwappuDb
