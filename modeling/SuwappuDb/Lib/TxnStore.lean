import SuwappuDb.Lib.Bytes
import SuwappuDb.Lib.OrdMap

/-!
# Databases with transactions

A program keeps tables of byte strings in a file, through a library: `TxnStore` has the library's
calls, each of which may fail. What they do is stated over a `View` of the library's own values, the
tables that a database, a transaction or a file stands for.

* `View.Sound` — what the calls do if they succeed, and what a crash can leave: a database opened
  again has what was committed, all of it or, for a transaction in the middle of its commit, none.
* `View.Faultless` — the calls succeed.

A program's reads and writes of one table are `readTable` and `writeTable`. `Point` is where the
program can be when it crashes, or when a call fails; `shows_writePoints` says what a write leaves
at each of its points.

`memory` is a library that does this (`memory_sound`, `memory_faultless`).
-/

/-- The tables that there are. -/
abbrev Tables (Table : Type) := Table → Option (OrdMap (List Byte) (List Byte))

/-- A library for databases. A call that returns an error is `none`. -/
structure TxnStore (Table : Type) where
  File : Type
  Db : Type
  ReadTxn : Type
  ReadTable : Type
  WriteTxn : Type
  /-- No file is there yet. -/
  fresh : File
  create : File → Option Db
  close : Db → File
  beginRead : Db → Option ReadTxn
  openRead : ReadTxn → Table → Option ReadTable
  get : ReadTable → List Byte → Option (Option (List Byte))
  len : ReadTable → Option Nat
  /-- Every row may fail. -/
  iter : ReadTable → Option (List (Option (List Byte × List Byte)))
  beginWrite : Db → Option WriteTxn
  openWrite : WriteTxn → Table → Option WriteTxn
  insert : WriteTxn → Table → (key value : List Byte) → Option WriteTxn
  remove : WriteTxn → Table → (key : List Byte) → Option WriteTxn
  commit : WriteTxn → Option Db
  /-- The files that are left by a crash between transactions. -/
  Crash : Db → File → Prop
  /-- The files that are left by a crash in a transaction, or in its commit. -/
  CrashIn : WriteTxn → File → Prop

namespace TxnStore

variable {Table : Type} (store : TxnStore Table)

/-- What the library's values stand for. -/
structure View where
  contents : store.Db → Tables Table
  snapshot : store.ReadTxn → Tables Table
  rows : store.ReadTable → OrdMap (List Byte) (List Byte)
  /-- What was committed before the transaction. -/
  before : store.WriteTxn → Tables Table
  /-- What its commit will make of it. -/
  pending : store.WriteTxn → Tables Table

variable {store} (view : store.View)

/-- `txn'` is `txn` with a table of its own set. -/
structure View.Changed [DecidableEq Table] (txn txn' : store.WriteTxn) (table : Table)
    (rows : OrdMap (List Byte) (List Byte)) : Prop where
  before : view.before txn' = view.before txn
  pending : view.pending txn' = Function.update (view.pending txn) table (some rows)

/-- What the calls do if they succeed, and what a crash can leave. -/
structure View.Sound [DecidableEq Table] : Prop where
  create_fresh : ∀ {db}, store.create store.fresh = some db → view.contents db = fun _ => none
  create_close : ∀ {db db'}, store.create (store.close db) = some db' →
    view.contents db' = view.contents db
  beginRead : ∀ {db txn}, store.beginRead db = some txn → view.snapshot txn = view.contents db
  openRead : ∀ {txn table t}, store.openRead txn table = some t →
    view.snapshot txn table = some (view.rows t)
  get : ∀ {t key value}, store.get t key = some value → value = (view.rows t).get? key
  len : ∀ {t n}, store.len t = some n → n = (view.rows t).entries.length
  iter : ∀ {t items rows}, store.iter t = some items → items.mapM id = some rows →
    rows = (view.rows t).entries
  beginWrite : ∀ {db txn}, store.beginWrite db = some txn →
    view.before txn = view.contents db ∧ view.pending txn = view.contents db
  /-- A table that is missing is created. -/
  openWrite : ∀ {txn table txn'}, store.openWrite txn table = some txn' →
    view.Changed txn txn' table ((view.pending txn table).getD ∅)
  insert : ∀ {txn table key value txn'}, store.insert txn table key value = some txn' →
    view.Changed txn txn' table (((view.pending txn table).getD ∅).insert key value)
  remove : ∀ {txn table key txn'}, store.remove txn table key = some txn' →
    view.Changed txn txn' table (((view.pending txn table).getD ∅).erase key)
  commit : ∀ {txn db}, store.commit txn = some db → view.contents db = view.pending txn
  crash : ∀ {db file db'}, store.Crash db file → store.create file = some db' →
    view.contents db' = view.contents db
  crashIn : ∀ {txn file db'}, store.CrashIn txn file → store.create file = some db' →
    view.contents db' = view.before txn ∨ view.contents db' = view.pending txn

/-- The calls succeed, on the tables that there are. -/
structure View.Faultless : Prop where
  create_fresh : (store.create store.fresh).isSome
  create_close : ∀ db, (store.create (store.close db)).isSome
  beginRead : ∀ db, (store.beginRead db).isSome
  openRead : ∀ txn table, (view.snapshot txn table).isSome → (store.openRead txn table).isSome
  get : ∀ t key, (store.get t key).isSome
  len : ∀ t, (store.len t).isSome
  iter : ∀ t, ∃ rows : List (List Byte × List Byte), store.iter t = some (rows.map some)
  beginWrite : ∀ db, (store.beginWrite db).isSome
  openWrite : ∀ txn table, (store.openWrite txn table).isSome
  insert : ∀ txn table key value, (store.insert txn table key value).isSome
  remove : ∀ txn table key, (store.remove txn table key).isSome
  commit : ∀ txn, (store.commit txn).isSome

/-! ## One table -/

/-- A table in a read transaction of its own. -/
def readTable (store : TxnStore Table) (db : store.Db) (table : Table) :
    Option store.ReadTable := do
  let txn ← store.beginRead db
  store.openRead txn table

/-- A write transaction of its own on one table. -/
def writeTable (store : TxnStore Table) (db : store.Db) (table : Table)
    (change : store.WriteTxn → Option store.WriteTxn) : Option store.Db := do
  let txn ← store.beginWrite db
  let txn ← store.openWrite txn table
  let txn ← change txn
  store.commit txn

/-- Where a program can be: at a closed file, between transactions, or in one. -/
inductive Point (store : TxnStore Table) where
  | closed (file : store.File)
  | idle (db : store.Db)
  | busy (txn : store.WriteTxn)

/-- The files that a crash leaves there. -/
def Point.Leaves : store.Point → store.File → Prop
  | .closed file => fun left => left = file
  | .idle db => store.Crash db
  | .busy txn => store.CrashIn txn

/-- The points of a write, as far as its calls succeed. -/
def writePoints (store : TxnStore Table) (db : store.Db) (table : Table)
    (change : store.WriteTxn → Option store.WriteTxn) : List store.Point :=
  .idle db :: match store.beginWrite db with
    | none => []
    | some txn => .busy txn :: match store.openWrite txn table with
      | none => []
      | some txn => .busy txn :: (change txn).toList.map .busy

/-- What a database may have after a crash. -/
def View.Shows : store.Point → Tables Table → Prop
  | .closed file, tables => ∃ db, store.create file = some db ∧ tables = view.contents db
  | .idle db, tables => tables = view.contents db
  | .busy txn, tables => tables = view.before txn ∨ tables = view.pending txn

theorem View.Shows.busy {view : store.View} {txn : store.WriteTxn} {tables t t' : Tables Table}
    (h : view.Shows (.busy txn) tables) (hbefore : view.before txn = t)
    (hpending : view.pending txn = t') : tables = t ∨ tables = t' :=
  h.imp (·.trans hbefore) (·.trans hpending)

section Sound

variable [DecidableEq Table] {view} (h : view.Sound)

include h

theorem View.Sound.shows {point : store.Point} {file : store.File} {db : store.Db}
    (hleaves : point.Leaves file) (hcreate : store.create file = some db) :
    view.Shows point (view.contents db) := by
  cases point with
  | closed file' => exact ⟨db, hleaves ▸ hcreate, rfl⟩
  | idle db' => exact h.crash hleaves hcreate
  | busy txn => exact h.crashIn hleaves hcreate

theorem View.Sound.readTable {db : store.Db} {table : Table} {t : store.ReadTable}
    (hread : store.readTable db table = some t) : view.contents db table = some (view.rows t) := by
  obtain ⟨txn, hbegin, hopen⟩ := Option.bind_eq_some_iff.1 hread
  rw [← h.beginRead hbegin]
  exact h.openRead hopen

/-- A change in a transaction that makes one table of another. -/
def View.Makes (view : store.View) (table : Table)
    (change : store.WriteTxn → Option store.WriteTxn)
    (f : OrdMap (List Byte) (List Byte) → OrdMap (List Byte) (List Byte)) : Prop :=
  ∀ txn txn', change txn = some txn' →
    view.Changed txn txn' table (f ((view.pending txn table).getD ∅))

variable {db db' : store.Db} {table : Table} {rows : OrdMap (List Byte) (List Byte)}
  {change : store.WriteTxn → Option store.WriteTxn}
  {f : OrdMap (List Byte) (List Byte) → OrdMap (List Byte) (List Byte)}

/-- The transaction of a write, after its table was opened: nothing has changed. -/
theorem View.Sound.opened {txn txn' : store.WriteTxn} (hrows : view.contents db table = some rows)
    (hbegin : store.beginWrite db = some txn) (hopen : store.openWrite txn table = some txn') :
    view.before txn' = view.contents db ∧ view.pending txn' = view.contents db := by
  obtain ⟨hbefore, hpending⟩ := h.beginWrite hbegin
  have hchanged := h.openWrite hopen
  refine ⟨hchanged.before.trans hbefore, ?_⟩
  rw [hchanged.pending, hpending, hrows, Option.getD_some, ← hrows, Function.update_eq_self]

/-- After the change it is the table that has. -/
theorem View.Sound.changed {txn txn' txn'' : store.WriteTxn}
    (hrows : view.contents db table = some rows) (hmakes : view.Makes table change f)
    (hbegin : store.beginWrite db = some txn) (hopen : store.openWrite txn table = some txn')
    (hchange : change txn' = some txn'') :
    view.before txn'' = view.contents db ∧
      view.pending txn'' = Function.update (view.contents db) table (some (f rows)) := by
  obtain ⟨hbefore, hpending⟩ := h.opened hrows hbegin hopen
  have hchanged := hmakes _ _ hchange
  refine ⟨hchanged.before.trans hbefore, ?_⟩
  rw [hchanged.pending, hpending, hrows, Option.getD_some]

theorem View.Sound.writeTable (hrows : view.contents db table = some rows)
    (hmakes : view.Makes table change f) (hwrite : store.writeTable db table change = some db') :
    view.contents db' = Function.update (view.contents db) table (some (f rows)) := by
  obtain ⟨txn, hbegin, hwrite⟩ := Option.bind_eq_some_iff.1 hwrite
  obtain ⟨txn', hopen, hwrite⟩ := Option.bind_eq_some_iff.1 hwrite
  obtain ⟨txn'', hchange, hcommit⟩ := Option.bind_eq_some_iff.1 hwrite
  rw [h.commit hcommit]
  exact (h.changed hrows hmakes hbegin hopen hchange).2

/-- A crash in a write leaves what was there, or what is to be there. -/
theorem View.Sound.shows_writePoints (hrows : view.contents db table = some rows)
    (hmakes : view.Makes table change f) {point : store.Point}
    (hpoint : point ∈ store.writePoints db table change) {tables : Tables Table}
    (hshows : view.Shows point tables) :
    tables = view.contents db ∨
      tables = Function.update (view.contents db) table (some (f rows)) := by
  unfold writePoints at hpoint
  rcases List.mem_cons.1 hpoint with rfl | hpoint
  · exact .inl hshows
  cases hbegin : store.beginWrite db with
  | none =>
      rw [hbegin] at hpoint
      cases hpoint
  | some txn =>
      rw [hbegin] at hpoint
      rcases List.mem_cons.1 hpoint with rfl | hpoint
      · obtain ⟨hbefore, hpending⟩ := h.beginWrite hbegin
        exact .inl (or_self_iff.1 (hshows.busy hbefore hpending))
      cases hopen : store.openWrite txn table with
      | none =>
          rw [hopen] at hpoint
          cases hpoint
      | some txn' =>
          rw [hopen] at hpoint
          rcases List.mem_cons.1 hpoint with rfl | hpoint
          · obtain ⟨hbefore, hpending⟩ := h.opened hrows hbegin hopen
            exact .inl (or_self_iff.1 (hshows.busy hbefore hpending))
          · obtain ⟨txn'', htxn, rfl⟩ := List.mem_map.1 hpoint
            obtain ⟨hbefore, hpending⟩ :=
              h.changed hrows hmakes hbegin hopen (Option.mem_toList.1 htxn)
            exact hshows.busy hbefore hpending

end Sound

section Faultless

variable {view} (h : view.Faultless)

include h

theorem View.Faultless.readTable [DecidableEq Table] (hsound : view.Sound) {db : store.Db}
    {table : Table} {rows : OrdMap (List Byte) (List Byte)}
    (hrows : view.contents db table = some rows) :
    ∃ t, store.readTable db table = some t ∧ view.rows t = rows := by
  obtain ⟨txn, hbegin⟩ := Option.isSome_iff_exists.1 (h.beginRead db)
  have hsnapshot : view.snapshot txn table = some rows := by
    rw [hsound.beginRead hbegin, hrows]
  obtain ⟨t, hopen⟩ := Option.isSome_iff_exists.1 (h.openRead txn table (by rw [hsnapshot]; rfl))
  refine ⟨t, ?_, Option.some.inj ((hsound.openRead hopen).symm.trans hsnapshot)⟩
  rw [TxnStore.readTable, hbegin]
  exact hopen

theorem View.Faultless.writeTable (db : store.Db) (table : Table)
    {change : store.WriteTxn → Option store.WriteTxn} (hchange : ∀ txn, (change txn).isSome) :
    ∃ db', store.writeTable db table change = some db' := by
  obtain ⟨txn, hbegin⟩ := Option.isSome_iff_exists.1 (h.beginWrite db)
  obtain ⟨txn', hopen⟩ := Option.isSome_iff_exists.1 (h.openWrite txn table)
  obtain ⟨txn'', hchanged⟩ := Option.isSome_iff_exists.1 (hchange txn')
  obtain ⟨db', hcommit⟩ := Option.isSome_iff_exists.1 (h.commit txn'')
  refine ⟨db', ?_⟩
  rw [TxnStore.writeTable, hbegin]
  simp [hopen, hchanged, hcommit]

end Faultless

/-! ## A library in memory -/

section Memory

variable (Table) [DecidableEq Table]

/-- A file is its tables, and a transaction the tables before it and those it will leave. -/
def memory : TxnStore Table where
  File := Tables Table
  Db := Tables Table
  ReadTxn := Tables Table
  ReadTable := OrdMap (List Byte) (List Byte)
  WriteTxn := Tables Table × Tables Table
  fresh := fun _ => none
  create := some
  close := id
  beginRead := some
  openRead txn table := txn table
  get t key := some (t.get? key)
  len t := some t.entries.length
  iter t := some (t.entries.map some)
  beginWrite db := some (db, db)
  openWrite txn table :=
    some (txn.1, Function.update txn.2 table (some ((txn.2 table).getD ∅)))
  insert txn table key value :=
    some (txn.1, Function.update txn.2 table (some (((txn.2 table).getD ∅).insert key value)))
  remove txn table key :=
    some (txn.1, Function.update txn.2 table (some (((txn.2 table).getD ∅).erase key)))
  commit txn := some txn.2
  Crash db file := file = db
  CrashIn txn file := file = txn.1 ∨ file = txn.2

def memoryView : (memory Table).View where
  contents := id
  snapshot := id
  rows := id
  before := Prod.fst
  pending := Prod.snd

theorem memory_sound : (memoryView Table).Sound where
  create_fresh h := (Option.some.inj h).symm
  create_close h := (Option.some.inj h).symm
  beginRead h := (Option.some.inj h).symm
  openRead h := h
  get h := (Option.some.inj h).symm
  len h := (Option.some.inj h).symm
  iter := by
    intro t items rows hiter hrows
    obtain rfl := Option.some.inj hiter
    rw [List.mapM_map] at hrows
    exact (Option.some.inj (hrows.symm.trans List.mapM_pure)).trans (List.map_id _)
  beginWrite h := by
    obtain rfl := Option.some.inj h
    exact ⟨rfl, rfl⟩
  openWrite h := by
    obtain rfl := Option.some.inj h
    exact ⟨rfl, rfl⟩
  insert h := by
    obtain rfl := Option.some.inj h
    exact ⟨rfl, rfl⟩
  remove h := by
    obtain rfl := Option.some.inj h
    exact ⟨rfl, rfl⟩
  commit h := (Option.some.inj h).symm
  crash hcrash h := (Option.some.inj h).symm.trans hcrash
  crashIn hcrash h := by
    obtain rfl := Option.some.inj h
    exact hcrash

theorem memory_faultless : (memoryView Table).Faultless where
  create_fresh := rfl
  create_close _ := rfl
  beginRead _ := rfl
  openRead _ _ h := h
  get _ _ := rfl
  len _ := rfl
  iter t := ⟨t.entries, rfl⟩
  beginWrite _ := rfl
  openWrite _ _ := rfl
  insert _ _ _ _ := rfl
  remove _ _ _ := rfl
  commit _ := rfl

end Memory

end TxnStore
