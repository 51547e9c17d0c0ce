import SuwappuDb.RedbBalanceStore
import SuwappuDb.L2Sync
import SuwappuDb.BridgeProg
import SuwappuDb.Snapshot

/-!
# The state on disk

`State::with_store` over `RedbBalanceStore`, the `Bridge` on it, and `sync_to_store` of
`sync/l2.rs`: what happens to a state that is backed by a database file. The crate `redb` is a
parameter, and what it documents a hypothesis.

**Operations.** The programs of `BridgeProg`, run on the database (`fileSem`), opening the file
again, and mirroring nonces. A database that holds a state answers as the state in memory does, and
goes on holding it (`refines`, `step_backs`).

**Crashes.** `durablePoints` are the points of a run at which a process can end, by a crash or by a
call of `redb` that fails: all calls in all transactions.

* `durable_refines` — if the calls of `redb` succeed, closing and opening the file at any time
  changes nothing: results and answers are those of a state in memory, and a run panics only where
  the reply of the second layer does not have the two bytes that are cut off.
* `crash_between_legs` — a crash at any point leaves the state after some of the operations, or one
  transfer of which only the debit was written. The two legs are two transactions.
-/

namespace SuwappuDb

open Prog TxnStore RedbBalanceStore

/-! ## The bridge on the database -/

section Bridge

variable (redb : TxnStore Table)

/-- The state over the database. -/
def fileSem : (call : StoreCall) → redb.Db → Option (call.Res × redb.Db)
  | .balanceOf addr, db => (get redb db addr).map fun slot => (slot.canonical, db)
  | .apply (.setBalance addr bal), db =>
      (set redb db addr (BalanceSlot.new bal)).map fun db' => ((), db')
  | .apply (.setBytes addr bytes), db => (setBytes redb db addr bytes).map fun db' => ((), db')

/-- The points of a call. -/
def callPoints : StoreCall → redb.Db → List redb.Point
  | .balanceOf _, db => [.idle db]
  | .apply (.setBalance addr bal), db =>
      redb.writePoints db .state (setChange redb addr (BalanceSlot.new bal))
  | .apply (.setBytes addr bytes), db =>
      redb.writePoints db .bytesState (setBytesChange redb addr bytes)

end Bridge

/-- The database holds the state, whose own nonces are all zero, and the mirrored nonces. -/
structure Backs {redb : TxnStore Table} (view : redb.View) (db : redb.Db) (s : State)
    (nonces : OrdMap Address U64) : Prop where
  holds : Holds view db s.store nonces
  nonceFree : s.NonceFree

section Refinement

variable {redb : TxnStore Table} {view : redb.View} (hsound : view.Sound)
  {nonces : OrdMap Address U64}

include hsound

/-- What the database answers is what the state in memory answers. -/
theorem refines : Prog.Refines (fileSem redb) memorySem fun db s => Backs view db s nonces := by
  refine ⟨fun {db s call r db'} h hcall => ?_⟩
  cases call with
  | balanceOf addr =>
      obtain ⟨slot, hget, heq⟩ := Option.map_eq_some_iff.1 hcall
      obtain ⟨rfl, rfl⟩ := Prod.mk.inj heq
      rw [Holds.get_of_some hsound h.holds hget]
      exact ⟨rfl, h⟩
  | apply change =>
      cases change with
      | setBalance addr bal =>
          obtain ⟨mid, hset, heq⟩ := Option.map_eq_some_iff.1 hcall
          obtain ⟨-, rfl⟩ := Prod.mk.inj heq
          exact ⟨rfl, Holds.set hsound h.holds hset, h.nonceFree.apply _⟩
      | setBytes addr bytes =>
          obtain ⟨mid, hset, heq⟩ := Option.map_eq_some_iff.1 hcall
          obtain ⟨-, rfl⟩ := Prod.mk.inj heq
          exact ⟨rfl, Holds.setBytes hsound h.holds hset, h.nonceFree.apply _⟩

/-- A crash in a call leaves the state before it, or the state after it. -/
theorem shows_callPoints {db : redb.Db} {s : State} (h : Backs view db s nonces) (call : StoreCall)
    {point : redb.Point} (hpoint : point ∈ callPoints redb call db) {tables : Tables Table}
    (hshows : view.Shows point tables) :
    tables = fileOf s.store nonces ∨ tables = fileOf (memorySem call s).2.store nonces := by
  cases call with
  | balanceOf addr =>
      rw [List.mem_singleton.1 hpoint] at hshows
      exact .inl (Eq.trans hshows h.holds)
  | apply change =>
      cases change with
      | setBalance addr bal => exact Holds.shows_set hsound h.holds hpoint hshows
      | setBytes addr bytes => exact Holds.shows_setBytes hsound h.holds hpoint hshows

/-- What a crash at a point leaves is a state, with these nonces. -/
def ShowsState (view : redb.View) (nonces : OrdMap Address U64) (tables : Tables Table)
    (point : redb.Point) (t : State) : Prop :=
  view.Shows point tables → tables = fileOf t.store nonces ∧ t.NonceFree

theorem showsState_callPoints {db : redb.Db} {s : State} (h : Backs view db s nonces)
    (call : StoreCall) (tables : Tables Table) {point : redb.Point}
    (hpoint : point ∈ callPoints redb call db) :
    ShowsState view nonces tables point s ∨
      ShowsState view nonces tables point (memorySem call s).2 := by
  have hfree : (memorySem call s).2.NonceFree := by
    cases call with
    | balanceOf addr => exact h.nonceFree
    | apply change => exact h.nonceFree.apply change
  by_cases hshows : view.Shows point tables
  · rcases shows_callPoints hsound h call hpoint hshows with htables | htables
    · exact .inl fun _ => ⟨htables, h.nonceFree⟩
    · exact .inr fun _ => ⟨htables, hfree⟩
  · exact .inl fun hshows' => absurd hshows' hshows

/-- A crash in a program leaves a state that the program passes through in memory. -/
theorem shows_progPoints {db : redb.Db} {s : State} (h : Backs view db s nonces) (p : BridgeProg)
    {point : redb.Point} (hpoint : point ∈ p.points (fileSem redb) (callPoints redb) .idle db)
    {tables : Tables Table} (hshows : view.Shows point tables) :
    ∃ t ∈ p.states memorySem s, tables = fileOf t.store nonces ∧ t.NonceFree := by
  have hend : ∀ {db s}, Backs view db s nonces → ShowsState view nonces tables (.idle db) s :=
    fun h hshows => ⟨Eq.trans hshows h.holds, h.nonceFree⟩
  obtain ⟨t, ht, hstate⟩ := (refines hsound).points (callPoints redb) Point.idle
    (Q := ShowsState view nonces tables)
    (fun h call _ hpoint => showsState_callPoints hsound h call tables hpoint) hend p h point hpoint
  exact ⟨t, ht, hstate hshows⟩

/-- The calls of a database that backs a state succeed. -/
theorem fileSem_isSome (hfault : view.Faultless) {db : redb.Db} {s : State}
    (h : Backs view db s nonces) (call : StoreCall) : (fileSem redb call db).isSome := by
  cases call with
  | balanceOf addr =>
      rw [fileSem, get_of_holds hsound hfault h.holds]
      rfl
  | apply change =>
      cases change with
      | setBalance addr bal =>
          obtain ⟨db', hset⟩ := set_isSome hfault db addr (BalanceSlot.new bal)
          rw [fileSem, hset]
          rfl
      | setBytes addr bytes =>
          obtain ⟨db', hset⟩ := setBytes_isSome hfault db addr bytes
          rw [fileSem, hset]
          rfl

end Refinement

/-! ## The L2 mirror -/

/-- `SyncedEVMState`. -/
structure SyncedEVMState where
  address : Address
  balance : U128
  nonce : U64

section Sync

variable (redb : TxnStore Table) (serde : JsonApi) (hex : Hex.Codec)

/-- `L2StateSyncer::sync`: the configured addresses, with the replies to the two calls for each. A
reply whose text cannot be sliced panics. -/
def sync : List (Address × RpcReply serde × RpcReply serde) →
    Option (Except String (List SyncedEVMState))
  | [] => some (.ok [])
  | (address, balanceReply, nonceReply) :: rest =>
      match getBalance serde hex balanceReply with
      | none => none
      | some (.error e) => some (.error e)
      | some (.ok balance) =>
          match getTransactionCount serde hex nonceReply with
          | none => none
          | some (.error e) => some (.error e)
          | some (.ok nonce) =>
              (sync rest).map (Except.map fun synced => ⟨address, balance, nonce⟩ :: synced)

/-- The loop of `sync_to_store`. The balances are not written. -/
def writeNonces : redb.Db → List SyncedEVMState → Option redb.Db
  | db, [] => some db
  | db, state :: rest => do
      let db' ← setEvmNonce redb db state.address state.nonce
      writeNonces db' rest

/-- `L2StateSyncer::sync_to_store`. -/
def syncToStore (db : redb.Db) (calls : List (Address × RpcReply serde × RpcReply serde)) :
    Option (redb.Db × Except String (List SyncedEVMState)) :=
  match sync serde hex calls with
  | none => none
  | some (.error e) => some (db, .error e)
  | some (.ok synced) => (writeNonces redb db synced).map fun db' => (db', .ok synced)

/-- The points of the loop. -/
def noncePoints : redb.Db → List SyncedEVMState → List redb.Point
  | db, [] => [.idle db]
  | db, state :: rest =>
      redb.writePoints db .evmNonces (setEvmNonceChange redb state.address state.nonce) ++
        match setEvmNonce redb db state.address state.nonce with
        | none => []
        | some db' => noncePoints db' rest

/-- The nonces that are written for some replies, in order. -/
def mirroredNonces (calls : List (Address × RpcReply serde × RpcReply serde)) :
    List (Address × U64) :=
  match sync serde hex calls with
  | some (.ok synced) => synced.map fun state => (state.address, state.nonce)
  | _ => []

end Sync

section Nonces

variable {redb : TxnStore Table} {view : redb.View} {db : redb.Db} {s : State}
  {nonces : OrdMap Address U64}

theorem backs_writeNonces (hsound : view.Sound) (h : Backs view db s nonces)
    {synced : List SyncedEVMState} {db' : redb.Db}
    (hwrite : writeNonces redb db synced = some db') :
    Backs view db' s
      (nonces.insertAll (synced.map fun state => (state.address, state.nonce))) := by
  induction synced generalizing db nonces with
  | nil =>
      obtain rfl := Option.some.inj hwrite
      exact h
  | cons state rest ih =>
      obtain ⟨mid, hset, hrest⟩ := Option.bind_eq_some_iff.1 hwrite
      exact ih ⟨Holds.setEvmNonce hsound h.holds hset, h.nonceFree⟩ hrest

theorem writeNonces_isSome (hfault : view.Faultless) (db : redb.Db) (synced : List SyncedEVMState) :
    (writeNonces redb db synced).isSome := by
  induction synced generalizing db with
  | nil => rfl
  | cons state rest ih =>
      obtain ⟨mid, hset⟩ := setEvmNonce_isSome hfault db state.address state.nonce
      rw [writeNonces, hset]
      exact ih mid

/-- A crash in the loop leaves the first nonces written. -/
theorem shows_noncePoints (hsound : view.Sound) (h : Backs view db s nonces)
    {synced : List SyncedEVMState} {point : redb.Point}
    (hpoint : point ∈ noncePoints redb db synced) {tables : Tables Table}
    (hshows : view.Shows point tables) :
    ∃ m, tables = fileOf s.store
      (nonces.insertAll ((synced.map fun state => (state.address, state.nonce)).take m)) := by
  induction synced generalizing db nonces with
  | nil =>
      rw [List.mem_singleton.1 hpoint] at hshows
      exact ⟨0, Eq.trans hshows h.holds⟩
  | cons state rest ih =>
      rw [noncePoints] at hpoint
      rcases List.mem_append.1 hpoint with hpoint | hpoint
      · rcases Holds.shows_setEvmNonce hsound h.holds hpoint hshows with htables | htables
        · exact ⟨0, htables⟩
        · exact ⟨1, htables⟩
      · cases hset : setEvmNonce redb db state.address state.nonce with
        | none =>
            rw [hset] at hpoint
            cases hpoint
        | some mid =>
            rw [hset] at hpoint
            obtain ⟨m, htables⟩ :=
              ih ⟨Holds.setEvmNonce hsound h.holds hset, h.nonceFree⟩ hpoint
            exact ⟨m + 1, htables⟩

end Nonces

/-! ## Runs -/

/-- What happens to a database. -/
inductive DurableOp (serde : JsonApi) where
  | bridge (op : BridgeOp)
  | reopen
  | syncToStore (calls : List (Address × RpcReply serde × RpcReply serde))

/-- What it returns. -/
inductive DurableResult where
  | verdict (verdict : Verdict)
  | reopened
  | synced (result : Except String (List SyncedEVMState))

section Runs

variable (redb : TxnStore Table) (serde : JsonApi) (hex : Hex.Codec)

/-- An operation on the database. -/
def durableStep (db : redb.Db) : DurableOp serde → Option (redb.Db × DurableResult)
  | .bridge op => do
      let (verdict, db') ← op.prog.exec (fileSem redb) db
      verdict.map fun verdict => (db', .verdict verdict)
  | .reopen => (openFile redb (redb.close db)).map fun db' => (db', .reopened)
  | .syncToStore calls => (syncToStore redb serde hex db calls).map (Prod.map id .synced)

/-- The same on a state in memory, which has no table for the mirrored nonces. -/
def memoryStep (s : State) : DurableOp serde → Option (State × DurableResult)
  | .bridge op => (op.run s).map (Prod.map id .verdict)
  | .reopen => some (s, .reopened)
  | .syncToStore calls => (sync serde hex calls).map fun result => (s, .synced result)

def runDurable : redb.Db → List (DurableOp serde) → Option (redb.Db × List DurableResult) :=
  runAll (durableStep redb serde hex)

def runMemory : State → List (DurableOp serde) → Option (State × List DurableResult) :=
  runAll (memoryStep serde hex)

/-- The nonces that an operation mirrors. -/
def DurableOp.nonces : DurableOp serde → List (Address × U64)
  | .syncToStore calls => mirroredNonces serde hex calls
  | _ => []

/-- The nonces mirrored in a run, in order. -/
def nonceWrites (ops : List (DurableOp serde)) : List (Address × U64) :=
  ops.flatMap (DurableOp.nonces serde hex)

theorem nonceWrites_cons (op : DurableOp serde) (ops : List (DurableOp serde)) :
    nonceWrites serde hex (op :: ops) = op.nonces serde hex ++ nonceWrites serde hex ops :=
  List.flatMap_cons

/-- The points of an operation. -/
def opPoints (db : redb.Db) : DurableOp serde → List redb.Point
  | .bridge op => op.prog.points (fileSem redb) (callPoints redb) .idle db
  | .reopen => .idle db :: openPoints redb (redb.close db)
  | .syncToStore calls =>
      match sync serde hex calls with
      | some (.ok synced) => noncePoints redb db synced
      | _ => [.idle db]

/-- The points of a run. -/
def durablePoints : redb.Db → List (DurableOp serde) → List redb.Point
  | db, [] => [.idle db]
  | db, op :: ops => opPoints redb serde hex db op ++
      match durableStep redb serde hex db op with
      | none => []
      | some (db', _) => durablePoints db' ops

end Runs

section Steps

variable {redb : TxnStore Table} {view : redb.View} (hsound : view.Sound) {serde : JsonApi}
  {hex : Hex.Codec} {db db' : redb.Db} {s : State} {nonces : OrdMap Address U64}

include hsound

/-- An operation that returns does what it does to the state in memory. -/
theorem step_backs (h : Backs view db s nonces) {op : DurableOp serde} {result : DurableResult}
    (hstep : durableStep redb serde hex db op = some (db', result)) :
    ∃ s', memoryStep serde hex s op = some (s', result) ∧
      Backs view db' s' (nonces.insertAll (op.nonces serde hex)) := by
  cases op with
  | bridge op =>
      obtain ⟨⟨verdict?, mid⟩, hexec, hverdict⟩ := Option.bind_eq_some_iff.1 hstep
      obtain ⟨verdict, rfl, heq⟩ := Option.map_eq_some_iff.1 hverdict
      obtain ⟨rfl, rfl⟩ := Prod.mk.inj heq
      obtain ⟨s', verdict', hruns⟩ := runs_all s op
      obtain ⟨hsame, hbacks⟩ := (refines hsound).exec h hexec
      rw [hruns.prog] at hsame hbacks
      obtain rfl := Option.some.inj hsame
      exact ⟨s', by rw [memoryStep, hruns.run]; rfl, hbacks⟩
  | reopen =>
      obtain ⟨mid, hopen, heq⟩ := Option.map_eq_some_iff.1 hstep
      obtain ⟨rfl, rfl⟩ := Prod.mk.inj heq
      refine ⟨s, rfl, holds_openFile hsound (fun hcreate => ?_) hopen, h.nonceFree⟩
      exact (hsound.create_close hcreate).trans h.holds
  | syncToStore calls =>
      obtain ⟨⟨mid, res⟩, hsync, heq⟩ := Option.map_eq_some_iff.1 hstep
      obtain ⟨rfl, rfl⟩ := Prod.mk.inj heq
      unfold SuwappuDb.syncToStore at hsync
      rw [memoryStep, DurableOp.nonces, mirroredNonces]
      cases hreplies : sync serde hex calls with
      | none =>
          rw [hreplies] at hsync
          cases hsync
      | some res' =>
          rw [hreplies] at hsync
          cases res' with
          | error e =>
              obtain ⟨rfl, rfl⟩ := Prod.mk.inj (Option.some.inj hsync)
              exact ⟨s, rfl, h⟩
          | ok synced =>
              obtain ⟨mid', hwrite, heq'⟩ := Option.map_eq_some_iff.1 hsync
              obtain ⟨rfl, rfl⟩ := Prod.mk.inj heq'
              exact ⟨s, rfl, backs_writeNonces hsound h hwrite⟩

/-- An operation returns, unless its replies cannot be read. -/
theorem step_isSome (hfault : view.Faultless) (h : Backs view db s nonces) {op : DurableOp serde}
    (hop : ∀ calls, op = .syncToStore calls → sync serde hex calls ≠ none) :
    ∃ db' result, durableStep redb serde hex db op = some (db', result) := by
  cases op with
  | bridge op =>
      obtain ⟨⟨verdict?, mid⟩, hexec⟩ := Option.isSome_iff_exists.1
        ((refines hsound).exec_isSome (fileSem_isSome hsound hfault) op.prog h)
      obtain ⟨s', verdict, hruns⟩ := runs_all s op
      obtain ⟨hsame, -⟩ := (refines hsound).exec h hexec
      rw [hruns.prog] at hsame
      obtain rfl : verdict? = some verdict := hsame
      exact ⟨mid, .verdict verdict, by rw [durableStep, hexec]; rfl⟩
  | reopen =>
      obtain ⟨mid, hopen⟩ := openFile_isSome hfault (hfault.create_close db)
      exact ⟨mid, .reopened, by rw [durableStep, hopen]; rfl⟩
  | syncToStore calls =>
      cases hreplies : sync serde hex calls with
      | none => exact absurd hreplies (hop calls rfl)
      | some res =>
          cases res with
          | error e =>
              refine ⟨db, .synced (.error e), ?_⟩
              rw [durableStep, SuwappuDb.syncToStore, hreplies]
              rfl
          | ok synced =>
              obtain ⟨mid, hwrite⟩ :=
                Option.isSome_iff_exists.1 (writeNonces_isSome hfault db synced)
              refine ⟨mid, .synced (.ok synced), ?_⟩
              rw [durableStep, SuwappuDb.syncToStore, hreplies]
              simp only [hwrite]
              rfl

/-- A crash in an operation leaves the state before it, the state after it or half of its
transfer, and the first of its nonces. -/
theorem shows_opPoints (h : Backs view db s nonces) {op : DurableOp serde} {point : redb.Point}
    (hpoint : point ∈ opPoints redb serde hex db op) {tables : Tables Table}
    (hshows : view.Shows point tables) :
    ∃ t m, tables = fileOf t.store (nonces.insertAll ((op.nonces serde hex).take m)) ∧
      t.NonceFree ∧
      (t = s ∨ (∃ result, memoryStep serde hex s op = some (t, result)) ∨
        ∃ call src dst amount, op = .bridge call ∧ call.transfer? = some (src, dst, amount) ∧
          HalfMoved s src dst amount t) := by
  cases op with
  | bridge call =>
      obtain ⟨s', verdict, hruns⟩ := runs_all s call
      obtain ⟨t, ht, htables, hfree⟩ := shows_progPoints hsound h call.prog hpoint hshows
      refine ⟨t, 0, htables, hfree, ?_⟩
      rcases hruns.passes t ht with rfl | rfl | ⟨src, dst, amount, htransfer, hhalf⟩
      · exact .inl rfl
      · exact .inr (.inl ⟨.verdict verdict, by rw [memoryStep, hruns.run]; rfl⟩)
      · exact .inr (.inr ⟨call, src, dst, amount, rfl, htransfer, hhalf⟩)
  | reopen =>
      refine ⟨s, 0, ?_, h.nonceFree, .inl rfl⟩
      rcases List.mem_cons.1 hpoint with rfl | hpoint
      · exact Eq.trans hshows h.holds
      · refine shows_openPoints hsound (fun hcreate => ?_) hpoint hshows
        exact (hsound.create_close hcreate).trans h.holds
  | syncToStore calls =>
      simp only [opPoints] at hpoint
      rw [DurableOp.nonces, mirroredNonces]
      cases hreplies : sync serde hex calls with
      | none =>
          rw [hreplies] at hpoint
          rw [List.mem_singleton.1 hpoint] at hshows
          exact ⟨s, 0, Eq.trans hshows h.holds, h.nonceFree, .inl rfl⟩
      | some res =>
          rw [hreplies] at hpoint
          cases res with
          | error e =>
              rw [List.mem_singleton.1 hpoint] at hshows
              exact ⟨s, 0, Eq.trans hshows h.holds, h.nonceFree, .inl rfl⟩
          | ok synced =>
              obtain ⟨m, htables⟩ := shows_noncePoints hsound h hpoint hshows
              exact ⟨s, m, htables, h.nonceFree, .inl rfl⟩

omit hsound in
/-- What a run that crashes leaves, from the state `s`: the state after some of its operations, or
that and half of the next one's transfer. Of the nonces the first are there. -/
def Survives (serde : JsonApi) (hex : Hex.Codec) (s : State) (nonces : OrdMap Address U64)
    (ops : List (DurableOp serde)) (tables : Tables Table) : Prop :=
  ∃ k s' results t m, runMemory serde hex s (ops.take k) = some (s', results) ∧
    tables = fileOf t.store (nonces.insertAll ((nonceWrites serde hex ops).take m)) ∧
    t.NonceFree ∧
    (t = s' ∨ ∃ call src dst amount, ops[k]? = some (.bridge call) ∧
      call.transfer? = some (src, dst, amount) ∧ HalfMoved s' src dst amount t)

omit hsound in
/-- An operation before a run that survives. -/
theorem Survives.cons {s' : State} {op : DurableOp serde} {ops : List (DurableOp serde)}
    {result : DurableResult} (hop : memoryStep serde hex s op = some (s', result))
    {tables : Tables Table}
    (h : Survives serde hex s' (nonces.insertAll (op.nonces serde hex)) ops tables) :
    Survives serde hex s nonces (op :: ops) tables := by
  obtain ⟨k, fin, results, t, m, hrun, htables, hfree, hcases⟩ := h
  refine ⟨k + 1, fin, result :: results, t, (op.nonces serde hex).length + m, ?_, ?_, hfree, hcases⟩
  · rw [List.take_succ_cons, runMemory, runAll_cons hop]
    exact congrArg (Option.map (Prod.map id (result :: ·))) hrun
  · rw [nonceWrites_cons, List.take_length_add_append, htables, OrdMap.insertAll_append]

theorem durablePoints_survive (h : Backs view db s nonces) {ops : List (DurableOp serde)}
    {point : redb.Point} (hpoint : point ∈ durablePoints redb serde hex db ops)
    {tables : Tables Table} (hshows : view.Shows point tables) :
    Survives serde hex s nonces ops tables := by
  induction ops generalizing db s nonces with
  | nil =>
      rw [List.mem_singleton.1 hpoint] at hshows
      exact ⟨0, s, [], s, 0, rfl, Eq.trans hshows h.holds, h.nonceFree, .inl rfl⟩
  | cons op ops ih =>
      rw [durablePoints] at hpoint
      rcases List.mem_append.1 hpoint with hin | hlater
      · -- The crash fell into this operation.
        obtain ⟨t, m, htables, hfree, hcases⟩ := shows_opPoints hsound h hin hshows
        have hfirst : (op.nonces serde hex).take m = (nonceWrites serde hex (op :: ops)).take
            (min m (op.nonces serde hex).length) := by
          rw [nonceWrites_cons, List.take_append_of_le_length (Nat.min_le_right _ _)]
          exact List.take_eq_take_min
        rw [hfirst] at htables
        rcases hcases with rfl | ⟨result, hstep⟩ | ⟨call, src, dst, amount, rfl, htransfer, hhalf⟩
        · exact ⟨0, t, [], t, _, rfl, htables, hfree, .inl rfl⟩
        · refine ⟨1, t, [result], t, _, ?_, htables, hfree, .inl rfl⟩
          show runMemory serde hex s [op] = _
          rw [runMemory, runAll_cons hstep]
          rfl
        · exact ⟨0, s, [], t, _, rfl, htables, hfree,
            .inr ⟨call, src, dst, amount, rfl, htransfer, hhalf⟩⟩
      · cases hstep : durableStep redb serde hex db op with
        | none =>
            rw [hstep] at hlater
            cases hlater
        | some p =>
            obtain ⟨mid, result⟩ := p
            rw [hstep] at hlater
            obtain ⟨s', hmemory, hbacks⟩ := step_backs hsound h hstep
            exact .cons hmemory (ih hbacks hlater)

/-- A run returns what it returns in memory, and panics where that does. -/
theorem runDurable_backs (hfault : view.Faultless) (h : Backs view db s nonces)
    (ops : List (DurableOp serde)) :
    ((∃ calls, .syncToStore calls ∈ ops ∧ sync serde hex calls = none) ∧
      runDurable redb serde hex db ops = none) ∨
    ∃ s' results db', runMemory serde hex s ops = some (s', results) ∧
      runDurable redb serde hex db ops = some (db', results) ∧
      Backs view db' s' (nonces.insertAll (nonceWrites serde hex ops)) := by
  induction ops generalizing db s nonces with
  | nil => exact .inr ⟨s, [], db, rfl, rfl, h⟩
  | cons op ops ih =>
      by_cases hop : ∀ calls, op = .syncToStore calls → sync serde hex calls ≠ none
      · obtain ⟨mid, result, hstep⟩ := step_isSome hsound hfault h hop
        obtain ⟨s', hmemory, hbacks⟩ := step_backs hsound h hstep
        rw [runDurable, runAll_cons hstep, runMemory, runAll_cons hmemory]
        rcases ih hbacks with ⟨⟨calls, hmem, hnone⟩, hrun⟩ | ⟨fin, results, db', hrun, hrun', hfin⟩
        · refine .inl ⟨⟨calls, List.mem_cons_of_mem _ hmem, hnone⟩, ?_⟩
          exact congrArg (Option.map (Prod.map id (result :: ·))) hrun
        · refine .inr ⟨fin, result :: results, db', ?_, ?_, ?_⟩
          · exact congrArg (Option.map (Prod.map id (result :: ·))) hrun
          · exact congrArg (Option.map (Prod.map id (result :: ·))) hrun'
          · rwa [nonceWrites_cons, OrdMap.insertAll_append]
      · obtain ⟨calls, hcalls⟩ := not_forall.1 hop
        obtain ⟨rfl, hnone⟩ := Classical.not_imp.1 hcalls
        have hpanic : sync serde hex calls = none := not_not.1 hnone
        refine .inl ⟨⟨calls, List.mem_cons_self, hpanic⟩, ?_⟩
        rw [runDurable, runAll, durableStep, SuwappuDb.syncToStore, hpanic]
        rfl

end Steps

section Results

variable {redb : TxnStore Table} {view : redb.View} (serde : JsonApi) (hex : Hex.Codec)

/-- Over every run on a database file, from its creation on, with the file closed and opened at any
time and nonces mirrored in between, if the calls of `redb` succeed: the run returns what the same
run on a state in memory returns, and the database answers as that state does; the mirrored nonces
are kept apart. It panics only if a reply of the second layer cannot be read. -/
theorem durable_refines (hsound : view.Sound) (hfault : view.Faultless)
    (ops : List (DurableOp serde)) :
    ∃ db, openFile redb redb.fresh = some db ∧
      (((∃ calls, .syncToStore calls ∈ ops ∧ sync serde hex calls = none) ∧
        runDurable redb serde hex db ops = none) ∨
      ∃ s results db', runMemory serde hex {} ops = some (s, results) ∧
        runDurable redb serde hex db ops = some (db', results) ∧
        Interchangeable redb db' s.store ∧
        ∀ a, getEvmNonce redb db' a = some (OrdMap.lastAt a (nonceWrites serde hex ops))) := by
  obtain ⟨db, hopen⟩ := openFile_isSome hfault hfault.create_fresh
  refine ⟨db, hopen, ?_⟩
  have hfresh : Backs view db {} ∅ :=
    ⟨holds_openFile_fresh hsound hopen, State.nonceFree_default⟩
  rcases runDurable_backs hsound hfault hfresh ops with
    hpanic | ⟨s, results, db', hmemory, hrun, hbacks⟩
  · exact .inl hpanic
  · refine .inr ⟨s, results, db', hmemory, hrun,
      interchangeable_of_holds hsound hfault hbacks.holds hbacks.nonceFree, fun a => ?_⟩
    rw [getEvmNonce_of_holds hsound hfault hbacks.holds, OrdMap.get?_insertAll_lastAt]
    simp

/-- Address 1 gets 100 and pays 60 of it to address 2; then its nonce is mirrored. -/
def paidOnDisk : List (DurableOp treeJson) :=
  [.bridge (.credit (smallAddress 1) 100), .reopen,
    .bridge (.submit (.transfer (smallAddress 1) (smallAddress 2) 60)),
    .syncToStore [(smallAddress 1, .json (resultReply (asciiText "0x28")),
      .json (resultReply (asciiText "0x07")))]]

theorem durable_refines_paidOnDisk :
    (memoryView Table).Sound ∧ (memoryView Table).Faultless ∧
    ∃ db db' results, openFile memoryRedb memoryRedb.fresh = some db ∧
      runDurable memoryRedb treeJson Hex.codec db paidOnDisk = some (db', results) ∧
      RedbBalanceStore.get memoryRedb db' (smallAddress 1) = some (BalanceSlot.new 40) ∧
      getEvmNonce memoryRedb db' (smallAddress 1) = some (some 7) := by
  refine ⟨memory_sound Table, memory_faultless Table, ?_⟩
  obtain ⟨db, hopen, hcases⟩ := durable_refines treeJson Hex.codec (memory_sound Table)
    (memory_faultless Table) paidOnDisk
  rcases hcases with ⟨⟨calls, hmem, hnone⟩, -⟩ | ⟨s, results, db', hmemory, hrun, hsame, hnonces⟩
  · simp only [paidOnDisk, List.mem_cons, reduceCtorEq, DurableOp.syncToStore.injEq,
      List.not_mem_nil, or_false, false_or] at hmem
    rw [hmem] at hnone
    cases hnone
  · have hbalance : (runMemory treeJson Hex.codec {} paidOnDisk).map
        (fun p => p.1.store.get (smallAddress 1)) = some (BalanceSlot.new 40) := by decide +kernel
    rw [hmemory] at hbalance
    refine ⟨db, db', results, hopen, hrun, ?_, ?_⟩
    · rw [hsame.get]
      exact hbalance
    · rw [hnonces]
      exact congrArg some (by decide +kernel)

/-- A crash at any point of such a run, or a call of `redb` that fails there: the file, opened
again, holds the state after some of the operations, or that state with the debit of the next
operation's transfer and not its credit, and then the amount of that one transfer is missing. -/
theorem crash_between_legs (hsound : view.Sound) {db₀ db : redb.Db}
    (hfresh : openFile redb redb.fresh = some db₀) {ops : List (DurableOp serde)}
    {point : redb.Point} (hpoint : point ∈ durablePoints redb serde hex db₀ ops) {file : redb.File}
    (hleaves : point.Leaves file) (hopen : openFile redb file = some db) :
    ∃ k s results t m, runMemory serde hex {} (ops.take k) = some (s, results) ∧
      Backs view db t (OrdMap.insertAll ∅ ((nonceWrites serde hex ops).take m)) ∧
      (view.Faultless → Interchangeable redb db t.store) ∧
      (t = s ∨ ∃ call src dst amount, ops[k]? = some (.bridge call) ∧
        call.transfer? = some (src, dst, amount) ∧ HalfMoved s src dst amount t ∧
        t.supply + amount.val = s.supply) := by
  have hbacks₀ : Backs view db₀ {} ∅ :=
    ⟨holds_openFile_fresh hsound hfresh, State.nonceFree_default⟩
  obtain ⟨db₁, hcreate, -⟩ := contents_openFile hsound hopen
  obtain ⟨k, s, results, t, m, hrun, htables, hfree, hcases⟩ :=
    durablePoints_survive hsound hbacks₀ hpoint (hsound.shows hleaves hcreate)
  have hholds :
      Holds view db t.store (OrdMap.insertAll ∅ ((nonceWrites serde hex ops).take m)) := by
    refine holds_openFile hsound (fun hcreate' => ?_) hopen
    rw [Option.some.inj (hcreate'.symm.trans hcreate), htables]
  refine ⟨k, s, results, t, m, hrun, ⟨hholds, hfree⟩,
    fun hfault => interchangeable_of_holds hsound hfault hholds hfree, ?_⟩
  rcases hcases with heq | ⟨call, src, dst, amount, hop, htransfer, hhalf⟩
  · exact .inl heq
  · exact .inr ⟨call, src, dst, amount, hop, htransfer, hhalf, hhalf.supply⟩

end Results

/-! ### A torn payment -/

/-- The file in memory that holds a state. -/
def heldFile (s : State) : memoryRedb.Db := fileOf s.store ∅

theorem openFile_fresh_memory : openFile memoryRedb memoryRedb.fresh = some (heldFile {}) := by
  obtain ⟨db, hopen⟩ :=
    openFile_isSome (memory_faultless Table) (memory_faultless Table).create_fresh
  exact hopen.trans (congrArg some (holds_openFile_fresh (memory_sound Table) hopen))

theorem openFile_heldFile (s : State) : openFile memoryRedb (heldFile s) = some (heldFile s) := by
  obtain ⟨db, hopen⟩ := openFile_isSome (memory_faultless Table)
    ((memory_faultless Table).create_close (heldFile s))
  refine hopen.trans (congrArg some (holds_openFile (memory_sound Table) (fun hcreate => ?_) hopen))
  exact (Option.some.inj hcreate).symm

theorem get_heldFile (s : State) (addr : Address) :
    RedbBalanceStore.get memoryRedb (heldFile s) addr = some (BalanceSlot.new (s.balanceOf addr)) :=
  get_of_holds (memory_sound Table) (memory_faultless Table) rfl addr

theorem set_heldFile (s : State) (addr : Address) (bal : Balance) :
    RedbBalanceStore.set memoryRedb (heldFile s) addr (BalanceSlot.new bal) =
      some (heldFile (s.apply (.setBalance addr bal))) := by
  obtain ⟨db, hset⟩ :=
    set_isSome (memory_faultless Table) (heldFile s) addr (BalanceSlot.new bal)
  exact hset.trans (congrArg some (Holds.set (memory_sound Table) rfl hset))

theorem mem_durablePoints {redb : TxnStore Table} {serde : JsonApi} {hex : Hex.Codec}
    {db db' : redb.Db} {op : DurableOp serde} {ops : List (DurableOp serde)}
    {result : DurableResult} (hstep : durableStep redb serde hex db op = some (db', result))
    {point : redb.Point} (hpoint : point ∈ durablePoints redb serde hex db' ops) :
    point ∈ durablePoints redb serde hex db (op :: ops) := by
  rw [durablePoints, hstep]
  exact List.mem_append_right _ hpoint

/-- Address 1 has paid, and address 2 has not been paid. -/
def tornState : State := smallState.apply (.setBalance (smallAddress 1) 40)

theorem crash_between_legs_paidOnDisk :
    (memoryView Table).Sound ∧ openFile memoryRedb memoryRedb.fresh = some (heldFile {}) ∧
    .idle (heldFile tornState) ∈
      durablePoints memoryRedb treeJson Hex.codec (heldFile {}) paidOnDisk ∧
    (.idle (heldFile tornState) : memoryRedb.Point).Leaves (heldFile tornState) ∧
    openFile memoryRedb (heldFile tornState) = some (heldFile tornState) ∧
    ∃ k s results t m, runMemory treeJson Hex.codec {} (paidOnDisk.take k) = some (s, results) ∧
      Backs (memoryView Table) (heldFile tornState) t
        (OrdMap.insertAll ∅ ((nonceWrites treeJson Hex.codec paidOnDisk).take m)) ∧
      ((memoryView Table).Faultless → Interchangeable memoryRedb (heldFile tornState) t.store) ∧
      (t = s ∨ ∃ call src dst amount, paidOnDisk[k]? = some (.bridge call) ∧
        call.transfer? = some (src, dst, amount) ∧ HalfMoved s src dst amount t ∧
        t.supply + amount.val = s.supply) := by
  have hmem : .idle (heldFile tornState) ∈
      durablePoints memoryRedb treeJson Hex.codec (heldFile {}) paidOnDisk := by
    have hcanonical (bal : Balance) : (BalanceSlot.new bal).canonical = bal := rfl
    have hsmall : State.apply {} (.setBalance (smallAddress 1) 100) = smallState := rfl
    have hcredit : (100 : U128) ≠ 0 ∧
        checkedAdd (({} : State).balanceOf (smallAddress 1)) 100 = some 100 := by decide +kernel
    have hlegs : ¬ smallState.balanceOf (smallAddress 1) < 60 ∧ smallAddress 1 ≠ smallAddress 2 ∧
        checkedAdd (smallState.balanceOf (smallAddress 2)) 60 = some 60 ∧
        sub? (smallState.balanceOf (smallAddress 1)) 60 = some 40 := by decide +kernel
    have hfirst : durableStep memoryRedb treeJson Hex.codec (heldFile {})
        (.bridge (.credit (smallAddress 1) 100)) =
          some (heldFile smallState, .verdict (.ok ())) := by
      simp [durableStep, BridgeOp.prog, Prog.exec, fileSem, get_heldFile, set_heldFile,
        hcanonical, hcredit, hsmall]
    have hsecond : durableStep memoryRedb treeJson Hex.codec (heldFile smallState) .reopen =
        some (heldFile smallState, .reopened) :=
      congrArg (Option.map fun db' => (db', DurableResult.reopened)) (openFile_heldFile smallState)
    refine mem_durablePoints hfirst (mem_durablePoints hsecond ?_)
    rw [durablePoints]
    refine List.mem_append_left _ ?_
    simp [opPoints, BridgeOp.prog, moveProg, legsProg, Prog.points, fileSem, callPoints,
      get_heldFile, set_heldFile, hcanonical, hlegs, writePoints, tornState]
  refine ⟨memory_sound Table, openFile_fresh_memory, hmem, rfl, openFile_heldFile _, ?_⟩
  exact crash_between_legs treeJson Hex.codec (memory_sound Table) openFile_fresh_memory hmem rfl
    (openFile_heldFile _)

end SuwappuDb
