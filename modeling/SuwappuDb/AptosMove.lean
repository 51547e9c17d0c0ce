import SuwappuDb.Lib.Prog
import SuwappuDb.BundleProof

/-!
# The Aptos executor and the canonical coin

`crates/suwappudb-state/src/vm/{executor,aptos_session}.rs` and
`move/canonical-coin/sources/coin.move`: the production Move executor, the adapters through which
the Aptos VM sees modules and balances, and the coin module it runs. The VM is not part of the
repository and is a parameter here (`MoveVM`); that it runs the coin's functions as the module
writes them is the hypothesis `MoveVM.RunsCoin`.

A balance goes through 64 bits on its way into the VM and through 32 bytes of address on its way
back, and nobody compares the account that `coin::transfer` debits with the caller.

* `Coin.transfer_eq_ok` — what a transfer that does not abort has found and written.
* `coinStoreWrites_effects` — the session's writes, as the executor reads them back.
* `move_call_spends_own_iff` — when a committed call lowers no balance but its caller's.
-/

namespace SuwappuDb

/-! ## The coin's resource -/

/-- `struct CoinStore`. -/
structure CoinStore where
  value : U64
  sequence : U64
  deriving DecidableEq

structure StructTag where
  address : MoveAddress
  module : Identifier
  name : Identifier
  typeParams : List TypeTag := []

theorem identifierError_coin : identifierError (ascii "coin") = none := by decide

theorem identifierError_coinStore : identifierError (ascii "CoinStore") = none := by decide

/-- `canonical_coin_module_id`: `0x1::coin`. -/
def canonicalCoinModuleId : ModuleId :=
  ⟨CANONICAL_COIN_ADDRESS, ⟨ascii "coin", identifierError_coin⟩⟩

/-- `0x1::coin::CoinStore`. -/
def coinStoreTag : StructTag where
  address := CANONICAL_COIN_ADDRESS
  module := ⟨ascii "coin", identifierError_coin⟩
  name := ⟨ascii "CoinStore", identifierError_coinStore⟩

/-- `is_canonical_coin_store`. -/
def isCanonicalCoinStore (tag : StructTag) : Bool :=
  tag.address = CANONICAL_COIN_ADDRESS && tag.module.val = ascii "coin" &&
    tag.name.val = ascii "CoinStore"

def COIN_STORE_BCS_LEN : Nat := 16

/-- `encode_coin_store`. -/
def encodeCoinStore (value sequence : U64) : List Byte :=
  leBytes 8 value.val ++ leBytes 8 sequence.val

/-- `decode_coin_store`. -/
def decodeCoinStore (bytes : List Byte) : Option (U64 × U64) :=
  if bytes.length = COIN_STORE_BCS_LEN then
    some (Fin.ofNat (2 ^ 64) (leValue (bytes.take 8)), Fin.ofNat (2 ^ 64) (leValue (bytes.drop 8)))
  else none

theorem ofNat_leValue_leBytes (v : U64) : Fin.ofNat (2 ^ 64) (leValue (leBytes 8 v.val)) = v := by
  rw [@leValue_leBytes 8 _ v.isLt]
  exact Fin.ext (Nat.mod_eq_of_lt v.isLt)

theorem decodeCoinStore_encode (value sequence : U64) :
    decodeCoinStore (encodeCoinStore value sequence) = some (value, sequence) := by
  have hlength : (encodeCoinStore value sequence).length = COIN_STORE_BCS_LEN := by
    simp [encodeCoinStore, COIN_STORE_BCS_LEN]
  have htake : (encodeCoinStore value sequence).take 8 = leBytes 8 value.val :=
    List.take_left' (length_leBytes 8 _)
  have hdrop : (encodeCoinStore value sequence).drop 8 = leBytes 8 sequence.val :=
    List.drop_left' (length_leBytes 8 _)
  rw [decodeCoinStore, if_pos hlength, htake, hdrop, ofNat_leValue_leBytes, ofNat_leValue_leBytes]

/-! ## What the VM sees -/

/-- `u64::try_from(v).unwrap_or(u64::MAX)`. -/
def u64OrMax (v : U128) : U64 :=
  if h : v.val < 2 ^ 64 then ⟨v.val, h⟩ else Fin.ofNat (2 ^ 64) (2 ^ 64 - 1)

/-- The bytes of a resource, if the account has it. -/
abbrev ResourceResolver := MoveAddress → StructTag → Option (List Byte)

/-- `BalanceViewResolver`: every account has a `CoinStore`, and nothing else. -/
def balanceViewResolver (view : MoveBalanceView) : ResourceResolver := fun address tag =>
  if isCanonicalCoinStore tag then
    some (encodeCoinStore (u64OrMax (view.coinValue address)) (view.nonce address).value)
  else none

/-- `SuwappudbModuleBytes::fetch_module_bytes`. -/
def fetchModuleBytes (modules : InMemoryModuleStore) (id : ModuleId) : Option (List Byte) :=
  (modules.get id).map CompiledModule.bytes

/-! ## The coin module -/

/-- How a function of the module fails. -/
inductive VmError where
  | aborted (code : U64)
  | arithmeticError
  | missingData
  | badArguments
  | functionNotFound
  deriving DecidableEq

/-- The `CoinStore`s a session has written. -/
abbrev Globals := OrdMap MoveAddress CoinStore

/-- `borrow_global_mut<CoinStore>`, read. -/
def borrowGlobalMut (resolver : ResourceResolver) (written : Globals) (addr : MoveAddress) :
    Except VmError CoinStore :=
  match written.get? addr with
  | some store => .ok store
  | none =>
      match (resolver addr coinStoreTag).bind decodeCoinStore with
      | some (value, sequence) => .ok ⟨value, sequence⟩
      | none => .error .missingData

/-- Move's `+` on `u64`. -/
def addU64 (a b : U64) : Except VmError U64 :=
  if h : a.val + b.val < 2 ^ 64 then .ok ⟨a.val + b.val, h⟩ else .error .arithmeticError

/-- Move's `-` on `u64`. -/
def subU64 (a b : U64) : Except VmError U64 :=
  if b ≤ a then .ok (a - b) else .error .arithmeticError

/-- `assert!`. -/
def moveAssert (condition : Prop) [Decidable condition] (code : U64) : Except VmError Unit :=
  if condition then .ok () else .error (.aborted code)

namespace Coin

def EINSUFFICIENT_BALANCE : U64 := 0x10006

/-- `transfer`. -/
def transfer (resolver : ResourceResolver) (src dst : MoveAddress) (amount : U64) :
    Except VmError Globals := do
  let fromStore ← borrowGlobalMut resolver ∅ src
  moveAssert (fromStore.value ≥ amount) EINSUFFICIENT_BALANCE
  let fromValue ← subU64 fromStore.value amount
  let fromSequence ← addU64 fromStore.sequence 1
  let written := (∅ : Globals).insert src ⟨fromValue, fromSequence⟩
  let toStore ← borrowGlobalMut resolver written dst
  let toValue ← addU64 toStore.value amount
  pure (written.insert dst { toStore with value := toValue })

/-- A BCS `address`. -/
def decodeAddress (bytes : List Byte) : Option MoveAddress :=
  if h : bytes.length = 32 then some ⟨bytes, h⟩ else none

/-- A BCS `u64`. -/
def decodeU64 (bytes : List Byte) : Option U64 :=
  if bytes.length = 8 then some (Fin.ofNat (2 ^ 64) (leValue bytes)) else none

/-- The arguments of `transfer(from: address, to: address, amount: u64)`. -/
def transferArguments : List (List Byte) → Option (MoveAddress × MoveAddress × U64)
  | [arg0, arg1, arg2] => do
      let src ← decodeAddress arg0
      let dst ← decodeAddress arg1
      let amount ← decodeU64 arg2
      some (src, dst, amount)
  | _ => none

/-- A function of the module: what it writes. `balance` and `sequence` only read. -/
def run (resolver : ResourceResolver) (function : Identifier) (arguments : List (List Byte)) :
    Except VmError Globals :=
  if function.val = ascii "transfer" then
    match transferArguments arguments with
    | some (src, dst, amount) => transfer resolver src dst amount
    | none => .error .badArguments
  else if function.val = ascii "balance" ∨ function.val = ascii "sequence" then
    match arguments with
    | [arg0] => if arg0.length = 32 then .ok ∅ else .error .badArguments
    | _ => .error .badArguments
  else .error .functionNotFound

end Coin

/-! ## The executor -/

/-- The resources a session has changed, account by account in the order of their addresses. A
deleted resource has no bytes. -/
abbrev Changes := List (MoveAddress × List (StructTag × Option (List Byte)))

/-- The changes of a session that has written `CoinStore`s. -/
def Globals.effects (written : Globals) : Changes :=
  written.entries.map fun p =>
    (p.1, [(coinStoreTag, some (encodeCoinStore p.2.value p.2.sequence))])

theorem U64.lt_two_pow_128 (v : U64) : v.val < 2 ^ 128 := v.isLt.trans (by decide)

/-- `u128::from`. -/
def U64.toU128 (v : U64) : U128 := ⟨v.val, U64.lt_two_pow_128 v⟩

/-- The write of one changed resource, when it is a `CoinStore` that decodes. -/
def coinStoreWrite (addr : MoveAddress) (change : StructTag × Option (List Byte)) :
    Option ResourceWrite :=
  if isCanonicalCoinStore change.1 then
    (change.2.bind decodeCoinStore).map fun p => ⟨addr, U64.toU128 p.1, ⟨p.2⟩⟩
  else none

/-- The loop over the changes. -/
def coinStoreWrites (changes : Changes) : List ResourceWrite :=
  changes.flatMap fun p => p.2.filterMap (coinStoreWrite p.1)

/-- What the executor uses of the Move VM. An error is its debug text. -/
structure MoveVM (Compiled Function DataCache : Type) where
  /-- `CompiledModule::deserialize`. -/
  deserialize : List Byte → Except String Compiled
  verifyModule : Compiled → Except String Unit
  /-- Aptos's `Identifier::new`. -/
  identifier : List Byte → Except String Unit
  /-- `load_instantiated_function`, without type arguments. -/
  loadFunction : (ModuleId → Option (List Byte)) → ModuleId → Identifier → Except String Function
  executeLoadedFunction : Function → List (List Byte) → ResourceResolver → Except VmError DataCache
  intoEffects : DataCache → Except String Changes

section Executor

variable {Compiled Function DataCache : Type} (vm : MoveVM Compiled Function DataCache)

/-- The steps of `AptosMoveExecutor::execute`. -/
def aptosRun (call : MoveCall) (modules : InMemoryModuleStore) (view : MoveBalanceView) :
    Except MoveExecutionError MoveOutcome := do
  let cm ← okOr (.moduleNotFound call.module) (modules.get call.module)
  let compiled ← (vm.deserialize cm.bytes).mapError fun e =>
    .bytecodeVerificationFailed ("deserialize: " ++ e)
  (vm.verifyModule compiled).mapError fun e => .bytecodeVerificationFailed ("verify: " ++ e)
  (vm.identifier call.module.name.val).mapError fun e => .linkerError ("module-id ident: " ++ e)
  (vm.identifier call.function.val).mapError fun e => .linkerError ("function-name ident: " ++ e)
  let loaded ← (vm.loadFunction (fetchModuleBytes modules) call.module call.function).mapError
    fun e => .linkerError ("load_function: " ++ e)
  let dataCache ←
    (vm.executeLoadedFunction loaded call.arguments (balanceViewResolver view)).mapError
      fun _ => .abort 0 ⟨some call.module, 0, 0⟩
  let changes ← (vm.intoEffects dataCache).mapError fun e => .linkerError ("into_effects: " ++ e)
  pure { resourceWrites := coinStoreWrites changes }

/-- `AptosMoveExecutor`. -/
def aptosMoveExecutor : MoveExecutor := fun call modules view =>
  some (aptosRun vm call modules view)

/-- The VM runs the coin module, deployed as `bytecode`, as it is written: a function that was
loaded succeeds when the module's does, and changes what that writes. -/
def MoveVM.RunsCoin (bytecode : List Byte) : Prop :=
  ∀ fetch function loaded, fetch canonicalCoinModuleId = some bytecode →
    vm.loadFunction fetch canonicalCoinModuleId function = .ok loaded →
    ∀ arguments resolver,
      ((vm.executeLoadedFunction loaded arguments resolver).toOption.bind fun dataCache =>
        (vm.intoEffects dataCache).toOption) =
      (Coin.run resolver function arguments).toOption.map Globals.effects

end Executor

/-! ## What a call writes -/

theorem val_u64OrMax (v : U128) : (u64OrMax v).val = min v.val (2 ^ 64 - 1) := by
  unfold u64OrMax
  split_ifs with h
  · change v.val = min v.val (2 ^ 64 - 1)
    omega
  · change (2 ^ 64 - 1) % 2 ^ 64 = min v.val (2 ^ 64 - 1)
    omega

theorem isCanonicalCoinStore_coinStoreTag : isCanonicalCoinStore coinStoreTag = true := by
  decide

/-- Over a balance view there is always a store to borrow. -/
theorem borrowGlobalMut_view (view : MoveBalanceView) (written : Globals) (addr : MoveAddress) :
    borrowGlobalMut (balanceViewResolver view) written addr = .ok ((written.get? addr).getD
      ⟨u64OrMax (view.coinValue addr), (view.nonce addr).value⟩) := by
  unfold borrowGlobalMut
  cases written.get? addr with
  | some store => rfl
  | none =>
      rw [balanceViewResolver, if_pos isCanonicalCoinStore_coinStoreTag, Option.bind_some,
        decodeCoinStore_encode]
      rfl

theorem addU64_eq_ok {a b c : U64} : addU64 a b = .ok c ↔ a.val + b.val = c.val := by
  unfold addU64
  split_ifs with h
  · simp [Fin.ext_iff]
  · have hc := c.isLt
    simp only [false_iff]
    omega

theorem subU64_eq_ok {a b c : U64} : subU64 a b = .ok c ↔ b ≤ a ∧ c.val = a.val - b.val := by
  unfold subU64
  split_ifs with h
  · simp only [Except.ok.injEq, h, true_and, Fin.ext_iff, Fin.sub_val_of_le h, eq_comm]
  · simp [h]

/-- What a transfer over a balance view has found and written, when it does not abort. -/
theorem Coin.transfer_eq_ok {view : MoveBalanceView} {src dst : MoveAddress} {amount : U64}
    {written : Globals}
    (h : Coin.transfer (balanceViewResolver view) src dst amount = .ok written) :
    ∃ fromStore toStore : CoinStore,
      amount ≤ u64OrMax (view.coinValue src) ∧
      fromStore.value.val = (u64OrMax (view.coinValue src)).val - amount.val ∧
      toStore.value.val = (if dst = src then fromStore.value
        else u64OrMax (view.coinValue dst)).val + amount.val ∧
      written = ((∅ : Globals).insert src fromStore).insert dst toStore := by
  simp only [Coin.transfer, borrowGlobalMut_view, bind_eq_ok_iff, Except.ok.injEq, exists_eq_left',
    addU64_eq_ok, subU64_eq_ok, pure, Except.pure, OrdMap.get?_insert, OrdMap.get?_empty,
    Option.getD_none] at h
  obtain ⟨-, -, fromValue, ⟨hle, hfrom⟩, fromSequence, -, toValue, hto, rfl⟩ := h
  refine ⟨_, _, hle, hfrom, ?_, rfl⟩
  rw [← hto]
  split_ifs <;> rfl

/-- A session's writes, as the executor reads them back from the changes. -/
theorem coinStoreWrites_effects (written : Globals) :
    coinStoreWrites written.effects =
      written.entries.map fun p => ⟨p.1, U64.toU128 p.2.value, ⟨p.2.sequence⟩⟩ := by
  rw [coinStoreWrites, Globals.effects, List.flatMap_map, List.map_eq_flatMap]
  refine congrArg (List.flatMap · written.entries) (funext fun p => ?_)
  simp [coinStoreWrite, isCanonicalCoinStore_coinStoreTag, decodeCoinStore_encode]

/-- A call of the coin that succeeds writes what the coin's function writes. -/
theorem aptosRun_eq_ok {Compiled Function DataCache : Type}
    {vm : MoveVM Compiled Function DataCache} {bytecode : List Byte} (hvm : vm.RunsCoin bytecode)
    {modules : InMemoryModuleStore} {call : MoveCall} {view : MoveBalanceView}
    (hmodule : ∀ cm, modules.get call.module = some cm →
      call.module = canonicalCoinModuleId ∧ cm.bytes = bytecode)
    {outcome : MoveOutcome} (h : aptosRun vm call modules view = .ok outcome) :
    ∃ written, Coin.run (balanceViewResolver view) call.function call.arguments = .ok written ∧
      outcome.resourceWrites =
        written.entries.map fun p => ⟨p.1, U64.toU128 p.2.value, ⟨p.2.sequence⟩⟩ := by
  simp only [aptosRun, bind_eq_ok_iff, okOr_eq_ok_iff, mapError_eq_ok_iff, pure, Except.pure] at h
  obtain ⟨cm, hcm, -, -, -, -, -, -, -, -, loaded, hloaded, dataCache, hrun, changes, heffects,
    houtcome⟩ := h
  obtain ⟨hid, hbytes⟩ := hmodule cm hcm
  have hfetch : fetchModuleBytes modules canonicalCoinModuleId = some bytecode := by
    rw [← hid, fetchModuleBytes, hcm, Option.map_some, hbytes]
  rw [hid] at hloaded
  have hcoin := hvm _ _ _ hfetch hloaded call.arguments (balanceViewResolver view)
  rw [hrun, Except.toOption, Option.bind_some, heffects, Except.toOption] at hcoin
  cases hwritten : Coin.run (balanceViewResolver view) call.function call.arguments with
  | error e =>
      rw [hwritten] at hcoin
      cases hcoin
  | ok written =>
      rw [hwritten] at hcoin
      cases hcoin
      cases houtcome
      exact ⟨written, rfl, coinStoreWrites_effects written⟩

/-- After two writes, the first hidden by the second where they meet, who has lost. -/
theorem forall_overwritten_iff {s : State} {first last caller : Address} {x y : U128} :
    (∀ a, (if a = last then y else if a = first then x else s.balanceOf a) < s.balanceOf a →
      a = caller) ↔
    (y < s.balanceOf last → last = caller) ∧
      (first ≠ last → x < s.balanceOf first → first = caller) := by
  constructor
  · intro h
    refine ⟨fun hlt => h last (by rwa [if_pos rfl]), fun hne hlt => h first ?_⟩
    rwa [if_neg hne, if_pos rfl]
  · rintro ⟨hlast, hfirst⟩ a hlt
    split_ifs at hlt with hl hf
    · subst hl
      exact hlast hlt
    · subst hf
      exact hfirst hl hlt
    · exact absurd hlt (lt_irrefl _)

/-- The balances after the two writes of a transfer. The write of the higher address comes last. -/
theorem balanceOf_transferWrites (s : State) (src dst : MoveAddress) (fromStore toStore : CoinStore)
    (a : Address) :
    (BundleExecutor.applyResourceWrites s
      ((((∅ : Globals).insert src fromStore).insert dst toStore).entries.map fun p =>
        ⟨p.1, U64.toU128 p.2.value, ⟨p.2.sequence⟩⟩)).balanceOf a =
      if src ≤ dst then
        if a = moveAddrToEvm dst then U64.toU128 toStore.value
        else if a = moveAddrToEvm src then U64.toU128 fromStore.value else s.balanceOf a
      else
        if a = moveAddrToEvm src then U64.toU128 fromStore.value
        else if a = moveAddrToEvm dst then U64.toU128 toStore.value else s.balanceOf a := by
  change (BundleExecutor.applyResourceWrites s ((insertEntry dst toStore [(src, fromStore)]).map
    fun p => ⟨p.1, U64.toU128 p.2.value, ⟨p.2.sequence⟩⟩)).balanceOf a = _
  rcases lt_trichotomy dst src with hlt | rfl | hlt
  · rw [insertEntry, if_pos hlt, if_neg (not_le.2 hlt)]
    exact balanceOf_two_writes s _ _ a
  · rw [insertEntry, if_neg (lt_irrefl _), if_pos rfl, if_pos le_rfl]
    simp only [List.map_cons, List.map_nil, BundleExecutor.applyResourceWrites, List.foldl_cons,
      List.foldl_nil, State.balanceOf_setBalance]
    split_ifs <;> rfl
  · rw [insertEntry, if_neg (not_lt.2 hlt.le), if_neg hlt.ne', insertEntry, if_pos hlt.le]
    exact balanceOf_two_writes s _ _ a

/-! ## Whose coins a call spends -/

/-- A transfer asked for by `caller` lowers no other balance: it moves nothing away from another
account, and names no other account that holds more than the VM can see. Two Move addresses of one
account are written one after the other, and the higher one stays. -/
def TransferSpendsOwn (s : State) (caller : Address) (src dst : MoveAddress) (amount : U64) :
    Prop :=
  (moveAddrToEvm src = caller ∨ (s.balanceOf (moveAddrToEvm src)).val < 2 ^ 64) ∧
  (moveAddrToEvm dst = caller ∨ (s.balanceOf (moveAddrToEvm dst)).val < 2 ^ 64) ∧
  (moveAddrToEvm src = caller ∨ amount = 0 ∨
    (moveAddrToEvm src = moveAddrToEvm dst ∧ src ≤ dst))

instance (s : State) (caller : Address) (src dst : MoveAddress) (amount : U64) :
    Decidable (TransferSpendsOwn s caller src dst amount) :=
  inferInstanceAs (Decidable (_ ∧ _ ∧ _))

/-- The transfer a call asks the coin for. -/
def MoveCall.coinTransfer (call : MoveCall) : Option (MoveAddress × MoveAddress × U64) :=
  if call.function.val = ascii "transfer" then Coin.transferArguments call.arguments else none

/-- The transfer a call asks for, if any, lowers no balance but the caller's. -/
def SpendsOwn (s : State) (call : MoveCall) : Prop :=
  ∀ p ∈ call.coinTransfer, TransferSpendsOwn s (moveAddrToEvm call.caller) p.1 p.2.1 p.2.2

instance (s : State) (call : MoveCall) : Decidable (SpendsOwn s call) :=
  inferInstanceAs (Decidable (∀ p ∈ call.coinTransfer, _))

/-- The addresses of the transfer are arguments of the call. -/
theorem MoveCall.mem_arguments_of_coinTransfer {call : MoveCall} {src dst : MoveAddress}
    {amount : U64} (h : call.coinTransfer = some (src, dst, amount)) :
    src.val ∈ call.arguments ∧ dst.val ∈ call.arguments := by
  unfold MoveCall.coinTransfer Coin.transferArguments at h
  split_ifs at h
  split at h
  · rename_i arg0 arg1 arg2 harguments
    simp only [Option.bind_eq_bind, Option.bind_eq_some_iff, Coin.decodeAddress] at h
    obtain ⟨a, ha, b, hb, n, -, heq⟩ := h
    cases heq
    split_ifs at ha hb
    cases ha
    cases hb
    rw [harguments]
    simp
  · cases h

/-- A function of the coin that succeeds has made the call's transfer, or has written nothing. -/
theorem Coin.run_eq_ok {resolver : ResourceResolver} {call : MoveCall} {written : Globals}
    (h : Coin.run resolver call.function call.arguments = .ok written) :
    (∃ src dst amount, call.coinTransfer = some (src, dst, amount) ∧
      Coin.transfer resolver src dst amount = .ok written) ∨
    (call.coinTransfer = none ∧ written = ∅) := by
  unfold Coin.run at h
  unfold MoveCall.coinTransfer
  split_ifs at h ⊢ with htransfer hread
  · cases harguments : Coin.transferArguments call.arguments with
    | none =>
        rw [harguments] at h
        cases h
    | some p =>
        rw [harguments] at h
        exact .inl ⟨p.1, p.2.1, p.2.2, rfl, h⟩
  · refine .inr ⟨rfl, ?_⟩
    split at h
    · split_ifs at h
      cases h
      rfl
    · cases h

/-- A committed call of the coin has applied what the transfer it asks for writes. -/
theorem committed_coinCall {Compiled Function DataCache : Type}
    {vm : MoveVM Compiled Function DataCache} {bytecode : List Byte} (hvm : vm.RunsCoin bytecode)
    {modules modules' : InMemoryModuleStore} {call : MoveCall}
    (hmodule : ∀ cm, modules.get call.module = some cm →
      call.module = canonicalCoinModuleId ∧ cm.bytes = bytecode)
    {s s' : State} {view : MoveBalanceView} {order : IterOrder} {result : BundleResult}
    (hrun : BundleExecutor.executeWithMoveRuntime (aptosMoveExecutor vm) modules view order s
      ⟨[.moveCall call]⟩ = some (s', modules', result))
    (hcommit : result.outcome = .committed) :
    ∃ written : Globals,
      s' = BundleExecutor.applyResourceWrites s (written.entries.map fun p =>
        ⟨p.1, U64.toU128 p.2.value, ⟨p.2.sequence⟩⟩) ∧
      ((∃ src dst amount, call.coinTransfer = some (src, dst, amount) ∧
        Coin.transfer (balanceViewResolver view) src dst amount = .ok written) ∨
      (call.coinTransfer = none ∧ written = ∅)) := by
  obtain ⟨outcome, hexec, rfl⟩ := committed_moveCall hrun hcommit
  obtain ⟨written, hcoin, hwrites⟩ := aptosRun_eq_ok hvm hmodule (Option.some.inj hexec)
  exact ⟨written, congrArg _ hwrites, Coin.run_eq_ok hcoin⟩

section Transfer

variable {s : State} {view : MoveBalanceView} {src dst : MoveAddress} {amount : U64}
  {written : Globals} (hsrc : view.coinValue src = s.balanceOf (moveAddrToEvm src))
  (hdst : view.coinValue dst = s.balanceOf (moveAddrToEvm dst))
  (h : Coin.transfer (balanceViewResolver view) src dst amount = .ok written)

include hsrc hdst h

/-- The two writes of a transfer, and when each is a loss: the debited account loses unless nothing
is moved and the VM sees all it holds, the credited account loses what the VM does not see. -/
theorem Coin.transfer_loses :
    ∃ fromStore toStore : CoinStore,
      written = ((∅ : Globals).insert src fromStore).insert dst toStore ∧
      (U64.toU128 fromStore.value < s.balanceOf (moveAddrToEvm src) ↔
        amount ≠ 0 ∨ ¬ (s.balanceOf (moveAddrToEvm src)).val < 2 ^ 64) ∧
      (U64.toU128 toStore.value < s.balanceOf (moveAddrToEvm dst) ↔
        ¬ (s.balanceOf (moveAddrToEvm dst)).val < 2 ^ 64) := by
  obtain ⟨fromStore, toStore, hle, hfrom, hto, rfl⟩ := Coin.transfer_eq_ok h
  rw [Fin.le_def, val_u64OrMax, hsrc] at hle
  rw [val_u64OrMax, hsrc] at hfrom
  refine ⟨fromStore, toStore, rfl, ?_, ?_⟩
  · rw [Fin.lt_def, U64.toU128, hfrom, Ne, Fin.ext_iff, Fin.val_zero]
    omega
  · have hfits := toStore.value.isLt
    rw [Fin.lt_def, U64.toU128, hto]
    rw [hto] at hfits
    split_ifs at hfits ⊢ with heq
    · rw [heq, hfrom]
      omega
    · rw [val_u64OrMax, hdst] at hfits ⊢
      omega

/-- Whose balance a transfer lowers. -/
theorem transfer_spends_own_iff (caller : Address) :
    (∀ a, (BundleExecutor.applyResourceWrites s (written.entries.map fun p =>
        ⟨p.1, U64.toU128 p.2.value, ⟨p.2.sequence⟩⟩)).balanceOf a < s.balanceOf a → a = caller) ↔
      TransferSpendsOwn s caller src dst amount := by
  obtain ⟨fromStore, toStore, rfl, hfromLoses, htoLoses⟩ := Coin.transfer_loses hsrc hdst h
  simp only [balanceOf_transferWrites]
  clear hsrc hdst h
  by_cases horder : src ≤ dst
  · simp only [if_pos horder]
    rw [forall_overwritten_iff, hfromLoses, htoLoses, TransferSpendsOwn]
    grind
  · simp only [if_neg horder]
    rw [forall_overwritten_iff, hfromLoses, htoLoses, TransferSpendsOwn]
    grind

end Transfer

/-- A committed call of the coin, over a view that shows the balances of the accounts the call
names, lowers no balance but its caller's exactly when the transfer it asks for is its own. -/
theorem move_call_spends_own_iff {Compiled Function DataCache : Type}
    {vm : MoveVM Compiled Function DataCache} {bytecode : List Byte} (hvm : vm.RunsCoin bytecode)
    {modules modules' : InMemoryModuleStore} {call : MoveCall}
    (hmodule : ∀ cm, modules.get call.module = some cm →
      call.module = canonicalCoinModuleId ∧ cm.bytes = bytecode)
    {s s' : State} {view : MoveBalanceView}
    (hview : ∀ addr : MoveAddress, addr.val ∈ call.arguments →
      view.coinValue addr = s.balanceOf (moveAddrToEvm addr))
    {order : IterOrder} {result : BundleResult}
    (hrun : BundleExecutor.executeWithMoveRuntime (aptosMoveExecutor vm) modules view order s
      ⟨[.moveCall call]⟩ = some (s', modules', result))
    (hcommit : result.outcome = .committed) :
    (∀ a, s'.balanceOf a < s.balanceOf a → a = moveAddrToEvm call.caller) ↔ SpendsOwn s call := by
  rw [SpendsOwn]
  obtain ⟨written, rfl, ⟨src, dst, amount, hasked, htransfer⟩ | ⟨hasked, rfl⟩⟩ :=
    committed_coinCall hvm hmodule hrun hcommit
  · obtain ⟨hsrc, hdst⟩ := MoveCall.mem_arguments_of_coinTransfer hasked
    rw [transfer_spends_own_iff (hview src hsrc) (hview dst hdst) htransfer, hasked]
    simp
  · rw [hasked]
    exact iff_of_true (fun a hlt => absurd hlt (lt_irrefl _)) (by simp)

/-! ### Calls of the coin -/

/-- A VM that knows one module. -/
def coinVm : MoveVM Unit Identifier Globals where
  deserialize bytes :=
    if bytes.take 4 = [0xa1, 0x1c, 0xeb, 0x0b] then .ok () else .error "BAD_MAGIC"
  verifyModule _ := .ok ()
  identifier _ := .ok ()
  loadFunction fetch id function :=
    if (fetch id).isSome ∧ (function.val = ascii "transfer" ∨ function.val = ascii "balance" ∨
        function.val = ascii "sequence") then
      .ok function
    else .error "FUNCTION_RESOLUTION_FAILURE"
  executeLoadedFunction function arguments resolver := Coin.run resolver function arguments
  intoEffects written := .ok written.effects

/-- The first bytes of a compiled module. -/
def coinBytes : List Byte := [0xa1, 0x1c, 0xeb, 0x0b, 0x09, 0x00, 0x00, 0x0a]

theorem coinVm_runsCoin : coinVm.RunsCoin coinBytes := by
  intro fetch function loaded hfetch hloaded arguments resolver
  simp only [coinVm] at hloaded ⊢
  split_ifs at hloaded
  cases hloaded
  cases Coin.run resolver function arguments with
  | error e => rfl
  | ok written => rfl

/-- The store with the coin deployed. -/
def coinModules : InMemoryModuleStore :=
  ⟨(∅ : OrdMap ModuleId CompiledModule).insert canonicalCoinModuleId ⟨coinBytes⟩⟩

theorem coinModules_get {id : ModuleId} {cm : CompiledModule} (h : coinModules.get id = some cm) :
    id = canonicalCoinModuleId ∧ cm.bytes = coinBytes := by
  rw [InMemoryModuleStore.get, coinModules, OrdMap.get?_insert] at h
  split_ifs at h with hid
  · cases h
    exact ⟨hid, rfl⟩
  · cases h

/-- The balances of a state, as a view. -/
def balanceView (s : State) : MoveBalanceView where
  coinValue addr := s.balanceOf (moveAddrToEvm addr)
  nonce _ := {}

theorem identifierError_transfer : identifierError (ascii "transfer") = none := by decide

/-- A call of `transfer` between accounts with small addresses. -/
def coinCall (caller src dst : Byte) (amount : U64) : MoveCall where
  caller := MoveAddress.fromEvm (smallAddress caller)
  module := canonicalCoinModuleId
  function := ⟨ascii "transfer", identifierError_transfer⟩
  typeArguments := []
  arguments := [(MoveAddress.fromEvm (smallAddress src)).val,
    (MoveAddress.fromEvm (smallAddress dst)).val, leBytes 8 amount.val]

/-- Address 1 pays address 2. -/
theorem move_call_spends_own_small :
    coinVm.RunsCoin coinBytes ∧ SpendsOwn smallState (coinCall 1 1 2 60) ∧
    ∃ s' modules' result,
      BundleExecutor.executeWithMoveRuntime (aptosMoveExecutor coinVm) coinModules
        (balanceView smallState) default smallState ⟨[.moveCall (coinCall 1 1 2 60)]⟩ =
          some (s', modules', result) ∧
      result.outcome = .committed ∧ s'.balanceOf (smallAddress 1) = 40 ∧
      ∀ a, s'.balanceOf a < smallState.balanceOf a → a = smallAddress 1 := by
  have hown : SpendsOwn smallState (coinCall 1 1 2 60) := by decide +kernel
  have hran : (BundleExecutor.executeWithMoveRuntime (aptosMoveExecutor coinVm) coinModules
      (balanceView smallState) default smallState ⟨[.moveCall (coinCall 1 1 2 60)]⟩).map
        (fun r => (r.2.2.outcome, r.1.balanceOf (smallAddress 1))) = some (.committed, 40) := by
    decide +kernel
  obtain ⟨⟨s', modules', result⟩, hrun, heq⟩ := Option.map_eq_some_iff.1 hran
  obtain ⟨hcommit, hpaid⟩ := Prod.mk.inj heq
  exact ⟨coinVm_runsCoin, hown, s', modules', result, hrun, hcommit, hpaid,
    (move_call_spends_own_iff coinVm_runsCoin (fun cm => coinModules_get) (fun addr _ => rfl) hrun
      hcommit).2 hown⟩

/-- Address 2 takes the coins of address 1, with a call whose first argument is address 1. -/
theorem move_call_spends_other :
    coinVm.RunsCoin coinBytes ∧ ∃ s' modules' result,
      BundleExecutor.executeWithMoveRuntime (aptosMoveExecutor coinVm) coinModules
        (balanceView smallState) default smallState ⟨[.moveCall (coinCall 2 1 2 100)]⟩ =
          some (s', modules', result) ∧
      result.outcome = .committed ∧
      smallState.balanceOf (smallAddress 1) = 100 ∧ s'.balanceOf (smallAddress 1) = 0 ∧
      s'.balanceOf (smallAddress 2) = 100 ∧
      smallAddress 1 ≠ moveAddrToEvm (coinCall 2 1 2 100).caller := by
  have hran : (BundleExecutor.executeWithMoveRuntime (aptosMoveExecutor coinVm) coinModules
      (balanceView smallState) default smallState ⟨[.moveCall (coinCall 2 1 2 100)]⟩).map
        (fun r => (r.2.2.outcome, r.1.balanceOf (smallAddress 1), r.1.balanceOf (smallAddress 2))) =
      some (.committed, 0, 100) := by
    decide +kernel
  obtain ⟨⟨s', modules', result⟩, hrun, heq⟩ := Option.map_eq_some_iff.1 hran
  obtain ⟨hcommit, hbalances⟩ := Prod.mk.inj heq
  obtain ⟨hfrom, hto⟩ := Prod.mk.inj hbalances
  exact ⟨coinVm_runsCoin, s', modules', result, hrun, hcommit, by decide +kernel, hfrom, hto,
    by decide +kernel⟩

end SuwappuDb
