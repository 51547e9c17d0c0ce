import Mathlib.Data.Prod.Lex
import SuwappuDb.State

/-!
# The Move call site

`crates/suwappudb-state/src/{address_shape.rs,vm/tx.rs,vm/executor.rs}`: the types a Move call is
made of, the module store, and the mock executor. A Move executor is any function of the call,
the deployed modules and a view of the balances. The session it is given is fresh for each call
and dropped after it, so only the outcome is modelled.

`none` stands for a panic.
-/

namespace SuwappuDb

/-! ## Transactions -/

/-- EVM-shaped transfer. -/
structure EvmTx where
  src : Address
  dst : Address
  value : U128
  deriving DecidableEq

/-- Move-shaped transfer. -/
structure MoveTx where
  signer : Address
  recipient : Address
  amount : U128
  deriving DecidableEq

/-- The form both VMs' transfers flatten to. -/
structure CanonicalTransfer where
  src : Address
  dst : Address
  amount : U128
  deriving DecidableEq

def EvmTx.toCanonical (tx : EvmTx) : CanonicalTransfer := ⟨tx.src, tx.dst, tx.value⟩

def MoveTx.toCanonical (tx : MoveTx) : CanonicalTransfer := ⟨tx.signer, tx.recipient, tx.amount⟩

/-- `MoveAddress::to_evm`: the last 20 bytes. -/
def MoveAddress.toEvm (addr : MoveAddress) : Address :=
  ⟨addr.val.drop 12, by rw [List.length_drop, addr.property]⟩

/-- `MoveAddress::from_evm`: twelve zero bytes in front. -/
def MoveAddress.fromEvm (addr : Address) : MoveAddress :=
  ⟨List.replicate 12 0 ++ addr.val, by
    rw [List.length_append, List.length_replicate, addr.property]⟩

/-! ## Identifiers and modules -/

def isAsciiAlphabetic (b : Byte) : Bool := (65 ≤ b && b ≤ 90) || (97 ≤ b && b ≤ 122)

def isAsciiAlphanumeric (b : Byte) : Bool := isAsciiAlphabetic b || (48 ≤ b && b ≤ 57)

/-- Why `Identifier::new` rejects a text. -/
inductive IdentifierError where
  | empty
  | invalidByte (b : Byte)
  | invalidLeadingByte (b : Byte)
  deriving DecidableEq

/-- The checks of `Identifier::new` on the bytes of a text. -/
def identifierError : List Byte → Option IdentifierError
  | [] => some .empty
  | first :: rest =>
      if !(isAsciiAlphabetic first || first == 95) then some (.invalidLeadingByte first)
      else (rest.find? fun b => !(isAsciiAlphanumeric b || b == 95)).map .invalidByte

/-- A Move identifier: a text that passes the checks. -/
abbrev Identifier := { s : List Byte // identifierError s = none }

def Identifier.new (s : List Byte) : Except IdentifierError Identifier :=
  match h : identifierError s with
  | some e => .error e
  | none => .ok ⟨s, h⟩

theorem Identifier.new_eq_ok {s : List Byte} {name : Identifier} :
    Identifier.new s = .ok name ↔ s = name.val := by
  rw [Identifier.new]
  split
  · next e he =>
      refine iff_of_false nofun ?_
      rintro rfl
      rw [name.property] at he
      cases he
  · next hnone => rw [Except.ok.injEq, Subtype.ext_iff]

/-- `<address>::<module>`. -/
structure ModuleId where
  address : MoveAddress
  name : Identifier
  deriving DecidableEq

instance : LinearOrder ModuleId :=
  LinearOrder.lift' (fun id : ModuleId => toLex (id.address, id.name)) fun a b h => by
    cases a
    cases b
    simpa using h

/-- Move type tags. -/
inductive TypeTag where
  | bool | u8 | u16 | u32 | u64 | u128 | u256 | address | signer
  | vector (elem : TypeTag)
  | struct (address : MoveAddress) (module name : Identifier) (typeParams : List TypeTag)

/-- One entry-function invocation. -/
structure MoveCall where
  caller : MoveAddress
  module : ModuleId
  function : Identifier
  typeArguments : List TypeTag
  /-- BCS-encoded arguments. -/
  arguments : List (List Byte)

/-- Opaque bytecode. -/
structure CompiledModule where
  bytes : List Byte
  deriving DecidableEq

inductive ModuleStoreError where
  | alreadyExists (id : ModuleId)
  | backend (text : String)

/-- `InMemoryModuleStore`. -/
structure InMemoryModuleStore where
  modules : OrdMap ModuleId CompiledModule := ∅

namespace InMemoryModuleStore

def get (store : InMemoryModuleStore) (id : ModuleId) : Option CompiledModule :=
  store.modules.get? id

def contains (store : InMemoryModuleStore) (id : ModuleId) : Bool := (store.modules.get? id).isSome

/-- A deployed module is never replaced. -/
def put (store : InMemoryModuleStore) (id : ModuleId) (module : CompiledModule) :
    Except ModuleStoreError InMemoryModuleStore :=
  if store.contains id then .error (.alreadyExists id)
  else .ok ⟨store.modules.insert id module⟩

end InMemoryModuleStore

/-! ## Executors -/

/-- A read-only view of the balances, as a Move executor sees them. -/
structure MoveBalanceView where
  coinValue : MoveAddress → U128
  nonce : MoveAddress → AccountNonce

/-- The new coin value and nonce of an account. -/
structure ResourceWrite where
  addr : MoveAddress
  coinValue : U128
  nonce : AccountNonce
  deriving DecidableEq

structure MoveEvent where
  typeTag : TypeTag
  data : List Byte

structure MoveOutcome where
  returnValues : List (List Byte) := []
  events : List MoveEvent := []
  resourceWrites : List ResourceWrite := []

abbrev U16 := Fin (2 ^ 16)

instance U16.neZero : NeZero (2 ^ 16) := ⟨by decide⟩

structure AbortLocation where
  module : Option ModuleId
  functionIndex : U16
  instructionIndex : U16
  deriving DecidableEq

inductive MoveExecutionError where
  | moduleNotFound (id : ModuleId)
  | bytecodeVerificationFailed (text : String)
  | abort (code : U64) (location : AbortLocation)
  | outOfGas
  | invalidArguments (text : String)
  | linkerError (text : String)
  deriving DecidableEq

/-- Any executor. -/
abbrev MoveExecutor :=
  MoveCall → InMemoryModuleStore → MoveBalanceView → Option (Except MoveExecutionError MoveOutcome)

/-- `0x1`, the account of the canonical coin module. -/
def CANONICAL_COIN_ADDRESS : MoveAddress := ⟨List.replicate 31 0 ++ [1], rfl⟩

def ABORT_INSUFFICIENT_BALANCE : U64 := 0x10006

/-- `MockMoveExecutor::execute`: only `0x1::coin::transfer(to, amount)` does anything. The sum on
the recipient's side is unchecked, so it panics where it would wrap. -/
def mockMoveExecutor : MoveExecutor := fun call _ view =>
  if call.module.address = CANONICAL_COIN_ADDRESS ∧ call.module.name.val = ascii "coin" ∧
      call.function.val = ascii "transfer" then
    match call.arguments with
    | [arg0, arg1] =>
        if h0 : arg0.length = 32 then
          if arg1.length = 8 then
            let dst : MoveAddress := ⟨arg0, h0⟩
            let amount : U128 := Fin.ofNat (2 ^ 128) (leValue arg1)
            let callerBalance := view.coinValue call.caller
            if amount > callerBalance then
              some (.error (.abort ABORT_INSUFFICIENT_BALANCE ⟨some call.module, 0, 0⟩))
            else do
              let callerNew ← sub? callerBalance amount
              let recipientNew ← checkedAdd (view.coinValue dst) amount
              some (.ok { resourceWrites :=
                [⟨call.caller, callerNew, (view.nonce call.caller).next⟩,
                 ⟨dst, recipientNew, view.nonce dst⟩] })
          else
            some (.error (.invalidArguments
              "0x1::coin::transfer: arg 1 must be u64 (8 bytes LE)"))
        else some (.error (.invalidArguments "0x1::coin::transfer: arg 0 must be 32-byte address"))
    | args => some (.error (.invalidArguments
        ("0x1::coin::transfer expects 2 arguments, got " ++ toString args.length)))
  else some (.ok {})

/-- A call of `0x1::coin::transfer(dst, amount)`, the amount given by its bytes. -/
structure MoveCall.IsCoinTransfer (call : MoveCall) (dst : MoveAddress) (amount : List Byte) :
    Prop where
  function : call.module.address = CANONICAL_COIN_ADDRESS ∧
    call.module.name.val = ascii "coin" ∧ call.function.val = ascii "transfer"
  arguments : call.arguments = [dst.val, amount]

/-- What the mock makes of a coin transfer. It fails if the amount is no `u64` or more than the
caller has in the view, and panics if the recipient's sum does not fit. Otherwise it writes the two
balances of the view, less and more the amount, with the next nonce for the caller. -/
theorem MoveCall.IsCoinTransfer.execute {call : MoveCall} {dst : MoveAddress} {amount : List Byte}
    (h : call.IsCoinTransfer dst amount) (modules : InMemoryModuleStore) (view : MoveBalanceView) :
    ((amount.length = 8 → view.coinValue call.caller < Fin.ofNat (2 ^ 128) (leValue amount)) ∧
      ∃ e, mockMoveExecutor call modules view = some (.error e)) ∨
    (checkedAdd (view.coinValue dst) (Fin.ofNat (2 ^ 128) (leValue amount)) = none ∧
      mockMoveExecutor call modules view = none) ∨
    ∃ callerNew recipientNew : U128,
      callerNew.val + (Fin.ofNat (2 ^ 128) (leValue amount)).val =
        (view.coinValue call.caller).val ∧
      recipientNew.val =
        (view.coinValue dst).val + (Fin.ofNat (2 ^ 128) (leValue amount)).val ∧
      mockMoveExecutor call modules view = some (.ok { resourceWrites :=
        [⟨call.caller, callerNew, (view.nonce call.caller).next⟩,
         ⟨dst, recipientNew, view.nonce dst⟩] }) := by
  have hdst : (⟨dst.val, dst.property⟩ : MoveAddress) = dst := rfl
  simp only [mockMoveExecutor, if_pos h.function, h.arguments, dif_pos dst.property, hdst,
    gt_iff_lt]
  generalize Fin.ofNat (2 ^ 128) (leValue amount) = value
  by_cases hlength : amount.length = 8
  · rw [if_pos hlength]
    by_cases hlt : view.coinValue call.caller < value
    · exact .inl ⟨fun _ => hlt, _, if_pos hlt⟩
    · rw [if_neg hlt, sub?_of_not_lt hlt]
      cases hadd : checkedAdd (view.coinValue dst) value with
      | none => exact .inr (.inl ⟨rfl, rfl⟩)
      | some recipientNew =>
          refine .inr (.inr ⟨_, recipientNew, Nat.sub_add_cancel (not_lt.1 hlt), ?_, rfl⟩)
          exact (checkedAdd_eq_some.1 hadd).symm
  · exact .inl ⟨fun h => absurd h hlength, _, if_neg hlength⟩

end SuwappuDb
