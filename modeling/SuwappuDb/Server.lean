import Mathlib.Data.LawfulXor.Basic
import SuwappuDb.Driver
import SuwappuDb.L1Reader
import SuwappuDb.Snapshot

/-!
# The server

`crates/suwappudb-server` answers JSON-RPC requests about a state twice: `RpcHandler` of `rpc.rs`,
and the binary's own handler in `main.rs`. Both read addresses from texts, with a parser each, and
`auth.rs` guards the requests with a shared secret.

* `balance_endpoints_agree` — on every state and for all parameters the two balance endpoints and
  the coin endpoint answer the same number, for the address that the text is of, or all answer with
  an error, if it is the text of none.
* `served_root_agreed` — after any run of the driver, the state root that the handler serves is the
  one it reports as agreed between the chains for the last block.
* `placeholder_root_iff` — the binary's state root is one of the stored addresses in the order of
  the visit, whatever their balances are.
* `bearer_auth_iff` — the requests that pass: all of them if there is no secret, or one that is no
  text, and otherwise the ones that carry it, if it can be carried.

The crates `serde_json`, `hex` and `http` are parameters, with what they document as hypotheses.
-/

namespace SuwappuDb

/-! ## Addresses -/

/-- What `parse_address` and `parse_address_param` cut off. -/
def withoutMark (text : List Byte) : List Byte := (stripStart (ascii "0x") text).getD text

/-- `parse_address_param` of `rpc.rs`. -/
def parseAddressParam (serde : JsonApi) (hex : Hex.Codec) (value : serde.Value) :
    Option Address := do
  let raw ← serde.asStr value
  let hexPart := withoutMark raw.val
  if hexPart.length ≠ 40 then none
  else
    let bytes ← (hex.decode hexPart).toOption
    if h : bytes.length = 20 then some ⟨bytes, h⟩ else none

/-- `parse_address` of `main.rs`. It has a `copy_from_slice` for the `try_into`. -/
def parseAddress (hex : Hex.Codec) (s : Text) : Option (Except String Address) :=
  let hexStr := withoutMark s.val
  if hexStr.length ≠ 40 then some (.error "Address must be 20 bytes (40 hex chars)")
  else
    match hex.decode hexStr with
    | .error e => some (.error ("Invalid hex: " ++ e))
    | .ok bytes => (copyToArr 20 bytes).map .ok

/-- The texts of an address: its 40 digits, of either case, and `0x` before them or not. -/
def AddressText (text : List Byte) (addr : Address) : Prop :=
  ∃ digits, digits.map Hex.digitValue = (Hex.nibbles addr.val).map some ∧
    (text = digits ∨ text = ascii "0x" ++ digits)

theorem ascii_mark : ascii "0x" = [0x30, 0x78] := by decide +kernel

/-- There is one way to read a text: an `x` is no digit. -/
theorem addressText_iff {text : List Byte} {addr : Address} :
    AddressText text addr ↔
      (withoutMark text).map Hex.digitValue = (Hex.nibbles addr.val).map some := by
  unfold withoutMark
  cases hmark : stripStart (ascii "0x") text with
  | some rest =>
      obtain rfl := stripStart_eq_some.1 hmark
      constructor
      · rintro ⟨digits, hdigits, rfl | heq⟩
        · rw [ascii_mark] at hdigits
          have hmem : none ∈ (Hex.nibbles addr.val).map some := by
            rw [← hdigits]
            exact List.mem_map.2 ⟨0x78, by simp, by decide⟩
          simp at hmem
        · rwa [← List.append_cancel_left heq] at hdigits
      · exact fun h => ⟨rest, h, .inr rfl⟩
  | none =>
      constructor
      · rintro ⟨digits, hdigits, rfl | heq⟩
        · exact hdigits
        · cases (stripStart_eq_some.2 heq).symm.trans hmark
      · exact fun h => ⟨text, h, .inl rfl⟩

theorem addressText_length {text : List Byte} {addr : Address} (h : AddressText text addr) :
    (withoutMark text).length = 40 := by
  have hlength := congrArg List.length (addressText_iff.1 h)
  rw [List.length_map, List.length_map, Hex.length_nibbles, addr.property] at hlength
  exact hlength

section Parsers

variable {serde : JsonApi} {hex : Hex.Codec} (hhex : hex.Lawful)

include hhex

theorem addressText_encode (addr : Address) : AddressText (hex.encode addr.val).val addr := by
  rw [hhex.encode_eq]
  exact ⟨_, Hex.map_digitValue_lowerDigits _, .inl rfl⟩

theorem parseAddressParam_eq_some {value : serde.Value} {text : Text}
    (hvalue : serde.asStr value = some text) {addr : Address} :
    parseAddressParam serde hex value = some addr ↔ AddressText text.val addr := by
  rw [parseAddressParam, hvalue]
  show (if (withoutMark text.val).length ≠ 40 then none else _) = some addr ↔ _
  constructor
  · intro h
    split_ifs at h with hlength
    obtain ⟨bytes, hdecode, heq⟩ := Option.bind_eq_some_iff.1 h
    split_ifs at heq with htwenty
    obtain rfl := Option.some.inj heq
    cases hbytes : hex.decode (withoutMark text.val) with
    | error e =>
        rw [hbytes] at hdecode
        cases hdecode
    | ok bytes' =>
        rw [hbytes] at hdecode
        obtain rfl := Option.some.inj hdecode
        exact addressText_iff.2 (hhex.decode_eq_ok_iff.1 hbytes)
  · intro h
    rw [if_neg (not_not.2 (addressText_length h)), hhex.decode_eq_ok_iff.2 (addressText_iff.1 h)]
    exact dif_pos addr.property

/-- A decoded address text has 20 bytes, so neither parser drops or copies too few. -/
theorem decode_withoutMark {text bytes : List Byte} (hlength : (withoutMark text).length = 40)
    (h : hex.decode (withoutMark text) = .ok bytes) : bytes.length = 20 := by
  have hbytes := hhex.length_of_decode h
  omega

/-- `parse_address` never panics, and accepts the same texts. -/
theorem parseAddress_spec (text : Text) :
    (∃ addr, AddressText text.val addr ∧ parseAddress hex text = some (.ok addr)) ∨
      (∀ addr, ¬ AddressText text.val addr) ∧ ∃ e, parseAddress hex text = some (.error e) := by
  unfold parseAddress
  by_cases hlength : (withoutMark text.val).length = 40
  · simp only [hlength, ne_eq, not_true_eq_false, if_false]
    cases hbytes : hex.decode (withoutMark text.val) with
    | error e =>
        refine .inr ⟨fun addr h => ?_, _, rfl⟩
        cases (hhex.decode_eq_ok_iff.2 (addressText_iff.1 h)).symm.trans hbytes
    | ok bytes =>
        have htwenty := decode_withoutMark hhex hlength hbytes
        refine .inl ⟨⟨bytes, htwenty⟩, addressText_iff.2 (hhex.decode_eq_ok_iff.1 hbytes), ?_⟩
        show (copyToArr 20 bytes).map Except.ok = _
        rw [copyToArr, dif_pos htwenty]
        rfl
  · simp only [hlength, ne_eq, not_false_eq_true, if_true]
    exact .inr ⟨fun addr h => hlength (addressText_length h), _, rfl⟩

end Parsers

/-- A text is of one address. -/
theorem AddressText.unique {text : List Byte} {addr addr' : Address} (h : AddressText text addr)
    (h' : AddressText text addr') : addr = addr' := by
  have hsame := (addressText_iff.1 h).symm.trans (addressText_iff.1 h')
  have hnibbles := List.map_injective_iff.2 (Option.some_injective _) hsame
  exact Subtype.ext (Hex.nibbles_injective hnibbles)

/-! ## The handler -/

/-- The projection of a slot for the EVM. -/
def BalanceSlot.evmBalance (slot : BalanceSlot) : U128 := slot.canonical

/-- The projection of a slot for Move. -/
def BalanceSlot.moveCoinValue (slot : BalanceSlot) : U128 := slot.canonical

/-- `RpcHandler`, without its locks. -/
structure RpcHandler where
  state : State
  dispatcher : AnchorDispatcher

section Handler

variable (serde : JsonApi) (hex : Hex.Codec)

/-- The value of an ASCII text. -/
def textValue (s : String) : serde.Value := serde.string (asciiText s)

/-- The value of some bytes, each of them written by `format!("{b:02x}")`. -/
def rootValue (root : Commitment) : serde.Value := serde.string (Hex.lowerText root.val)

/-- An answer with nothing but a message. -/
def errorAnswer (message : String) : serde.Value :=
  serde.object [(ascii "error", textValue serde message)]

/-- A number of an address, under a name. -/
def slotAnswer (name : String) (value : U128) (addr : Address) : serde.Value :=
  serde.object [(ascii name, textValue serde (toString value.val)),
    (ascii "address", serde.string (hex.encode addr.val))]

/-- The body that `get_balance` and `get_coin_value` share. -/
def getSlot (name : String) (project : BalanceSlot → U128) (s : State) :
    List serde.Value → serde.Value
  | [] => errorAnswer serde "missing address parameter"
  | param :: _ =>
      match parseAddressParam serde hex param with
      | some addr => slotAnswer serde hex name (project (s.slotOf addr)) addr
      | none => errorAnswer serde "invalid address format"

namespace RpcHandler

def getBalance (h : RpcHandler) : List serde.Value → serde.Value :=
  getSlot serde hex "balance" BalanceSlot.evmBalance h.state

def getCoinValue (h : RpcHandler) : List serde.Value → serde.Value :=
  getSlot serde hex "coin_value" BalanceSlot.moveCoinValue h.state

/-- The `HashMap` of the state is visited in the given order. -/
def getStateRoot (blake3 : Blake3) (order : IterOrder) (h : RpcHandler) : serde.Value :=
  serde.object [(ascii "state_root",
    rootValue serde ((StateTree.fromState order h.state).root blake3))]

/-- What `get_parity` makes of the result. -/
def parityAnswer (height : U64) : ParityResult → serde.Value
  | .agreed root => serde.object [(ascii "parity", textValue serde "agreed"),
      (ascii "state_root", rootValue serde root), (ascii "height", serde.int height.val)]
  | .disagreed divergent missing => serde.object [(ascii "parity", textValue serde "disagreed"),
      (ascii "height", serde.int height.val),
      (ascii "divergent", serde.array (divergent.map fun p =>
        serde.object [(ascii "chain_id", serde.int p.1.val),
          (ascii "state_root", rootValue serde p.2)])),
      (ascii "missing", serde.array (missing.map fun c => serde.int c.val))]

def getParity (crypto : AnchorCrypto) (h : RpcHandler) : List serde.Value → Option serde.Value
  | [] => some (errorAnswer serde "missing height parameter")
  | param :: _ =>
      match serde.asU64 param with
      | some height => (h.dispatcher.parityCheck crypto height).map (parityAnswer serde height)
      | none => some (errorAnswer serde "height must be a valid u64")

/-- `RpcHandler::handle`. -/
def handle (crypto : AnchorCrypto) (order : IterOrder) (h : RpcHandler) (method : List Byte)
    (params : List serde.Value) : Option serde.Value :=
  if method = ascii "suwappu_getBalance" then some (h.getBalance serde hex params)
  else if method = ascii "suwappu_getCoinValue" then some (h.getCoinValue serde hex params)
  else if method = ascii "suwappu_getStateRoot" then some (h.getStateRoot serde crypto.blake3 order)
  else if method = ascii "suwappu_getBlock" then some (errorAnswer serde "not yet implemented")
  else if method = ascii "suwappu_getParity" then h.getParity serde crypto params
  else if method = ascii "suwappu_submitIntent" then some (errorAnswer serde "not yet implemented")
  else some (serde.object [(ascii "error", textValue serde "method not found"),
    (ascii "code", serde.int (-32601))])

end RpcHandler

end Handler

/-! ## The binary -/

structure JsonRpcError where
  code : Int
  message : String

structure JsonRpcResponse (serde : JsonApi) where
  jsonrpc : String := "2.0"
  result : Option serde.Value := none
  error : Option JsonRpcError := none
  id : serde.Value

/-- What the binary hashes in the place of a state root. -/
def hashedAddresses (order : IterOrder) (s : State) : List Byte :=
  (s.entries order).flatMap fun p => p.1.val

section Binary

variable (serde : JsonApi) (hex : Hex.Codec) (blake3 : Blake3) (order : IterOrder)

/-- The response that every failure of `suwappu_getBalance` has. -/
def invalidParams (message : String) (id : serde.Value) : JsonRpcResponse serde :=
  { error := some ⟨-32602, message⟩, id }

/-- The response of `suwappu_getBalance`. It has the text that was asked for. -/
def balanceResponse (text : Text) (bal : Balance) (id : serde.Value) : JsonRpcResponse serde where
  result := some (serde.object [(ascii "address", serde.string text),
    (ascii "balance", textValue serde (toString bal.val))])
  id := id

/-- `suwappu_getBalance` of `main.rs`. -/
def rpcGetBalance (s : State) (params id : serde.Value) : Option (JsonRpcResponse serde) :=
  match serde.asArray params with
  | some [] => some (invalidParams serde "Missing required parameter: address" id)
  | some (param :: _) =>
      match serde.asStr param with
      | some text => do
          match ← parseAddress hex text with
          | .ok addr => some (balanceResponse serde text (s.balanceOf addr) id)
          | .error _ => some (invalidParams serde "Invalid address format" id)
      | none => some (invalidParams serde "Invalid parameter: address must be a string" id)
  | none => some (invalidParams serde "Invalid parameters: must be an array" id)

/-- `suwappu_getStateRoot` of `main.rs`. -/
def rpcGetStateRoot (s : State) (id : serde.Value) : JsonRpcResponse serde where
  result := some (serde.object [(ascii "state_root",
    serde.string (marked (hex.encode (blake3 (hashedAddresses order s)).val)))])
  id := id

/-- `rpc` of `main.rs`. -/
def rpc (s : State) (method : List Byte) (params id : serde.Value) :
    Option (JsonRpcResponse serde) :=
  if method = ascii "suwappu_getBalance" then rpcGetBalance serde hex s params id
  else if method = ascii "suwappu_getStateRoot" then
    some (rpcGetStateRoot serde hex blake3 order s id)
  else some { error := some ⟨-32601, "Method not found"⟩, id }

end Binary

/-! ## Balances -/

section Balances

variable {serde : JsonApi} {hex : Hex.Codec}

/-- The first parameter is the text of the address. -/
def Asks (params : List serde.Value) (text : Text) (addr : Address) : Prop :=
  params.head?.bind serde.asStr = some text ∧ AddressText text.val addr

/-- The parameters ask for an address, or not. -/
theorem asks_cases (params : List serde.Value) :
    (∃ text addr param rest, params = param :: rest ∧ serde.asStr param = some text ∧
        AddressText text.val addr) ∨
      ∀ text addr, ¬ Asks params text addr := by
  by_cases h : ∃ text addr, Asks params text addr
  · obtain ⟨text, addr, hhead, htext⟩ := h
    obtain ⟨param, hparam, hstr⟩ := Option.bind_eq_some_iff.1 hhead
    obtain ⟨rest, rfl⟩ := List.head?_eq_some_iff.1 hparam
    exact .inl ⟨text, addr, param, rest, rfl, hstr, htext⟩
  · exact .inr fun text addr hasks => h ⟨text, addr, hasks⟩

variable (hhex : hex.Lawful)

include hhex

theorem getSlot_asked (name : String) (project : BalanceSlot → U128) (s : State) {text : Text}
    {addr : Address} (h : AddressText text.val addr) {param : serde.Value}
    (hparam : serde.asStr param = some text) (rest : List serde.Value) :
    getSlot serde hex name project s (param :: rest) =
      slotAnswer serde hex name (project (s.slotOf addr)) addr := by
  rw [getSlot, (parseAddressParam_eq_some hhex hparam).2 h]

theorem getSlot_unasked (name : String) (project : BalanceSlot → U128) (s : State)
    {params : List serde.Value} (h : ∀ text addr, ¬ Asks params text addr) :
    ∃ message, getSlot serde hex name project s params = errorAnswer serde message := by
  cases params with
  | nil => exact ⟨_, rfl⟩
  | cons param params =>
      have hparse : parseAddressParam serde hex param = none := by
        cases hstr : serde.asStr param with
        | none => rw [parseAddressParam, hstr]; rfl
        | some text =>
            refine Option.eq_none_iff_forall_ne_some.2 fun addr hparse => ?_
            exact h text addr ⟨hstr, (parseAddressParam_eq_some hhex hstr).1 hparse⟩
      exact ⟨_, by rw [getSlot, hparse]⟩

theorem rpcGetBalance_asked (s : State) {text : Text} {addr : Address}
    (h : AddressText text.val addr) {params param : serde.Value} {rest : List serde.Value}
    (hparams : serde.asArray params = some (param :: rest)) (hparam : serde.asStr param = some text)
    (id : serde.Value) :
    rpcGetBalance serde hex s params id =
      some (balanceResponse serde text (s.balanceOf addr) id) := by
  have hparse : parseAddress hex text = some (.ok addr) := by
    rcases parseAddress_spec hhex text with ⟨addr', htext, hparse⟩ | ⟨hnone, -⟩
    · rw [hparse, h.unique htext]
    · exact absurd h (hnone addr)
  simp only [rpcGetBalance, hparams, hparam, hparse]
  rfl

theorem rpcGetBalance_unasked (s : State) {value : serde.Value} {params : List serde.Value}
    (hvalue : serde.asArray value = some params) (h : ∀ text addr, ¬ Asks params text addr)
    (id : serde.Value) :
    ∃ message, rpcGetBalance serde hex s value id = some (invalidParams serde message id) := by
  cases params with
  | nil => exact ⟨_, by simp only [rpcGetBalance, hvalue]; rfl⟩
  | cons param params =>
      cases hstr : serde.asStr param with
      | none => exact ⟨_, by simp only [rpcGetBalance, hvalue, hstr]; rfl⟩
      | some text =>
          rcases parseAddress_spec hhex text with ⟨addr, htext, -⟩ | ⟨-, e, hparse⟩
          · exact absurd ⟨hstr, htext⟩ (h text addr)
          · refine ⟨"Invalid address format", ?_⟩
            simp only [rpcGetBalance, hvalue, hstr, hparse]
            rfl

end Balances

/-- The two balance endpoints and the coin endpoint answer the same number for the address asked
for, on every state; the handler writes the address so that both parsers read it back. If no address
is asked for they all answer with an error. -/
theorem balance_endpoints_agree {serde : JsonApi} (hserde : serde.Lawful) {hex : Hex.Codec}
    (hhex : hex.Lawful) (crypto : AnchorCrypto) (order : IterOrder) (h : RpcHandler)
    {value : serde.Value} {params : List serde.Value} (hvalue : serde.asArray value = some params)
    (id : serde.Value) :
    (∃ text addr, Asks params text addr ∧
      h.handle serde hex crypto order (ascii "suwappu_getBalance") params =
        some (slotAnswer serde hex "balance" (h.state.balanceOf addr) addr) ∧
      h.handle serde hex crypto order (ascii "suwappu_getCoinValue") params =
        some (slotAnswer serde hex "coin_value" (h.state.balanceOf addr) addr) ∧
      rpc serde hex crypto.blake3 order h.state (ascii "suwappu_getBalance") value id =
        some (balanceResponse serde text (h.state.balanceOf addr) id) ∧
      Asks [serde.string (hex.encode addr.val)] (hex.encode addr.val) addr) ∨
    (∀ text addr, ¬ Asks params text addr) ∧
      (∃ message, h.handle serde hex crypto order (ascii "suwappu_getBalance") params =
        some (errorAnswer serde message)) ∧
      (∃ message, h.handle serde hex crypto order (ascii "suwappu_getCoinValue") params =
        some (errorAnswer serde message)) ∧
      ∃ message, rpc serde hex crypto.blake3 order h.state (ascii "suwappu_getBalance") value id =
        some (invalidParams serde message id) := by
  have hbalance : h.handle serde hex crypto order (ascii "suwappu_getBalance") params =
      some (h.getBalance serde hex params) := if_pos rfl
  have hcoin : h.handle serde hex crypto order (ascii "suwappu_getCoinValue") params =
      some (h.getCoinValue serde hex params) := by
    rw [RpcHandler.handle, if_neg (by decide +kernel), if_pos rfl]
  have hbinary : rpc serde hex crypto.blake3 order h.state (ascii "suwappu_getBalance") value id =
      rpcGetBalance serde hex h.state value id := if_pos rfl
  rw [hbalance, hcoin, hbinary]
  rcases asks_cases params with ⟨text, addr, param, rest, rfl, hstr, htext⟩ | hnone
  · exact .inl ⟨text, addr, ⟨hstr, htext⟩, congrArg some (getSlot_asked hhex _ _ _ htext hstr rest),
      congrArg some (getSlot_asked hhex _ _ _ htext hstr rest),
      rpcGetBalance_asked hhex _ htext hvalue hstr id, hserde.asStr_string _,
      addressText_encode hhex addr⟩
  · obtain ⟨message, hget⟩ := getSlot_unasked hhex "balance" BalanceSlot.evmBalance h.state hnone
    obtain ⟨message', hget'⟩ :=
      getSlot_unasked hhex "coin_value" BalanceSlot.moveCoinValue h.state hnone
    exact .inr ⟨hnone, ⟨message, congrArg some hget⟩, ⟨message', congrArg some hget'⟩,
      rpcGetBalance_unasked hhex h.state hvalue hnone id⟩

/-- Address 1, by its digits. -/
def askedValue : Json := .array [.string (Hex.lowerText (smallAddress 1).val)]

theorem balance_endpoints_agree_smallState :
    treeJson.Lawful ∧ Hex.codec.Lawful ∧
    treeJson.asArray askedValue = some [.string (Hex.lowerText (smallAddress 1).val)] ∧
    RpcHandler.handle treeJson Hex.codec keyCrypto default ⟨smallState, {}⟩
        (ascii "suwappu_getBalance") [.string (Hex.lowerText (smallAddress 1).val)] =
      some (slotAnswer treeJson Hex.codec "balance" 100 (smallAddress 1)) ∧
    rpc treeJson Hex.codec keyCrypto.blake3 default smallState (ascii "suwappu_getBalance")
        askedValue Json.null =
      some (balanceResponse treeJson (Hex.lowerText (smallAddress 1).val) 100 Json.null) := by
  have hasked : @Asks treeJson [.string (Hex.lowerText (smallAddress 1).val)]
      (Hex.lowerText (smallAddress 1).val) (smallAddress 1) :=
    ⟨rfl, addressText_encode Hex.codec_lawful (smallAddress 1)⟩
  have hbalance : smallState.balanceOf (smallAddress 1) = 100 := by decide
  refine ⟨Json.api_lawful _, Hex.codec_lawful, rfl, ?_⟩
  have hvalue : treeJson.asArray askedValue =
      some [.string (Hex.lowerText (smallAddress 1).val)] := rfl
  rcases balance_endpoints_agree (Json.api_lawful fun _ => "null") Hex.codec_lawful keyCrypto
      default ⟨smallState, {}⟩ hvalue Json.null with
    ⟨text, addr, ⟨htext, haddr⟩, hslot, -, hrpc, -⟩ | ⟨hnone, -⟩
  · obtain rfl := Option.some.inj htext
    obtain rfl := hasked.2.unique haddr
    rw [← hbalance]
    exact ⟨hslot, hrpc⟩
  · exact absurd hasked (hnone _ _)

/-! ## State roots -/

/-- The root served after a block of a driver's run is the one reported as agreed for that block,
then and after any more blocks and recoveries. -/
theorem served_root_agreed (serde : JsonApi) (hex : Hex.Codec) (crypto : AnchorCrypto)
    {registry : ContractRegistry} (hpure : registry.Pure) (genesis : State)
    {keys : List (ChainId × ByteArr 32)} (hkeys : keys ≠ []) (ops ops' : List DriverOp)
    (h : Storable crypto.blake3 registry genesis (produced ops ++ produced ops')) {height : U64}
    (hheight : (produced ops).length = height.val + 1) {param : serde.Value}
    (hparam : serde.asU64 param = some height) (order order' : IterOrder) :
    ∃ d d' root,
      Driver.run crypto registry genesis
        { state := genesis, dispatcher := registerKeys keys } ops = some d ∧
      d.run crypto registry genesis ops' = some d' ∧
      RpcHandler.handle serde hex crypto order ⟨d.state, d.dispatcher⟩
        (ascii "suwappu_getStateRoot") [] =
          some (serde.object [(ascii "state_root", rootValue serde root)]) ∧
      RpcHandler.handle serde hex crypto order' ⟨d'.state, d'.dispatcher⟩
        (ascii "suwappu_getParity") [param] =
          some (serde.object [(ascii "parity", textValue serde "agreed"),
            (ascii "state_root", rootValue serde root),
            (ascii "height", serde.int height.val)]) := by
  have hlt : height.val < (produced ops ++ produced ops').length := by
    rw [List.length_append]
    omega
  have htake : (produced ops ++ produced ops').take (height.val + 1) = produced ops := by
    rw [← hheight, List.take_left]
  have hparity : (driverAfter crypto registry genesis keys
      (produced ops ++ produced ops')).dispatcher.parityCheck crypto height =
        some (.agreed ((StateTree.fromState default
          (stateAfter registry genesis (produced ops))).root crypto.blake3)) := by
    rw [parityCheck_driverAfter crypto genesis hkeys h.length_le hlt, htake]
  refine ⟨_, _, (StateTree.fromState default (stateAfter registry genesis (produced ops))).root
    crypto.blake3, run_driverAfter crypto hpure genesis hkeys [] ops h.of_append,
    run_driverAfter crypto hpure genesis hkeys _ ops' h, ?_, ?_⟩
  · rw [RpcHandler.handle, if_neg (by decide +kernel), if_neg (by decide +kernel), if_pos rfl,
      RpcHandler.getStateRoot, StateTree.root_fromState crypto.blake3 order default]
    rfl
  · rw [RpcHandler.handle, if_neg (by decide +kernel), if_neg (by decide +kernel),
      if_neg (by decide +kernel), if_neg (by decide +kernel), if_pos rfl]
    simp only [RpcHandler.getParity, hparam]
    exact congrArg (Option.map (RpcHandler.parityAnswer serde height)) hparity

/-- The root of the first of two blocks. -/
theorem served_root_agreed_driverOps :
    smallRegistry.Pure ∧ driverKeys ≠ [] ∧
    Storable driverCrypto.blake3 smallRegistry zeroState
      (produced (driverOps.take 2) ++ produced (driverOps.drop 2)) ∧
    (produced (driverOps.take 2)).length = (0 : U64).val + 1 ∧
    treeJson.asU64 (.int 0) = some 0 ∧
    ∃ d d' root,
      Driver.run driverCrypto smallRegistry zeroState
        { state := zeroState, dispatcher := registerKeys driverKeys } (driverOps.take 2) =
          some d ∧
      d.run driverCrypto smallRegistry zeroState (driverOps.drop 2) = some d' ∧
      RpcHandler.handle treeJson Hex.codec driverCrypto default ⟨d.state, d.dispatcher⟩
        (ascii "suwappu_getStateRoot") [] =
          some (.object [(ascii "state_root", rootValue treeJson root)]) ∧
      RpcHandler.handle treeJson Hex.codec driverCrypto default ⟨d'.state, d'.dispatcher⟩
        (ascii "suwappu_getParity") [.int 0] =
          some (.object [(ascii "parity", textValue treeJson "agreed"),
            (ascii "state_root", rootValue treeJson root), (ascii "height", .int 0)]) := by
  have hkeys : driverKeys ≠ [] := List.cons_ne_nil _ _
  have hstorable : Storable driverCrypto.blake3 smallRegistry zeroState
      (produced (driverOps.take 2) ++ produced (driverOps.drop 2)) := storable_driverOps
  have hheight : (produced (driverOps.take 2)).length = (0 : U64).val + 1 := by decide
  exact ⟨smallRegistry_pure, hkeys, hstorable, hheight, rfl,
    served_root_agreed treeJson Hex.codec driverCrypto smallRegistry_pure zeroState hkeys _ _
      hstorable hheight rfl default default⟩

/-- A digest can be read off the answer that has its digits. -/
theorem root_eq_of_object {serde : JsonApi} (hserde : serde.Lawful) {hex : Hex.Codec}
    (hhex : hex.Lawful) {root root' : ByteArr 32}
    (h : serde.object [(ascii "state_root", serde.string (marked (hex.encode root.val)))] =
      serde.object [(ascii "state_root", serde.string (marked (hex.encode root'.val)))]) :
    root = root' := by
  have hread : ∀ root : ByteArr 32, (serde.get (serde.object [(ascii "state_root",
      serde.string (marked (hex.encode root.val)))]) (ascii "state_root")).bind serde.asStr =
        some (marked (hex.encode root.val)) := by
    intro root
    rw [hserde.get_object (by simp), List.lookup_cons_self]
    exact hserde.asStr_string _
  have htext : marked (hex.encode root.val) = marked (hex.encode root'.val) := by
    rw [← Option.some.injEq, ← hread, h, hread]
  have hdigits : (hex.encode root.val).val = (hex.encode root'.val).val :=
    List.append_cancel_left (congrArg Subtype.val htext)
  have hdecoded : (Except.ok root.val : Except String (List Byte)) = .ok root'.val := by
    rw [← hhex.decode_encode, hdigits, hhex.decode_encode]
  exact Subtype.ext (Except.ok.inj hdecoded)

/-- The binary answers with one root for two states exactly if it visits the same addresses in the
same order: no balance has a part in it. -/
theorem placeholder_root_iff {serde : JsonApi} (hserde : serde.Lawful) {hex : Hex.Codec}
    (hhex : hex.Lawful) (blake3 : Blake3) (order order' : IterOrder) (s s' : State)
    (hcf : CollisionFree blake3 [hashedAddresses order s, hashedAddresses order' s'])
    (params params' id : serde.Value) :
    rpc serde hex blake3 order s (ascii "suwappu_getStateRoot") params id =
        rpc serde hex blake3 order' s' (ascii "suwappu_getStateRoot") params' id ↔
      (s.entries order).map Prod.fst = (s'.entries order').map Prod.fst := by
  have hrpc : ∀ order s params,
      rpc serde hex blake3 order s (ascii "suwappu_getStateRoot") params id =
        some (rpcGetStateRoot serde hex blake3 order s id) := by
    intro order s params
    rw [rpc, if_neg (by decide +kernel), if_pos rfl]
  have hflat : ∀ order (s : State), hashedAddresses order s =
      ((s.entries order).map Prod.fst).flatMap Subtype.val := by
    intro order s
    rw [hashedAddresses, List.flatMap_map]
  have hinj := flatMap_inj (f := fun addr : Address => addr.val) (w := 20) (by decide)
    (fun addr => addr.property) Subtype.val_injective
  rw [hrpc, hrpc]
  constructor
  · intro heq
    have hobject := Option.some.inj (congrArg JsonRpcResponse.result (Option.some.inj heq))
    have hhash := root_eq_of_object hserde hhex hobject
    have hsame := hcf _ (by simp) _ (by simp) hhash
    rw [hflat, hflat] at hsame
    exact hinj hsame
  · intro heq
    have hsame : hashedAddresses order s = hashedAddresses order' s' := by
      rw [hflat, hflat, heq]
    rw [rpcGetStateRoot, rpcGetStateRoot]
    simp only [hsame]

/-- BLAKE3 of address 1, and of the addresses 1 and 2. -/
def addressTable : List (List Byte × Commitment) := [
  ((smallAddress 1).val,
    digestOf 0xd0053978e234665cb15c578fa7e9ef4300835b88827f9340759c90f00d53239a),
  ((smallAddress 1).val ++ (smallAddress 2).val,
    digestOf 0xd4b80dd9f82d28b72b1ce22f618b2acea55848b26fc6e512928af5458ddbc42e)]

/-- Address 1 has 100 or 60: one root. Address 2 has something as well: another one. -/
theorem placeholder_root_iff_smallState :
    treeJson.Lawful ∧ Hex.codec.Lawful ∧
    rpc treeJson Hex.codec (tableHash addressTable) default smallState
        (ascii "suwappu_getStateRoot") Json.null Json.null =
      rpc treeJson Hex.codec (tableHash addressTable) default
        (smallState.apply (.setBalance (smallAddress 1) 60)) (ascii "suwappu_getStateRoot")
        Json.null Json.null ∧
    rpc treeJson Hex.codec (tableHash addressTable) default smallState
        (ascii "suwappu_getStateRoot") Json.null Json.null ≠
      rpc treeJson Hex.codec (tableHash addressTable) default
        (smallState.apply (.setBalance (smallAddress 2) 5)) (ascii "suwappu_getStateRoot")
        Json.null Json.null := by
  have hiff := fun s' hcf => placeholder_root_iff (Json.api_lawful fun _ => "null")
    Hex.codec_lawful (tableHash addressTable) default default smallState s' hcf Json.null Json.null
    Json.null
  refine ⟨Json.api_lawful _, Hex.codec_lawful, ?_, fun h => ?_⟩
  · exact (hiff _ (by decide +kernel)).2 (by decide +kernel)
  · have hsame := (hiff (smallState.apply (.setBalance (smallAddress 2) 5)) (by decide +kernel)).1 h
    exact absurd hsame (by decide +kernel)

/-! ## The shared secret -/

/-- `env::VarError`. -/
inductive VarError where
  | notPresent
  | notUnicode (raw : List Byte)

/-- `env::var` of a variable that has these bytes, or is missing. -/
def envVar : Option (List Byte) → Except VarError Text
  | none => .error .notPresent
  | some raw => if h : isUtf8 raw = true then .ok ⟨raw, h⟩ else .error (.notUnicode raw)

structure BearerAuthConfig where
  expectedToken : Option Text := none

namespace BearerAuthConfig

def withToken (token : Text) : BearerAuthConfig := ⟨some token⟩

/-- The variable is `SUWAPPUDB_BEARER_TOKEN`. -/
def fromEnv (var : Option (List Byte)) : BearerAuthConfig :=
  match envVar var with
  | .ok t => if t.val ≠ [] then withToken t else {}
  | .error _ => {}

end BearerAuthConfig

/-- `constant_time_eq`: all bytes are looked at, wherever the first difference is. -/
def constantTimeEq (a b : List Byte) : Bool :=
  if a.length ≠ b.length then false
  else (a.zip b).foldl (fun diff p => diff ||| (p.1 ^^^ p.2)) (0 : Byte) == 0

/-- `bearer_auth`: whether the request passes, by its first `Authorization` header, which
`HeaderValue::to_str` makes a text of. -/
def bearerAuth (toStr : List Byte → Option Text) (config : BearerAuthConfig)
    (header : Option (List Byte)) : Bool :=
  match config.expectedToken with
  | none => true
  | some expected =>
      ((header.bind toStr).bind fun text => stripStart (ascii "Bearer ") text.val).any
        fun token => constantTimeEq token expected.val

/-- A visible ASCII character, or a tab. -/
def isVisible (b : Byte) : Bool := (0x20 ≤ b && b < 0x7f) || b == 0x09

/-- What `HeaderValue::to_str` is documented to do: the text of a header of visible characters, and
an error for any other. -/
def ReadsVisible (toStr : List Byte → Option Text) : Prop :=
  ∀ value text, toStr value = some text ↔ text.val = value ∧ value.all isVisible = true

theorem isUtf8_of_visible {value : List Byte} (h : value.all isVisible = true) :
    isUtf8 value = true := by
  refine isUtf8_of_ascii fun b hb => ?_
  have hvisible := List.all_eq_true.1 h b hb
  rw [isVisible, Bool.or_eq_true, Bool.and_eq_true, decide_eq_true_eq, decide_eq_true_eq,
    beq_iff_eq] at hvisible
  rcases hvisible with ⟨-, hlt⟩ | rfl
  · exact hlt.le
  · decide

theorem byte_or_eq_zero (a b : Byte) : a ||| b = 0 ↔ a = 0 ∧ b = 0 := by
  have hval : (a ||| b).val = a.val ||| b.val :=
    Nat.mod_eq_of_lt (Nat.or_lt_two_pow (n := 8) a.isLt b.isLt)
  simp only [Fin.ext_iff, hval, Fin.val_zero, Nat.or_eq_zero_iff]

theorem byte_xor_eq_zero (a b : Byte) : a ^^^ b = 0 ↔ a = b := by
  have hval : (a ^^^ b).val = a.val ^^^ b.val :=
    Nat.mod_eq_of_lt (Nat.xor_lt_two_pow (n := 8) a.isLt b.isLt)
  simp only [Fin.ext_iff, hval, Fin.val_zero, xor_eq_zero_iff]

/-- The differences that have been collected are all zero. -/
theorem foldl_diff_eq_zero (l : List (Byte × Byte)) (diff : Byte) :
    l.foldl (fun diff p => diff ||| (p.1 ^^^ p.2)) diff = 0 ↔ diff = 0 ∧ ∀ p ∈ l, p.1 = p.2 := by
  induction l generalizing diff with
  | nil => simp
  | cons p l ih =>
      rw [List.foldl_cons, ih, byte_or_eq_zero, byte_xor_eq_zero, List.forall_mem_cons, and_assoc]

theorem constantTimeEq_iff {a b : List Byte} : constantTimeEq a b = true ↔ a = b := by
  unfold constantTimeEq
  split_ifs with hlength
  · refine iff_of_false id fun heq => hlength ?_
    rw [heq]
  · rw [beq_iff_eq, foldl_diff_eq_zero, ← List.forall₂_eq_eq_eq, List.forall₂_iff_zip]
    constructor
    · intro h
      exact ⟨not_not.1 hlength, fun hp => h.2 _ hp⟩
    · intro h
      exact ⟨rfl, fun p hp => h.2 hp⟩

theorem all_isVisible_bearer : (ascii "Bearer ").all isVisible = true := by decide +kernel

/-- The requests that pass a secret. -/
theorem bearerAuth_withToken {toStr : List Byte → Option Text} (htoStr : ReadsVisible toStr)
    (token : Text) (header : Option (List Byte)) :
    bearerAuth toStr (.withToken token) header = true ↔
      token.val.all isVisible = true ∧ header = some (ascii "Bearer " ++ token.val) := by
  show (((header.bind toStr).bind fun text => stripStart (ascii "Bearer ") text.val).any
    fun given => constantTimeEq given token.val) = true ↔ _
  simp only [Option.any_eq_true, Option.bind_eq_some_iff, htoStr _ _, stripStart_eq_some,
    constantTimeEq_iff]
  constructor
  · rintro ⟨given, ⟨text, ⟨value, hheader, rfl, hvisible⟩, htext⟩, rfl⟩
    rw [htext] at hvisible hheader
    rw [List.all_append, Bool.and_eq_true] at hvisible
    exact ⟨hvisible.2, hheader⟩
  · intro h
    have hvisible : (ascii "Bearer " ++ token.val).all isVisible = true := by
      rw [List.all_append, all_isVisible_bearer, h.1]
      rfl
    exact ⟨token.val, ⟨⟨_, isUtf8_of_visible hvisible⟩, ⟨_, h.2, rfl, hvisible⟩, rfl⟩, rfl⟩

/-- The requests that pass. A secret that is no text turns the check off, and one with a character
that no header text has locks everyone out. -/
theorem bearer_auth_iff {toStr : List Byte → Option Text} (htoStr : ReadsVisible toStr)
    (var header : Option (List Byte)) :
    bearerAuth toStr (.fromEnv var) header = true ↔
      var = none ∨ var = some [] ∨ (∃ raw, var = some raw ∧ isUtf8 raw = false) ∨
        ∃ token, var = some token ∧ token.all isVisible = true ∧
          header = some (ascii "Bearer " ++ token) := by
  cases var with
  | none => exact iff_of_true rfl (.inl rfl)
  | some raw =>
      by_cases hutf8 : isUtf8 raw = true
      · by_cases hempty : raw = []
        · subst hempty
          exact iff_of_true rfl (.inr (.inl rfl))
        · have hconfig : BearerAuthConfig.fromEnv (some raw) = .withToken ⟨raw, hutf8⟩ := by
            rw [BearerAuthConfig.fromEnv, envVar, dif_pos hutf8]
            exact if_pos hempty
          rw [hconfig, bearerAuth_withToken htoStr]
          simp [hempty, hutf8]
      · have hconfig : BearerAuthConfig.fromEnv (some raw) = {} := by
          rw [BearerAuthConfig.fromEnv, envVar, dif_neg hutf8]
        rw [hconfig]
        exact iff_of_true rfl (.inr (.inr (.inl ⟨raw, rfl, Bool.eq_false_iff.2 hutf8⟩)))

/-- The text of a header of visible characters. -/
def visibleText (value : List Byte) : Option Text :=
  if h : value.all isVisible = true then some ⟨value, isUtf8_of_visible h⟩ else none

theorem readsVisible_visibleText : ReadsVisible visibleText := by
  intro value text
  unfold visibleText
  split_ifs with h
  · simp [h, Subtype.ext_iff, eq_comm]
  · simp [h]

/-- The secret passes and another one does not; the byte `ff` is no text, and all pass. -/
theorem bearer_auth_iff_secret :
    ReadsVisible visibleText ∧
    bearerAuth visibleText (.fromEnv (some (ascii "secret"))) (some (ascii "Bearer secret")) =
      true ∧
    bearerAuth visibleText (.fromEnv (some (ascii "secret"))) (some (ascii "Bearer secreT")) =
      false ∧
    bearerAuth visibleText (.fromEnv (some [0xff])) none = true := by
  have hiff := bearer_auth_iff readsVisible_visibleText
  refine ⟨readsVisible_visibleText, ?_, ?_, ?_⟩
  · exact (hiff _ _).2 (.inr (.inr (.inr
      ⟨ascii "secret", rfl, by decide +kernel, by decide +kernel⟩)))
  · rw [← Bool.not_eq_true, hiff]
    rintro (h | h | ⟨raw, hraw, hutf8⟩ | ⟨token, htoken, -, hheader⟩)
    · cases h
    · exact absurd h (by decide +kernel)
    · obtain rfl := Option.some.inj hraw
      exact absurd hutf8 (by decide +kernel)
    · obtain rfl := Option.some.inj htoken
      exact absurd hheader (by decide +kernel)
  · exact (hiff _ _).2 (.inr (.inr (.inl ⟨[0xff], rfl, by decide +kernel⟩)))

end SuwappuDb
