import SuwappuDb.Lib.Hex
import SuwappuDb.Lib.Json
import SuwappuDb.State

/-!
# Balances and nonces from the second layer

`get_balance` and `get_transaction_count` of `crates/suwappudb-bridge/src/sync/l2.rs`, from the
reply of the JSON-RPC endpoint on. Both take the result as a text, cut off its first two bytes,
decode the rest as the hexadecimal digits of *bytes*, and put these at the end of an array of zeros.
The crates `serde_json` and `hex` are parameters, of which the second is assumed to do what it
documents.

A JSON-RPC quantity is the hexadecimal text of a *number*, with no more digits than it needs. It has
an odd number of them as often as not, and then there are no bytes for it.

* `decodeQuantity` — what the two functions share, with `decodeQuantity_of_odd` and
  `decodeQuantity_of_even` for the quantities.
* `l2_quantities_faithful_iff` — the results from which both functions take the right number or an
  error.
-/

namespace SuwappuDb

/-! ## Replies -/

/-- What comes back for a request: the client's `send` fails, or its `json`, or there is a value. An
error is its display text. -/
inductive RpcReply (serde : JsonApi) where
  | callFailed (e : String)
  | notJson (e : String)
  | json (value : serde.Value)

/-- A request for a quantity: the method, the names in its error texts, and the width of the number
in bytes. -/
structure QuantityRequest where
  method : String
  lowerName : String
  upperName : String
  typeName : String
  width : Nat

section Requests

variable (serde : JsonApi) (hex : Hex.Codec)

/-- The array of a result. -/
def decodeQuantity (q : QuantityRequest) (text : List Byte) : Option (Except String (List Byte)) :=
  (sliceFrom text 2).map fun digits =>
    match hex.decode digits with
    | .error e => .error ("Failed to decode " ++ q.lowerName ++ " hex: " ++ e)
    | .ok bytes =>
        if bytes.length ≤ q.width then
          .ok (copyFromSlice (List.replicate q.width 0) (q.width - bytes.length) bytes)
        else .error (q.upperName ++ " value too large (> " ++ q.typeName ++ ")")

/-- The array of a reply. -/
def getQuantity (q : QuantityRequest) : RpcReply serde → Option (Except String (List Byte))
  | .callFailed e => some (.error (q.method ++ " RPC call failed: " ++ e))
  | .notJson e => some (.error ("Failed to parse " ++ q.method ++ " response: " ++ e))
  | .json value =>
      match serde.get value (ascii "error") with
      | some err => some (.error ("RPC error: " ++ serde.display err))
      | none =>
          match (serde.get value (ascii "result")).bind serde.asStr with
          | some text => decodeQuantity hex q text.val
          | none => some (.error ("Missing result field in " ++ q.method ++ " response"))

def balanceRequest : QuantityRequest := ⟨"eth_getBalance", "balance", "Balance", "u128", 16⟩

def transactionCountRequest : QuantityRequest :=
  ⟨"eth_getTransactionCount", "nonce", "Nonce", "u64", 8⟩

/-- `get_balance`. -/
def getBalance (reply : RpcReply serde) : Option (Except String U128) :=
  (getQuantity serde hex balanceRequest reply).map
    (Except.map fun array => Fin.ofNat (2 ^ 128) (beValue array))

/-- `get_transaction_count`. -/
def getTransactionCount (reply : RpcReply serde) : Option (Except String U64) :=
  (getQuantity serde hex transactionCountRequest reply).map
    (Except.map fun array => Fin.ofNat (2 ^ 64) (beValue array))

end Requests

/-! ## Quantities -/

/-- A text is the quantity of a number: `0x` and the fewest digits there can be, in either case. -/
def IsQuantity (text : List Byte) (n : Nat) : Prop :=
  text.take 2 = ascii "0x" ∧
    (text.drop 2).map Hex.digitValue = (Hex.shortestDigits n).map some

instance (text : List Byte) (n : Nat) : Decidable (IsQuantity text n) :=
  inferInstanceAs (Decidable (_ ∧ _))

/-- What is to come out of a result: no panic, the number of a quantity, and an error for a number
that is too large. -/
def Faithful (bits : Nat) (text : List Byte)
    (decoded : Option (Except String (Fin (2 ^ bits)))) : Prop :=
  decoded ≠ none ∧ ∀ n, IsQuantity text n →
    (∀ h : n < 2 ^ bits, decoded = some (.ok ⟨n, h⟩)) ∧
    (2 ^ bits ≤ n → ∃ e, decoded = some (.error e))

/-- The results that are decoded: the first two bytes can be cut off, and a quantity that is not too
large has an even number of digits. -/
def Readable (bits : Nat) (text : List Byte) : Prop :=
  isCharBoundary text 2 = true ∧ ∀ n < 2 ^ bits, IsQuantity text n → text.length % 2 = 0

/-- A reply without an error that has the text for its result. -/
structure Carries (serde : JsonApi) (value : serde.Value) (text : Text) : Prop where
  error : serde.get value (ascii "error") = none
  result : (serde.get value (ascii "result")).bind serde.asStr = some text

theorem getQuantity_of_carries {serde : JsonApi} {value : serde.Value} {text : Text}
    (h : Carries serde value text) (hex : Hex.Codec) (q : QuantityRequest) :
    getQuantity serde hex q (.json value) = decodeQuantity hex q text.val := by
  simp only [getQuantity, h.error, h.result]

section Decoding

variable {hex : Hex.Codec} {q : QuantityRequest} {text : List Byte}

theorem decodeQuantity_of_inside (h : isCharBoundary text 2 = false) :
    decodeQuantity hex q text = none := by
  simp [decodeQuantity, sliceFrom, h]

theorem decodeQuantity_of_odd (hhex : hex.Lawful) (h : isCharBoundary text 2 = true)
    (hodd : text.length % 2 ≠ 0) : ∃ e, decodeQuantity hex q text = some (.error e) := by
  have hlength := le_length_of_isCharBoundary h
  have hdrop : (text.drop 2).length % 2 ≠ 0 := by
    rw [List.length_drop]
    omega
  obtain ⟨e, hdecode⟩ := hhex.decode_odd hdrop
  rw [decodeQuantity, sliceFrom, if_pos h, Option.map_some, hdecode]
  exact ⟨_, rfl⟩

/-- A quantity with an even number of digits decodes to its number, or there are too many bytes. -/
theorem decodeQuantity_of_even (hhex : hex.Lawful) (hwidth : 0 < q.width)
    (h : isCharBoundary text 2 = true) {n : Nat} (hquantity : IsQuantity text n)
    (heven : text.length % 2 = 0) :
    (n < 256 ^ q.width ∧
      ∃ array, decodeQuantity hex q text = some (.ok array) ∧ beValue array = n) ∨
    (256 ^ q.width ≤ n ∧ ∃ e, decodeQuantity hex q text = some (.error e)) := by
  have hlength := le_length_of_isCharBoundary h
  have hdrop : (text.drop 2).length % 2 = 0 := by
    rw [List.length_drop]
    omega
  obtain ⟨bytes, hdecode, hvalue, hbytes⟩ := hhex.decode_of_digits hquantity.2 hdrop
  have hfits : bytes.length ≤ q.width ↔ n < 256 ^ q.width := by
    have hdigits : (text.drop 2).length = (Hex.shortestDigits n).length := by
      simpa using congrArg List.length hquantity.2
    have hpow : 256 ^ q.width = 16 ^ (2 * q.width) := by norm_num [pow_mul]
    rw [hpow, ← Hex.length_shortestDigits_le (by omega), ← hdigits, ← hbytes]
    omega
  rw [decodeQuantity, sliceFrom, if_pos h, Option.map_some, hdecode]
  by_cases hle : bytes.length ≤ q.width
  · refine .inl ⟨hfits.1 hle, _, congrArg some (if_pos hle), ?_⟩
    rw [beValue_copyFromSlice hle, hvalue]
  · exact .inr ⟨not_lt.1 fun hlt => hle (hfits.2 hlt), _, congrArg some (if_neg hle)⟩

end Decoding

theorem faithful_decodeQuantity_iff {hex : Hex.Codec} (hhex : hex.Lawful) {bits : Nat}
    {q : QuantityRequest} (hwidth : 0 < q.width) (hbits : 2 ^ bits = 256 ^ q.width)
    (text : List Byte) :
    Faithful bits text ((decodeQuantity hex q text).map
      (Except.map fun array => Fin.ofNat (2 ^ bits) (beValue array))) ↔ Readable bits text := by
  cases hcut : isCharBoundary text 2 with
  | false =>
      refine iff_of_false (fun h => h.1 ?_) fun h => by simp [h.1] at hcut
      rw [decodeQuantity_of_inside hcut, Option.map_none]
  | true =>
      constructor
      · intro h
        refine ⟨hcut, fun n hn hquantity => ?_⟩
        by_contra hodd
        obtain ⟨e, heq⟩ := decodeQuantity_of_odd (q := q) hhex hcut hodd
        have hok := (h.2 n hquantity).1 hn
        rw [heq] at hok
        cases hok
      · intro h
        refine ⟨by simp [decodeQuantity, sliceFrom, hcut], fun n hquantity => ?_⟩
        by_cases heven : text.length % 2 = 0
        · rcases decodeQuantity_of_even hhex hwidth hcut hquantity heven with
            ⟨hlt, array, heq, hvalue⟩ | ⟨hge, e, heq⟩
          · refine ⟨fun hn => ?_, fun hge => absurd hlt (hbits ▸ hge).not_gt⟩
            have hfin : Fin.ofNat (2 ^ bits) (beValue array) = ⟨n, hn⟩ := by
              rw [hvalue]
              exact Fin.ext (Nat.mod_eq_of_lt hn)
            rw [heq, Option.map_some, Except.map, hfin]
          · exact ⟨fun hn => absurd (hbits ▸ hn) hge.not_gt, fun _ => ⟨e, by rw [heq]; rfl⟩⟩
        · obtain ⟨e, heq⟩ := decodeQuantity_of_odd (q := q) hhex hcut heven
          exact ⟨fun hn => absurd (h.2 n hn hquantity) heven, fun _ => ⟨e, by rw [heq]; rfl⟩⟩

/-- Which results of the endpoint the two functions decode as they should, and without a panic. -/
theorem l2_quantities_faithful_iff (serde : JsonApi) {hex : Hex.Codec} (hhex : hex.Lawful)
    {value : serde.Value} {text : Text} (hvalue : Carries serde value text) :
    (Faithful 128 text.val (getBalance serde hex (.json value)) ↔ Readable 128 text.val) ∧
    (Faithful 64 text.val (getTransactionCount serde hex (.json value)) ↔
      Readable 64 text.val) := by
  rw [getBalance, getTransactionCount, getQuantity_of_carries hvalue, getQuantity_of_carries hvalue]
  exact ⟨faithful_decodeQuantity_iff hhex (by decide) (by decide) text.val,
    faithful_decodeQuantity_iff hhex (by decide) (by decide) text.val⟩

/-! ### Replies -/

/-- JSON values as trees; how they are displayed plays no part. -/
def treeJson : JsonApi := Json.api fun _ => "null"

/-- A reply with a result. -/
def resultReply (text : Text) : Json :=
  .object [(ascii "jsonrpc", .string (asciiText "2.0")), (ascii "id", .int 1),
    (ascii "result", .string text)]

theorem carries_resultReply (text : Text) : Carries treeJson (resultReply text) text :=
  ⟨rfl, rfl⟩

/-- A balance of 255 has two digits, and is read. -/
theorem l2_quantities_faithful_ff :
    Hex.codec.Lawful ∧ Carries treeJson (resultReply (asciiText "0xff")) (asciiText "0xff") ∧
    IsQuantity (asciiText "0xff").val 255 ∧
    getBalance treeJson Hex.codec (.json (resultReply (asciiText "0xff"))) = some (.ok 255) := by
  have hquantity : IsQuantity (asciiText "0xff").val 255 := by decide +kernel
  have hreadable : Readable 128 (asciiText "0xff").val :=
    ⟨by decide +kernel, fun _ _ _ => by decide +kernel⟩
  have hfaithful := (l2_quantities_faithful_iff treeJson Hex.codec_lawful
    (carries_resultReply (asciiText "0xff"))).1.2 hreadable
  exact ⟨Hex.codec_lawful, carries_resultReply _, hquantity,
    (hfaithful.2 255 hquantity).1 (by decide)⟩

/-- A balance of zero has one digit, and is an error. An empty result is a panic. -/
theorem l2_zero_is_an_error :
    IsQuantity (asciiText "0x0").val 0 ∧
    getBalance treeJson Hex.codec (.json (resultReply (asciiText "0x0"))) =
      some (.error "Failed to decode balance hex: Odd number of digits") ∧
    getTransactionCount treeJson Hex.codec (.json (resultReply (asciiText "0x0"))) =
      some (.error "Failed to decode nonce hex: Odd number of digits") ∧
    getBalance treeJson Hex.codec (.json (resultReply (asciiText ""))) = none ∧
    getTransactionCount treeJson Hex.codec (.json (resultReply (asciiText ""))) = none ∧
    ¬ Faithful 128 (asciiText "0x0").val
      (getBalance treeJson Hex.codec (.json (resultReply (asciiText "0x0")))) := by
  have hquantity : IsQuantity (asciiText "0x0").val 0 := by decide +kernel
  refine ⟨hquantity, rfl, rfl, rfl, rfl, fun h => ?_⟩
  cases (h.2 0 hquantity).1 (by decide)

end SuwappuDb
