import SuwappuDb.Anchor
import SuwappuDb.L2Sync

/-!
# Anchors from the first layer

`RpcL1AnchorReader` of `crates/suwappudb-bridge/src/anchor/l1_reader.rs`, from the reply of the
JSON-RPC endpoint on. The reply is a text of hexadecimal digits, of which the first 96 bytes are the
root, the parent and the MAC of an anchor; chain and height are those that were asked for. The MAC
is checked under a key of zeros, which stands in the place of the chain's key.

* `decodeAnchor_eq_some` — what is decoded is the anchor that the key's holder makes of the root and
  the parent in the reply.
* `l1_reads_iff` — what comes back for the reply to an honest anchor, and for any other.

Replies are those of `SuwappuDb.L2Sync`, and so are the crates `serde_json` and `hex`; `none` is a
panic.
-/

namespace SuwappuDb

/-! ## The reader -/

theorem length_word {data : List Byte} (h : 96 ≤ data.length) (i : Fin 3) :
    ((data.drop (32 * i.val)).take 32).length = 32 := by
  rw [List.length_take, List.length_drop]
  omega

/-- One of the three fields of 32 bytes at the start of a reply. -/
def word (data : List Byte) (h : 96 ≤ data.length) (i : Fin 3) : ByteArr 32 :=
  ⟨(data.drop (32 * i.val)).take 32, length_word h i⟩

namespace RpcL1AnchorReader

variable (crypto : AnchorCrypto)

/-- `Anchor::verify_auth`. -/
def verifyAuth (anchor : Anchor) (key : ByteArr 32) : Bool :=
  match anchor.verifyAuthResult crypto key with
  | .ok () => true
  | .error _ => false

section Calls

variable (serde : JsonApi) (hex : Hex.Codec)

/-- `call_get_anchor`, from its reply on. -/
def callGetAnchor : RpcReply serde → Except String serde.Value
  | .callFailed e => .error ("RPC call failed: " ++ e)
  | .notJson e => .error ("Failed to parse response: " ++ e)
  | .json value =>
      match serde.get value (ascii "error") with
      | some err => .error ("RPC error: " ++ serde.display err)
      | none => .ok value

def decodeAnchor (result : serde.Value) (chainId : ChainId) (height : U64) (key : ByteArr 32) :
    Option (Option Anchor) :=
  match (serde.get result (ascii "result")).bind serde.asStr with
  | none => some none
  | some text =>
      (sliceFrom text.val 2).map fun digits =>
        match hex.decode digits with
        | .error _ => none
        | .ok data =>
            if h : 96 ≤ data.length then
              let anchor : Anchor := {
                chainId, height
                stateRoot := word data h 0
                parent := word data h 1
                mac := word data h 2
                authScheme := .blake3Mac }
              if verifyAuth crypto anchor key then some anchor else none
            else none

/-- `read_anchor`. The key is a placeholder. -/
def readAnchor (reply : RpcReply serde) (chainId : ChainId) (height : U64) :
    Option (Option Anchor) :=
  match callGetAnchor serde reply with
  | .ok result => decodeAnchor crypto serde hex result chainId height (zeroBytes 32)
  | .error _ => some none

end Calls

/-! ## What it returns -/

variable {crypto} {serde : JsonApi} {hex : Hex.Codec}

theorem verifyAuth_mac {anchor : Anchor} (h : anchor.authScheme = .blake3Mac) (key : ByteArr 32) :
    verifyAuth crypto anchor key = true ↔
      anchor =
        Anchor.new crypto anchor.chainId anchor.height anchor.stateRoot anchor.parent key := by
  obtain ⟨chainId, height, stateRoot, parent, mac, authScheme⟩ := anchor
  obtain rfl : authScheme = .blake3Mac := h
  simp only [verifyAuth, Anchor.verifyAuthResult, Anchor.verifyMac, Anchor.new, Anchor.mk.injEq,
    beq_self_eq_true, Bool.true_and, beq_iff_eq, true_and, and_true]
  split_ifs with hmac <;> simp [hmac]

/-- A decoded anchor is made of the root and the parent that were sent, for the chain and the height
that were asked for, under the key. -/
theorem decodeAnchor_eq_some {result : serde.Value} {chainId : ChainId} {height : U64}
    {key : ByteArr 32} {anchor : Anchor}
    (h : decodeAnchor crypto serde hex result chainId height key = some (some anchor)) :
    anchor = Anchor.new crypto chainId height anchor.stateRoot anchor.parent key := by
  unfold decodeAnchor at h
  cases htext : (serde.get result (ascii "result")).bind serde.asStr with
  | none =>
      rw [htext] at h
      cases h
  | some text =>
      rw [htext] at h
      obtain ⟨digits, -, hdecoded⟩ := Option.map_eq_some_iff.1 h
      cases hdata : hex.decode digits with
      | error e =>
          rw [hdata] at hdecoded
          cases hdecoded
      | ok data =>
          simp only [hdata] at hdecoded
          split_ifs at hdecoded with hlength hauth
          obtain rfl := Option.some.inj hdecoded
          exact (verifyAuth_mac rfl key).1 hauth

/-! ## Honest replies -/

/-- The text for an anchor, as the reader expects it: `0x` and the digits of the root, the parent
and the MAC, whatever comes behind them. -/
def AnchorText (text : List Byte) (anchor : Anchor) : Prop :=
  ∃ digits rest, text = ascii "0x" ++ digits ∧ digits.map Hex.digitValue =
    (Hex.nibbles (anchor.stateRoot.val ++ anchor.parent.val ++ anchor.mac.val ++ rest)).map some

theorem length_mark : (ascii "0x").length = 2 := by decide +kernel

/-- Nothing is cut but the `0x`: a digit is no part of a longer character. -/
theorem AnchorText.sliceFrom_decode (hhex : hex.Lawful) {text : List Byte} {anchor : Anchor}
    (h : AnchorText text anchor) : ∃ digits rest, sliceFrom text 2 = some digits ∧
      hex.decode digits =
        .ok (anchor.stateRoot.val ++ anchor.parent.val ++ anchor.mac.val ++ rest) := by
  obtain ⟨digits, rest, rfl, hdigits⟩ := h
  refine ⟨digits, rest, ?_, hhex.decode_eq_ok_iff.2 hdigits⟩
  rw [← length_mark]
  exact sliceFrom_append (Hex.le_of_map_digitValue hdigits)

/-- The three fields at the start of some bytes. -/
theorem word_append (root : Commitment) (parent : AnchorHash) (mac : ByteArr 32) (rest : List Byte)
    (h : 96 ≤ (root.val ++ parent.val ++ mac.val ++ rest).length) :
    word _ h 0 = root ∧ word _ h 1 = parent ∧ word _ h 2 = mac := by
  have hsixtyFour : (root.val ++ parent.val).length = 64 := by
    rw [List.length_append, root.property, parent.property]
  refine ⟨Subtype.ext ?_, Subtype.ext ?_, Subtype.ext ?_⟩
  · show ((root.val ++ parent.val ++ mac.val ++ rest).drop 0).take 32 = root.val
    rw [List.append_assoc, List.append_assoc, List.drop_zero, List.take_left' root.property]
  · show ((root.val ++ parent.val ++ mac.val ++ rest).drop 32).take 32 = parent.val
    rw [List.append_assoc, List.append_assoc, List.drop_left' root.property,
      List.take_left' parent.property]
  · show ((root.val ++ parent.val ++ mac.val ++ rest).drop 64).take 32 = mac.val
    rw [List.append_assoc, List.drop_left' hsixtyFour, List.take_left' mac.property]

/-- The reply for an anchor of the chain and the height is read as this anchor, or not at all. -/
theorem decodeAnchor_anchorText (hhex : hex.Lawful) {chainId : ChainId} {height : U64}
    {root : Commitment} {parent : AnchorHash} {key : ByteArr 32} {value : serde.Value} {text : Text}
    (hvalue : Carries serde value text)
    (htext : AnchorText text.val (Anchor.new crypto chainId height root parent key))
    (key' : ByteArr 32) :
    decodeAnchor crypto serde hex value chainId height key' =
      some (if computeMac crypto chainId height root parent key =
          computeMac crypto chainId height root parent key' then
        some (Anchor.new crypto chainId height root parent key) else none) := by
  set mac := computeMac crypto chainId height root parent key with hmac
  obtain ⟨digits, rest, hslice, hdecode⟩ := htext.sliceFrom_decode hhex
  have hlength : 96 ≤ (root.val ++ parent.val ++ mac.val ++ rest).length := by
    rw [List.length_append, List.length_append, List.length_append, root.property,
      parent.property, mac.property]
    omega
  obtain ⟨hroot, hparent, hword⟩ := word_append root parent mac rest hlength
  have hauth : verifyAuth crypto (Anchor.new crypto chainId height root parent key) key' = true ↔
      mac = computeMac crypto chainId height root parent key' := by
    rw [verifyAuth_mac rfl]
    simp [Anchor.new, hmac]
  have hdata : hex.decode digits = .ok (root.val ++ parent.val ++ mac.val ++ rest) := hdecode
  rw [decodeAnchor, hvalue.result]
  simp only [hslice, Option.map_some, hdata, dif_pos hlength, hroot, hparent, hword]
  show some (if verifyAuth crypto (Anchor.new crypto chainId height root parent key) key' = true
    then some (Anchor.new crypto chainId height root parent key) else none) = _
  simp only [hauth]

end RpcL1AnchorReader

open RpcL1AnchorReader in
/-- What the production reader returns. To a reply with the text of an anchor that was made under
the chain's key it returns this anchor if its MAC is the same under the key of zeros, and nothing
otherwise; and whatever the reply is, what it returns is an anchor for the chain and the height
asked for that was made under the key of zeros. -/
theorem l1_reads_iff (crypto : AnchorCrypto) (serde : JsonApi) {hex : Hex.Codec}
    (hhex : hex.Lawful) (chainId : ChainId) (height : U64) :
    (∀ root parent key value text, Carries serde value text →
      AnchorText text.val (Anchor.new crypto chainId height root parent key) →
      readAnchor crypto serde hex (.json value) chainId height =
        some (if computeMac crypto chainId height root parent key =
            computeMac crypto chainId height root parent (zeroBytes 32) then
          some (Anchor.new crypto chainId height root parent key) else none)) ∧
    ∀ reply anchor, readAnchor crypto serde hex reply chainId height = some (some anchor) →
      anchor = Anchor.new crypto chainId height anchor.stateRoot anchor.parent (zeroBytes 32) := by
  refine ⟨fun root parent key value text hvalue htext => ?_, fun reply anchor h => ?_⟩
  · simp only [readAnchor, callGetAnchor, hvalue.error]
    exact decodeAnchor_anchorText hhex hvalue htext (zeroBytes 32)
  · unfold readAnchor at h
    cases hcall : callGetAnchor serde reply with
    | ok result =>
        rw [hcall] at h
        exact decodeAnchor_eq_some h
    | error e =>
        rw [hcall] at h
        cases h

theorem isUtf8_marked (text : Text) : isUtf8 (ascii "0x" ++ text.val) = true := by
  have hmark : ∀ b ∈ ascii "0x", b ≤ 0x7f := by decide +kernel
  exact isUtf8_append hmark text.property

/-- `format!("0x{}", text)`. -/
def marked (text : Text) : Text := ⟨ascii "0x" ++ text.val, isUtf8_marked text⟩

/-- The MAC is the key. -/
def keyCrypto : AnchorCrypto where
  blake3 _ := zeroBytes 32
  keyedBlake3 key _ := key
  keccak256 _ := zeroBytes 32
  recover := recoverNothing
  recover_eq_none := recoverNothing_eq_none
  mldsa65 := none

/-- The anchor of chain 1 at height 7, under a key. -/
def sentAnchor (key : ByteArr 32) : Anchor :=
  Anchor.new keyCrypto 1 7 (constBytes 32 5) (constBytes 32 6) key

def sentText (key : ByteArr 32) : Text :=
  marked (Hex.lowerText ((sentAnchor key).stateRoot.val ++ (sentAnchor key).parent.val ++
    (sentAnchor key).mac.val ++ [0, 1]))

open RpcL1AnchorReader in
/-- Under a key of ones the anchor is not returned, and under the placeholder it is. -/
theorem l1_reads_iff_sentAnchor :
    Hex.codec.Lawful ∧
    readAnchor keyCrypto treeJson Hex.codec (.json (resultReply (sentText (constBytes 32 1)))) 1 7 =
      some none ∧
    readAnchor keyCrypto treeJson Hex.codec (.json (resultReply (sentText (zeroBytes 32)))) 1 7 =
      some (some (sentAnchor (zeroBytes 32))) := by
  have htext : ∀ key, AnchorText (sentText key).val (sentAnchor key) := fun key =>
    ⟨_, [0, 1], rfl, Hex.map_digitValue_lowerDigits _⟩
  have hread := fun key => (l1_reads_iff keyCrypto treeJson Hex.codec_lawful 1 7).1
    (constBytes 32 5) (constBytes 32 6) key _ _ (carries_resultReply (sentText key)) (htext key)
  refine ⟨Hex.codec_lawful, ?_, ?_⟩
  · exact (hread (constBytes 32 1)).trans (congrArg some (if_neg (by decide +kernel)))
  · exact (hread (zeroBytes 32)).trans (congrArg some (if_pos rfl))

end SuwappuDb
