import SuwappuDb.Lib.Decode
import SuwappuDb.Lib.Utf8
import SuwappuDb.Recovery

/-!
# The block codec

`encode_block` and `decode_block` of `crates/suwappudb-bridge/src/recovery/store.rs`: the bytes
under which the durable store keeps a block, and the cursor that reads them back.

The decoder is exact: it accepts the encodings of the blocks whose counts and byte fields are below
`2 ^ 32`, and no other bytes (`decodeBlock_eq_some`). The cursor's reads are those of `Lib.Decode`,
all of which fail alike here. Memory is taken to suffice: `decode_block` reserves room for as many
intents as the bytes announce before it reads one, and what that allocation does is not modelled.

`Block::hash` has an encoder of its own. It writes what `encode_block` writes behind the version
byte (`Block.encoding_eq`), so the preimage of a hash tells the block (`block_hash_commits`).
-/

namespace SuwappuDb

open Decoder

/-! ## Encoding -/

def BLOCK_ENCODING_VERSION : Byte := 1

/-- `encode_intent` of `store.rs`, which appends to `out`. -/
def RedbBlockStore.encodeIntent (out : List Byte) : Intent → List Byte
  | .transfer src dst amount => out ++ [0] ++ src.val ++ dst.val ++ U128.toBeBytes amount
  | .call caller target value calldata =>
      out ++ [1] ++ caller.val ++ target.val ++ U128.toBeBytes value ++ lenBytes calldata.length ++
        calldata
  | .deployModule account name bytes =>
      out ++ [2] ++ account.val ++ lenBytes name.val.length ++ name.val ++ lenBytes bytes.length ++
        bytes

/-- `encode_block`. -/
def encodeBlock (b : Block) : List Byte :=
  b.intents.foldl RedbBlockStore.encodeIntent ([BLOCK_ENCODING_VERSION] ++
    beBytes 8 b.height.val ++ b.parent.val ++ b.stateRoot.val ++ lenBytes b.intents.length)

/-- The two encoders of an intent write the same. -/
theorem RedbBlockStore.encodeIntent_eq (out : List Byte) (i : Intent) :
    RedbBlockStore.encodeIntent out i = out ++ SuwappuDb.encodeIntent i := by
  cases i with
  | transfer src dst amount => simp [RedbBlockStore.encodeIntent, SuwappuDb.encodeIntent]
  | call caller target value calldata => simp [RedbBlockStore.encodeIntent, SuwappuDb.encodeIntent]
  | deployModule account name bytes => simp [RedbBlockStore.encodeIntent, SuwappuDb.encodeIntent]

theorem foldl_encodeIntent (intents : List Intent) (out : List Byte) :
    intents.foldl RedbBlockStore.encodeIntent out = out ++ intents.flatMap encodeIntent := by
  induction intents generalizing out with
  | nil => simp
  | cons i rest ih =>
      rw [List.foldl_cons, ih, RedbBlockStore.encodeIntent_eq, List.flatMap_cons,
        List.append_assoc]

theorem encodeBlock_eq (b : Block) : encodeBlock b =
    BLOCK_ENCODING_VERSION :: (beBytes 8 b.height.val ++ (b.parent.val ++ (b.stateRoot.val ++
      (lenBytes b.intents.length ++ b.intents.flatMap encodeIntent)))) := by
  rw [encodeBlock, foldl_encodeIntent]
  simp

/-- The byte fields are shorter than `2 ^ 32`. -/
def Intent.Fits : Intent → Prop
  | .transfer _ _ _ => True
  | .call _ _ _ calldata => calldata.length < 2 ^ 32
  | .deployModule _ name bytes => name.val.length < 2 ^ 32 ∧ bytes.length < 2 ^ 32

/-- There are fewer than `2 ^ 32` intents, and the byte fields are shorter than that. -/
def Block.Fits (b : Block) : Prop :=
  b.intents.length < 2 ^ 32 ∧ ∀ i ∈ b.intents, i.Fits

theorem lenBytes_of_lt {len : Nat} (h : len < 2 ^ 32) : lenBytes len = beBytes 4 len := by
  rw [lenBytes, Nat.min_eq_left (Nat.le_sub_one_of_lt h)]

/-! ## The cursor -/

theorem isAsciiAlphanumeric_le {b : Byte} (h : isAsciiAlphanumeric b = true) : b ≤ 0x7f := by
  simp only [isAsciiAlphanumeric, isAsciiAlphabetic, Bool.or_eq_true, Bool.and_eq_true,
    decide_eq_true_eq, Fin.le_def] at h ⊢
  omega

/-- An identifier is ASCII, so the check that its bytes are a text rejects none. -/
theorem Identifier.isUtf8 (name : Identifier) : isUtf8 name.val = true := by
  have hascii : ∀ {b : Byte}, (isAsciiAlphanumeric b || b == 95) = true → b ≤ 0x7f := by
    intro b hb
    rcases Bool.or_eq_true_iff.1 hb with hb | hb
    · exact isAsciiAlphanumeric_le hb
    · rw [beq_iff_eq.1 hb]
      decide
  obtain ⟨s, h⟩ := name
  cases s with
  | nil => rfl
  | cons first rest =>
      rw [identifierError] at h
      split_ifs at h with hfirst
      simp only [Bool.not_eq_true, Bool.not_eq_false', Option.map_eq_none_iff,
        List.find?_eq_none] at hfirst h
      refine isUtf8_of_ascii (List.forall_mem_cons.2 ⟨hascii ?_, fun b hb => hascii ?_⟩)
      · rw [isAsciiAlphanumeric, Bool.or_right_comm, hfirst, Bool.true_or]
      · exact h b hb

namespace Cursor

def bytes (n : Nat) : Decoder Unit (List Byte) := Decoder.bytes () n

def byte : Decoder Unit Byte := (fun l => l.getD 0 0) <$> bytes 1

/-- `u32`, as a `usize`. -/
def u32 : Decoder Unit Nat := beNat () 4

def u64 : Decoder Unit U64 := Fin.ofNat (2 ^ 64) <$> beNat () 8

def u128 : Decoder Unit U128 := Fin.ofNat (2 ^ 128) <$> beNat () 16

def arr20 : Decoder Unit (ByteArr 20) := arr () 20

def arr32 : Decoder Unit (ByteArr 32) := arr () 32

/-- `std::str::from_utf8`. -/
def utf8 (s : List Byte) : Decoder Unit (List Byte) := do
  check () (isUtf8 s)
  return s

/-- `Identifier::new`, whose errors the decoder does not tell apart. -/
def identifier (s : List Byte) : Decoder Unit Identifier :=
  match Identifier.new s with
  | .ok name => pure name
  | .error _ => throw ()

theorem exact_bytes (n : Nat) : Exact (bytes n) (fun l => l.length = n) fun l => l :=
  Decoder.exact_bytes () n

theorem exact_byte : Exact byte (fun _ => True) fun b => [b] :=
  (exact_bytes 1).map
    (fun l hl => by
      obtain ⟨b, rfl⟩ := List.length_eq_one_iff.1 hl
      exact ⟨trivial, rfl⟩)
    (fun _ _ => ⟨rfl, rfl⟩)

theorem exact_u32 : Exact u32 (fun n => n < 2 ^ 32) (beBytes 4) := exact_beNat () 4

theorem exact_u64 : Exact u64 (fun _ => True) fun n => beBytes 8 n.val := (exact_beNat () 8).fin

theorem exact_u128 : Exact u128 (fun _ => True) U128.toBeBytes := (exact_beNat () 16).fin

theorem exact_arr20 : Exact arr20 (fun _ => True) Subtype.val := exact_arr () 20

theorem exact_arr32 : Exact arr32 (fun _ => True) Subtype.val := exact_arr () 32

theorem run_bind_utf8 {s input rest : List Byte} {α : Type} {f : List Byte → Decoder Unit α}
    {b : α} : (utf8 s >>= f).run input = .ok (b, rest) ↔
      isUtf8 s = true ∧ (f s).run input = .ok (b, rest) := by
  rw [utf8, bind_assoc, run_bind_check]
  rfl

theorem run_bind_identifier {s input rest : List Byte} {α : Type} {f : Identifier → Decoder Unit α}
    {b : α} : (identifier s >>= f).run input = .ok (b, rest) ↔
      ∃ name : Identifier, s = name.val ∧ (f name).run input = .ok (b, rest) := by
  rw [identifier]
  simp only [← Identifier.new_eq_ok]
  cases Identifier.new s with
  | error e => exact iff_of_false run_throw fun ⟨_, hname, _⟩ => nomatch hname
  | ok name => rw [pure_bind]; simp

end Cursor

/-! ## Decoding -/

open Cursor

def decodeTransfer : Decoder Unit Intent := do
  let src ← arr20
  let dst ← arr20
  let amount ← u128
  return .transfer src dst amount

def decodeCall : Decoder Unit Intent := do
  let caller ← arr20
  let target ← arr20
  let value ← u128
  let len ← u32
  let calldata ← Cursor.bytes len
  return .call caller target value calldata

def decodeDeployModule : Decoder Unit Intent := do
  let account ← arr32
  let nameLen ← u32
  let nameBytes ← Cursor.bytes nameLen
  let nameStr ← utf8 nameBytes
  let name ← identifier nameStr
  let bytesLen ← u32
  let bytes ← Cursor.bytes bytesLen
  return .deployModule account name bytes

/-- `decode_intent`. -/
def decodeIntent : Decoder Unit Intent := do
  match (← byte).val with
  | 0 => decodeTransfer
  | 1 => decodeCall
  | 2 => decodeDeployModule
  | _ => throw ()

/-- `decode_block`, on a cursor. -/
def readBlock : Decoder Unit Block := do
  let version ← byte
  check () (version = BLOCK_ENCODING_VERSION)
  let height ← u64
  let parent ← arr32
  let stateRoot ← arr32
  let n ← u32
  let intents ← readMany decodeIntent n
  eof fun _ => ()
  return ⟨height, parent, stateRoot, intents⟩

/-- `decode_block`. -/
def decodeBlock (bytes : List Byte) : Option Block := (readBlock.run' bytes).toOption

/-! ## Exactness -/

variable {input rest : List Byte} {i : Intent}

theorem run_decodeTransfer : decodeTransfer.run input = .ok (i, rest) ↔ ∃ src dst amount,
    i = .transfer src dst amount ∧
      src.val ++ (dst.val ++ (U128.toBeBytes amount ++ rest)) = input := by
  simp only [decodeTransfer, exact_arr20.run_bind, exact_u128.run_bind, run_pure, true_and]
  constructor
  · rintro ⟨src, _, rfl, dst, _, rfl, amount, _, rfl, rfl, rfl⟩
    exact ⟨src, dst, amount, rfl, rfl⟩
  · rintro ⟨src, dst, amount, rfl, rfl⟩
    exact ⟨src, _, rfl, dst, _, rfl, amount, _, rfl, rfl, rfl⟩

theorem run_decodeCall : decodeCall.run input = .ok (i, rest) ↔ ∃ caller target value calldata,
    i = .call caller target value calldata ∧ calldata.length < 2 ^ 32 ∧
      caller.val ++ (target.val ++ (U128.toBeBytes value ++
        (beBytes 4 calldata.length ++ (calldata ++ rest)))) = input := by
  simp only [decodeCall, exact_arr20.run_bind, exact_u128.run_bind, exact_u32.run_bind,
    (Cursor.exact_bytes _).run_bind, run_pure, true_and]
  constructor
  · rintro ⟨caller, _, rfl, target, _, rfl, value, _, rfl, _, _, ⟨hlen, rfl⟩, calldata, _,
      ⟨rfl, rfl⟩, rfl, rfl⟩
    exact ⟨caller, target, value, calldata, rfl, hlen, rfl⟩
  · rintro ⟨caller, target, value, calldata, rfl, hlen, rfl⟩
    exact ⟨caller, _, rfl, target, _, rfl, value, _, rfl, _, _, ⟨hlen, rfl⟩, calldata, _,
      ⟨rfl, rfl⟩, rfl, rfl⟩

theorem run_decodeDeployModule : decodeDeployModule.run input = .ok (i, rest) ↔
    ∃ account name bytes, i = .deployModule account name bytes ∧
      (name.val.length < 2 ^ 32 ∧ bytes.length < 2 ^ 32) ∧
      account.val ++ (beBytes 4 name.val.length ++ (name.val ++
        (beBytes 4 bytes.length ++ (bytes ++ rest)))) = input := by
  simp only [decodeDeployModule, exact_arr32.run_bind, exact_u32.run_bind,
    (Cursor.exact_bytes _).run_bind, run_bind_utf8, run_bind_identifier, run_pure, true_and]
  constructor
  · rintro ⟨account, _, rfl, _, _, ⟨hname, rfl⟩, _, _, ⟨rfl, rfl⟩, -, name, rfl, _, _,
      ⟨hbytes, rfl⟩, bytes, _, ⟨rfl, rfl⟩, rfl, rfl⟩
    exact ⟨account, name, bytes, rfl, ⟨hname, hbytes⟩, rfl⟩
  · rintro ⟨account, name, bytes, rfl, ⟨hname, hbytes⟩, rfl⟩
    exact ⟨account, _, rfl, _, _, ⟨hname, rfl⟩, _, _, ⟨rfl, rfl⟩,
      name.isUtf8, name, rfl, _, _, ⟨hbytes, rfl⟩, bytes, _, ⟨rfl, rfl⟩,
      rfl, rfl⟩

/-- Every intent starts with its tag. -/
theorem exact_decodeIntent : Exact decodeIntent Intent.Fits encodeIntent := by
  intro input i rest
  rw [decodeIntent, exact_byte.run_bind]
  constructor
  · rintro ⟨tag, mid, ⟨-, rfl⟩, hrun⟩
    match tag, hrun with
    | ⟨0, _⟩, hrun =>
        obtain ⟨src, dst, amount, rfl, rfl⟩ := run_decodeTransfer.1 hrun
        exact ⟨trivial, by simp [encodeIntent]⟩
    | ⟨1, _⟩, hrun =>
        obtain ⟨caller, target, value, calldata, rfl, hlen, rfl⟩ := run_decodeCall.1 hrun
        exact ⟨hlen, by simp [encodeIntent, lenBytes_of_lt hlen]⟩
    | ⟨2, _⟩, hrun =>
        obtain ⟨account, name, bytes, rfl, hlens, rfl⟩ := run_decodeDeployModule.1 hrun
        exact ⟨hlens, by simp [encodeIntent, lenBytes_of_lt hlens.1, lenBytes_of_lt hlens.2]⟩
    | ⟨tag + 3, _⟩, hrun => exact absurd hrun run_throw
  · rintro ⟨hfits, rfl⟩
    cases i with
    | transfer src dst amount =>
        exact ⟨0, _, ⟨trivial, rfl⟩, run_decodeTransfer.2 ⟨src, dst, amount, rfl, by simp⟩⟩
    | call caller target value calldata =>
        exact ⟨1, _, ⟨trivial, rfl⟩, run_decodeCall.2
          ⟨caller, target, value, calldata, rfl, hfits, by simp [lenBytes_of_lt hfits]⟩⟩
    | deployModule account name bytes =>
        exact ⟨2, _, ⟨trivial, rfl⟩, run_decodeDeployModule.2
          ⟨account, name, bytes, rfl, hfits,
            by simp [lenBytes_of_lt hfits.1, lenBytes_of_lt hfits.2]⟩⟩

theorem run_readBlock {b : Block} : readBlock.run input = .ok (b, rest) ↔
    (b.Fits ∧ encodeBlock b = input) ∧ rest = [] := by
  simp only [readBlock, exact_byte.run_bind, exact_u64.run_bind, exact_arr32.run_bind,
    exact_u32.run_bind, (exact_decodeIntent.readMany _).run_bind, run_bind_check, run_bind_eof,
    run_pure, true_and]
  constructor
  · rintro ⟨_, _, rfl, rfl, height, _, rfl, parent, _, rfl, stateRoot, _, rfl, _, _, ⟨hlen, rfl⟩,
      intents, _, ⟨⟨rfl, hfits⟩, rfl⟩, rfl, rfl, rfl⟩
    exact ⟨⟨⟨hlen, hfits⟩, by simp [encodeBlock_eq, lenBytes_of_lt hlen]⟩, rfl⟩
  · rintro ⟨⟨⟨hlen, hfits⟩, rfl⟩, rfl⟩
    have henc : [BLOCK_ENCODING_VERSION] ++ (beBytes 8 b.height.val ++ (b.parent.val ++
        (b.stateRoot.val ++ (beBytes 4 b.intents.length ++
          (b.intents.flatMap encodeIntent ++ []))))) = encodeBlock b := by
      simp [encodeBlock_eq, lenBytes_of_lt hlen]
    exact ⟨_, _, henc, rfl, b.height, _, rfl, b.parent, _, rfl, b.stateRoot, _, rfl, _, _,
      ⟨hlen, rfl⟩, b.intents, _, ⟨⟨rfl, hfits⟩, rfl⟩, rfl, rfl, rfl⟩

/-- The decoder accepts the encodings of the blocks that fit, and nothing else. -/
theorem decodeBlock_eq_some {bytes : List Byte} {b : Block} :
    decodeBlock bytes = some b ↔ b.Fits ∧ encodeBlock b = bytes := by
  rw [decodeBlock, toOption_eq_some_iff, run'_eq_ok]
  simp only [run_readBlock, exists_eq_right]

theorem decodeBlock_encodeBlock {b : Block} (h : b.Fits) : decodeBlock (encodeBlock b) = some b :=
  decodeBlock_eq_some.2 ⟨h, rfl⟩

theorem injOn_encodeBlock : Set.InjOn encodeBlock {b | b.Fits} := by
  intro b hb b' hb' heq
  have hdecode := decodeBlock_encodeBlock hb
  rw [heq, decodeBlock_encodeBlock hb'] at hdecode
  exact (Option.some.inj hdecode).symm

/-- Encoding is a bijection from the blocks that fit to the bytes that decode. A block that fits is
read back, and bytes that are read as a block are its encoding. -/
theorem block_codec_bijOn :
    Set.BijOn encodeBlock {b | b.Fits} {bytes | (decodeBlock bytes).isSome} ∧
    (∀ b, b.Fits → decodeBlock (encodeBlock b) = some b) ∧
    ∀ bytes b, decodeBlock bytes = some b → encodeBlock b = bytes := by
  refine ⟨⟨?_, injOn_encodeBlock, ?_⟩, fun b => decodeBlock_encodeBlock, fun bytes b h =>
    (decodeBlock_eq_some.1 h).2⟩
  · intro b hb
    exact Option.isSome_iff_exists.2 ⟨b, decodeBlock_encodeBlock hb⟩
  · intro bytes hbytes
    obtain ⟨b, hb⟩ := Option.isSome_iff_exists.1 hbytes
    exact ⟨b, decodeBlock_eq_some.1 hb⟩

/-! ## What the hash commits to -/

/-- `Block::hash` feeds the hasher its tag and then the encoding of the block without the version
byte. -/
theorem Block.encoding_eq (b : Block) :
    b.encoding = ascii "SUWAPPUDB-BLOCK/HASH" ++ (encodeBlock b).tail := by
  rw [encodeBlock_eq, List.tail_cons, Block.encoding]

/-- The block hash is of the tag and of the encoding without the version byte, and blocks that fit
have the same preimage if and only if they are the same. -/
theorem block_hash_commits (blake3 : Blake3) (b b' : Block) (hb : b.Fits) (hb' : b'.Fits) :
    b.hash blake3 = blake3 b.encoding ∧
    encodeBlock b = BLOCK_ENCODING_VERSION :: (encodeBlock b).tail ∧
    b.encoding = ascii "SUWAPPUDB-BLOCK/HASH" ++ (encodeBlock b).tail ∧
    (b.encoding = b'.encoding ↔ b = b') := by
  have hversion : ∀ c : Block, encodeBlock c = BLOCK_ENCODING_VERSION :: (encodeBlock c).tail := by
    intro c
    rw [encodeBlock_eq, List.tail_cons]
  refine ⟨rfl, hversion b, b.encoding_eq, ?_, congrArg Block.encoding⟩
  intro heq
  rw [Block.encoding_eq, Block.encoding_eq] at heq
  have hbytes : encodeBlock b = encodeBlock b' := by
    rw [hversion b, hversion b', List.append_cancel_left heq]
  exact injOn_encodeBlock hb hb' hbytes

/-- A block with an intent of each kind. -/
def mixedBlock : Block where
  height := 1
  parent := GENESIS_PARENT
  stateRoot := constBytes 32 7
  intents := [
    .transfer (smallAddress 1) (smallAddress 2) 40,
    .call (smallAddress 1) (smallAddress 9) 5 [1, 2, 3],
    .deployModule (constBytes 32 0) ⟨ascii "vault", by decide⟩ [0, 1]]

/-- The block with a byte less of calldata, and one more in the module's name. -/
def shiftedBlock : Block where
  height := 1
  parent := GENESIS_PARENT
  stateRoot := constBytes 32 7
  intents := [
    .transfer (smallAddress 1) (smallAddress 2) 40,
    .call (smallAddress 1) (smallAddress 9) 5 [1, 2],
    .deployModule (constBytes 32 0) ⟨ascii "vaults", by decide⟩ [0, 1]]

theorem block_hash_commits_mixed :
    (mixedBlock.Fits ∧ shiftedBlock.Fits) ∧ mixedBlock.encoding ≠ shiftedBlock.encoding := by
  have hfits : mixedBlock.Fits ∧ shiftedBlock.Fits := by
    simp [mixedBlock, shiftedBlock, Block.Fits, Intent.Fits, ascii]
  refine ⟨hfits, fun heq => ?_⟩
  have hsame := (block_hash_commits (fun _ => constBytes 32 0) mixedBlock shiftedBlock hfits.1
    hfits.2).2.2.2.1 heq
  exact absurd hsame (by decide)

end SuwappuDb
