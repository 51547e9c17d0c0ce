import SuwappuDb.Lib.BufReader
import SuwappuDb.StateTreeProof

/-!
# Snapshots

`crates/suwappudb-state/src/snapshot.rs`: a state written as bytes, and read back. `from_state`
writes the second version of the format: a magic, then the balances and the bytes column, each
counted and sorted by address. `restore_into_state` reads both versions.

The parser moves an index over the body. Before it reads the entries of a column it reserves memory
for as many as the body says there are, and a reservation that the allocator refuses ends the
process. So the allocator is a parameter, and what the parser does is said in two steps:

* `Reservable` — the reservations are granted. Which ones there are can be read off the body: for
  the count at its start, and for the count behind as many balances. Without them the parser does
  not return (`parseV2Body_eq_none`).
* With them it implements a decoder (`implements_readBody`), which is exact (`run_bodyDecoder`), so
  it reads back what was written and no other bytes (`parseV2Body_eq_ok`).

Other allocations (the copies of the blobs, the tables of the state) are as large as what is already
there, and are not modelled. A state that was reached by `State::apply` has no nonces, which a
snapshot would lose, and is restored as it was (`restore_encodeState`).
-/

namespace SuwappuDb

open Decoder BufReader

/-! ## Taking a snapshot -/

def SNAPSHOT_ENTRY_BYTES : Nat := 36

def SNAPSHOT_MAGIC_V1 : List Byte := ascii "SUWAPPU\x01"

def SNAPSHOT_MAGIC_V2 : List Byte := ascii "SUWAPPU\x02"

structure StateSnapshot where
  height : U64
  stateRoot : Commitment
  encodedState : List Byte
  timestamp : U64
  anchorHash : Option (ByteArr 32)

/-- `sort_by_key` on the address. -/
def sortByAddress {ν : Type} (l : List (Address × ν)) : List (Address × ν) :=
  l.mergeSort fun p q => p.1 ≤ q.1

/-- A length in four bytes. One that does not fit is a panic. -/
def u32LeBytes (n : Nat) : Option (List Byte) := if n < 2 ^ 32 then some (leBytes 4 n) else none

/-- What is written for a balance. -/
def balanceBytes (p : Address × U128) : List Byte := p.1.val ++ leBytes 16 p.2.val

/-- What is written for an entry of the bytes column. -/
def blobBytes (p : Address × List Byte) : Option (List Byte) := do
  let len ← u32LeBytes p.2.length
  return p.1.val ++ len ++ p.2

/-- The `encoded_state` of a state. -/
def encodeState (order : IterOrder) (s : State) : Option (List Byte) := do
  let balances := sortByAddress (s.entries order)
  let bytes := sortByAddress s.bytesEntries
  let balCount ← u32LeBytes balances.length
  let bytCount ← u32LeBytes bytes.length
  let blobs ← bytes.mapM blobBytes
  return SNAPSHOT_MAGIC_V2 ++ balCount ++
    balances.flatMap (fun p => balanceBytes (p.1, p.2.canonical)) ++ bytCount ++ blobs.flatten

/-- `StateSnapshot::from_state`, at the time `now`. -/
def StateSnapshot.fromState (order : IterOrder) (now : U64) (s : State) (height : U64)
    (anchorHash : Option (ByteArr 32)) : Option StateSnapshot := do
  let encodedState ← encodeState order s
  return ⟨height, constBytes 32 0, encodedState, now, anchorHash⟩

/-! ## Parsing -/

structure DecodedBody where
  balances : List (Address × U128)
  bytes : List (Address × List Byte)

/-- What the allocator grants: a request of so many bytes, when the parser holds so many. -/
def Allocator := (held request : Nat) → Bool

/-- The size of an entry in memory, `(Address, u128)` or `(Address, Vec<u8>)`, on 64 bits. -/
def DECODED_ENTRY_BYTES : Nat := 48

/-- `Vec::with_capacity`, for `n` entries. No memory is needed for none. -/
def Allocator.withCapacity (alloc : Allocator) (held n : Nat) : Bool :=
  n == 0 || alloc held (DECODED_ENTRY_BYTES * n)

section Parser

variable (alloc : Allocator) (body : List Byte)

def takeU32 : BufReader String Nat := do
  let cur ← index
  require (cur + 4 ≤ body.length) "snapshot v2: truncated length prefix"
  let bytes ← slice body cur (cur + 4)
  seek (cur + 4)
  return leValue bytes

def takeBalance : BufReader String (Address × U128) := do
  let cur ← index
  require (cur + SNAPSHOT_ENTRY_BYTES ≤ body.length) "snapshot v2: truncated balance entry"
  let addr ← toArr 20 (← slice body cur (cur + 20))
  let bal ← toArr 16 (← slice body (cur + 20) (cur + 20 + 16))
  seek (cur + SNAPSHOT_ENTRY_BYTES)
  return (addr, Fin.ofNat (2 ^ 128) (leValue bal.val))

def takeHeader : BufReader String (Address × Nat) := do
  let cur ← index
  require (cur + 24 ≤ body.length) "snapshot v2: truncated bytes header"
  let addr ← toArr 20 (← slice body cur (cur + 20))
  let len ← slice body (cur + 20) (cur + 20 + 4)
  seek (cur + 24)
  return (addr, leValue len)

def takePayload (len : Nat) : BufReader String (List Byte) := do
  let cur ← index
  require (cur + len ≤ body.length) "snapshot v2: truncated bytes payload"
  let bytes ← slice body cur (cur + len)
  seek (cur + len)
  return bytes

def takeBlob : BufReader String (Address × List Byte) := do
  let header ← takeHeader body
  let bytes ← takePayload body header.2
  return (header.1, bytes)

def trailingBytes (left : Nat) : String :=
  "snapshot v2: " ++ toString left ++ " trailing bytes after parse"

def readBody : BufReader String DecodedBody := do
  let balCount ← takeU32 body
  reserve (alloc.withCapacity 0 balCount)
  let balances ← readMany (takeBalance body) balCount
  let bytCount ← takeU32 body
  reserve (alloc.withCapacity (DECODED_ENTRY_BYTES * balCount) bytCount)
  let bytes ← readMany (takeBlob body) bytCount
  finish body trailingBytes
  return ⟨balances, bytes⟩

end Parser

/-- `parse_v2_body`, of an `encoded_state`. `none` is an access out of bounds, or a reservation that
is refused. -/
def parseV2Body (alloc : Allocator) (enc : List Byte) : Option (Except String DecodedBody) :=
  (readBody alloc (enc.drop SNAPSHOT_MAGIC_V2.length)).parse

/-! ## Restoring -/

/-- `chunks_exact`. -/
def chunksExact (n : Nat) (l : List Byte) : List (List Byte) :=
  (List.range (l.length / n)).map fun i => (l.drop (n * i)).take n

/-- `copy_from_slice` into an array of `n` bytes. -/
def copyToArr (n : Nat) (bytes : List Byte) : Option (ByteArr n) :=
  if h : bytes.length = n then some ⟨bytes, h⟩ else none

/-- The balance in a chunk of the first version. -/
def chunkBalance (chunk : List Byte) : Option (Address × U128) := do
  let addr ← copyToArr 20 (chunk.take 20)
  let bal ← copyToArr 16 (chunk.drop 20)
  return (addr, Fin.ofNat (2 ^ 128) (leValue bal.val))

/-- Set blobs, one after another. -/
def State.setBlobs (s : State) (bytes : List (Address × List Byte)) : State :=
  bytes.foldl (fun s p => s.apply (.setBytes p.1 p.2)) s

/-- `StateSnapshot::restore_into_state`: the state it leaves, and the number of changes or the
error. -/
def StateSnapshot.restoreIntoState (snapshot : StateSnapshot) (alloc : Allocator) (s : State) :
    Option (State × Except String Nat) :=
  let enc := snapshot.encodedState
  if enc.length < 8 then some (s, .error "snapshot too short for magic")
  else if enc.take 8 = SNAPSHOT_MAGIC_V1 then
    let body := enc.drop SNAPSHOT_MAGIC_V1.length
    if body.length % SNAPSHOT_ENTRY_BYTES ≠ 0 then
      some (s, .error ("snapshot v1 body length " ++ toString body.length ++
        " not a multiple of " ++ toString SNAPSHOT_ENTRY_BYTES))
    else do
      let balances ← (chunksExact SNAPSHOT_ENTRY_BYTES body).mapM chunkBalance
      some (s.setBalances balances, .ok balances.length)
  else if enc.take 8 = SNAPSHOT_MAGIC_V2 then do
    match ← parseV2Body alloc enc with
    | .error e => some (s, .error e)
    | .ok decoded =>
        some ((s.setBalances decoded.balances).setBlobs decoded.bytes,
          .ok (decoded.balances.length + decoded.bytes.length))
  else some (s, .error "snapshot magic mismatch")

/-! ## The parser is exact -/

/-- An address and a number of `w` bytes. -/
def addressNat (e : String) (w : Nat) : Decoder String (Address × Nat) := do
  let addr ← arr e 20
  let n ← leNat e w
  return (addr, n)

theorem exact_addressNat (e : String) (w : Nat) :
    Exact (addressNat e w) (fun p => p.2 < 256 ^ w) fun p => p.1.val ++ leBytes w p.2 := by
  intro input p rest
  simp only [addressNat, (exact_arr e 20).run_bind, (exact_leNat e w).run_bind, run_pure, true_and]
  constructor
  · rintro ⟨addr, _, rfl, n, _, ⟨hn, rfl⟩, rfl, rfl⟩
    exact ⟨hn, List.append_assoc _ _ _⟩
  · rintro ⟨hn, rfl⟩
    exact ⟨p.1, _, (List.append_assoc _ _ _).symm, p.2, _, ⟨hn, rfl⟩, rfl, rfl⟩

theorem failsWith_addressNat (e : String) (w : Nat) : FailsWith e (addressNat e w) :=
  (failsWith_arr e 20).bind fun addr => ((failsWith_bytes e w).map leValue).bind fun n =>
    failsWith_pure e (addr, n)

def u32Decoder : Decoder String Nat := leNat "snapshot v2: truncated length prefix" 4

def balanceDecoder : Decoder String (Address × U128) :=
  (fun p => (p.1, Fin.ofNat (2 ^ 128) p.2)) <$>
    addressNat "snapshot v2: truncated balance entry" 16

def blobDecoder : Decoder String (Address × List Byte) := do
  let header ← addressNat "snapshot v2: truncated bytes header" 4
  let bytes ← Decoder.bytes "snapshot v2: truncated bytes payload" header.2
  return (header.1, bytes)

def bodyDecoder : Decoder String DecodedBody := do
  let balCount ← u32Decoder
  let balances ← readMany balanceDecoder balCount
  let bytCount ← u32Decoder
  let bytes ← readMany blobDecoder bytCount
  eof trailingBytes
  return ⟨balances, bytes⟩

theorem length_balanceBytes (p : Address × U128) :
    (balanceBytes p).length = SNAPSHOT_ENTRY_BYTES := by
  rw [balanceBytes, List.length_append, p.1.property, length_leBytes]
  rfl

theorem length_flatMap_balanceBytes (balances : List (Address × U128)) :
    (balances.flatMap balanceBytes).length = SNAPSHOT_ENTRY_BYTES * balances.length := by
  simp [List.length_flatMap, length_balanceBytes, Nat.mul_comm]

theorem exact_u32Decoder : Exact u32Decoder (fun n => n < 2 ^ 32) (leBytes 4) := exact_leNat _ 4

theorem exact_balanceDecoder : Exact balanceDecoder (fun _ => True) balanceBytes := by
  refine @Exact.map _ _ _ _ _ _ (exact_addressNat _ 16) _
    (fun p : Address × U128 => (p.1, p.2.val)) _ ?_ ?_
  · intro p hp
    exact ⟨trivial, Prod.ext rfl (Nat.mod_eq_of_lt hp)⟩
  · intro p _
    exact ⟨p.2.isLt, Prod.ext rfl (Fin.ext (Nat.mod_eq_of_lt p.2.isLt))⟩

/-- What is written for an entry of the bytes column, if its length fits. -/
def blobRecord (p : Address × List Byte) : List Byte := p.1.val ++ leBytes 4 p.2.length ++ p.2

theorem exact_blobDecoder : Exact blobDecoder (fun p => p.2.length < 2 ^ 32) blobRecord := by
  intro input p rest
  simp only [blobDecoder, (exact_addressNat _ 4).run_bind, (Decoder.exact_bytes _ _).run_bind,
    run_pure]
  constructor
  · rintro ⟨⟨addr, _⟩, _, ⟨hlen, rfl⟩, bytes, _, ⟨rfl, rfl⟩, rfl, rfl⟩
    exact ⟨hlen, List.append_assoc _ _ _⟩
  · rintro ⟨hlen, rfl⟩
    exact ⟨(p.1, p.2.length), _, ⟨hlen, (List.append_assoc _ _ _).symm⟩, p.2, _, ⟨rfl, rfl⟩, rfl,
      rfl⟩

namespace DecodedBody

/-- The counts and the lengths are below `2 ^ 32`. -/
structure Fits (d : DecodedBody) : Prop where
  balances : d.balances.length < 2 ^ 32
  bytes : d.bytes.length < 2 ^ 32
  blobs : ∀ p ∈ d.bytes, p.2.length < 2 ^ 32

/-- What is written behind the magic. -/
def encode (d : DecodedBody) : List Byte :=
  leBytes 4 d.balances.length ++ d.balances.flatMap balanceBytes ++ leBytes 4 d.bytes.length ++
    d.bytes.flatMap blobRecord

end DecodedBody

theorem run_bodyDecoder {input rest : List Byte} {d : DecodedBody} :
    bodyDecoder.run input = .ok (d, rest) ↔ (d.Fits ∧ d.encode = input) ∧ rest = [] := by
  simp only [bodyDecoder, exact_u32Decoder.run_bind, (exact_balanceDecoder.readMany _).run_bind,
    (exact_blobDecoder.readMany _).run_bind, run_bind_eof, run_pure, implies_true, and_true]
  constructor
  · rintro ⟨_, _, ⟨hbal, rfl⟩, balances, _, ⟨rfl, rfl⟩, _, _, ⟨hbyt, rfl⟩, bytes, _,
      ⟨⟨rfl, hblobs⟩, rfl⟩, rfl, rfl, rfl⟩
    exact ⟨⟨⟨hbal, hbyt, hblobs⟩, by simp [DecodedBody.encode]⟩, rfl⟩
  · rintro ⟨⟨⟨hbal, hbyt, hblobs⟩, rfl⟩, rfl⟩
    have henc : leBytes 4 d.balances.length ++ (d.balances.flatMap balanceBytes ++
        (leBytes 4 d.bytes.length ++ (d.bytes.flatMap blobRecord ++ []))) = d.encode := by
      simp [DecodedBody.encode]
    exact ⟨_, _, ⟨hbal, henc⟩, d.balances, _, ⟨rfl, rfl⟩, _, _, ⟨hbyt, rfl⟩, d.bytes, _,
      ⟨⟨rfl, hblobs⟩, rfl⟩, rfl, rfl, rfl⟩

section Implementation

variable (body : List Byte)

/-- The count at an index, if it is there. -/
def countAt (cur : Nat) : Option Nat :=
  if cur + 4 ≤ body.length then some (leValue ((body.drop cur).take 4)) else none

theorem takeU32_of_countAt {cur n : Nat} (h : countAt body cur = some n) :
    takeU32 body cur = some (.ok (n, cur + 4)) := by
  unfold countAt at h
  split_ifs at h with hlong
  obtain rfl := Option.some.inj h
  rw [takeU32, bind_index, bind_require_pos hlong, bind_slice hlong]
  rfl

theorem takeU32_of_countAt_none {cur : Nat} (h : countAt body cur = none) :
    takeU32 body cur = some (.error "snapshot v2: truncated length prefix") := by
  unfold countAt at h
  split_ifs at h with hlong
  rw [takeU32, bind_index, bind_require_neg hlong]

theorem implements_takeU32 : Implements body (takeU32 body) u32Decoder := by
  refine implements_record 4 (exact_leNat _ 4) (fun n _ => length_leBytes 4 n)
    ((failsWith_bytes _ 4).map leValue) (fun cur hshort => ?_) fun cur hlong => ?_
  · exact takeU32_of_countAt_none body (if_neg (not_le.2 hshort))
  · have hlen := length_slice hlong
    have hlt := leValue_lt ((body.drop cur).take 4)
    have hbytes := leBytes_leValue ((body.drop cur).take 4)
    rw [hlen] at hlt hbytes
    exact ⟨_, hlt, hbytes, takeU32_of_countAt body (if_pos hlong)⟩

/-- A record with an address in front. -/
theorem take_addressNat {cur w : Nat} (h : cur + (20 + w) ≤ body.length) :
    leValue ((body.drop (cur + 20)).take w) < 256 ^ w ∧
    (body.drop cur).take 20 ++ leBytes w (leValue ((body.drop (cur + 20)).take w)) =
      (body.drop cur).take (20 + w) := by
  have hlen : ((body.drop (cur + 20)).take w).length = w := length_slice (by omega)
  have hlt := leValue_lt ((body.drop (cur + 20)).take w)
  have hbytes := leBytes_leValue ((body.drop (cur + 20)).take w)
  rw [hlen] at hlt hbytes
  exact ⟨hlt, by rw [hbytes, ← List.drop_drop, List.take_add]⟩

theorem takeBalance_short {cur : Nat} (h : body.length < cur + SNAPSHOT_ENTRY_BYTES) :
    takeBalance body cur = some (.error "snapshot v2: truncated balance entry") := by
  rw [takeBalance, bind_index, bind_require_neg (not_le.2 h)]

theorem takeBalance_long {cur : Nat} (h : cur + SNAPSHOT_ENTRY_BYTES ≤ body.length) :
    ∃ p, balanceBytes p = (body.drop cur).take SNAPSHOT_ENTRY_BYTES ∧
      takeBalance body cur = some (.ok (p, cur + SNAPSHOT_ENTRY_BYTES)) := by
  have h36 : cur + (20 + 16) ≤ body.length := h
  have h20 : cur + 20 ≤ body.length := by omega
  have h16 : cur + 20 + 16 ≤ body.length := by omega
  obtain ⟨hlt, hbytes⟩ := take_addressNat body h36
  refine ⟨(⟨_, length_slice h20⟩, Fin.ofNat (2 ^ 128) (leValue ((body.drop (cur + 20)).take 16))),
    ?_, ?_⟩
  · rw [balanceBytes]
    refine Eq.trans ?_ hbytes
    rw [Fin.val_ofNat, Nat.mod_eq_of_lt (show _ < 2 ^ 128 from hlt)]
  · rw [takeBalance, bind_index, bind_require_pos h, bind_slice h20,
      bind_toArr (length_slice h20), bind_slice h16, bind_toArr (length_slice h16), bind_seek]
    rfl

theorem implements_takeBalance : Implements body (takeBalance body) balanceDecoder := by
  refine implements_record SNAPSHOT_ENTRY_BYTES exact_balanceDecoder
    (fun p _ => length_balanceBytes p) ((failsWith_addressNat _ 16).map _)
    (fun cur hshort => takeBalance_short body hshort) fun cur hlong => ?_
  obtain ⟨p, hbytes, hp⟩ := takeBalance_long body hlong
  exact ⟨p, trivial, hbytes, hp⟩

theorem implements_takeHeader : Implements body (takeHeader body)
    (addressNat "snapshot v2: truncated bytes header" 4) := by
  refine implements_record 24 (exact_addressNat _ 4) (fun p _ => ?_) (failsWith_addressNat _ 4)
    (fun cur hshort => ?_) fun cur hlong => ?_
  · rw [List.length_append, p.1.property, length_leBytes]
  · rw [takeHeader, bind_index, bind_require_neg (not_le.2 hshort)]
  · have h20 : cur + 20 ≤ body.length := by omega
    have h4 : cur + 20 + 4 ≤ body.length := by omega
    have h24 : cur + (20 + 4) ≤ body.length := hlong
    obtain ⟨hlt, hbytes⟩ := take_addressNat body h24
    refine ⟨(⟨_, length_slice h20⟩, leValue ((body.drop (cur + 20)).take 4)), hlt, hbytes, ?_⟩
    rw [takeHeader, bind_index, bind_require_pos hlong, bind_slice h20,
      bind_toArr (length_slice h20), bind_slice h4, bind_seek]
    rfl

theorem implements_takePayload (len : Nat) : Implements body (takePayload body len)
    (Decoder.bytes "snapshot v2: truncated bytes payload" len) := by
  refine implements_record len (Decoder.exact_bytes _ len) (fun _ hlen => hlen)
    (failsWith_bytes _ len) (fun cur hshort => ?_) fun cur hlong => ?_
  · rw [takePayload, bind_index, bind_require_neg (not_le.2 hshort)]
  · refine ⟨_, length_slice hlong, rfl, ?_⟩
    rw [takePayload, bind_index, bind_require_pos hlong, bind_slice hlong, bind_seek]
    rfl

theorem implements_takeBlob : Implements body (takeBlob body) blobDecoder :=
  (implements_takeHeader body).bind fun header => (implements_takePayload body header.2).bind
    fun bytes => implements_pure body (header.1, bytes)

/-- An allocator that grants everything. -/
def unlimited : Allocator := fun _ _ => true

theorem implements_reserve {granted : Bool} (h : granted = true) :
    Implements body (reserve granted : BufReader String Unit) (pure ()) :=
  fun cur hcur => Or.inr ⟨(), cur, if_pos h, hcur, rfl⟩

theorem withCapacity_unlimited (held n : Nat) : unlimited.withCapacity held n = true :=
  Bool.or_true _

theorem implements_readBody : Implements body (readBody unlimited body) bodyDecoder :=
  (implements_takeU32 body).bind fun balCount =>
    (implements_reserve body (withCapacity_unlimited 0 balCount)).bind fun _ =>
      ((implements_takeBalance body).readMany balCount).bind fun balances =>
        (implements_takeU32 body).bind fun bytCount =>
          (implements_reserve body (withCapacity_unlimited _ bytCount)).bind fun _ =>
            ((implements_takeBlob body).readMany bytCount).bind fun bytes =>
              (implements_finish body trailingBytes).bind fun _ =>
                implements_pure body (DecodedBody.mk balances bytes)

end Implementation

/-! ## Reservations -/

/-- The reservations for a body are granted: for the count at its start, and for the count behind as
many balances, if the body goes that far. -/
def Reservable (alloc : Allocator) (body : List Byte) : Prop :=
  ∀ balCount, countAt body 0 = some balCount → alloc.withCapacity 0 balCount = true ∧
    ∀ bytCount, countAt body (4 + SNAPSHOT_ENTRY_BYTES * balCount) = some bytCount →
      alloc.withCapacity (DECODED_ENTRY_BYTES * balCount) bytCount = true

section Reservations

variable {alloc : Allocator} {body : List Byte}

/-- The balances behind a count are read until the body is too short for one more. -/
theorem readMany_takeBalance {balCount : Nat} (h : countAt body 0 = some balCount) :
    (∃ balances, readMany (takeBalance body) balCount 4 =
        some (.ok (balances, 4 + SNAPSHOT_ENTRY_BYTES * balCount))) ∨
      body.length < 4 + SNAPSHOT_ENTRY_BYTES * balCount ∧
        ∃ e, readMany (takeBalance body) balCount 4 = some (.error e) := by
  have hcur : 4 ≤ body.length := by
    unfold countAt at h
    split_ifs at h with hlong
    exact hlong
  have hread := readMany_record
    (fun cur hlong => (takeBalance_long body hlong).imp fun _ hp => hp.2)
    (fun cur hshort => ⟨_, takeBalance_short body hshort⟩) balCount hcur
  exact hread.imp_left And.right

/-- With the reservations granted, memory plays no part. -/
theorem readBody_of_reservable (h : Reservable alloc body) :
    readBody alloc body 0 = readBody unlimited body 0 := by
  unfold readBody
  cases hbal : countAt body 0 with
  | none =>
      have herror := takeU32_of_countAt_none body hbal
      rw [bind_of_error herror, bind_of_error herror]
  | some balCount =>
      obtain ⟨hfirst, hsecond⟩ := h balCount hbal
      have hcount := takeU32_of_countAt body hbal
      rw [bind_of_ok hcount, bind_of_ok hcount, bind_reserve_true hfirst,
        bind_reserve_true (withCapacity_unlimited _ _)]
      rcases readMany_takeBalance hbal with ⟨balances, hread⟩ | ⟨-, e, hread⟩
      · rw [bind_of_ok hread, bind_of_ok hread]
        cases hbyt : countAt body (4 + SNAPSHOT_ENTRY_BYTES * balCount) with
        | none =>
            have herror := takeU32_of_countAt_none body hbyt
            rw [bind_of_error herror, bind_of_error herror]
        | some bytCount =>
            have hcount := takeU32_of_countAt body hbyt
            rw [bind_of_ok hcount, bind_of_ok hcount, bind_reserve_true (hsecond _ hbyt),
              bind_reserve_true (withCapacity_unlimited _ _)]
      · rw [bind_of_error hread, bind_of_error hread]

theorem readBody_of_not_reservable (h : ¬ Reservable alloc body) :
    readBody alloc body 0 = none := by
  obtain ⟨balCount, hrefused⟩ := not_forall.1 h
  obtain ⟨hbal, hrefused⟩ := Classical.not_imp.1 hrefused
  rw [readBody, bind_of_ok (takeU32_of_countAt body hbal)]
  by_cases hfirst : alloc.withCapacity 0 balCount = true
  · obtain ⟨bytCount, hsecond⟩ := not_forall.1 fun hall => hrefused ⟨hfirst, hall⟩
    obtain ⟨hbyt, hsecond⟩ := Classical.not_imp.1 hsecond
    rw [bind_reserve_true hfirst]
    rcases readMany_takeBalance hbal with ⟨balances, hread⟩ | ⟨hend, -⟩
    · rw [bind_of_ok hread, bind_of_ok (takeU32_of_countAt body hbyt), bind_reserve_false hsecond]
    · unfold countAt at hbyt
      split_ifs at hbyt with hlong
      omega
  · exact bind_reserve_false hfirst

end Reservations

theorem parseV2Body_of_reservable {alloc : Allocator} {enc : List Byte}
    (h : Reservable alloc (enc.drop 8)) :
    parseV2Body alloc enc = some (bodyDecoder.run' (enc.drop 8)) := by
  rw [← (implements_readBody _).parse_eq]
  exact congrArg (Option.map _) (readBody_of_reservable h)

/-- The parser returns, with a body or an error, exactly if the reservations are granted. -/
theorem parseV2Body_eq_none {alloc : Allocator} {enc : List Byte} :
    parseV2Body alloc enc = none ↔ ¬ Reservable alloc (enc.drop 8) := by
  constructor
  · intro hnone hreservable
    cases (parseV2Body_of_reservable hreservable).symm.trans hnone
  · intro hrefused
    exact congrArg (Option.map _) (readBody_of_not_reservable hrefused)

/-- The parser accepts the encodings of the bodies that fit, and no other bytes. -/
theorem parseV2Body_eq_ok {alloc : Allocator} {enc : List Byte} {d : DecodedBody}
    (h : Reservable alloc (enc.drop 8)) :
    parseV2Body alloc enc = some (.ok d) ↔ d.Fits ∧ d.encode = enc.drop 8 := by
  rw [parseV2Body_of_reservable h, Option.some.injEq, run'_eq_ok]
  simp only [run_bodyDecoder, exists_eq_right]

namespace DecodedBody

variable {d : DecodedBody}

/-- There is memory for the entries of a body. -/
def HasRoom (d : DecodedBody) (alloc : Allocator) : Prop :=
  alloc.withCapacity 0 d.balances.length = true ∧
    alloc.withCapacity (DECODED_ENTRY_BYTES * d.balances.length) d.bytes.length = true

theorem countAt_append (before rest : List Byte) {n : Nat} (hn : n < 2 ^ 32) :
    countAt (before ++ leBytes 4 n ++ rest) before.length = some n := by
  have hlen : before.length + 4 ≤ (before ++ leBytes 4 n ++ rest).length := by
    rw [List.length_append, List.length_append, length_leBytes]
    exact Nat.le_add_right _ _
  have hcount : ((before ++ leBytes 4 n ++ rest).drop before.length).take 4 = leBytes 4 n := by
    rw [List.append_assoc, List.drop_left]
    exact List.take_left' (length_leBytes 4 n)
  rw [countAt, if_pos hlen, hcount]
  exact congrArg some (leValue_leBytes hn)

/-- What is reserved for the encoding of a body is for its own entries. -/
theorem reservable_encode {alloc : Allocator} (hfits : d.Fits) (hroom : d.HasRoom alloc) :
    Reservable alloc d.encode := by
  have hbal : countAt d.encode 0 = some d.balances.length := by
    rw [encode, List.append_assoc, List.append_assoc]
    exact countAt_append [] _ hfits.balances
  have hlen : (leBytes 4 d.balances.length ++ d.balances.flatMap balanceBytes).length =
      4 + SNAPSHOT_ENTRY_BYTES * d.balances.length := by
    rw [List.length_append, length_leBytes, length_flatMap_balanceBytes]
  have hbyt : countAt d.encode (4 + SNAPSHOT_ENTRY_BYTES * d.balances.length) =
      some d.bytes.length := by
    rw [← hlen]
    exact countAt_append _ _ hfits.bytes
  intro balCount hcount
  obtain rfl := Option.some.inj (hbal.symm.trans hcount)
  refine ⟨hroom.1, fun bytCount hcount => ?_⟩
  obtain rfl := Option.some.inj (hbyt.symm.trans hcount)
  exact hroom.2

end DecodedBody

/-! ## Round trip -/

/-- What a snapshot of a state holds. -/
def State.body (s : State) : DecodedBody where
  balances := s.store.slots.entries.map fun p => (p.1, p.2.canonical)
  bytes := s.bytesEntries

theorem encodeState_eq {s : State} (hfits : s.body.Fits) (order : IterOrder) :
    encodeState order s = some (SNAPSHOT_MAGIC_V2 ++ s.body.encode) := by
  have hbalances : sortByAddress (s.entries order) = s.store.slots.entries :=
    OrdMap.mergeSort_arranged (order.perm _)
  have hbytes : sortByAddress s.bytesEntries = s.bytesEntries :=
    OrdMap.mergeSort_arranged (List.Perm.refl _)
  have hblobs : s.bytesEntries.mapM blobBytes = some (s.bytesEntries.map blobRecord) := by
    refine mapM_eq_some_map fun p hp => ?_
    rw [blobBytes, u32LeBytes, if_pos (hfits.blobs p hp)]
    rfl
  have hcount : s.store.slots.entries.length < 2 ^ 32 := by
    simpa [State.body] using hfits.balances
  have hcount' : s.bytesEntries.length < 2 ^ 32 := hfits.bytes
  rw [encodeState, hbalances, hbytes, u32LeBytes, if_pos hcount, u32LeBytes, if_pos hcount', hblobs]
  simp [DecodedBody.encode, State.body, List.flatMap_def, Function.comp_def]

namespace State

variable {s : State}

theorem slots_setBytes (s : State) (a : Address) (blob : List Byte) :
    (s.apply (.setBytes a blob)).store.slots = s.store.slots := by
  change (s.store.setBytes a blob).slots = _
  unfold InMemoryBalanceStore.setBytes
  split_ifs <;> rfl

/-- No slot has a nonce. -/
def NonceFree (s : State) : Prop := ∀ a slot, s.store.slots.get? a = some slot → slot.nonce = {}

theorem nonceFree_default : ({} : State).NonceFree := by
  intro a slot hslot
  cases (OrdMap.get?_empty a).symm.trans hslot

theorem NonceFree.apply (h : s.NonceFree) (change : StateChange) : (s.apply change).NonceFree := by
  intro a slot hslot
  cases change with
  | setBalance addr bal =>
      rw [get?_slots_setBalance] at hslot
      split_ifs at hslot
      · cases hslot
        rfl
      · exact h a slot hslot
  | setBytes addr blob =>
      rw [slots_setBytes] at hslot
      exact h a slot hslot

theorem NonceFree.foldl_apply (h : s.NonceFree) (changes : List StateChange) :
    (changes.foldl State.apply s).NonceFree := by
  apply List.foldlRecOn (motive := NonceFree) changes _ h
  intro t ht change _
  exact ht.apply change

theorem slots_setBalances (s : State) (l : List (Address × Balance)) :
    (s.setBalances l).store.slots =
      s.store.slots.insertAll (l.map fun p => (p.1, BalanceSlot.new p.2)) := by
  induction l generalizing s with
  | nil => rfl
  | cons p l ih => exact ih (s.apply (.setBalance p.1 p.2))

theorem bytes_setBalances (s : State) (l : List (Address × Balance)) :
    (s.setBalances l).store.bytes = s.store.bytes := by
  induction l generalizing s with
  | nil => rfl
  | cons p l ih => exact ih (s.apply (.setBalance p.1 p.2))

theorem slots_setBlobs (s : State) (l : List (Address × List Byte)) :
    (s.setBlobs l).store.slots = s.store.slots := by
  induction l generalizing s with
  | nil => rfl
  | cons p l ih => exact (ih _).trans (slots_setBytes s p.1 p.2)

theorem bytes_setBlobs (s : State) {l : List (Address × List Byte)} (h : ∀ p ∈ l, p.2 ≠ []) :
    (s.setBlobs l).store.bytes = s.store.bytes.insertAll l := by
  induction l generalizing s with
  | nil => rfl
  | cons p l ih =>
      obtain ⟨hp, hl⟩ := List.forall_mem_cons.1 h
      have hset : (s.apply (.setBytes p.1 p.2)).store.bytes = s.store.bytes.insert p.1 p.2 := by
        change (s.store.setBytes p.1 p.2).bytes = _
        rw [InMemoryBalanceStore.setBytes, dif_neg hp]
      exact (ih _ hl).trans (by rw [hset]; rfl)

/-- Writing all that a state holds into a fresh state makes the state again. -/
theorem restore_body (h : s.NonceFree) :
    ((({} : State).setBalances s.body.balances).setBlobs s.body.bytes) = s := by
  have hslots : ((({} : State).setBalances s.body.balances).setBlobs s.body.bytes).store.slots =
      s.store.slots := by
    rw [slots_setBlobs, slots_setBalances, body, List.map_map]
    exact (congrArg _ (map_new_canonical h)).trans (OrdMap.insertAll_entries _)
  have hfilled : ∀ p ∈ s.body.bytes, p.2 ≠ [] := by
    intro p hp hnil
    have hget := OrdMap.mem_entries.1 hp
    rw [hnil] at hget
    exact s.store.filled p.1 hget
  have hbytes : ((({} : State).setBalances s.body.balances).setBlobs s.body.bytes).store.bytes =
      s.store.bytes := by
    rw [bytes_setBlobs _ hfilled, bytes_setBalances]
    exact OrdMap.insertAll_entries _
  refine ext_columns (fun a => by rw [hslots]) fun a => ?_
  exact congrArg (fun m => OrdMap.get? m a) hbytes

end State

theorem restore_encodeState {alloc : Allocator} {s : State} (hfree : s.NonceFree)
    (hfits : s.body.Fits) (hroom : s.body.HasRoom alloc) {order : IterOrder}
    {snapshot : StateSnapshot} (henc : encodeState order s = some snapshot.encodedState) :
    snapshot.restoreIntoState alloc {} =
      some (s, .ok (s.body.balances.length + s.body.bytes.length)) := by
  rw [encodeState_eq hfits, Option.some.injEq] at henc
  have hlen : ¬ snapshot.encodedState.length < 8 := by
    rw [← henc, List.length_append]
    exact not_lt.2 (Nat.le_add_right 8 _)
  have htake : snapshot.encodedState.take 8 = SNAPSHOT_MAGIC_V2 := by
    rw [← henc]
    exact List.take_left' rfl
  have hdrop : s.body.encode = snapshot.encodedState.drop 8 := by
    have hleft : (SNAPSHOT_MAGIC_V2 ++ s.body.encode).drop SNAPSHOT_MAGIC_V2.length =
        s.body.encode := List.drop_left
    rw [← henc]
    exact hleft.symm
  have hmagic : ¬ SNAPSHOT_MAGIC_V2 = SNAPSHOT_MAGIC_V1 := by decide
  have hreservable : Reservable alloc (snapshot.encodedState.drop 8) :=
    hdrop ▸ DecodedBody.reservable_encode hfits hroom
  have hparse := (parseV2Body_eq_ok hreservable).2 ⟨hfits, hdrop⟩
  rw [StateSnapshot.restoreIntoState, if_neg hlen, htake, if_neg hmagic, if_pos rfl, hparse]
  exact congrArg (fun t => some (t, _)) (State.restore_body hfree)

/-- States that hold the same: balances, bytes and root. -/
structure SameContents (blake3 : Blake3) (t s : State) : Prop where
  entries : ∀ order order', (t.entries order).Perm (s.entries order')
  bytesEntries : t.bytesEntries = s.bytesEntries
  root : ∀ order order', (StateTree.fromState order t).root blake3 =
    (StateTree.fromState order' s).root blake3

theorem SameContents.refl (blake3 : Blake3) (s : State) : SameContents blake3 s s where
  entries order order' := (order.perm _).trans (order'.perm _).symm
  bytesEntries := rfl
  root order order' := StateTree.root_fromState blake3 order order' s

/-- A state is reached from the default state by changes, and is within the limits of the format.
Its snapshot is restored into a fresh state with the same contents; a snapshot of that has the same
bytes; and all further changes keep the contents the same. The allocator is any that has room for
the entries of the state itself. -/
theorem snapshot_roundtrip (blake3 : Blake3) (alloc : Allocator) (changes : List StateChange)
    (s : State) (hs : changes.foldl State.apply {} = s)
    (hbalances : (s.entries default).length < 2 ^ 32) (hbytes : s.bytesEntries.length < 2 ^ 32)
    (hblobs : ∀ p ∈ s.bytesEntries, p.2.length < 2 ^ 32) (hroom : s.body.HasRoom alloc)
    (order : IterOrder) (now height : U64) (anchorHash : Option (ByteArr 32)) :
    ∃ snapshot, StateSnapshot.fromState order now s height anchorHash = some snapshot ∧
    ∃ t n, snapshot.restoreIntoState alloc {} = some (t, .ok n) ∧ SameContents blake3 t s ∧
      (∀ order' now' height' anchorHash', ∃ snapshot',
        StateSnapshot.fromState order' now' t height' anchorHash' = some snapshot' ∧
        snapshot'.encodedState = snapshot.encodedState) ∧
      ∀ later : List StateChange,
        SameContents blake3 (later.foldl State.apply t) (later.foldl State.apply s) := by
  have hfree : s.NonceFree := by
    rw [← hs]
    exact State.nonceFree_default.foldl_apply changes
  have hfits : s.body.Fits := ⟨by rw [State.body, List.length_map]; exact hbalances, hbytes, hblobs⟩
  have hfrom : ∀ order now height anchorHash,
      StateSnapshot.fromState order now s height anchorHash =
        some ⟨height, constBytes 32 0, SNAPSHOT_MAGIC_V2 ++ s.body.encode, now, anchorHash⟩ := by
    intro order now height anchorHash
    rw [StateSnapshot.fromState, encodeState_eq hfits]
    rfl
  refine ⟨_, hfrom order now height anchorHash, s, _,
    restore_encodeState hfree hfits hroom (encodeState_eq hfits order),
    SameContents.refl blake3 s, ?_, fun later => SameContents.refl blake3 _⟩
  intro order' now' height' anchorHash'
  exact ⟨_, hfrom order' now' height' anchorHash', rfl⟩

/-- A balance, an explicit zero, and a blob behind one that is cleared. -/
def snapshotChanges : List StateChange := [
  .setBalance (smallAddress 1) 100, .setBalance (smallAddress 2) 0, .setBytes (smallAddress 3) [7],
  .setBytes (smallAddress 3) [], .setBytes (smallAddress 4) [1, 2, 3]]

def snapshotState : State := snapshotChanges.foldl State.apply {}

/-- An allocator with so many bytes. -/
def Allocator.upTo (limit : Nat) : Allocator := fun held request => held + request ≤ limit

theorem snapshot_roundtrip_small :
    ((snapshotState.entries default).length < 2 ^ 32 ∧ snapshotState.bytesEntries.length < 2 ^ 32 ∧
      (∀ p ∈ snapshotState.bytesEntries, p.2.length < 2 ^ 32) ∧
      snapshotState.body.HasRoom (.upTo 4096)) ∧
    ∃ snapshot, StateSnapshot.fromState default 0 snapshotState 1 none = some snapshot ∧
      ∃ t n, snapshot.restoreIntoState (.upTo 4096) {} = some (t, .ok n) ∧
        SameContents (tableHash []) t snapshotState := by
  have hbalances : (snapshotState.entries default).length < 2 ^ 32 := by decide +kernel
  have hbytes : snapshotState.bytesEntries.length < 2 ^ 32 := by decide +kernel
  have hblobs : ∀ p ∈ snapshotState.bytesEntries, p.2.length < 2 ^ 32 := by decide +kernel
  have hroom : snapshotState.body.HasRoom (.upTo 4096) := ⟨by decide +kernel, by decide +kernel⟩
  obtain ⟨snapshot, hfrom, t, n, hrestore, hsame, -⟩ := snapshot_roundtrip (tableHash [])
    (.upTo 4096) snapshotChanges snapshotState rfl hbalances hbytes hblobs hroom default 0 1 none
  exact ⟨⟨hbalances, hbytes, hblobs, hroom⟩, snapshot, hfrom, t, n, hrestore, hsame⟩

end SuwappuDb
