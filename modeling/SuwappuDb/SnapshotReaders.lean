import SuwappuDb.Snapshot

/-!
# What the readers of a snapshot accept

The readers of an `encoded_state` on arbitrary bytes: `restore_into_state`, which applies what it
reads, and `validate_encoding`, `entry_count` and `bytes_entry_count`, which only look. Each tells
the two versions of the format apart for itself.

`Encodes` says which bytes are a snapshot, and of what. The first version is balances of 36 bytes
each (`mapM_chunkBalance`); for the second the parser of `Snapshot` is exact, once it has the memory
that it reserves.

* `Affordable` — the allocator grants that memory. The counts that it is reserved for are any that
  the bytes claim, so twelve bytes can ask for 192 gigabytes (`restore_bomb`).
* `restore_exact_iff` — a restore applies all that is written, or fails and applies nothing, exactly
  if the bytes are affordable. Otherwise it does not return.
* `readers_agree_iff` — the other readers agree with it, but for `bytes_entry_count`, which does not
  look at the body of the first version.
-/

namespace SuwappuDb

/-! ## The other readers -/

/-- The derived debug text of a slice of bytes. -/
def debugBytes (bytes : List Byte) : String :=
  "[" ++ ", ".intercalate (bytes.map fun b => toString b.val) ++ "]"

namespace StateSnapshot

variable (snapshot : StateSnapshot) (alloc : Allocator)

def validateEncoding : Option (Except String Unit) :=
  let enc := snapshot.encodedState
  if enc.length < 8 then some (.error "snapshot too short for magic")
  else if enc.take 8 = SNAPSHOT_MAGIC_V1 then
    let bodyLen := enc.length - SNAPSHOT_MAGIC_V1.length
    if bodyLen % SNAPSHOT_ENTRY_BYTES ≠ 0 then
      some (.error ("snapshot v1 body length " ++ toString bodyLen ++ " not a multiple of " ++
        toString SNAPSHOT_ENTRY_BYTES))
    else some (.ok ())
  else if enc.take 8 = SNAPSHOT_MAGIC_V2 then
    (parseV2Body alloc enc).map fun parsed => parsed.map fun _ => ()
  else some (.error ("snapshot magic mismatch (got " ++ debugBytes (enc.take 8) ++ ")"))

def entryCount : Option (Option Nat) :=
  let enc := snapshot.encodedState
  if enc.length < 8 then some none
  else if enc.take 8 = SNAPSHOT_MAGIC_V1 then
    let bodyLen := enc.length - SNAPSHOT_MAGIC_V1.length
    if bodyLen % SNAPSHOT_ENTRY_BYTES ≠ 0 then some none
    else some (some (bodyLen / SNAPSHOT_ENTRY_BYTES))
  else if enc.take 8 = SNAPSHOT_MAGIC_V2 then
    (parseV2Body alloc enc).map fun parsed => parsed.toOption.map fun d => d.balances.length
  else some none

/-- The length of a body of the first version is not looked at. -/
def bytesEntryCount : Option (Option Nat) :=
  let enc := snapshot.encodedState
  if enc.length < 8 then some none
  else if enc.take 8 = SNAPSHOT_MAGIC_V1 then some (some 0)
  else if enc.take 8 = SNAPSHOT_MAGIC_V2 then
    (parseV2Body alloc enc).map fun parsed => parsed.toOption.map fun d => d.bytes.length
  else some none

end StateSnapshot

/-! ## The first version -/

section FirstVersion

/-- Every chunk is the encoding of a balance. -/
theorem exists_balanceBytes {chunk : List Byte} (h : chunk.length = SNAPSHOT_ENTRY_BYTES) :
    ∃ p, balanceBytes p = chunk := by
  have hlong : 0 + (20 + 16) ≤ chunk.length := h.ge
  obtain ⟨hlt, hbytes⟩ := take_addressNat chunk hlong
  have haddr : (chunk.take 20).length = 20 := List.length_take_of_le (by omega)
  refine ⟨(⟨chunk.take 20, haddr⟩, ⟨_, hlt⟩), hbytes.trans ?_⟩
  exact List.take_of_length_le h.le

/-- A chunk is read as the balance that it encodes. -/
theorem chunkBalance_balanceBytes (p : Address × U128) :
    chunkBalance (balanceBytes p) = some p := by
  have hlen : p.1.val.length = 20 := p.1.property
  have htake : (balanceBytes p).take 20 = p.1.val := List.take_left' hlen
  have hdrop : (balanceBytes p).drop 20 = leBytes 16 p.2.val := List.drop_left' hlen
  have hvalue : leValue (leBytes 16 p.2.val) = p.2.val := leValue_leBytes p.2.isLt
  rw [chunkBalance, htake, hdrop, copyToArr, dif_pos hlen, copyToArr, dif_pos (length_leBytes 16 _)]
  simp [hvalue]

theorem chunksExact_append {n : Nat} (hn : 0 < n) {chunk : List Byte} (h : chunk.length = n)
    (rest : List Byte) : chunksExact n (chunk ++ rest) = chunk :: chunksExact n rest := by
  have hcount : (chunk ++ rest).length / n = rest.length / n + 1 := by
    rw [List.length_append, h, Nat.add_div_left _ hn]
  rw [chunksExact, hcount, List.range_succ_eq_map, List.map_cons, List.map_map, chunksExact]
  refine congrArg₂ List.cons (List.take_left' h) (List.map_congr_left fun i _ => ?_)
  simp only [Function.comp_apply, Nat.mul_succ, Nat.add_comm (n * i)]
  rw [← List.drop_drop, List.drop_left' h]

/-- Balances of the first version are read back. -/
theorem mapM_chunkBalance (balances : List (Address × U128)) :
    (chunksExact SNAPSHOT_ENTRY_BYTES (balances.flatMap balanceBytes)).mapM chunkBalance =
      some balances := by
  induction balances with
  | nil => rfl
  | cons p rest ih =>
      rw [List.flatMap_cons, chunksExact_append (by decide) (length_balanceBytes p),
        List.mapM_cons, chunkBalance_balanceBytes, ih]
      rfl

/-- The bodies of the first version are those of a length that is a multiple of a balance's. -/
theorem exists_flatMap_balanceBytes {body : List Byte}
    (h : body.length % SNAPSHOT_ENTRY_BYTES = 0) :
    ∃ balances : List (Address × U128), balances.flatMap balanceBytes = body := by
  obtain ⟨k, hk⟩ := Nat.dvd_of_mod_eq_zero h
  clear h
  induction k generalizing body with
  | zero => exact ⟨[], (List.length_eq_zero_iff.1 hk).symm⟩
  | succ k ih =>
      rw [Nat.mul_succ] at hk
      have hchunk : (body.take SNAPSHOT_ENTRY_BYTES).length = SNAPSHOT_ENTRY_BYTES :=
        List.length_take_of_le (hk ▸ Nat.le_add_left _ _)
      have hrest : (body.drop SNAPSHOT_ENTRY_BYTES).length = SNAPSHOT_ENTRY_BYTES * k := by
        rw [List.length_drop, hk, Nat.add_sub_cancel]
      obtain ⟨p, hp⟩ := exists_balanceBytes hchunk
      obtain ⟨balances, hbalances⟩ := ih hrest
      refine ⟨p :: balances, ?_⟩
      rw [List.flatMap_cons, hp, hbalances, List.take_append_drop]

end FirstVersion

/-! ## Which bytes are a snapshot -/

/-- The bytes are the first or the second version of a snapshot, of this contents. -/
inductive Encodes (enc : List Byte) : DecodedBody → Prop
  | v1 (balances : List (Address × U128))
      (h : SNAPSHOT_MAGIC_V1 ++ balances.flatMap balanceBytes = enc) : Encodes enc ⟨balances, []⟩
  | v2 (d : DecodedBody) (hfits : d.Fits) (h : SNAPSHOT_MAGIC_V2 ++ d.encode = enc) : Encodes enc d

/-- The changes that a snapshot stands for, in the order they are applied. -/
def DecodedBody.changes (d : DecodedBody) : List StateChange :=
  d.balances.map (fun p => .setBalance p.1 p.2) ++ d.bytes.map fun p => .setBytes p.1 p.2

theorem foldl_changes (s : State) (d : DecodedBody) :
    d.changes.foldl State.apply s = (s.setBalances d.balances).setBlobs d.bytes := by
  rw [DecodedBody.changes, List.foldl_append, List.foldl_map, List.foldl_map]
  rfl

theorem length_changes (d : DecodedBody) :
    d.changes.length = d.balances.length + d.bytes.length := by
  simp [DecodedBody.changes]

theorem SNAPSHOT_MAGIC_V2_ne_V1 : SNAPSHOT_MAGIC_V2 ≠ SNAPSHOT_MAGIC_V1 := by decide

/-- The memory that a reader reserves is granted. Only the second version needs any. -/
def Affordable (alloc : Allocator) (enc : List Byte) : Prop :=
  enc.take 8 = SNAPSHOT_MAGIC_V2 → Reservable alloc (enc.drop 8)

section Cases

variable {alloc : Allocator} {enc : List Byte} {d : DecodedBody}

/-- The bytes of a snapshot, as a reader takes them apart. -/
theorem Encodes.cases (h : Encodes enc d) (hmemory : Affordable alloc enc) :
    ¬ enc.length < 8 ∧
    (enc.take 8 = SNAPSHOT_MAGIC_V1 ∧ enc.drop 8 = d.balances.flatMap balanceBytes ∧ d.bytes = [] ∨
      enc.take 8 ≠ SNAPSHOT_MAGIC_V1 ∧ enc.take 8 = SNAPSHOT_MAGIC_V2 ∧
        parseV2Body alloc enc = some (.ok d)) := by
  cases h with
  | v1 balances h =>
      subst h
      refine ⟨?_, Or.inl ⟨List.take_left' rfl, List.drop_left' rfl, rfl⟩⟩
      rw [List.length_append]
      exact not_lt.2 (Nat.le_add_right 8 _)
  | v2 _ hfits h =>
      subst h
      have htake : (SNAPSHOT_MAGIC_V2 ++ d.encode).take 8 = SNAPSHOT_MAGIC_V2 := List.take_left' rfl
      have hdrop : (SNAPSHOT_MAGIC_V2 ++ d.encode).drop 8 = d.encode := List.drop_left' rfl
      have hparse := (parseV2Body_eq_ok (hmemory htake)).2 ⟨hfits, hdrop.symm⟩
      refine ⟨?_, Or.inr ⟨?_, htake, hparse⟩⟩
      · rw [List.length_append]
        exact not_lt.2 (Nat.le_add_right 8 _)
      · rw [htake]
        exact SNAPSHOT_MAGIC_V2_ne_V1

/-- Version 1 has no other structure than its entries of 36 bytes. -/
theorem encodes_of_v1 (hv1 : enc.take 8 = SNAPSHOT_MAGIC_V1)
    (hmod : (enc.drop 8).length % SNAPSHOT_ENTRY_BYTES = 0) : ∃ d, Encodes enc d := by
  obtain ⟨balances, hbalances⟩ := exists_flatMap_balanceBytes hmod
  refine ⟨⟨balances, []⟩, .v1 balances ?_⟩
  rw [hbalances, ← hv1, List.take_append_drop]

/-- Where a reader finds that bytes are not a snapshot. -/
theorem not_encodes_cases (h : ¬ ∃ d, Encodes enc d) (hmemory : Affordable alloc enc) :
    enc.length < 8 ∨
    ¬ enc.length < 8 ∧
    (enc.take 8 = SNAPSHOT_MAGIC_V1 ∧ (enc.drop 8).length % SNAPSHOT_ENTRY_BYTES ≠ 0 ∨
      enc.take 8 ≠ SNAPSHOT_MAGIC_V1 ∧ enc.take 8 = SNAPSHOT_MAGIC_V2 ∧
        (∃ e, parseV2Body alloc enc = some (.error e)) ∨
      enc.take 8 ≠ SNAPSHOT_MAGIC_V1 ∧ enc.take 8 ≠ SNAPSHOT_MAGIC_V2) := by
  by_cases hlen : enc.length < 8
  · exact Or.inl hlen
  refine Or.inr ⟨hlen, ?_⟩
  by_cases hv1 : enc.take 8 = SNAPSHOT_MAGIC_V1
  · exact Or.inl ⟨hv1, fun hmod => h (encodes_of_v1 hv1 hmod)⟩
  · by_cases hv2 : enc.take 8 = SNAPSHOT_MAGIC_V2
    · refine Or.inr (Or.inl ⟨hv1, hv2, ?_⟩)
      have hparsed := parseV2Body_of_reservable (hmemory hv2)
      cases hresult : bodyDecoder.run' (enc.drop 8) with
      | error e => exact ⟨e, hparsed.trans (congrArg some hresult)⟩
      | ok d =>
          rw [hresult, parseV2Body_eq_ok (hmemory hv2)] at hparsed
          refine absurd ⟨d, .v2 d hparsed.1 ?_⟩ h
          rw [hparsed.2, ← hv2, List.take_append_drop]
    · exact Or.inr (Or.inr ⟨hv1, hv2⟩)

/-- Where a reader ends the process. -/
theorem not_affordable_cases (h : ¬ Affordable alloc enc) :
    ¬ enc.length < 8 ∧ enc.take 8 ≠ SNAPSHOT_MAGIC_V1 ∧ enc.take 8 = SNAPSHOT_MAGIC_V2 ∧
      parseV2Body alloc enc = none := by
  obtain ⟨hv2, hrefused⟩ := Classical.not_imp.1 h
  refine ⟨fun hlen => ?_, ?_, hv2, parseV2Body_eq_none.2 hrefused⟩
  · rw [List.take_of_length_le hlen.le] at hv2
    rw [hv2] at hlen
    exact absurd hlen (by decide)
  · rw [hv2]
    exact SNAPSHOT_MAGIC_V2_ne_V1

end Cases

/-! ## Restoring -/

namespace StateSnapshot

variable {snapshot : StateSnapshot} {alloc : Allocator} {d : DecodedBody}

theorem restore_of_encodes (h : Encodes snapshot.encodedState d)
    (hmemory : Affordable alloc snapshot.encodedState) (s : State) :
    snapshot.restoreIntoState alloc s =
      some (d.changes.foldl State.apply s, .ok d.changes.length) := by
  rw [foldl_changes, length_changes]
  obtain ⟨hlen, ⟨hv1, hbody, hbytes⟩ | ⟨hv1, hv2, hparse⟩⟩ := h.cases hmemory
  · have hmod : ¬ (d.balances.flatMap balanceBytes).length % SNAPSHOT_ENTRY_BYTES ≠ 0 := by
      rw [length_flatMap_balanceBytes, Nat.mul_mod_right]
      exact not_not.2 rfl
    have hdrop : snapshot.encodedState.drop SNAPSHOT_MAGIC_V1.length =
        d.balances.flatMap balanceBytes := hbody
    rw [restoreIntoState, if_neg hlen, if_pos hv1, hdrop, if_neg hmod, mapM_chunkBalance, hbytes]
    rfl
  · rw [restoreIntoState, if_neg hlen, if_neg hv1, if_pos hv2, hparse]
    rfl

theorem restore_of_not_encodes (h : ¬ ∃ d, Encodes snapshot.encodedState d)
    (hmemory : Affordable alloc snapshot.encodedState) (s : State) :
    ∃ e, snapshot.restoreIntoState alloc s = some (s, .error e) := by
  rcases not_encodes_cases h hmemory with
    hlen | ⟨hlen, ⟨hv1, hmod⟩ | ⟨hv1, hv2, e, hparse⟩ | ⟨hv1, hv2⟩⟩
  · exact ⟨_, if_pos hlen⟩
  · exact ⟨_, by rw [restoreIntoState, if_neg hlen, if_pos hv1]; exact if_pos hmod⟩
  · exact ⟨e, by rw [restoreIntoState, if_neg hlen, if_neg hv1, if_pos hv2, hparse]; rfl⟩
  · exact ⟨_, by rw [restoreIntoState, if_neg hlen, if_neg hv1, if_neg hv2]⟩

theorem restore_of_not_affordable (h : ¬ Affordable alloc snapshot.encodedState) (s : State) :
    snapshot.restoreIntoState alloc s = none := by
  obtain ⟨hlen, hv1, hv2, hparse⟩ := not_affordable_cases h
  rw [restoreIntoState, if_neg hlen, if_neg hv1, if_pos hv2, hparse]
  rfl

theorem restore_eq_ok {s t : State} {n : Nat}
    (h : snapshot.restoreIntoState alloc s = some (t, .ok n)) :
    Affordable alloc snapshot.encodedState ∧ ∃ d, Encodes snapshot.encodedState d ∧
      n = d.changes.length ∧ t = d.changes.foldl State.apply s := by
  have hmemory : Affordable alloc snapshot.encodedState := by
    by_contra hrefused
    cases (restore_of_not_affordable hrefused s).symm.trans h
  refine ⟨hmemory, ?_⟩
  by_cases hwf : ∃ d, Encodes snapshot.encodedState d
  · obtain ⟨d, hd⟩ := hwf
    rw [restore_of_encodes hd hmemory] at h
    cases h
    exact ⟨d, hd, rfl, rfl⟩
  · obtain ⟨e, he⟩ := restore_of_not_encodes hwf hmemory s
    cases he.symm.trans h

/-- A restore succeeds if and only if the bytes are a snapshot, and has then applied the changes
that the snapshot stands for, and counted them. Otherwise it returns an error and has applied
none. -/
structure RestoresExactly (snapshot : StateSnapshot) (alloc : Allocator) (s : State) : Prop where
  ok_iff : ∀ t n, snapshot.restoreIntoState alloc s = some (t, .ok n) ↔
    ∃ d, Encodes snapshot.encodedState d ∧ n = d.changes.length ∧
      t = d.changes.foldl State.apply s
  error : (¬ ∃ d, Encodes snapshot.encodedState d) →
    ∃ e, snapshot.restoreIntoState alloc s = some (s, .error e)
  returns : ∃ t verdict, snapshot.restoreIntoState alloc s = some (t, verdict)

theorem restoresExactly_of_affordable (hmemory : Affordable alloc snapshot.encodedState)
    (s : State) : snapshot.RestoresExactly alloc s := by
  refine ⟨fun t n => ⟨fun h => (restore_eq_ok h).2, ?_⟩, fun h =>
    restore_of_not_encodes h hmemory s, ?_⟩
  · rintro ⟨d, hd, rfl, rfl⟩
    exact restore_of_encodes hd hmemory s
  · by_cases hwf : ∃ d, Encodes snapshot.encodedState d
    · obtain ⟨d, hd⟩ := hwf
      exact ⟨_, _, restore_of_encodes hd hmemory s⟩
    · obtain ⟨e, he⟩ := restore_of_not_encodes hwf hmemory s
      exact ⟨_, _, he⟩

end StateSnapshot

/-- A restore on any bytes, into any state, with any allocator. It is exact, all or nothing, and
never reads out of bounds, if and only if the memory that is reserved for the counts in the bytes is
granted. -/
theorem restore_exact_iff (snapshot : StateSnapshot) (alloc : Allocator) (s : State) :
    snapshot.RestoresExactly alloc s ↔ Affordable alloc snapshot.encodedState := by
  constructor
  · intro hexact
    by_contra hrefused
    obtain ⟨t, verdict, hreturns⟩ := hexact.returns
    cases (StateSnapshot.restore_of_not_affordable hrefused s).symm.trans hreturns
  · intro hmemory
    exact StateSnapshot.restoresExactly_of_affordable hmemory s

/-- The magic of version 2, and a count of `2 ^ 32 - 1` balances. -/
def bombSnapshot : StateSnapshot where
  height := 0
  stateRoot := constBytes 32 0
  encodedState := SNAPSHOT_MAGIC_V2 ++ List.replicate 4 255
  timestamp := 0
  anchorHash := none

/-- A body has two counts of four bytes. -/
theorem not_encodes_bomb : ¬ ∃ d, Encodes bombSnapshot.encodedState d := by
  rintro ⟨d, hd⟩
  cases hd with
  | v1 balances h =>
      have hmagic : SNAPSHOT_MAGIC_V1 = SNAPSHOT_MAGIC_V2 :=
        List.append_inj_left h (by decide)
      exact SNAPSHOT_MAGIC_V2_ne_V1 hmagic.symm
  | v2 _ hfits h =>
      have hencode : d.encode = List.replicate 4 255 := List.append_cancel_left h
      have hlength := congrArg List.length hencode
      simp [DecodedBody.encode, length_leBytes] at hlength

/-- On a machine with 128 gigabytes the twelve bytes end the process, where an error is due. -/
theorem restore_bomb :
    bombSnapshot.restoreIntoState (.upTo (2 ^ 37)) {} = none ∧
    (¬ ∃ d, Encodes bombSnapshot.encodedState d) ∧
    ¬ bombSnapshot.RestoresExactly (.upTo (2 ^ 37)) {} := by
  have hnone : bombSnapshot.restoreIntoState (.upTo (2 ^ 37)) {} = none := by decide +kernel
  refine ⟨hnone, not_encodes_bomb, fun hexact => ?_⟩
  obtain ⟨e, he⟩ := hexact.error not_encodes_bomb
  cases hnone.symm.trans he

/-! ## The readers side by side -/

namespace StateSnapshot

variable {snapshot : StateSnapshot} {alloc : Allocator} {d : DecodedBody}

/-- The length of what follows the magic. -/
theorem length_sub_magic (enc : List Byte) :
    enc.length - SNAPSHOT_MAGIC_V1.length = (enc.drop 8).length :=
  List.length_drop.symm

theorem validate_of_encodes (h : Encodes snapshot.encodedState d)
    (hmemory : Affordable alloc snapshot.encodedState) :
    snapshot.validateEncoding alloc = some (.ok ()) := by
  obtain ⟨hlen, ⟨hv1, hbody, -⟩ | ⟨hv1, hv2, hparse⟩⟩ := h.cases hmemory
  · rw [validateEncoding, if_neg hlen, if_pos hv1, length_sub_magic, hbody,
      length_flatMap_balanceBytes]
    exact if_neg (not_not.2 (Nat.mul_mod_right _ _))
  · rw [validateEncoding, if_neg hlen, if_neg hv1, if_pos hv2, hparse]
    rfl

theorem validate_of_not_encodes (h : ¬ ∃ d, Encodes snapshot.encodedState d)
    (hmemory : Affordable alloc snapshot.encodedState) :
    ∃ e, snapshot.validateEncoding alloc = some (.error e) := by
  rcases not_encodes_cases h hmemory with
    hlen | ⟨hlen, ⟨hv1, hmod⟩ | ⟨hv1, hv2, e, hparse⟩ | ⟨hv1, hv2⟩⟩
  · exact ⟨_, if_pos hlen⟩
  · rw [validateEncoding, if_neg hlen, if_pos hv1, length_sub_magic]
    exact ⟨_, if_pos hmod⟩
  · exact ⟨e, by rw [validateEncoding, if_neg hlen, if_neg hv1, if_pos hv2, hparse]; rfl⟩
  · exact ⟨_, by rw [validateEncoding, if_neg hlen, if_neg hv1, if_neg hv2]⟩

theorem entryCount_of_encodes (h : Encodes snapshot.encodedState d)
    (hmemory : Affordable alloc snapshot.encodedState) :
    snapshot.entryCount alloc = some (some d.balances.length) := by
  obtain ⟨hlen, ⟨hv1, hbody, -⟩ | ⟨hv1, hv2, hparse⟩⟩ := h.cases hmemory
  · rw [entryCount, if_neg hlen, if_pos hv1, length_sub_magic, hbody, length_flatMap_balanceBytes]
    refine (if_neg (not_not.2 (Nat.mul_mod_right _ _))).trans ?_
    rw [Nat.mul_div_cancel_left _ (by decide)]
  · rw [entryCount, if_neg hlen, if_neg hv1, if_pos hv2, hparse]
    rfl

theorem entryCount_of_not_encodes (h : ¬ ∃ d, Encodes snapshot.encodedState d)
    (hmemory : Affordable alloc snapshot.encodedState) :
    snapshot.entryCount alloc = some none := by
  rcases not_encodes_cases h hmemory with
    hlen | ⟨hlen, ⟨hv1, hmod⟩ | ⟨hv1, hv2, e, hparse⟩ | ⟨hv1, hv2⟩⟩
  · exact if_pos hlen
  · rw [entryCount, if_neg hlen, if_pos hv1, length_sub_magic]
    exact if_pos hmod
  · rw [entryCount, if_neg hlen, if_neg hv1, if_pos hv2, hparse]
    rfl
  · rw [entryCount, if_neg hlen, if_neg hv1, if_neg hv2]

theorem bytesEntryCount_of_encodes (h : Encodes snapshot.encodedState d)
    (hmemory : Affordable alloc snapshot.encodedState) :
    snapshot.bytesEntryCount alloc = some (some d.bytes.length) := by
  obtain ⟨hlen, ⟨hv1, -, hbytes⟩ | ⟨hv1, hv2, hparse⟩⟩ := h.cases hmemory
  · rw [bytesEntryCount, if_neg hlen, if_pos hv1, hbytes]
    rfl
  · rw [bytesEntryCount, if_neg hlen, if_neg hv1, if_pos hv2, hparse]
    rfl

/-- The other reader that counts is told of a malformed body by the parser only. -/
theorem bytesEntryCount_of_not_encodes (h : ¬ ∃ d, Encodes snapshot.encodedState d)
    (hmemory : Affordable alloc snapshot.encodedState) :
    snapshot.bytesEntryCount alloc =
      some (if snapshot.encodedState.take 8 = SNAPSHOT_MAGIC_V1 then some 0 else none) := by
  rcases not_encodes_cases h hmemory with
    hlen | ⟨hlen, ⟨hv1, -⟩ | ⟨hv1, hv2, e, hparse⟩ | ⟨hv1, hv2⟩⟩
  · have hne : snapshot.encodedState.take 8 ≠ SNAPSHOT_MAGIC_V1 := by
      rw [List.take_of_length_le hlen.le]
      intro heq
      rw [heq] at hlen
      exact absurd hlen (by decide)
    rw [bytesEntryCount, if_pos hlen, if_neg hne]
  · rw [bytesEntryCount, if_neg hlen, if_pos hv1, if_pos hv1]
  · rw [bytesEntryCount, if_neg hlen, if_neg hv1, if_pos hv2, hparse, if_neg hv1]
    rfl
  · rw [bytesEntryCount, if_neg hlen, if_neg hv1, if_neg hv2, if_neg hv1]

/-- All that look at the body of the second version end the process with the parser. -/
theorem none_of_not_affordable (h : ¬ Affordable alloc snapshot.encodedState) :
    snapshot.validateEncoding alloc = none ∧ snapshot.entryCount alloc = none ∧
      snapshot.bytesEntryCount alloc = none := by
  obtain ⟨hlen, hv1, hv2, hparse⟩ := not_affordable_cases h
  refine ⟨?_, ?_, ?_⟩
  · rw [validateEncoding, if_neg hlen, if_neg hv1, if_pos hv2, hparse]
    rfl
  · rw [entryCount, if_neg hlen, if_neg hv1, if_pos hv2, hparse]
    rfl
  · rw [bytesEntryCount, if_neg hlen, if_neg hv1, if_pos hv2, hparse]
    rfl

/-- The four readers agree on whether the bytes are a snapshot, and on how many changes it is. -/
structure ReadersAgree (snapshot : StateSnapshot) (alloc : Allocator) (s : State) : Prop where
  validate : snapshot.validateEncoding alloc = some (.ok ()) ↔
    ∃ t n, snapshot.restoreIntoState alloc s = some (t, .ok n)
  entryCount : (∃ t n, snapshot.restoreIntoState alloc s = some (t, .ok n)) ↔
    ∃ n, snapshot.entryCount alloc = some (some n)
  bytesEntryCount : (∃ n, snapshot.entryCount alloc = some (some n)) ↔
    ∃ n, snapshot.bytesEntryCount alloc = some (some n)
  applied : ∀ t n, snapshot.restoreIntoState alloc s = some (t, .ok n) → ∃ balances bytes,
    snapshot.entryCount alloc = some (some balances) ∧
      snapshot.bytesEntryCount alloc = some (some bytes) ∧ n = balances + bytes

theorem readersAgree_of_encodes (h : Encodes snapshot.encodedState d)
    (hmemory : Affordable alloc snapshot.encodedState) (s : State) :
    snapshot.ReadersAgree alloc s := by
  have hrestore : ∃ t n, snapshot.restoreIntoState alloc s = some (t, .ok n) :=
    ⟨_, _, restore_of_encodes h hmemory s⟩
  have hcount : ∃ n, snapshot.entryCount alloc = some (some n) :=
    ⟨_, entryCount_of_encodes h hmemory⟩
  refine ⟨iff_of_true (validate_of_encodes h hmemory) hrestore, iff_of_true hrestore hcount,
    iff_of_true hcount ⟨_, bytesEntryCount_of_encodes h hmemory⟩, ?_⟩
  intro t n hok
  rw [restore_of_encodes h hmemory] at hok
  cases hok
  exact ⟨_, _, entryCount_of_encodes h hmemory, bytesEntryCount_of_encodes h hmemory,
    length_changes d⟩

/-- Three of the readers accept nothing that is not a snapshot. -/
theorem refused_of_not_encodes (h : ¬ ∃ d, Encodes snapshot.encodedState d) (alloc : Allocator)
    (s : State) :
    snapshot.validateEncoding alloc ≠ some (.ok ()) ∧
      (¬ ∃ t n, snapshot.restoreIntoState alloc s = some (t, .ok n)) ∧
      ¬ ∃ n, snapshot.entryCount alloc = some (some n) := by
  have hrestore : ¬ ∃ t n, snapshot.restoreIntoState alloc s = some (t, .ok n) := by
    rintro ⟨t, n, hok⟩
    obtain ⟨-, d, hd, -⟩ := restore_eq_ok hok
    exact h ⟨d, hd⟩
  by_cases hmemory : Affordable alloc snapshot.encodedState
  · obtain ⟨e, he⟩ := validate_of_not_encodes h hmemory
    exact ⟨by simp [he], hrestore, by simp [entryCount_of_not_encodes h hmemory]⟩
  · obtain ⟨hvalidate, hcount, -⟩ := none_of_not_affordable hmemory
    exact ⟨by simp [hvalidate], hrestore, by simp [hcount]⟩

/-- No reader accepts what there is no memory for, and so they agree. -/
theorem readersAgree_of_refused (hvalidate : snapshot.validateEncoding alloc ≠ some (.ok ()))
    {s : State} (hrestore : ¬ ∃ t n, snapshot.restoreIntoState alloc s = some (t, .ok n))
    (hcount : ¬ ∃ n, snapshot.entryCount alloc = some (some n))
    (hbytes : ¬ ∃ n, snapshot.bytesEntryCount alloc = some (some n)) :
    snapshot.ReadersAgree alloc s :=
  ⟨iff_of_false hvalidate hrestore, iff_of_false hrestore hcount, iff_of_false hcount hbytes,
    fun t n hok => absurd ⟨t, n, hok⟩ hrestore⟩

end StateSnapshot

/-- What the readers have in common, on any bytes and with any allocator: validation, restore and
the count of the balances accept the same ones. The count of the byte entries joins them unless the
bytes are the magic of version 1 and a body that is not made of whole entries: for version 1 it says
`Some(0)` of every body, although it is to be `None` when the body is malformed. -/
theorem readers_agree_iff (snapshot : StateSnapshot) (alloc : Allocator) (s : State) :
    (snapshot.validateEncoding alloc = some (.ok ()) ↔
      ∃ t n, snapshot.restoreIntoState alloc s = some (t, .ok n)) ∧
    ((∃ t n, snapshot.restoreIntoState alloc s = some (t, .ok n)) ↔
      ∃ n, snapshot.entryCount alloc = some (some n)) ∧
    (snapshot.ReadersAgree alloc s ↔
      ¬ (snapshot.encodedState.take 8 = SNAPSHOT_MAGIC_V1 ∧
        (snapshot.encodedState.drop 8).length % SNAPSHOT_ENTRY_BYTES ≠ 0)) := by
  by_cases hmemory : Affordable alloc snapshot.encodedState
  · by_cases hwf : ∃ d, Encodes snapshot.encodedState d
    · obtain ⟨d, hd⟩ := hwf
      have hagree := StateSnapshot.readersAgree_of_encodes hd hmemory s
      refine ⟨hagree.validate, hagree.entryCount, iff_of_true hagree ?_⟩
      rintro ⟨hv1, hmod⟩
      obtain ⟨-, ⟨-, hbody, -⟩ | ⟨hne, -⟩⟩ := hd.cases hmemory
      · rw [hbody, length_flatMap_balanceBytes, Nat.mul_mod_right] at hmod
        exact hmod rfl
      · exact hne hv1
    · obtain ⟨hvalidate, hrestore, hcount⟩ := StateSnapshot.refused_of_not_encodes hwf alloc s
      have hbytes := StateSnapshot.bytesEntryCount_of_not_encodes hwf hmemory
      refine ⟨iff_of_false hvalidate hrestore, iff_of_false hrestore hcount, ?_, ?_⟩
      · rintro hagree ⟨hv1, -⟩
        rw [if_pos hv1] at hbytes
        exact hcount (hagree.bytesEntryCount.2 ⟨0, hbytes⟩)
      · intro hcond
        have hv1 : snapshot.encodedState.take 8 ≠ SNAPSHOT_MAGIC_V1 := by
          intro hv1
          exact hwf (encodes_of_v1 hv1 (not_not.1 fun hmod => hcond ⟨hv1, hmod⟩))
        rw [if_neg hv1] at hbytes
        exact StateSnapshot.readersAgree_of_refused hvalidate hrestore hcount (by simp [hbytes])
  · obtain ⟨hvalidate, hcount, hbytes⟩ := StateSnapshot.none_of_not_affordable hmemory
    have hagree : snapshot.ReadersAgree alloc s := StateSnapshot.readersAgree_of_refused
      (by simp [hvalidate]) (by simp [StateSnapshot.restore_of_not_affordable hmemory s])
      (by simp [hcount]) (by simp [hbytes])
    refine ⟨hagree.validate, hagree.entryCount, iff_of_true hagree ?_⟩
    rintro ⟨hv1, -⟩
    exact (not_affordable_cases hmemory).2.1 hv1

/-- A snapshot of version 1 that is cut off inside its first entry. -/
def truncatedSnapshot : StateSnapshot where
  height := 0
  stateRoot := constBytes 32 0
  encodedState := SNAPSHOT_MAGIC_V1 ++ [0]
  timestamp := 0
  anchorHash := none

/-- The one byte after the magic is refused by three readers and not by the fourth. -/
theorem truncated_v1_counted :
    (∃ e, truncatedSnapshot.validateEncoding unlimited = some (.error e)) ∧
      (∃ e, truncatedSnapshot.restoreIntoState unlimited {} = some ({}, .error e)) ∧
      truncatedSnapshot.entryCount unlimited = some none ∧
      truncatedSnapshot.bytesEntryCount unlimited = some (some 0) ∧
      ¬ truncatedSnapshot.ReadersAgree unlimited {} := by
  refine ⟨⟨_, rfl⟩, ⟨_, rfl⟩, rfl, rfl, fun hagree => ?_⟩
  obtain ⟨n, hn⟩ := hagree.bytesEntryCount.2 ⟨0, rfl⟩
  cases hn

end SuwappuDb
