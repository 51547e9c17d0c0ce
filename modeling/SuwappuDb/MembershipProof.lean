import SuwappuDb.StateTreeProof

/-!
# What a verified proof says

`StateTree::verify` against the lookups of the tree behind the root.

* `verify_proof` — the honest proof verifies, for a stored address or not.
* `inclusion_sound` — a verified slot is stored, whatever the proof object.
* `absence_iff` — what a verified absence means. The verifier never asks that the deepest
  step's siblings leave out the step's own byte, so the children of a node on the way to a
  stored address, all of them, pass as a proof of its absence (`Leaks`). That is the only way.

All three walk down the trie with the proof's steps. At a node, the child commitments that the
verifier hashes are the node's own (`children_eq`), so its commitment from the level below is that
of the child under the step's byte.
-/

namespace SuwappuDb

section Hash

variable {blake3 : Blake3}

/-! ## The verifier -/

/-- Everything hashed on the way from `bottom` to the root. -/
def pathInputs (blake3 : Blake3) (bottom : Option Commitment) : List ProofStep → List (List Byte)
  | [] => []
  | step :: rest =>
      internalInput (combined step (reconstruct blake3 rest bottom)).entries ::
        pathInputs blake3 bottom rest

/-- The commitment of the slot a proof carries. -/
def slotCommitment (blake3 : Blake3) (slot : Option BalanceSlot) : Option Commitment :=
  slot.map fun slot => commitNode blake3 (.leaf slot)

/-- Everything `verify` may hash. -/
def verifyInputs (blake3 : Blake3) (proof : Proof) : List (List Byte) :=
  TAG_EMPTY :: (proof.slot.toList.map leafInput ++
    pathInputs blake3 (slotCommitment blake3 proof.slot) proof.path)

theorem pathInputs_subset (proof : Proof) :
    pathInputs blake3 (slotCommitment blake3 proof.slot) proof.path ⊆ verifyInputs blake3 proof :=
  fun _ hx => List.mem_cons_of_mem _ (List.mem_append_right _ hx)

/-- The steps' bytes start the address. -/
theorem all_zip_iff (path : List ProofStep) (bs : List Byte) :
    path.length ≤ bs.length ∧ ((path.zip bs).all fun p => p.1.byte == p.2) = true ↔
      path.map ProofStep.byte <+: bs := by
  induction path generalizing bs with
  | nil => simp
  | cons step path ih =>
      cases bs with
      | nil => simp
      | cons b bs =>
          rw [List.map_cons, List.cons_prefix_cons, ← ih]
          simp only [List.length_cons, List.zip_cons_cons, List.all_cons, Bool.and_eq_true,
            beq_iff_eq, Nat.add_le_add_iff_right]
          tauto

/-- Everything `verify` checks. -/
theorem verify_eq_true_iff (root : Commitment) (addr : Address) (slotOpt : Option BalanceSlot)
    (proof : Proof) :
    verify blake3 root addr slotOpt proof = true ↔
      proof.slot = slotOpt ∧ proof.path.map ProofStep.byte <+: addr.val ∧
      (proof.slot.isSome → proof.path.length = addr.val.length) ∧
      if proof.path = [] then proof.slot = none ∧ root = emptyCommitment blake3
      else reconstruct blake3 proof.path (slotCommitment blake3 proof.slot) = some root := by
  obtain ⟨path, slot⟩ := proof
  rw [← all_zip_iff, verify]
  by_cases hslot : slot = slotOpt
  swap
  · simp [hslot]
  subst hslot
  by_cases hlen : path.length ≤ addr.val.length
  swap
  · simp [hlen]
  by_cases hbytes : ((path.zip addr.val).all fun p => p.1.byte == p.2) = true
  swap
  · simp [hbytes]
  rw [if_neg (not_not.2 rfl), if_neg (not_lt.2 hlen), hbytes]
  cases path with
  | nil =>
      have hlen' : 0 ≠ addr.val.length := by
        rw [addr.property]
        decide
      cases slot <;> simp [hlen', Subtype.ext_iff]
  | cons step path =>
      rw [List.length_cons] at hlen
      cases slot <;> simp [hlen, slotCommitment]

/-! ## One level -/

/-- A map that the verifier hashes is the children of a node exactly when it looks up alike. -/
theorem entries_eq_commitChildren {ch : List (Byte × Node)} (hsorted : SortedKeys ch)
    (m : OrdMap Byte Commitment) :
    m.entries = commitChildren blake3 ch ↔
      ∀ b, m.get? b = (ch.lookup b).map (commitNode blake3) := by
  constructor
  · intro h b
    rw [OrdMap.get?, h, lookup_commitChildren]
  · intro h
    refine m.sorted.ext (sortedKeys_commitChildren hsorted) fun b => ?_
    rw [lookup_commitChildren]
    exact h b

/-- The children the verifier hashed to a node's commitment are the node's own. -/
theorem children_eq {inputs : List (List Byte)} (hcf : CollisionFree blake3 inputs) {h : Nat}
    {n : Node} (hn : Shaped (h + 1) n) (hin : nodeInputs blake3 n ⊆ inputs)
    {m : OrdMap Byte Commitment} (hm : internalInput m.entries ∈ inputs)
    (heq : blake3 (internalInput m.entries) = commitNode blake3 n) :
    ∃ ch, n = .internal ch ∧ SortedKeys ch ∧ (∀ p ∈ ch, Shaped h p.2) ∧
      m.entries = commitChildren blake3 ch := by
  obtain ⟨ch, rfl, -, hsorted, hall⟩ := hn
  rw [commitNode] at heq
  exact ⟨ch, rfl, hsorted, hall,
    internalInput_inj (hcf _ hm _ (hin (nodeInput_mem blake3 _)) heq)⟩

/-- A root that the verifier reached by hashing children is not that of the empty tree. -/
theorem shaped_of_reconstruct {inputs : List (List Byte)} (hcf : CollisionFree blake3 inputs)
    {t : StateTree} (hin : nodeInputs blake3 t.node ⊆ inputs) {path : List ProofStep}
    {bottom : Option Commitment} (hpath : pathInputs blake3 bottom path ⊆ inputs) (hne : path ≠ [])
    (hrec : reconstruct blake3 path bottom = some (t.root blake3)) : Shaped 20 t.node := by
  rcases t.cases_shape with ⟨hempty, -⟩ | hshaped
  · obtain ⟨step, rest, rfl⟩ := List.exists_cons_of_ne_nil hne
    rw [StateTree.root, commitNode_eq] at hrec
    have hinput := hcf _ (hpath List.mem_cons_self) _ (hin (nodeInput_mem blake3 t.node))
      (Option.some.inj hrec)
    rw [hempty] at hinput
    exact absurd hinput (internalInput_ne_empty _)
  · exact hshaped

/-- With a commitment put in under the step's byte, that is the commitment of the child there. -/
theorem lookup_of_combined_some {ch : List (Byte × Node)} (hsorted : SortedKeys ch)
    {step : ProofStep} {c : Commitment}
    (heq : (combined step (some c)).entries = commitChildren blake3 ch) :
    ∃ child, ch.lookup step.byte = some child ∧ commitNode blake3 child = c := by
  have hget := (entries_eq_commitChildren hsorted _).1 heq step.byte
  rw [combined, OrdMap.get?_insert_self] at hget
  exact Option.map_eq_some_iff.1 hget.symm

theorem get?_siblingsOf {ch : List (Byte × Node)} (hsorted : SortedKeys ch) (b b' : Byte) :
    (siblingsOf blake3 b ch).get? b' =
      if b' = b then none else (ch.lookup b').map (commitNode blake3) := by
  have hnodup : (((ch.filter fun p => p.1 ≠ b).map
      fun p => (p.1, commitNode blake3 p.2)).map Prod.fst).Nodup :=
    (SortedKeys.map_snd (hsorted.filter _) _).nodup_keys
  have herase := OrdMap.get?_erase ⟨ch, hsorted⟩ b b'
  rw [siblingsOf, OrdMap.get?_insertAll hnodup, lookup_map_snd]
  change (Option.map _ (OrdMap.get? (OrdMap.erase ⟨ch, hsorted⟩ b) b')).or none = _
  rw [herase, Option.or_none]
  split_ifs <;> rfl

/-! ## Honest proofs -/

/-- What the honest prover collects. -/
theorem collectProof_spec {h : Nat} {n : Node} (hn : Shaped h n) (bs : List Byte)
    (hbs : bs.length = h) :
    (collectProof blake3 bs n).2 = getPath bs n ∧
    (collectProof blake3 bs n).1.map ProofStep.byte <+: bs ∧
    ((getPath bs n).isSome → (collectProof blake3 bs n).1.length = bs.length) ∧
    reconstruct blake3 (collectProof blake3 bs n).1 (slotCommitment blake3 (getPath bs n)) =
      some (commitNode blake3 n) := by
  induction h generalizing n bs with
  | zero =>
      obtain ⟨slot, rfl⟩ := hn
      obtain rfl := List.eq_nil_of_length_eq_zero hbs
      exact ⟨rfl, List.nil_prefix, fun _ => rfl, rfl⟩
  | succ h ih =>
      obtain ⟨ch, rfl, -, hsorted, hall⟩ := hn
      obtain ⟨b, bs, rfl⟩ := List.exists_cons_of_length_eq_add_one hbs
      rw [getPath_internal, collectProof]
      cases hlook : ch.lookup b with
      | none =>
          have hchildren : (siblingsOf blake3 b ch).entries = commitChildren blake3 ch := by
            refine (entries_eq_commitChildren hsorted _).2 fun b' => ?_
            rw [get?_siblingsOf hsorted]
            split_ifs with hb
            · rw [hb, hlook]
              rfl
            · rfl
          refine ⟨rfl, by simp, by simp, ?_⟩
          rw [commitNode, ← hchildren]
          rfl
      | some child =>
          obtain ⟨hslot, hbytes, hlen, hrec⟩ :=
            ih (Shaped.of_lookup hsorted hall hlook) bs (by simpa using hbs)
          have hchildren : ((siblingsOf blake3 b ch).insert b (commitNode blake3 child)).entries =
              commitChildren blake3 ch := by
            refine (entries_eq_commitChildren hsorted _).2 fun b' => ?_
            rw [OrdMap.get?_insert, get?_siblingsOf hsorted]
            split_ifs with hb
            · rw [hb, hlook]
              rfl
            · rfl
          refine ⟨hslot, ?_, fun hsome => ?_, ?_⟩
          · exact List.cons_prefix_cons.2 ⟨rfl, hbytes⟩
          · rw [List.length_cons, List.length_cons, hlen hsome]
          · change some (blake3 (internalInput (combined _ (reconstruct blake3 _ _)).entries)) = _
            rw [Option.bind_some, hrec, commitNode, ← hchildren]
            rfl

theorem collectProof_ne_nil (blake3 : Blake3) {h : Nat} {n : Node} (hn : Shaped (h + 1) n)
    (b : Byte) (bs : List Byte) : (collectProof blake3 (b :: bs) n).1 ≠ [] := by
  obtain ⟨ch, rfl, -⟩ := hn
  rw [collectProof]
  cases ch.lookup b <;> simp

theorem StateTree.proof_of_empty {t : StateTree} (h : t.node = .empty) (addr : Address) :
    t.proof blake3 addr = ⟨[], none⟩ := by
  obtain ⟨b, bs, hbs⟩ := List.exists_cons_of_length_eq_add_one addr.property
  rw [StateTree.proof, h, hbs]
  rfl

/-- The honest proof carries the slot and goes towards the address. -/
theorem StateTree.proof_spec (blake3 : Blake3) (t : StateTree) (addr : Address) :
    (t.proof blake3 addr).slot = t.get addr ∧
      (t.proof blake3 addr).path.map ProofStep.byte <+: addr.val := by
  rcases t.cases_shape with ⟨hempty, hnone⟩ | hshaped
  · rw [StateTree.proof_of_empty hempty, hnone]
    exact ⟨rfl, List.nil_prefix⟩
  · obtain ⟨hslot, hbytes, -⟩ := collectProof_spec hshaped addr.val addr.property
    exact ⟨hslot, hbytes⟩

/-- The honest path verifies with any slot that commits like the stored one. -/
theorem StateTree.verify_path (blake3 : Blake3) (t : StateTree) (addr : Address)
    {slot : Option BalanceSlot}
    (hslot : slotCommitment blake3 slot = slotCommitment blake3 (t.get addr)) :
    verify blake3 (t.root blake3) addr slot ⟨(t.proof blake3 addr).path, slot⟩ = true := by
  have hsome : slot.isSome = (t.get addr).isSome := by
    simpa [slotCommitment] using congrArg Option.isSome hslot
  obtain ⟨b, bs, hbs⟩ := List.exists_cons_of_length_eq_add_one addr.property
  rw [verify_eq_true_iff]
  rcases t.cases_shape with ⟨hempty, hnone⟩ | hshaped
  · rw [hnone, Option.isSome_none, Option.isSome_eq_false_iff, Option.isNone_iff_eq_none] at hsome
    rw [StateTree.proof_of_empty hempty, hsome, StateTree.root, hempty, commitNode]
    exact ⟨rfl, List.nil_prefix, by simp, by simp⟩
  · obtain ⟨-, hbytes, hlen, hrec⟩ := collectProof_spec hshaped addr.val addr.property
    have hne : (t.proof blake3 addr).path ≠ [] := by
      rw [StateTree.proof, hbs]
      exact collectProof_ne_nil blake3 hshaped b bs
    refine ⟨rfl, hbytes, fun h => hlen (hsome ▸ h), ?_⟩
    rw [if_neg hne, hslot]
    exact hrec

end Hash

/-- The honest proof verifies, whether the address is stored or not. -/
theorem verify_proof (blake3 : Blake3) (entries : List (Address × BalanceSlot)) (addr : Address) :
    verify blake3 ((StateTree.fromEntries entries).root blake3) addr
      ((StateTree.fromEntries entries).get addr)
      ((StateTree.fromEntries entries).proof blake3 addr) = true := by
  generalize StateTree.fromEntries entries = t
  have hverify := t.verify_path blake3 addr rfl
  rwa [← (t.proof_spec blake3 addr).1] at hverify ⊢

/-! ## Inclusion -/

section Hash

variable {blake3 : Blake3}

theorem reconstruct_some (blake3 : Blake3) (path : List ProofStep) (c : Commitment) :
    ∃ c', reconstruct blake3 path (some c) = some c' := by
  cases path with
  | nil => exact ⟨c, rfl⟩
  | cons step path => exact ⟨_, rfl⟩

/-- Down a trie with a full-length path from a leaf: the leaf is the trie's. -/
theorem getPath_of_reconstruct {inputs : List (List Byte)} (hcf : CollisionFree blake3 inputs)
    {slot : BalanceSlot} (hleaf : leafInput slot ∈ inputs) {h : Nat} {n : Node} (hn : Shaped h n)
    (hin : nodeInputs blake3 n ⊆ inputs) (path : List ProofStep) (hlen : path.length = h)
    (hpath : pathInputs blake3 (some (commitNode blake3 (.leaf slot))) path ⊆ inputs)
    (hrec : reconstruct blake3 path (some (commitNode blake3 (.leaf slot))) =
      some (commitNode blake3 n)) :
    ∃ slot', getPath (path.map ProofStep.byte) n = some slot' ∧
      slot'.canonical = slot.canonical := by
  induction h generalizing n path with
  | zero =>
      obtain ⟨slot', rfl⟩ := hn
      obtain rfl := List.eq_nil_of_length_eq_zero hlen
      have heq : blake3 (leafInput slot) = blake3 (leafInput slot') := Option.some.inj hrec
      have hinput := hcf _ hleaf _ (hin (nodeInput_mem blake3 (.leaf slot'))) heq
      exact ⟨slot', rfl, (leafInput_inj hinput).symm⟩
  | succ h ih =>
      obtain ⟨step, rest, rfl⟩ := List.exists_cons_of_length_eq_add_one hlen
      obtain ⟨c, hc⟩ := reconstruct_some blake3 rest (commitNode blake3 (.leaf slot))
      rw [pathInputs, hc, List.cons_subset] at hpath
      have heq : blake3 (internalInput (combined step (some c)).entries) = commitNode blake3 n := by
        rw [← hc]
        exact Option.some.inj hrec
      obtain ⟨ch, rfl, hsorted, hall, hchildren⟩ := children_eq hcf hn hin hpath.1 heq
      obtain ⟨child, hlook, hcommit⟩ := lookup_of_combined_some hsorted hchildren
      obtain ⟨slot', hget, hcanonical⟩ := ih (Shaped.of_lookup hsorted hall hlook)
        (List.Subset.trans (nodeInputs_lookup hsorted hlook) hin) rest (by simpa using hlen)
        hpath.2 (by rw [hc, hcommit])
      refine ⟨slot', ?_, hcanonical⟩
      rw [List.map_cons, getPath_internal, hlook]
      exact hget

end Hash

/-- A verified slot is stored with that balance, whatever the proof object. -/
theorem inclusion_sound (blake3 : Blake3) (entries : List (Address × BalanceSlot)) (addr : Address)
    (slot : BalanceSlot) (proof : Proof)
    (hcf : CollisionFree blake3 (nodeInputs blake3 (StateTree.fromEntries entries).node ++
      verifyInputs blake3 proof))
    (hverify : verify blake3 ((StateTree.fromEntries entries).root blake3) addr (some slot) proof =
      true) :
    ∃ stored, (StateTree.fromEntries entries).get addr = some stored ∧
      stored.canonical = slot.canonical := by
  generalize StateTree.fromEntries entries = t at hcf hverify
  obtain ⟨path, slotOpt⟩ := proof
  obtain ⟨hslot, hbytes, hlen, hroot⟩ := (verify_eq_true_iff _ _ _ _).1 hverify
  dsimp only at hslot hbytes hlen hroot
  subst hslot
  have hpath : path.map ProofStep.byte = addr.val :=
    hbytes.eq_of_length (by simpa using hlen rfl)
  have hne : path ≠ [] := by
    rintro rfl
    simp at hroot
  rw [if_neg hne] at hroot
  have hin := List.subset_append_left (nodeInputs blake3 t.node)
    (verifyInputs blake3 ⟨path, some slot⟩)
  have hin' := List.subset_append_right (nodeInputs blake3 t.node)
    (verifyInputs blake3 ⟨path, some slot⟩)
  have hpin := List.Subset.trans (pathInputs_subset ⟨path, some slot⟩) hin'
  have hleaf := hin' (show leafInput slot ∈ verifyInputs blake3 ⟨path, some slot⟩ by
    simp [verifyInputs])
  have hshaped := shaped_of_reconstruct hcf hin hpin hne hroot
  rw [StateTree.get, ← hpath]
  exact getPath_of_reconstruct hcf hleaf hshaped hin path
    ((hlen rfl).trans addr.property) hpin hroot

/-- The honest path of an entry carries it with any nonce. -/
theorem inclusion_sound_zero :
    ∃ stored, (StateTree.fromEntries zeroEntries).get zeroAddress = some stored ∧
      stored.canonical = 100 := by
  refine inclusion_sound (tableHash zeroTable) zeroEntries zeroAddress { hundred with nonce := ⟨3⟩ }
    { (StateTree.fromEntries zeroEntries).proof (tableHash zeroTable) zeroAddress with
      slot := some { hundred with nonce := ⟨3⟩ } } (collisionFree_zeroTable ?_) ?_
  · exact List.append_subset.2 ⟨nodeInputs_zero, by decide +kernel⟩
  · have hget : (StateTree.fromEntries zeroEntries).get zeroAddress = some hundred := by
      decide +kernel
    refine StateTree.verify_path _ _ _ ?_
    rw [hget]
    rfl

/-! ## Absence -/

/-- A path towards `bs`, cut off above the leaf: at every step the siblings, with the child on the
way put in, are the children of the node, and at the deepest step they are all of them already,
the child on the way included. -/
def Leaks (blake3 : Blake3) : Node → List Byte → List ProofStep → Prop
  | .internal ch, b :: bs, step :: rest =>
      step.byte = b ∧ ∃ child, ch.lookup b = some child ∧
        (combined step (if rest = [] then none else some (commitNode blake3 child))).entries =
          commitChildren blake3 ch ∧
        (rest ≠ [] → Leaks blake3 child bs rest)
  | _, _, _ => False

section Hash

variable {blake3 : Blake3}

/-- A leaking path passes the verifier's checks. -/
theorem Leaks.reconstruct_eq {n : Node} {bs : List Byte} {path : List ProofStep}
    (h : Leaks blake3 n bs path) :
    path ≠ [] ∧ path.map ProofStep.byte <+: bs ∧
      reconstruct blake3 path none = some (commitNode blake3 n) := by
  induction path generalizing n bs with
  | nil => cases n <;> cases bs <;> exact absurd h (by simp [Leaks])
  | cons step rest ih =>
      cases n with
      | empty => cases bs <;> exact absurd h (by simp [Leaks])
      | leaf slot => cases bs <;> exact absurd h (by simp [Leaks])
      | internal ch =>
          cases bs with
          | nil => exact absurd h (by simp [Leaks])
          | cons b bs =>
              obtain ⟨rfl, child, hlook, hchildren, hrest⟩ := h
              refine ⟨by simp, ?_⟩
              rw [List.map_cons, List.cons_prefix_cons, commitNode, ← hchildren]
              by_cases hnil : rest = []
              · subst hnil
                exact ⟨⟨rfl, List.nil_prefix⟩, rfl⟩
              · obtain ⟨-, hbytes, hrec⟩ := ih (hrest hnil)
                refine ⟨⟨rfl, hbytes⟩, ?_⟩
                rw [if_neg hnil, ← hrec]
                rfl

/-- A path without a leaf that reaches a trie's commitment: nothing is stored under its bytes, or
it leaks. -/
theorem absent_or_leaks {inputs : List (List Byte)} (hcf : CollisionFree blake3 inputs) {h : Nat}
    {n : Node} (hn : Shaped h n) (hin : nodeInputs blake3 n ⊆ inputs) (path : List ProofStep)
    (hne : path ≠ []) {bs : List Byte} (hbs : bs.length = h)
    (hbytes : path.map ProofStep.byte <+: bs) (hpath : pathInputs blake3 none path ⊆ inputs)
    (hrec : reconstruct blake3 path none = some (commitNode blake3 n)) :
    getPath bs n = none ∨ Leaks blake3 n bs path := by
  induction path generalizing n bs h with
  | nil => exact absurd rfl hne
  | cons step rest ih =>
      obtain ⟨b, bs, rfl⟩ : ∃ b bs', bs = b :: bs' := by
        cases bs with
        | nil => simp at hbytes
        | cons b bs => exact ⟨b, bs, rfl⟩
      subst hbs
      rw [List.map_cons, List.cons_prefix_cons] at hbytes
      rw [pathInputs, List.cons_subset] at hpath
      obtain ⟨ch, rfl, hsorted, hall, hchildren⟩ :=
        children_eq hcf hn hin hpath.1 (Option.some.inj hrec)
      rw [getPath_internal, ← hbytes.1]
      cases hlook : ch.lookup step.byte with
      | none => exact Or.inl rfl
      | some child =>
          by_cases hnil : rest = []
          · subst hnil
            exact Or.inr ⟨rfl, child, hlook, hchildren, by simp⟩
          · obtain ⟨c, hc⟩ : ∃ c, reconstruct blake3 rest none = some c := by
              obtain ⟨step', rest', rfl⟩ := List.exists_cons_of_ne_nil hnil
              exact ⟨_, rfl⟩
            rw [hc] at hchildren
            obtain ⟨child', hlook', hcommit⟩ := lookup_of_combined_some hsorted hchildren
            obtain rfl : child = child' := by simpa [hlook] using hlook'
            refine (ih (Shaped.of_lookup hsorted hall hlook)
              (List.Subset.trans (nodeInputs_lookup hsorted hlook) hin) hnil rfl hbytes.2 hpath.2
              (by rw [hc, hcommit])).imp id fun hleaks => ?_
            exact ⟨rfl, child, hlook, by rw [if_neg hnil, hcommit, hchildren], fun _ => hleaks⟩

/-- Only the empty tree has the empty commitment. -/
theorem get_of_root_empty {inputs : List (List Byte)} (hcf : CollisionFree blake3 inputs)
    {t : StateTree} (hin : nodeInputs blake3 t.node ⊆ inputs) (htag : TAG_EMPTY ∈ inputs)
    (hroot : t.root blake3 = emptyCommitment blake3) (a : Address) : t.get a = none := by
  rcases t.cases_shape with ⟨-, hnone⟩ | ⟨ch, hch, -⟩
  · exact hnone a
  · rw [StateTree.root, commitNode_eq] at hroot
    have hinput := hcf _ (hin (nodeInput_mem blake3 t.node)) _ htag hroot
    rw [hch] at hinput
    exact absurd hinput (internalInput_ne_empty _)

end Hash

/-- A verified absence is one, except for a stored address and a path that leaks. -/
theorem absence_iff (blake3 : Blake3) (entries : List (Address × BalanceSlot)) (addr : Address)
    (proof : Proof)
    (hcf : CollisionFree blake3 (nodeInputs blake3 (StateTree.fromEntries entries).node ++
      verifyInputs blake3 proof)) :
    (verify blake3 ((StateTree.fromEntries entries).root blake3) addr none proof = true →
      (StateTree.fromEntries entries).get addr = none) ↔
    ¬(proof.slot = none ∧ ((StateTree.fromEntries entries).get addr).isSome ∧
      Leaks blake3 (StateTree.fromEntries entries).node addr.val proof.path) := by
  generalize StateTree.fromEntries entries = t at hcf
  obtain ⟨path, slot⟩ := proof
  rw [verify_eq_true_iff]
  constructor
  · rintro hsound ⟨rfl, hstored, hleaks⟩
    obtain ⟨hne, hbytes, hrec⟩ := hleaks.reconstruct_eq
    rw [hsound ⟨rfl, hbytes, by simp, by rw [if_neg hne]; exact hrec⟩] at hstored
    cases hstored
  · rintro hcond ⟨hslot, hbytes, -, hroot⟩
    dsimp only at hslot hbytes hroot
    subst hslot
    have hin := List.subset_append_left (nodeInputs blake3 t.node)
      (verifyInputs blake3 ⟨path, none⟩)
    have hin' := List.subset_append_right (nodeInputs blake3 t.node)
      (verifyInputs blake3 ⟨path, none⟩)
    split_ifs at hroot with hne
    · exact get_of_root_empty hcf hin (hin' List.mem_cons_self) hroot.2 addr
    · have hpin := List.Subset.trans (pathInputs_subset ⟨path, none⟩) hin'
      have hshaped := shaped_of_reconstruct hcf hin hpin hne hroot
      rcases absent_or_leaks hcf hshaped hin path hne addr.property hbytes hpin hroot with
        hnone | hleaks
      · exact hnone
      · by_contra hstored
        exact hcond ⟨rfl, Option.isSome_iff_ne_none.2 hstored, hleaks⟩

/-- One step towards the zero address, with the root's only child left among the siblings. -/
def forgedAbsence : Proof where
  path := [⟨0, (∅ : OrdMap Byte Commitment).insert 0 (zeroDigests.getD 19 (digestOf 0))⟩]
  slot := none

theorem collisionFree_forgedAbsence :
    CollisionFree (tableHash zeroTable)
      (nodeInputs (tableHash zeroTable) (StateTree.fromEntries zeroEntries).node ++
        verifyInputs (tableHash zeroTable) forgedAbsence) :=
  collisionFree_zeroTable (List.append_subset.2 ⟨nodeInputs_zero, by decide +kernel⟩)

/-- The zero address is stored, and its absence verifies. -/
theorem absence_forged :
    CollisionFree (tableHash zeroTable)
      (nodeInputs (tableHash zeroTable) (StateTree.fromEntries zeroEntries).node ++
        verifyInputs (tableHash zeroTable) forgedAbsence) ∧
    verify (tableHash zeroTable) ((StateTree.fromEntries zeroEntries).root (tableHash zeroTable))
      zeroAddress none forgedAbsence = true ∧
    (StateTree.fromEntries zeroEntries).get zeroAddress = some hundred :=
  ⟨collisionFree_forgedAbsence, by decide +kernel, by decide +kernel⟩

/-- The condition at the forged proof: its path leaks. -/
theorem absence_iff_forged :
    (verify (tableHash zeroTable) ((StateTree.fromEntries zeroEntries).root (tableHash zeroTable))
        zeroAddress none forgedAbsence = true →
      (StateTree.fromEntries zeroEntries).get zeroAddress = none) ↔
    ¬(forgedAbsence.slot = none ∧ ((StateTree.fromEntries zeroEntries).get zeroAddress).isSome ∧
      Leaks (tableHash zeroTable) (StateTree.fromEntries zeroEntries).node zeroAddress.val
        forgedAbsence.path) :=
  absence_iff (tableHash zeroTable) zeroEntries zeroAddress forgedAbsence
    collisionFree_forgedAbsence

end SuwappuDb
