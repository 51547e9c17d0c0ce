import SuwappuDb.StateTree

/-!
# What a root says about the tree

The state tree's commitments against its lookups.

* `fromEntries_is_map` — a lookup gives the last update, in a trie of one height.
* `root_congr` — a root depends on the addresses and canonical balances only, not on how the
  tree was built. No assumption on the hash.
* `root_binds` — equal roots have the same addresses and balances.
* `root_fromEntries_eq_iff` — both, for entry lists and their last-write-wins maps.

Where a hash has to be collision-free it is so on the inputs that are hashed: a function from
all byte strings to 32 bytes cannot be injective.
-/

namespace SuwappuDb

/-! ## Hash inputs -/

/-- No two of the inputs collide. -/
def CollisionFree (blake3 : Blake3) (inputs : List (List Byte)) : Prop :=
  ∀ x ∈ inputs, ∀ y ∈ inputs, blake3 x = blake3 y → x = y

instance (blake3 : Blake3) (inputs : List (List Byte)) : Decidable (CollisionFree blake3 inputs) :=
  inferInstanceAs (Decidable (∀ x ∈ inputs, ∀ y ∈ inputs, blake3 x = blake3 y → x = y))

theorem take_internalInput (l : List (Byte × Commitment)) :
    (internalInput l).take 20 = TAG_INTERNAL :=
  List.take_left' (by decide)

theorem internalInput_ne_empty (l : List (Byte × Commitment)) : internalInput l ≠ TAG_EMPTY := by
  intro h
  have htag := take_internalInput l
  rw [h] at htag
  exact absurd htag (by decide)

theorem internalInput_inj {l l' : List (Byte × Commitment)}
    (h : internalInput l = internalInput l') : l = l' := by
  refine flatMap_inj (f := childRecord) (w := 33) (by decide) (fun p => ?_) (fun p q hpq => ?_)
    (List.append_cancel_left h)
  · rw [childRecord, List.length_cons, p.2.property]
  · obtain ⟨hbyte, hval⟩ := List.cons.inj hpq
    exact Prod.ext hbyte (Subtype.ext hval)

theorem leafInput_inj {slot slot' : BalanceSlot} (h : leafInput slot = leafInput slot') :
    slot.canonical = slot'.canonical :=
  Fin.ext (beBytes_inj slot.canonical.isLt slot'.canonical.isLt (List.append_cancel_left h))

/-! ## Nodes -/

theorem getPath_internal (b : Byte) (bs : List Byte) (ch : List (Byte × Node)) :
    getPath (b :: bs) (.internal ch) = (ch.lookup b).bind (getPath bs) := rfl

theorem Shaped.of_lookup {h : Nat} {ch : List (Byte × Node)} (hsorted : SortedKeys ch)
    (hall : ∀ p ∈ ch, Shaped h p.2) {b : Byte} {child : Node} (hlook : ch.lookup b = some child) :
    Shaped h child :=
  hall (b, child) ((lookup_eq_some_iff hsorted.nodup_keys).1 hlook)

/-- `NodeAt root d n`: `n` is a node `d` levels below the root. -/
inductive NodeAt (root : Node) : Nat → Node → Prop
  | root : NodeAt root 0 root
  | child {d : Nat} {ch : List (Byte × Node)} {p : Byte × Node} :
      NodeAt root d (.internal ch) → p ∈ ch → NodeAt root (d + 1) p.2

/-- The nodes of a trie have the shape of what is left of its height. -/
theorem Shaped.of_nodeAt {h d : Nat} {root n : Node} (hroot : Shaped h root)
    (hn : NodeAt root d n) : ∃ k, d + k = h ∧ Shaped k n := by
  induction hn with
  | root => exact ⟨h, Nat.zero_add h, hroot⟩
  | child _ hp ih =>
      obtain ⟨k, hk, hshaped⟩ := ih
      cases k with
      | zero =>
          obtain ⟨slot, heq⟩ := hshaped
          cases heq
      | succ k =>
          obtain ⟨ch, heq, -, -, hall⟩ := hshaped
          cases heq
          exact ⟨k, by omega, hall _ hp⟩

theorem Shaped.ne_empty {h : Nat} {n : Node} (hn : Shaped h n) : n ≠ .empty := by
  intro hempty
  cases h with
  | zero =>
      obtain ⟨slot, heq⟩ := hn
      simp [hempty] at heq
  | succ h =>
      obtain ⟨ch, heq, -⟩ := hn
      simp [hempty] at heq

theorem nodeAt_empty {d : Nat} {n : Node} (hn : NodeAt .empty d n) : n = .empty := by
  induction hn with
  | root => rfl
  | child _ _ ih => cases ih

/-- A trie of some height stores something. -/
theorem Shaped.exists_getPath {h : Nat} {n : Node} (hn : Shaped h n) :
    ∃ bs slot, bs.length = h ∧ getPath bs n = some slot := by
  induction h generalizing n with
  | zero =>
      obtain ⟨slot, rfl⟩ := hn
      exact ⟨[], slot, rfl, rfl⟩
  | succ h ih =>
      obtain ⟨ch, rfl, hne, hsorted, hall⟩ := hn
      obtain ⟨⟨b, child⟩, hmem⟩ := List.exists_mem_of_ne_nil ch hne
      obtain ⟨bs, slot, hlen, hget⟩ := ih (hall _ hmem)
      refine ⟨b :: bs, slot, by simp [hlen], ?_⟩
      rw [getPath_internal, (lookup_eq_some_iff hsorted.nodup_keys).2 hmem]
      exact hget

section Hash

variable {blake3 : Blake3}

theorem lookup_commitChildren (ch : List (Byte × Node)) (b : Byte) :
    (commitChildren blake3 ch).lookup b = (ch.lookup b).map (commitNode blake3) := by
  rw [commitChildren_eq, lookup_map_snd]

theorem sortedKeys_commitChildren {ch : List (Byte × Node)} (h : SortedKeys ch) :
    SortedKeys (commitChildren blake3 ch) := by
  rw [commitChildren_eq]
  exact h.map_snd _

/-! ## The root is a function of the balances -/

/-- A child under `b` in one trie is one in any trie with the same balances. -/
theorem lookup_of_same {h : Nat} {ch ch' : List (Byte × Node)} {b : Byte} {child : Node}
    (hlook : ch.lookup b = some child) (hshaped : Shaped h child)
    (hsame : ∀ bs : List Byte, bs.length = h + 1 →
      (getPath bs (.internal ch)).map BalanceSlot.canonical =
        (getPath bs (.internal ch')).map BalanceSlot.canonical) :
    ∃ child', ch'.lookup b = some child' ∧ ∀ bs : List Byte, bs.length = h →
      (getPath bs child).map BalanceSlot.canonical =
        (getPath bs child').map BalanceSlot.canonical := by
  obtain ⟨bs, slot, hlen, hget⟩ := hshaped.exists_getPath
  have hstored := hsame (b :: bs) (by simp [hlen])
  rw [getPath_internal, getPath_internal, hlook, Option.bind_some, hget] at hstored
  cases hlook' : ch'.lookup b with
  | none => simp [hlook'] at hstored
  | some child' =>
      refine ⟨child', rfl, fun bs hbs => ?_⟩
      have hpath := hsame (b :: bs) (by simp [hbs])
      rwa [getPath_internal, getPath_internal, hlook, hlook'] at hpath

theorem commitNode_congr {h : Nat} {n n' : Node} (hn : Shaped h n) (hn' : Shaped h n')
    (hsame : ∀ bs : List Byte, bs.length = h →
      (getPath bs n).map BalanceSlot.canonical = (getPath bs n').map BalanceSlot.canonical) :
    commitNode blake3 n = commitNode blake3 n' := by
  induction h generalizing n n' with
  | zero =>
      obtain ⟨slot, rfl⟩ := hn
      obtain ⟨slot', rfl⟩ := hn'
      have hcanonical : slot.canonical = slot'.canonical := Option.some.inj (hsame [] rfl)
      rw [commitNode, commitNode, leafInput, leafInput, hcanonical]
  | succ h ih =>
      obtain ⟨ch, rfl, -, hsorted, hall⟩ := hn
      obtain ⟨ch', rfl, -, hsorted', hall'⟩ := hn'
      have hlists : commitChildren blake3 ch = commitChildren blake3 ch' := by
        refine (sortedKeys_commitChildren hsorted).ext (sortedKeys_commitChildren hsorted')
          fun b => ?_
        rw [lookup_commitChildren, lookup_commitChildren]
        cases hlook : ch.lookup b with
        | some child =>
            have hchild := Shaped.of_lookup hsorted hall hlook
            obtain ⟨child', hlook', hsub⟩ := lookup_of_same hlook hchild hsame
            rw [hlook', Option.map_some, Option.map_some,
              ih hchild (Shaped.of_lookup hsorted' hall' hlook') hsub]
        | none =>
            cases hlook' : ch'.lookup b with
            | none => rfl
            | some child' =>
                have hchild' := Shaped.of_lookup hsorted' hall' hlook'
                obtain ⟨child, hlook'', -⟩ :=
                  lookup_of_same hlook' hchild' fun bs hbs => (hsame bs hbs).symm
                rw [hlook] at hlook''
                cases hlook''
      rw [commitNode, commitNode, hlists]

/-! ## The root determines the balances -/

/-- Everything hashed below a child of a node is hashed for the node. -/
theorem nodeInputs_lookup {ch : List (Byte × Node)} (hsorted : SortedKeys ch) {b : Byte}
    {child : Node} (hlook : ch.lookup b = some child) :
    nodeInputs blake3 child ⊆ nodeInputs blake3 (.internal ch) :=
  nodeInputs_child blake3 ((lookup_eq_some_iff hsorted.nodup_keys).1 hlook)

theorem nodeInput_eq_of_commitNode_eq {inputs : List (List Byte)}
    (hcf : CollisionFree blake3 inputs) {n n' : Node} (hn : nodeInputs blake3 n ⊆ inputs)
    (hn' : nodeInputs blake3 n' ⊆ inputs) (heq : commitNode blake3 n = commitNode blake3 n') :
    nodeInput blake3 n = nodeInput blake3 n' := by
  rw [commitNode_eq, commitNode_eq] at heq
  exact hcf _ (hn (nodeInput_mem blake3 n)) _ (hn' (nodeInput_mem blake3 n')) heq

theorem same_of_commitNode_eq {inputs : List (List Byte)} (hcf : CollisionFree blake3 inputs)
    {h : Nat} {n n' : Node} (hn : Shaped h n) (hn' : Shaped h n')
    (hin : nodeInputs blake3 n ⊆ inputs) (hin' : nodeInputs blake3 n' ⊆ inputs)
    (heq : commitNode blake3 n = commitNode blake3 n')
    (bs : List Byte) (hbs : bs.length = h) :
    (getPath bs n).map BalanceSlot.canonical = (getPath bs n').map BalanceSlot.canonical := by
  have hinput := nodeInput_eq_of_commitNode_eq hcf hin hin' heq
  induction h generalizing n n' bs with
  | zero =>
      obtain ⟨slot, rfl⟩ := hn
      obtain ⟨slot', rfl⟩ := hn'
      obtain rfl := List.eq_nil_of_length_eq_zero hbs
      exact congrArg some (leafInput_inj hinput)
  | succ h ih =>
      obtain ⟨ch, rfl, -, hsorted, hall⟩ := hn
      obtain ⟨ch', rfl, -, hsorted', hall'⟩ := hn'
      obtain ⟨b, bs, rfl⟩ := List.exists_cons_of_length_eq_add_one hbs
      have hlook : (ch.lookup b).map (commitNode blake3) =
          (ch'.lookup b).map (commitNode blake3) := by
        rw [← lookup_commitChildren, ← lookup_commitChildren, internalInput_inj hinput]
      rw [getPath_internal, getPath_internal]
      cases hb : ch.lookup b with
      | none =>
          rw [hb] at hlook
          rw [Option.map_eq_none_iff.1 hlook.symm]
      | some child =>
          rw [hb] at hlook
          obtain ⟨child', hb', hcommit⟩ := Option.map_eq_some_iff.1 hlook.symm
          have hsub := List.Subset.trans (nodeInputs_lookup hsorted hb) hin
          have hsub' := List.Subset.trans (nodeInputs_lookup hsorted' hb') hin'
          rw [hb']
          exact ih (Shaped.of_lookup hsorted hall hb) (Shaped.of_lookup hsorted' hall' hb') hsub
            hsub' hcommit.symm bs (by simpa using hbs)
            (nodeInput_eq_of_commitNode_eq hcf hsub hsub' hcommit.symm)

end Hash

/-! ## Trees -/

/-- The last-write-wins map of a list of entries. -/
def lastWrites (entries : List (Address × BalanceSlot)) : OrdMap Address BalanceSlot :=
  (∅ : OrdMap Address BalanceSlot).insertAll entries

namespace StateTree

theorem get_foldl_update (entries : List (Address × BalanceSlot)) (t : StateTree)
    (m : OrdMap Address BalanceSlot) (h : ∀ a, t.get a = m.get? a) (a : Address) :
    (entries.foldl (fun t e => t.update e.1 e.2) t).get a = (m.insertAll entries).get? a := by
  induction entries generalizing t m with
  | nil => exact h a
  | cons e entries ih =>
      refine ih (t.update e.1 e.2) (m.insert e.1 e.2) fun a => ?_
      rw [get_update, OrdMap.get?_insert, h]

theorem get_empty (a : Address) : ({} : StateTree).get a = none := by
  obtain ⟨b, bs, hbs⟩ := List.exists_cons_of_length_eq_add_one a.property
  rw [get, hbs]
  rfl

theorem get_fromEntries (entries : List (Address × BalanceSlot)) (a : Address) :
    (fromEntries entries).get a = (lastWrites entries).get? a :=
  get_foldl_update entries {} ∅ get_empty a

/-- A tree is empty, or a trie that stores something. -/
theorem cases_shape (t : StateTree) :
    t.node = .empty ∧ (∀ a, t.get a = none) ∨ Shaped 20 t.node := by
  rcases t.shaped with h | h
  · refine Or.inl ⟨h, fun a => ?_⟩
    rw [get, h]
    exact get_empty a
  · exact Or.inr h

theorem exists_get_of_shaped {t : StateTree} (h : Shaped 20 t.node) :
    ∃ a slot, t.get a = some slot := by
  obtain ⟨bs, slot, hlen, hget⟩ := h.exists_getPath
  exact ⟨⟨bs, hlen⟩, slot, hget⟩

/-- A node of the tree that is not empty has the shape of what is left of the twenty levels. -/
theorem shaped_of_nodeAt (t : StateTree) {d : Nat} {n : Node} (hn : NodeAt t.node d n)
    (hne : n ≠ .empty) : ∃ k, d + k = 20 ∧ Shaped k n := by
  rcases t.shaped with hempty | hshaped
  · rw [hempty] at hn
    exact absurd (nodeAt_empty hn) hne
  · exact hshaped.of_nodeAt hn

theorem depth_of_leaf (t : StateTree) {d : Nat} {slot : BalanceSlot}
    (hn : NodeAt t.node d (.leaf slot)) : d = 20 := by
  obtain ⟨k, hk, hleaf⟩ := t.shaped_of_nodeAt hn (by simp)
  cases k with
  | zero => exact hk
  | succ k =>
      obtain ⟨ch, heq, -⟩ := hleaf
      cases heq

theorem children_of_internal (t : StateTree) {d : Nat} {ch : List (Byte × Node)}
    (hn : NodeAt t.node d (.internal ch)) : ch ≠ [] ∧ ∀ p ∈ ch, p.2 ≠ .empty := by
  obtain ⟨k, -, hinternal⟩ := t.shaped_of_nodeAt hn (by simp)
  cases k with
  | zero =>
      obtain ⟨slot, heq⟩ := hinternal
      cases heq
  | succ k =>
      obtain ⟨ch', heq, hne, -, hall⟩ := hinternal
      cases heq
      exact ⟨hne, fun p hp => (hall p hp).ne_empty⟩

/-- The tree is a map. After any updates an address has the slot of its last one. Every leaf is
twenty levels down, so an update meets none on its way, and no internal node is without children or
has an empty one. -/
theorem fromEntries_is_map (updates : List (Address × BalanceSlot)) :
    (∀ a, (fromEntries updates).get a = OrdMap.lastAt a updates) ∧
    (∀ d slot, NodeAt (fromEntries updates).node d (.leaf slot) → d = 20) ∧
    ∀ d ch, NodeAt (fromEntries updates).node d (.internal ch) →
      ch ≠ [] ∧ ∀ p ∈ ch, p.2 ≠ .empty := by
  refine ⟨fun a => ?_, fun d slot => depth_of_leaf _, fun d ch => children_of_internal _⟩
  rw [get_fromEntries, lastWrites, OrdMap.get?_insertAll_lastAt, OrdMap.get?_empty, Option.or_none]

/-- Trees with the same balances have the same root. -/
theorem root_congr (blake3 : Blake3) {t t' : StateTree}
    (h : ∀ a, (t.get a).map BalanceSlot.canonical = (t'.get a).map BalanceSlot.canonical) :
    t.root blake3 = t'.root blake3 := by
  rcases t.cases_shape with ⟨hempty, hnone⟩ | hshaped <;>
    rcases t'.cases_shape with ⟨hempty', hnone'⟩ | hshaped'
  · rw [root, root, hempty, hempty']
  · obtain ⟨a, slot, hget⟩ := exists_get_of_shaped hshaped'
    have ha := h a
    simp [hnone, hget] at ha
  · obtain ⟨a, slot, hget⟩ := exists_get_of_shaped hshaped
    have ha := h a
    simp [hnone', hget] at ha
  · exact commitNode_congr hshaped hshaped' fun bs hbs => h ⟨bs, hbs⟩

/-- Trees with the same root have the same balances. -/
theorem root_binds {blake3 : Blake3} {t t' : StateTree}
    (hcf : CollisionFree blake3 (nodeInputs blake3 t.node ++ nodeInputs blake3 t'.node))
    (h : t.root blake3 = t'.root blake3) (a : Address) :
    (t.get a).map BalanceSlot.canonical = (t'.get a).map BalanceSlot.canonical := by
  have hin := List.subset_append_left (nodeInputs blake3 t.node) (nodeInputs blake3 t'.node)
  have hin' := List.subset_append_right (nodeInputs blake3 t.node) (nodeInputs blake3 t'.node)
  have hinput := nodeInput_eq_of_commitNode_eq hcf hin hin' h
  rcases t.cases_shape with ⟨hempty, hnone⟩ | hshaped <;>
    rcases t'.cases_shape with ⟨hempty', hnone'⟩ | hshaped'
  · rw [hnone, hnone']
  · obtain ⟨ch, hch, -⟩ := hshaped'
    rw [hempty, hch] at hinput
    exact absurd hinput.symm (internalInput_ne_empty _)
  · obtain ⟨ch, hch, -⟩ := hshaped
    rw [hempty', hch] at hinput
    exact absurd hinput (internalInput_ne_empty _)
  · exact same_of_commitNode_eq hcf hshaped hshaped' hin hin' h a.val a.property

theorem get_fromState (order : IterOrder) (s : State) (a : Address) :
    (fromState order s).get a = s.store.slots.get? a := by
  rw [fromState, get_fromEntries, lastWrites]
  exact (OrdMap.get?_insertAll_perm (order.perm s.store.slots.entries) ∅ a).trans (by simp)

/-- States with the same entries and balances have the same root, in whichever order the slots are
visited. -/
theorem root_fromState_congr (blake3 : Blake3) (order order' : IterOrder) {s s' : State}
    (h : ∀ a, (s.store.slots.get? a).map BalanceSlot.canonical =
      (s'.store.slots.get? a).map BalanceSlot.canonical) :
    (fromState order s).root blake3 = (fromState order' s').root blake3 :=
  root_congr blake3 fun a => by rw [get_fromState, get_fromState, h]

theorem root_fromState (blake3 : Blake3) (order order' : IterOrder) (s : State) :
    (fromState order s).root blake3 = (fromState order' s).root blake3 :=
  root_fromState_congr blake3 order order' fun _ => rfl

/-- Equal roots are equal last-write-wins maps, up to nonces. -/
theorem root_fromEntries_eq_iff (blake3 : Blake3) (l₁ l₂ : List (Address × BalanceSlot))
    (hcf : CollisionFree blake3
      (nodeInputs blake3 (fromEntries l₁).node ++ nodeInputs blake3 (fromEntries l₂).node)) :
    (fromEntries l₁).root blake3 = (fromEntries l₂).root blake3 ↔
      ∀ a, ((lastWrites l₁).get? a).map BalanceSlot.canonical =
        ((lastWrites l₂).get? a).map BalanceSlot.canonical := by
  simp only [← get_fromEntries]
  exact ⟨root_binds hcf, root_congr blake3⟩

end StateTree

/-! ## A tree with BLAKE3 digests

The tree with 100 at the zero address, and its real digests. -/

def digestOf (n : Nat) : Commitment := ⟨beBytes 32 n, length_beBytes 32 n⟩

/-- A hash known on finitely many inputs. -/
def tableHash (table : List (List Byte × Commitment)) : Blake3 := fun input =>
  match table.find? fun p => p.1 = input with
  | some p => p.2
  | none => digestOf 0

theorem collisionFree_tableHash {table : List (List Byte × Commitment)} {inputs : List (List Byte)}
    (hdigests : (table.map Prod.snd).Nodup) (hinputs : inputs ⊆ table.map Prod.fst) :
    CollisionFree (tableHash table) inputs := by
  have hentry : ∀ x ∈ inputs, (x, tableHash table x) ∈ table := by
    intro x hx
    rw [tableHash]
    cases hfind : table.find? fun p => p.1 = x with
    | none =>
        obtain ⟨p, hmem, rfl⟩ := List.mem_map.1 (hinputs hx)
        exact absurd (List.find?_eq_none.1 hfind p hmem) (by simp)
    | some p =>
        have hp : p.1 = x := by simpa using List.find?_some hfind
        exact hp ▸ List.mem_of_find?_eq_some hfind
  intro x hx y hy heq
  exact congrArg Prod.fst (List.inj_on_of_nodup_map hdigests (hentry x hx) (hentry y hy) heq)

def zeroAddress : Address := smallAddress 0

def hundred : BalanceSlot := BalanceSlot.new 100

/-- The digests of the nodes from the leaf up. -/
def zeroDigests : List Commitment := [
  0x287a7072cd142c5edc619e4c98cc6473e42a668c5d81d46eee71caf9d0052b0c,
  0x09049f6e8343331adbdbb12519827f081bb3f027188af3b791340f8ec75ef95a,
  0x78377844d4306616edf04b20f863a526eaa8589492abbdedebe117e68c7abb1d,
  0x2842997577eef19c549395cc34c09ce8c147ba90cec6fee70986ba2bd3dd1b8c,
  0x5aaf902290fff206f93904a083bae69cdc2a63befa5ff951096b4f5975aff4a0,
  0x54cb812bcf6fa544a83aea6428a85929c1599366039a9ef3405b261338f41e14,
  0x37b88094d0b5980b224d583227fabf37c21f5d957a467224a1014a5d92f3d2e7,
  0x5da2c81fa291f8dce1829054da4724ebd15a5922ff434b92b49260739a929510,
  0x2827ce96351b61c30a4f531143a355ad0d0d167ed0de0647b4d47b6b6eb60897,
  0x246dd44234972659b9efc2b7ae86a1afb0d6524168313b8f309c2ba09cd8990b,
  0xccd29d2fe8153df15abb027c6733f9f82caaa9313b56e9aa416315e6e6a51faa,
  0xc3543cae1e806fdffce04b9afa79fa568172c782d1d9df5b7ffafc8766aa1e7e,
  0x2c74977ade7e97a3af9a9cd1b7cd38496641b4ab882f5d9de308fdc2544070d7,
  0x58d658d7c5dd0d0d05b5d880c3e8edfd0c8ccd8c83c009cea0860b3aca36223d,
  0x3debc6f2eb85894bbfde06302232dad957f279321fc47800c693ada5f638ef6e,
  0x760296e6461ac76750285408af5b578ae7a30da76f89a5e4dc7029cc7fa6c192,
  0x03e7ee172d6d961d09b070ff759e647b146c97c4acd2d7876d5749d5f4354b78,
  0x84fc5d3882b8114500f4b90a3a2a1a96c07ec4ce78f00aed91b4a517afd7026d,
  0x4ab77c38d95fb230a5773aa77d8b832fe6ec32df99f80754264b321f4a11c01f,
  0x6e8d06d479b8630a232b66f04e5dc979377d6f66f6017b66d47c9c9c912ea3b0,
  0xaa65d1f7b3855ecb6a0cc8ef26fa61b7177719c6eab02763164e2c2679d84b60].map digestOf

/-- BLAKE3 on everything hashed for that tree. -/
def zeroTable : List (List Byte × Commitment) :=
  (TAG_EMPTY, digestOf
    0x95eae29c3a934617b343e9d4df0fb41ff67543c4f8617f96f666d068f2d2369f) ::
  ((leafInput hundred :: zeroDigests.map fun c => internalInput [(0, c)]).zip zeroDigests)

theorem collisionFree_zeroTable {inputs : List (List Byte)}
    (hinputs : inputs ⊆ zeroTable.map Prod.fst) : CollisionFree (tableHash zeroTable) inputs :=
  collisionFree_tableHash (by decide +kernel) hinputs

/-- The zero address holds 100. -/
def zeroState : State := ({} : State).apply (.setBalance zeroAddress 100)

def zeroEntries : List (Address × BalanceSlot) := [(zeroAddress, hundred)]

theorem nodeInputs_zero :
    nodeInputs (tableHash zeroTable) (StateTree.fromEntries zeroEntries).node ⊆
      zeroTable.map Prod.fst := by
  decide +kernel

/-- An entry overwritten by another leaves no trace in the root. -/
theorem root_overwritten_entry :
    (StateTree.fromEntries ((zeroAddress, BalanceSlot.new 7) :: zeroEntries)).root
      (tableHash zeroTable) = (StateTree.fromEntries zeroEntries).root (tableHash zeroTable) := by
  have hmaps : lastWrites ((zeroAddress, BalanceSlot.new 7) :: zeroEntries) =
      lastWrites zeroEntries := by
    decide
  refine (StateTree.root_fromEntries_eq_iff _ _ _ (collisionFree_zeroTable ?_)).2 fun a => by
    rw [hmaps]
  exact List.append_subset.2 ⟨nodeInputs_zero, nodeInputs_zero⟩

end SuwappuDb
