import SuwappuDb.State

/-!
# The state tree

`crates/suwappudb-state/src/tree/{types,commit,ops}.rs`: the 256-ary trie over addresses, its
BLAKE3 commitments, and the proofs read off it and checked against a root.

BLAKE3 is the parameter `blake3`: the digest of everything fed to the hasher, in order. A
recursive function of the source that carries an address and a depth carries the rest of the
address here.

* `commitNode` — the commitment of a node; `nodeInput` is what it hashes.
* `updatePath`, `getPath` — insertion and lookup. `Shaped h` is the shape insertion keeps: every
  leaf exactly `h` levels down, every internal node with children in key order and none of them
  empty. `StateTree` carries it.
* `collectProof`, `verify` — prover and verifier.
-/

namespace SuwappuDb

/-- A 32-byte commitment. -/
abbrev Commitment := ByteArr 32

/-- A hash function in the role of BLAKE3. -/
abbrev Blake3 := List Byte → ByteArr 32

/-- A trie node; the children are the entries of a `BTreeMap`. -/
inductive Node where
  | empty
  | leaf (slot : BalanceSlot)
  | internal (children : List (Byte × Node))

instance : Inhabited Node := ⟨.empty⟩

def TAG_EMPTY : List Byte := ascii "SUWAPPUDB-TREE/EMPTY"
def TAG_LEAF : List Byte := ascii "SUWAPPUDB-TREE/LEAF_"
def TAG_INTERNAL : List Byte := ascii "SUWAPPUDB-TREE/INT__"

/-- `u128::to_be_bytes`. -/
def U128.toBeBytes (n : U128) : List Byte := beBytes 16 n.val

/-- A child's record in an internal node's hash input: its byte and its commitment. -/
def childRecord (p : Byte × Commitment) : List Byte := p.1 :: p.2.val

/-- What an internal node with these child commitments hashes. -/
def internalInput (children : List (Byte × Commitment)) : List Byte :=
  TAG_INTERNAL ++ children.flatMap childRecord

/-- What a leaf hashes: the balance, but not the nonce. -/
def leafInput (slot : BalanceSlot) : List Byte := TAG_LEAF ++ U128.toBeBytes slot.canonical

/-! ## Insertion and lookup -/

/-- The children a node is descended through; a node that is not internal is replaced by one
without children. -/
def Node.children : Node → List (Byte × Node)
  | .internal ch => ch
  | .empty => []
  | .leaf _ => []

/-- `update_path`. -/
def updatePath : List Byte → BalanceSlot → Node → Node
  | [], slot, _ => .leaf slot
  | b :: bs, slot, node =>
      .internal
        (insertEntry b (updatePath bs slot ((node.children.lookup b).getD .empty)) node.children)

/-- `get_path`. -/
def getPath : List Byte → Node → Option BalanceSlot
  | [], .leaf slot => some slot
  | [], _ => none
  | b :: bs, .internal ch => (ch.lookup b).bind (getPath bs)
  | _ :: _, _ => none

/-- Every leaf is `h` levels down, and internal nodes have children, in key order. -/
def Shaped : Nat → Node → Prop
  | 0, n => ∃ slot, n = .leaf slot
  | h + 1, n => ∃ ch, n = .internal ch ∧ ch ≠ [] ∧ SortedKeys ch ∧ ∀ p ∈ ch, Shaped h p.2

/-- The tree of a `StateTree`: nothing at all, or a trie of the right height. -/
def ShapedRoot (h : Nat) (n : Node) : Prop := n = .empty ∨ Shaped h n

theorem insertEntry_ne_nil {κ ν : Type*} [LinearOrder κ] (k : κ) (v : ν) (l : List (κ × ν)) :
    insertEntry k v l ≠ [] := by
  intro h
  have hlook := lookup_insertEntry k k v l
  rw [h] at hlook
  simp at hlook

/-- Insertion keeps the shape, and gives it to an empty tree. -/
theorem shaped_updatePath (bs : List Byte) (slot : BalanceSlot) {n : Node}
    (h : ShapedRoot bs.length n) : Shaped bs.length (updatePath bs slot n) := by
  induction bs generalizing n with
  | nil => exact ⟨slot, rfl⟩
  | cons b bs ih =>
      -- The children descended through, whichever kind of node this is.
      have hch : SortedKeys n.children ∧ ∀ p ∈ n.children, Shaped bs.length p.2 := by
        rcases h with rfl | ⟨ch, rfl, -, hsorted, hall⟩
        · exact ⟨List.Pairwise.nil, by simp [Node.children]⟩
        · exact ⟨hsorted, hall⟩
      have hsub : ShapedRoot bs.length ((n.children.lookup b).getD .empty) := by
        cases hlook : n.children.lookup b with
        | none => exact Or.inl rfl
        | some child =>
            exact Or.inr (hch.2 _ ((lookup_eq_some_iff hch.1.nodup_keys).1 hlook))
      refine ⟨_, rfl, insertEntry_ne_nil _ _ _, sortedKeys_insertEntry hch.1 _ _, fun p hp => ?_⟩
      rcases mem_insertEntry hp with rfl | hp
      · exact ih hsub
      · exact hch.2 p hp

/-- A lookup after an insertion, at an address of the same length. -/
theorem getPath_updatePath (bs bs' : List Byte) (hlen : bs'.length = bs.length) (slot : BalanceSlot)
    (n : Node) :
    getPath bs' (updatePath bs slot n) = if bs' = bs then some slot else getPath bs' n := by
  induction bs generalizing bs' n with
  | nil =>
      obtain rfl := List.eq_nil_of_length_eq_zero hlen
      simp [updatePath, getPath]
  | cons b bs ih =>
      obtain ⟨b', bs', rfl⟩ : ∃ b' bs'', bs' = b' :: bs'' :=
        List.exists_cons_of_length_eq_add_one hlen
      have hlen' : bs'.length = bs.length := by simpa using hlen
      have hchildren : getPath (b' :: bs') n = (n.children.lookup b').bind (getPath bs') := by
        cases n <;> rfl
      rw [hchildren, updatePath, getPath, lookup_insertEntry]
      by_cases hb : b' = b
      · subst hb
        simp only [if_true, Option.bind_some, ih bs' hlen', List.cons.injEq, true_and]
        split_ifs with hbs
        · rfl
        · cases n.children.lookup b' with
          | none => cases bs' <;> rfl
          | some child => rfl
      · simp [hb]

/-! ## Commitments -/

section Hash

variable (blake3 : Blake3)

/-- `empty_commitment`. -/
def emptyCommitment : Commitment := blake3 TAG_EMPTY

mutual

/-- `commit_node`. -/
def commitNode : Node → Commitment
  | .empty => emptyCommitment blake3
  | .leaf slot => blake3 (leafInput slot)
  | .internal children => blake3 (internalInput (commitChildren children))

/-- The bytes of an internal node's children with their commitments. -/
def commitChildren : List (Byte × Node) → List (Byte × Commitment)
  | [] => []
  | (byte, child) :: rest => (byte, commitNode child) :: commitChildren rest

end

theorem commitChildren_eq (ch : List (Byte × Node)) :
    commitChildren blake3 ch = ch.map fun p => (p.1, commitNode blake3 p.2) := by
  induction ch with
  | nil => rfl
  | cons p rest ih => rw [commitChildren, ih]; rfl

/-- What `commitNode` feeds to the hasher for the node itself. -/
def nodeInput : Node → List Byte
  | .empty => TAG_EMPTY
  | .leaf slot => leafInput slot
  | .internal children => internalInput (commitChildren blake3 children)

theorem commitNode_eq (n : Node) : commitNode blake3 n = blake3 (nodeInput blake3 n) := by
  cases n <;> rw [commitNode] <;> rfl

mutual

/-- Everything hashed on the way to a node's commitment. -/
def nodeInputs : Node → List (List Byte)
  | .empty => [TAG_EMPTY]
  | .leaf slot => [leafInput slot]
  | .internal children =>
      internalInput (commitChildren blake3 children) :: childrenInputs children

/-- Everything hashed on the way to the commitments of some children. -/
def childrenInputs : List (Byte × Node) → List (List Byte)
  | [] => []
  | (_, child) :: rest => nodeInputs child ++ childrenInputs rest

end

theorem nodeInput_mem (n : Node) : nodeInput blake3 n ∈ nodeInputs blake3 n := by
  cases n <;> simp [nodeInput, nodeInputs]

theorem nodeInputs_child {ch : List (Byte × Node)} {p : Byte × Node} (h : p ∈ ch) :
    nodeInputs blake3 p.2 ⊆ nodeInputs blake3 (.internal ch) := by
  rw [nodeInputs]
  refine List.subset_cons_of_subset _ ?_
  induction ch with
  | nil => cases h
  | cons q rest ih =>
      obtain ⟨b, child⟩ := q
      rw [childrenInputs]
      rcases List.mem_cons.1 h with rfl | h
      · exact List.subset_append_left _ _
      · exact List.Subset.trans (ih h) (List.subset_append_right _ _)

end Hash

/-! ## The tree -/

/-- `StateTree`. -/
structure StateTree where
  node : Node := .empty
  shaped : ShapedRoot 20 node := by exact Or.inl rfl

instance : Inhabited StateTree := ⟨{}⟩

namespace StateTree

def update (t : StateTree) (addr : Address) (slot : BalanceSlot) : StateTree where
  node := updatePath addr.val slot t.node
  shaped := by
    have h : ShapedRoot addr.val.length t.node := by
      rw [addr.property]
      exact t.shaped
    have h' := shaped_updatePath addr.val slot h
    rw [addr.property] at h'
    exact Or.inr h'

def get (t : StateTree) (addr : Address) : Option BalanceSlot := getPath addr.val t.node

/-- `StateTree::from_entries`: later entries win. -/
def fromEntries (entries : List (Address × BalanceSlot)) : StateTree :=
  entries.foldl (fun t e => t.update e.1 e.2) {}

/-- `StateTree::from_state`, the slots visited in the given order. -/
def fromState (order : IterOrder) (s : State) : StateTree := fromEntries (s.entries order)

/-- `StateTree::root`. -/
def root (blake3 : Blake3) (t : StateTree) : Commitment := commitNode blake3 t.node

theorem get_update (t : StateTree) (addr a : Address) (slot : BalanceSlot) :
    (t.update addr slot).get a = if a = addr then some slot else t.get a := by
  have h := getPath_updatePath addr.val a.val (by rw [addr.property, a.property]) slot t.node
  simp only [← Subtype.ext_iff] at h
  exact h

end StateTree

/-! ## Proofs -/

/-- One level of a proof. -/
structure ProofStep where
  byte : Byte
  /-- The commitments of the other children. Meant not to include `byte`. -/
  siblings : OrdMap Byte Commitment
  deriving DecidableEq

/-- A proof, root first. -/
structure Proof where
  path : List ProofStep
  slot : Option BalanceSlot
  deriving DecidableEq

section Hash

variable (blake3 : Blake3)

/-- The sibling map `collect_proof` builds at an internal node. -/
def siblingsOf (byte : Byte) (children : List (Byte × Node)) : OrdMap Byte Commitment :=
  (∅ : OrdMap Byte Commitment).insertAll
    ((children.filter fun p => p.1 ≠ byte).map fun p => (p.1, commitNode blake3 p.2))

/-- `collect_proof`: the steps pushed and the slot found. -/
def collectProof : List Byte → Node → List ProofStep × Option BalanceSlot
  | [], .leaf slot => ([], some slot)
  | [], _ => ([], none)
  | b :: bs, .internal ch =>
      let step : ProofStep := ⟨b, siblingsOf blake3 b ch⟩
      match ch.lookup b with
      | some child =>
          let rest := collectProof bs child
          (step :: rest.1, rest.2)
      | none => ([step], none)
  | _ :: _, _ => ([], none)

/-- `StateTree::proof`. -/
def StateTree.proof (t : StateTree) (addr : Address) : Proof :=
  let found := collectProof blake3 addr.val t.node
  ⟨found.1, found.2⟩

/-- The child commitments the verifier hashes at one level: the siblings, with the commitment
from the level below put in, if there is one. -/
def combined (step : ProofStep) (current : Option Commitment) : OrdMap Byte Commitment :=
  match current with
  | some c => step.siblings.insert step.byte c
  | none => step.siblings

/-- The verifier's bottom-up reconstruction. -/
def reconstruct (path : List ProofStep) (bottom : Option Commitment) : Option Commitment :=
  path.foldr (fun step current => some (blake3 (internalInput (combined step current).entries)))
    bottom

/-- `StateTree::verify`. -/
def verify (root : Commitment) (addr : Address) (slotOpt : Option BalanceSlot) (proof : Proof) :
    Bool :=
  if proof.slot ≠ slotOpt then false
  else if proof.path.length > addr.val.length then false
  else if !(proof.path.zip addr.val).all fun p => p.1.byte == p.2 then false
  else if proof.slot.isSome && proof.path.length != addr.val.length then false
  else if proof.path.isEmpty then proof.slot.isNone && root == emptyCommitment blake3
  else
    reconstruct blake3 proof.path (proof.slot.map fun slot => commitNode blake3 (.leaf slot)) ==
      some root

end Hash

end SuwappuDb
