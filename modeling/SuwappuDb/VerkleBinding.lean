import SuwappuDb.StateTreeProof
import SuwappuDb.Verkle

/-!
# What a Verkle root says about the tree

The commitments carry no tags, so the empty node, a leaf with balance zero and an internal node over
such leaves are one point, the identity. What a root stands for is therefore a function from
addresses to balances that is zero where there is no entry, and not which addresses have one.

* `pointOf` — the point that commits to such a function, by recursion on the length of the paths.
* `commitNodeInner_eq_pointOf` — the commitment of a trie is that of its balances. No assumption on
  the scheme.
* `balanceAt_eq_of_commitNodeInner_eq` — equal commitments have equal balances, when the scheme
  binds.
* `rootVia_fromEntries_eq_iff` — both, for entry lists.

That commitments bind and that the scalars of points tell them apart is assumed of the nodes at
hand: there are more vectors than points, and more points than scalars.
-/

namespace SuwappuDb

/-! ## Children and balances -/

/-- The node below `n` at byte `b`, empty if there is none. -/
def Node.child (n : Node) (b : Byte) : Node := (n.children.lookup b).getD .empty

theorem getPath_empty (bs : List Byte) : getPath bs .empty = none := by
  cases bs <;> rfl

theorem getPath_cons (n : Node) (b : Byte) (bs : List Byte) :
    getPath (b :: bs) n = getPath bs (n.child b) := by
  cases n with
  | empty => exact (getPath_empty bs).symm
  | leaf slot => exact (getPath_empty bs).symm
  | internal ch =>
      rw [getPath_internal, Node.child, Node.children]
      cases ch.lookup b with
      | none => exact (getPath_empty bs).symm
      | some child => rfl

theorem ShapedRoot.child {h : Nat} {n : Node} (hn : ShapedRoot (h + 1) n) (b : Byte) :
    ShapedRoot h (n.child b) := by
  rcases hn with rfl | ⟨ch, rfl, -, hsorted, hall⟩
  · exact Or.inl rfl
  · rw [Node.child, Node.children]
    cases hlook : ch.lookup b with
    | none => exact Or.inl rfl
    | some child => exact Or.inr (Shaped.of_lookup hsorted hall hlook)

/-- The balance at a path below a node, zero where nothing is stored. -/
def balanceAt (n : Node) (bs : List Byte) : U128 :=
  ((getPath bs n).map BalanceSlot.canonical).getD 0

theorem balanceAt_cons (n : Node) (b : Byte) (bs : List Byte) :
    balanceAt n (b :: bs) = balanceAt (n.child b) bs := by
  rw [balanceAt, getPath_cons, balanceAt]

theorem balanceAt_empty (bs : List Byte) : balanceAt .empty bs = 0 := by
  rw [balanceAt, getPath_empty]
  rfl

/-- Both limbs together are the number. -/
theorem eq_of_limbs {u v : U128} (hlow : lowLimb u = lowLimb v) (hhigh : highLimb u = highLimb v) :
    u = v := by
  have hlow' : u.val % 2 ^ 64 = v.val % 2 ^ 64 := congrArg Fin.val hlow
  have hhigh' : u.val / 2 ^ 64 % 2 ^ 64 = v.val / 2 ^ 64 % 2 ^ 64 := congrArg Fin.val hhigh
  have hu := u.isLt
  have hv := v.isLt
  exact Fin.ext (by omega)

/-! ## The nodes of a tree -/

mutual

/-- A node and everything below it. -/
def subnodes : Node → List Node
  | .empty => [.empty]
  | .leaf slot => [.leaf slot]
  | .internal children => .internal children :: childSubnodes children

/-- Everything below some children. -/
def childSubnodes : List (Byte × Node) → List Node
  | [] => []
  | (_, child) :: rest => subnodes child ++ childSubnodes rest

end

/-- The nodes a tree can be descended to, the empty one among them. -/
def nodesBelow (n : Node) : List Node := .empty :: subnodes n

theorem mem_nodesBelow (n : Node) : n ∈ nodesBelow n := by
  cases n <;> simp [nodesBelow, subnodes]

theorem subnodes_subset_childSubnodes {ch : List (Byte × Node)} {p : Byte × Node} (h : p ∈ ch) :
    subnodes p.2 ⊆ childSubnodes ch := by
  induction ch with
  | nil => cases h
  | cons q rest ih =>
      obtain ⟨b, child⟩ := q
      rw [childSubnodes]
      rcases List.mem_cons.1 h with rfl | h
      · exact List.subset_append_left _ _
      · exact List.Subset.trans (ih h) (List.subset_append_right _ _)

theorem nodesBelow_child {h : Nat} {n : Node} (hn : ShapedRoot (h + 1) n) (b : Byte) :
    nodesBelow (n.child b) ⊆ nodesBelow n := by
  have hempty : nodesBelow .empty ⊆ nodesBelow n := by
    intro m hm
    rw [nodesBelow, subnodes, List.mem_cons, List.mem_singleton, or_self] at hm
    rw [hm]
    exact List.mem_cons_self
  rcases hn with rfl | ⟨ch, rfl, -, hsorted, -⟩
  · exact hempty
  · rw [Node.child, Node.children]
    cases hlook : ch.lookup b with
    | none => exact hempty
    | some child =>
        have hmem := (lookup_eq_some_iff hsorted.nodup_keys).1 hlook
        refine List.cons_subset_cons _ ?_
        rw [subnodes]
        exact List.subset_cons_of_subset _ (subnodes_subset_childSubnodes hmem)

section Verkle

variable {Fr Element IpaProof : Type} {bw : Banderwagon Fr Element IpaProof}

namespace Banderwagon

/-! ## The vector of a node -/

variable (bw) in
/-- The vector a node's commitment commits to. -/
def evaluations : Node → Byte → Fr
  | .empty => fun _ => bw.frZero
  | .leaf slot => bw.leafEvaluations slot
  | .internal children => evaluationsOf (bw.frFrom 0) (bw.childScalars children)

theorem Lawful.commitNodeInner_eq (hlaw : bw.Lawful) (n : Node) :
    bw.commitNodeInner n = bw.commitLagrange (bw.evaluations n) := by
  cases n with
  | empty =>
      rw [commitNodeInner]
      exact hlaw.commitLagrange_zero.symm
  | leaf slot => rw [commitNodeInner, evaluations]
  | internal ch => rw [commitNodeInner, evaluations]

theorem lookup_childScalars (ch : List (Byte × Node)) (b : Byte) :
    (bw.childScalars ch).lookup b =
      (ch.lookup b).map fun child => bw.mapToScalarField (bw.commitNodeInner child) := by
  induction ch with
  | nil => rfl
  | cons p rest ih =>
      obtain ⟨k, child⟩ := p
      rw [childScalars, lookup_cons_ite, lookup_cons_ite, ih]
      split_ifs <;> rfl

/-- Above the leaves, the entry of a vector is the scalar of the child, an absent child counting as
empty. -/
theorem Lawful.evaluations_eq (hlaw : bw.Lawful) {h : Nat} {n : Node} (hn : ShapedRoot (h + 1) n)
    (b : Byte) :
    bw.evaluations n b = bw.mapToScalarField (bw.commitNodeInner (n.child b)) := by
  have hzero : bw.mapToScalarField (bw.commitNodeInner .empty) = bw.frZero := by
    rw [commitNodeInner, hlaw.mapToScalarField_zero]
  rcases hn with rfl | ⟨ch, rfl, -⟩
  · exact hzero.symm
  · rw [evaluations, evaluationsOf, lookup_childScalars, Node.child, Node.children]
    cases ch.lookup b with
    | none => exact hlaw.frFrom_zero.trans hzero.symm
    | some child => rfl

theorem Lawful.leafEvaluations_zero (hlaw : bw.Lawful) :
    bw.leafEvaluations (BalanceSlot.new 0) = fun _ => bw.frZero := by
  funext i
  have hlow : lowLimb (BalanceSlot.new 0).canonical = 0 := rfl
  have hhigh : highLimb (BalanceSlot.new 0).canonical = 0 := rfl
  rw [leafEvaluations, hlow, hhigh, hlaw.frFrom_zero, ite_self, ite_self]

/-- At the leaves, the vector is that of the balance, an absent leaf counting as zero. -/
theorem Lawful.evaluations_leaf (hlaw : bw.Lawful) {n : Node} (hn : ShapedRoot 0 n) :
    bw.evaluations n = bw.leafEvaluations (BalanceSlot.new (balanceAt n [])) := by
  rcases hn with rfl | ⟨slot, rfl⟩
  · rw [balanceAt_empty, hlaw.leafEvaluations_zero]
    rfl
  · rfl

/-! ## The commitment of a function -/

variable (bw) in
/-- The point that commits to a function from paths of length `h` to balances. -/
def pointOf : Nat → (List Byte → U128) → Element
  | 0, f => bw.commitLagrange (bw.leafEvaluations (BalanceSlot.new (f [])))
  | h + 1, f =>
      bw.commitLagrange fun b => bw.mapToScalarField (pointOf h fun bs => f (b :: bs))

theorem pointOf_congr {h : Nat} {f g : List Byte → U128}
    (hfg : ∀ bs, bs.length = h → f bs = g bs) : bw.pointOf h f = bw.pointOf h g := by
  induction h generalizing f g with
  | zero => rw [pointOf, pointOf, hfg [] rfl]
  | succ h ih =>
      have hchild : ∀ b, bw.pointOf h (fun bs => f (b :: bs)) =
          bw.pointOf h fun bs => g (b :: bs) := fun b => ih fun bs hbs => hfg _ (by simp [hbs])
      simp only [pointOf, hchild]

/-- The commitment of a trie is that of its balances. -/
theorem Lawful.commitNodeInner_eq_pointOf (hlaw : bw.Lawful) {h : Nat} {n : Node}
    (hn : ShapedRoot h n) : bw.commitNodeInner n = bw.pointOf h (balanceAt n) := by
  induction h generalizing n with
  | zero => rw [hlaw.commitNodeInner_eq, hlaw.evaluations_leaf hn, pointOf]
  | succ h ih =>
      rw [hlaw.commitNodeInner_eq, pointOf]
      congr 1
      funext b
      rw [hlaw.evaluations_eq hn, ih (hn.child b)]
      simp only [balanceAt_cons]

/-! ## Binding -/

variable (bw) in
/-- No two different vectors of the nodes have one commitment. -/
def Binding (nodes : List Node) : Prop :=
  ∀ n ∈ nodes, ∀ n' ∈ nodes, bw.commitLagrange (bw.evaluations n) =
    bw.commitLagrange (bw.evaluations n') → bw.evaluations n = bw.evaluations n'

variable (bw) in
/-- No two different points have one scalar. -/
def ScalarInjective (elements : List Element) : Prop :=
  ∀ e ∈ elements, ∀ e' ∈ elements, bw.mapToScalarField e = bw.mapToScalarField e' → e = e'

theorem Lawful.leafEvaluations_inj (hlaw : bw.Lawful) {u v : U128}
    (h : bw.leafEvaluations (BalanceSlot.new u) = bw.leafEvaluations (BalanceSlot.new v)) :
    u = v :=
  eq_of_limbs (hlaw.frFrom_injective (congrFun h 0)) (hlaw.frFrom_injective (congrFun h 1))

theorem Lawful.evaluations_eq_of_commitNodeInner_eq (hlaw : bw.Lawful) {nodes : List Node}
    (hbind : bw.Binding nodes) {n n' : Node} (hn : n ∈ nodes) (hn' : n' ∈ nodes)
    (heq : bw.commitNodeInner n = bw.commitNodeInner n') :
    bw.evaluations n = bw.evaluations n' := by
  rw [hlaw.commitNodeInner_eq, hlaw.commitNodeInner_eq] at heq
  exact hbind n hn n' hn' heq

/-- Tries with one commitment have the same balances. -/
theorem Lawful.balanceAt_eq_of_commitNodeInner_eq (hlaw : bw.Lawful) {nodes : List Node}
    (hbind : bw.Binding nodes) (hscalar : bw.ScalarInjective (nodes.map bw.commitNodeInner))
    {h : Nat} {n n' : Node} (hn : ShapedRoot h n) (hn' : ShapedRoot h n')
    (hin : nodesBelow n ⊆ nodes) (hin' : nodesBelow n' ⊆ nodes)
    (heq : bw.commitNodeInner n = bw.commitNodeInner n') (bs : List Byte) (hbs : bs.length = h) :
    balanceAt n bs = balanceAt n' bs := by
  induction h generalizing n n' bs with
  | zero =>
      have hvector := hlaw.evaluations_eq_of_commitNodeInner_eq hbind (hin (mem_nodesBelow n))
        (hin' (mem_nodesBelow n')) heq
      obtain rfl := List.eq_nil_of_length_eq_zero hbs
      rw [hlaw.evaluations_leaf hn, hlaw.evaluations_leaf hn'] at hvector
      exact hlaw.leafEvaluations_inj hvector
  | succ h ih =>
      have hvector := hlaw.evaluations_eq_of_commitNodeInner_eq hbind (hin (mem_nodesBelow n))
        (hin' (mem_nodesBelow n')) heq
      obtain ⟨b, bs, rfl⟩ := List.exists_cons_of_length_eq_add_one hbs
      have hsub := List.Subset.trans (nodesBelow_child hn b) hin
      have hsub' := List.Subset.trans (nodesBelow_child hn' b) hin'
      -- The vectors agree at `b`, so the children there have one scalar, and by that one point.
      have hchild : bw.commitNodeInner (n.child b) = bw.commitNodeInner (n'.child b) := by
        refine hscalar _ (List.mem_map_of_mem (hsub (mem_nodesBelow _))) _
          (List.mem_map_of_mem (hsub' (mem_nodesBelow _))) ?_
        rw [← hlaw.evaluations_eq hn, ← hlaw.evaluations_eq hn', hvector]
      rw [balanceAt_cons, balanceAt_cons]
      exact ih (hn.child b) (hn'.child b) hsub hsub' hchild bs (by simpa using hbs)

theorem Lawful.toBytes_injective (hlaw : bw.Lawful) : Function.Injective bw.toBytes := by
  intro e e' h
  have hsome := congrArg bw.fromBytes h
  rw [hlaw.fromBytes_toBytes, hlaw.fromBytes_toBytes] at hsome
  exact Option.some.inj hsome

end Banderwagon

/-! ## Roots -/

/-- The balance of an address after a list of entries, zero where there is none. -/
def lastBalance (entries : List (Address × BalanceSlot)) (a : Address) : U128 :=
  (((lastWrites entries).get? a).map BalanceSlot.canonical).getD 0

theorem balanceAt_fromEntries (entries : List (Address × BalanceSlot)) (a : Address) :
    balanceAt (StateTree.fromEntries entries).node a.val = lastBalance entries a := by
  rw [lastBalance, ← StateTree.get_fromEntries]
  rfl

/-- A tree whose root is that of the empty tree has no balances. -/
theorem Banderwagon.Lawful.balanceAt_eq_zero (hlaw : bw.Lawful) {t : StateTree}
    (hbind : bw.Binding (nodesBelow t.node))
    (hscalar : bw.ScalarInjective ((nodesBelow t.node).map bw.commitNodeInner))
    (hroot : t.rootVia bw = zeroCommitment) (addr : Address) :
    balanceAt t.node addr.val = 0 := by
  have hpoint : bw.commitNodeInner t.node = bw.commitNodeInner .empty := by
    rw [← hlaw.toBytes_zero] at hroot
    rw [hlaw.toBytes_injective hroot, Banderwagon.commitNodeInner]
  rw [hlaw.balanceAt_eq_of_commitNodeInner_eq hbind hscalar t.shaped (Or.inl rfl)
    (List.Subset.refl _) (by simp [nodesBelow, subnodes]) hpoint addr.val addr.property,
    balanceAt_empty]

/-- Verkle roots are equal exactly when all balances are, an address without an entry having balance
zero. -/
theorem rootVia_fromEntries_eq_iff (bw : Banderwagon Fr Element IpaProof) (hlaw : bw.Lawful)
    (l₁ l₂ : List (Address × BalanceSlot))
    (hbind : bw.Binding (nodesBelow (StateTree.fromEntries l₁).node ++
      nodesBelow (StateTree.fromEntries l₂).node))
    (hscalar : bw.ScalarInjective ((nodesBelow (StateTree.fromEntries l₁).node ++
      nodesBelow (StateTree.fromEntries l₂).node).map bw.commitNodeInner)) :
    (StateTree.fromEntries l₁).rootVia bw = (StateTree.fromEntries l₂).rootVia bw ↔
      ∀ a, lastBalance l₁ a = lastBalance l₂ a := by
  have hshaped₁ := (StateTree.fromEntries l₁).shaped
  have hshaped₂ := (StateTree.fromEntries l₂).shaped
  simp only [← balanceAt_fromEntries]
  constructor
  · intro heq a
    exact hlaw.balanceAt_eq_of_commitNodeInner_eq hbind hscalar hshaped₁ hshaped₂
      (List.subset_append_left _ _) (List.subset_append_right _ _) (hlaw.toBytes_injective heq)
      a.val a.property
  · intro hsame
    rw [StateTree.rootVia, StateTree.rootVia, hlaw.commitNodeInner_eq_pointOf hshaped₁,
      hlaw.commitNodeInner_eq_pointOf hshaped₂]
    exact congrArg bw.toBytes (Banderwagon.pointOf_congr fun bs hbs => hsame ⟨bs, hbs⟩)

end Verkle

/-! ## A tree with real commitments

The tree with 100 at the zero address: its commitments and their scalars, and the inner product
argument for its root at index 0. Only the first entry of a vector in it is not zero. -/

/-- The commitments of the nodes from the leaf up. -/
def zeroPoints : List Commitment := [
  0x131ce8efef0da24f663372607c195854a41ca9646f2f87553f1957b2e5f1ffd1,
  0x066ededc35f034973c35581e08fe026aa9cd3de9730763299e35d1a51af1e259,
  0x33a7baefc5eb1d9f151d4c2440ac1298d76a24d161beb8b933cffce8a20ae79a,
  0x192099cfc65c1403891472667dd05686af14201d82bec564a0d4bff1dfbd6746,
  0x59f3edfd4c861ddd64fbe804915ce6a9f2e75dfa96d06e618bb76dc58486359e,
  0x3a41ba6913aa134ca081acd1248ec2109c68ec4bce8c760d12ec6b35e603539d,
  0x05497697c37775da9098b24073a6adc75bb6175f8eed01814f847bbc8de531be,
  0x4dd4e8fc1d47823e77d52ef2e8d49481c181fa7d5caf90e736d76f9febab11ee,
  0x4e72169c2011f83464ac7d0be01733b2d4c5e42784d066f4e9e2b1350c855f6c,
  0x11a7d4e5862a504faad0af13a72f6d3f630d0bcf4119aaf4a5dd864909d5491b,
  0x6548c8b9ed64afece271393c1d38a01b1c63307c1e1f0a65d0a3ef85ab147694,
  0x5231b066ec7f9afa3557f781984add32b51e9899dfa8d18da316794b77ecf27f,
  0x02506fc230d09eca5f2cc89f5cf46092c09c525c1018b40eeb85adffa66ef324,
  0x5d2989dc3e076cde39b8a5914c4056d2d7418f60557a979fb02f4c437c9a400b,
  0x5138cc59cfec44b81f61e0b29586d3c4557044f0e0547525ef182188be60f6ae,
  0x0f9d3bfc3479405c417c5e722dd4f2c9cec0c96df74d9f2ba8940684b03e6268,
  0x584c7fd9b8c5c33d488e12049e9b326c6d7ccd44567ed4cbf23dcacf3384f8a9,
  0x50f2c98406e165b63351eb4df6db23467319e38187a425151ddc956d69ddfaca,
  0x5329ba39ca7cf5a913be355ee8f9812a3819d950bfe6f68e33c7ae339dba29b9,
  0x3b8d33d1bed7b26c713d2cd18a37c3780f50cf7507a002570cdfa23dd7ec9020,
  0x1fdf030f3433eca4426f30ce8ca9d1cd949e130110732e13923f9ea86a1b5a48].map digestOf

/-- Their scalars, least significant byte first. -/
def zeroScalars : List (ByteArr 32) := [
  0xfd0bbae626b50cf75556f0f10af0bd30eac87a89233ea82ccb4eb5e54e6c3c15,
  0x4f19433a0b87f5f800f4acfc0bc512685f86266918205be3d399250116211115,
  0x773a9db14e4ae72637f0a91a624c3208f99364cecf3c81efecd550eeb2b7ba1a,
  0x9149648b671fbf2ee7ca6bb92690bbda49c029cdda199ae4e2efac28c63b9201,
  0x1d05e4e23f49b5e1496929d0350f997f2502dae5ff4ae8651ce93854da47db08,
  0x16582383f4f9b0bd8338f3a35659d0c2d61352322ad6d6bb24387afb02090019,
  0xba1581c954c753ba2ca505bc71165c2e52b89ae169a985c1cb9c025d4a33db00,
  0xa37cb253f65158d83c95e277b9ed1ba38fcced324a9594b3dfa676109007f615,
  0x00a954c3f30b352864fba8760b33d3e271155826bfaa13afd0c694c5fc437218,
  0x1deb18209b1f6beaad3d3bc2703fcbfc7a8387e4cc6a55a75387cac333720c10,
  0xd91658a8a385f388b7d8aff5a8db14af0dacc802e0d5afc4035791c174533a0e,
  0x4c4f50f04a12b8cb4120b17fe783c2c80b7e38f50146e7a73b79f4b5c302b413,
  0x4e9de2a424d56531cc5c14137bede5f458750530c20a4eba67bba28c615cfb17,
  0xbbecb4b2873df47a059f6d0ea65bcf13c2f355d2baac51319409c306b2a7370c,
  0xc92c0c840b030f0e31db7689ccc031e8beddb113a4737120d12f79e4e91b1512,
  0x5896c579a2d33d10511dae348dddcbc51028b20ad0160e49a6694a1d11047e11,
  0xb7beb16b7db1a110de0caafa9bf6dbd285625600b8fbfcea4150ac8f93843b08,
  0xd8ff29acf126c50aae39e851c8b0a074cfd3d12956a5633fcb08a1f75c7d0516,
  0x189f9b366a06c87677b41c41555f8df72f5fb8923fc9f01c0eaaa50c70440f08,
  0xc751b23cd6ce47b10ee0f4adc123c669ac911db2cf486f59f0e0e157baa9cc05,
  0x5a8fe9eb3a488fc2ad04f543a86c663ec818632e097b5b835bc105cd69f86010].map digestOf

/-- The argument for the root: eight points on the left that are zero, eight on the right, and the
final scalar. -/
def zeroRootProof : List Byte :=
  List.replicate 256 0 ++ [
  0x0c61b7ad9c9ee4fe7678e49f6907b59fd1707004f3a147848876e4bc6ae74926,
  0x4ed69fafbbe992d5b2fe9cb07dd997ba54a18ca277aebc45e817b4ca81c556d3,
  0x6ebdcce5b81b144f11d9c6353356721a574537a8fdca6a8428f9f4bbf84d80f0,
  0x0ba6b9d538bdd69d6a8adbe31395c92f3bbd0f620a383fb3d0a0a58e2e50368c,
  0x055a181ac0ed526d90a563f5285b311692203750b7e5d73f9ab1def38fe689f5,
  0x1da26a28152a7fe60172745a3a671aa09bcc921577b7e37f119acafb24e86f42,
  0x017558e657f2ce95701a36664f4d752e1a474815e758ac6649b31e5c72098541,
  0x07040d6b5ca46791f33e9e220523a1c66b30766033d7ec5a414361780fd958ff,
  0xc751b23cd6ce47b10ee0f4adc123c669ac911db2cf486f59f0e0e157baa9cc05].flatMap (beBytes 32)

theorem length_scalarBytes (v : U64) :
    ((beBytes 8 v.val).reverse ++ List.replicate 24 0).length = 32 := by
  simp

/-- A small scalar, least significant byte first. -/
def scalarBytes (v : U64) : ByteArr 32 :=
  ⟨(beBytes 8 v.val).reverse ++ List.replicate 24 0, length_scalarBytes v⟩

/-- The scalars of the points, the identity first. -/
def pointScalars : List (List Byte × Commitment) :=
  (zeroCommitment.val, zeroCommitment) :: (zeroPoints.map Subtype.val).zip zeroScalars

/-- The commitments to vectors with one entry, by the entry. -/
def scalarPoints : List (List Byte × Commitment) :=
  (zeroCommitment.val, zeroCommitment) ::
    ((scalarBytes 100 :: zeroScalars).map Subtype.val).zip zeroPoints

/-- The arguments known: the one for the zero vector, at any index, and the one for the root. -/
inductive KnownProof where
  | zero
  | root

def KnownProof.toBytes : KnownProof → List Byte
  | .zero => List.replicate 544 0
  | .root => zeroRootProof

/-- The curve and the argument, as far as the tree needs them. -/
def knownBanderwagon : Banderwagon (ByteArr 32) (ByteArr 32) KnownProof where
  frZero := zeroCommitment
  frFrom := scalarBytes
  serialize := id
  deserialize := some
  zero := zeroCommitment
  toBytes := id
  fromBytes := some
  mapToScalarField e := tableHash pointScalars e.val
  commitLagrange a := tableHash scalarPoints (a 0).val
  ipaCreate a _ _ _ := if a 0 = zeroCommitment then .zero else .root
  ipaToBytes := KnownProof.toBytes
  ipaFromBytes bytes := some ([KnownProof.zero, .root].find? fun proof => proof.toBytes = bytes)
  ipaVerify proof _ aComm inputPoint outputPoint :=
    match proof with
    | .zero => some (aComm = zeroCommitment ∧ outputPoint = zeroCommitment)
    | .root => some (some aComm = zeroPoints[20]? ∧ inputPoint = scalarBytes 0 ∧
        some outputPoint = zeroScalars[19]?)

theorem knownBanderwagon_lawful : knownBanderwagon.Lawful where
  frFrom_zero := by decide
  frFrom_injective v w h := by
    have hbytes := List.append_cancel_right (congrArg Subtype.val h)
    exact Fin.ext (beBytes_inj v.isLt w.isLt (List.reverse_injective hbytes))
  deserialize_serialize _ := rfl
  toBytes_zero := rfl
  fromBytes_toBytes _ := rfl
  mapToScalarField_zero := by decide +kernel
  commitLagrange_zero := by decide +kernel

/-- Every entry but the first is zero. -/
def firstOnly : Node → Bool
  | .empty => true
  | .leaf slot => highLimb slot.canonical = 0
  | .internal children =>
      (knownBanderwagon.childScalars children).all fun p => p.1 = 0 ∨ p.2 = zeroCommitment

theorem evaluations_of_firstOnly {n : Node} (h : firstOnly n) {i : Byte} (hi : i ≠ 0) :
    knownBanderwagon.evaluations n i = zeroCommitment := by
  have hzero : scalarBytes 0 = zeroCommitment := by decide
  cases n with
  | empty => rfl
  | leaf slot =>
      have hhigh : highLimb slot.canonical = 0 := of_decide_eq_true h
      rw [Banderwagon.evaluations, Banderwagon.leafEvaluations, if_neg hi, hhigh, ite_self]
      exact hzero
  | internal ch =>
      rw [Banderwagon.evaluations, Banderwagon.evaluationsOf]
      cases hlook : (knownBanderwagon.childScalars ch).lookup i with
      | none => exact hzero
      | some x =>
          obtain ⟨l₁, l₂, hl, -⟩ := List.lookup_eq_some_iff.1 hlook
          have hmem : (i, x) ∈ knownBanderwagon.childScalars ch := by
            rw [hl]
            simp
          have hentry := of_decide_eq_true (List.all_eq_true.1 h _ hmem)
          exact hentry.resolve_left hi

/-- The tables have the node: its vector has one entry, which has a known commitment, and that has
a known scalar. -/
def knownNode (n : Node) : Bool :=
  firstOnly n ∧ (knownBanderwagon.evaluations n 0).val ∈ scalarPoints.map Prod.fst ∧
    (knownBanderwagon.commitNodeInner n).val ∈ pointScalars.map Prod.fst

theorem binding_known {nodes : List Node} (h : ∀ n ∈ nodes, knownNode n) :
    knownBanderwagon.Binding nodes := by
  intro n hn n' hn' heq
  obtain ⟨hrest, hfirst, -⟩ := of_decide_eq_true (h n hn)
  obtain ⟨hrest', hfirst', -⟩ := of_decide_eq_true (h n' hn')
  have hinputs : [(knownBanderwagon.evaluations n 0).val, (knownBanderwagon.evaluations n' 0).val] ⊆
      scalarPoints.map Prod.fst := by
    simp [hfirst, hfirst']
  have hcf : CollisionFree (tableHash scalarPoints) _ :=
    collisionFree_tableHash (by decide +kernel) hinputs
  funext i
  by_cases hi : i = 0
  · subst hi
    exact Subtype.ext (hcf _ (by simp) _ (by simp) heq)
  · rw [evaluations_of_firstOnly hrest hi, evaluations_of_firstOnly hrest' hi]

theorem scalarInjective_known {nodes : List Node} (h : ∀ n ∈ nodes, knownNode n)
    (decoded : List (ByteArr 32)) (hdecoded : decoded.map Subtype.val ⊆ pointScalars.map Prod.fst) :
    knownBanderwagon.ScalarInjective (nodes.map knownBanderwagon.commitNodeInner ++ decoded) := by
  have hinputs : (nodes.map knownBanderwagon.commitNodeInner ++ decoded).map Subtype.val ⊆
      pointScalars.map Prod.fst := by
    rw [List.map_append, List.map_map]
    refine List.append_subset.2 ⟨fun x hx => ?_, hdecoded⟩
    obtain ⟨n, hn, rfl⟩ := List.mem_map.1 hx
    exact (of_decide_eq_true (h n hn)).2.2
  intro e he e' he' heq
  have hcf : CollisionFree (tableHash pointScalars) _ :=
    collisionFree_tableHash (by decide +kernel) hinputs
  exact Subtype.ext (hcf _ (List.mem_map_of_mem he) _ (List.mem_map_of_mem he') heq)

theorem knownNode_zeroEntries :
    ∀ n ∈ nodesBelow (StateTree.fromEntries zeroEntries).node, knownNode n := by
  decide +kernel

/-- The zero address holds 100 and another one nothing, by an entry. -/
def paddedEntries : List (Address × BalanceSlot) :=
  zeroEntries ++ [(smallAddress 1, BalanceSlot.new 0)]

theorem knownNode_paddedEntries :
    ∀ n ∈ nodesBelow (StateTree.fromEntries paddedEntries).node, knownNode n := by
  decide +kernel

/-- An entry with balance zero is none to the root. -/
theorem rootVia_padded_entries :
    (StateTree.fromEntries zeroEntries).rootVia knownBanderwagon =
      (StateTree.fromEntries paddedEntries).rootVia knownBanderwagon := by
  have hknown := List.forall_mem_append.2 ⟨knownNode_zeroEntries, knownNode_paddedEntries⟩
  have hscalar := scalarInjective_known hknown [] (List.nil_subset _)
  rw [List.append_nil] at hscalar
  refine (rootVia_fromEntries_eq_iff knownBanderwagon knownBanderwagon_lawful zeroEntries
    paddedEntries (binding_known hknown) hscalar).2 fun a => ?_
  by_cases ha : a = smallAddress 1
  · subst ha
    decide +kernel
  · have hget : (lastWrites paddedEntries).get? a = (lastWrites zeroEntries).get? a :=
      (OrdMap.get?_insert _ _ _ _).trans (if_neg ha)
    rw [lastBalance, lastBalance, hget]

end SuwappuDb
