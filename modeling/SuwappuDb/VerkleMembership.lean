import SuwappuDb.MembershipProof
import SuwappuDb.VerkleBinding

/-!
# What a verified Verkle proof says

`StateTree::verify_verkle` against the balances of the tree behind the root.

* `verifyVerkle_verkleProof` — the honest proof verifies, for a stored address or not.
* `verkle_inclusion_iff` — what a verified slot means. Only its low limb is compared with the tree,
  and the vector of a leaf that is not there is that of a balance of zero.
* `verkle_absence_iff` — what a verified absence means. The verifier never looks at the value the
  last opening claims, so the first openings of an inclusion proof pass as a proof of absence.

The openings of all three go down the trie (`OpensPath`): each one is of the node it has reached, at
the next byte of the address, and claims what that node's vector has there. The leaf is opened at
index 0, so that an inclusion follows the address with a zero at its end.
-/

namespace SuwappuDb

/-- The openings a proof carries. -/
def VerkleProof.openings (proof : VerkleProof) : List IpaOpening :=
  (proof.ipaWitness.map IpaWitness.openings).getD []

section Verkle

variable {Fr Element IpaProof : Type} {bw : Banderwagon Fr Element IpaProof}

/-! ## Down the trie -/

theorem Banderwagon.Lawful.commitmentToElement_toBytes (hlaw : bw.Lawful) (e : Element) :
    bw.commitmentToElement (bw.toBytes e) = some e := by
  rw [Banderwagon.commitmentToElement]
  split_ifs with hzero
  · rw [← hlaw.toBytes_zero] at hzero
    rw [hlaw.toBytes_injective hzero]
  · exact hlaw.fromBytes_toBytes e

variable (bw) in
/-- Openings at the given indices of the nodes from `n` down, with what is in their vectors. -/
def OpensPath : Node → List Byte → List IpaOpening → Prop
  | _, _, [] => True
  | _, [], _ :: _ => False
  | n, i :: is, o :: rest =>
      bw.commitmentToElement o.commitment = some (bw.commitNodeInner n) ∧ o.domainIndex = i ∧
      bw.claimedValueToFr o.claimedValue = some (bw.evaluations n i) ∧
      OpensPath (n.child i) is rest

theorem opensPath_nil (n : Node) (is : List Byte) : OpensPath bw n is [] := by
  cases is <;> exact trivial

theorem OpensPath.first {n : Node} {is : List Byte} {o : IpaOpening} {rest : List IpaOpening}
    (h : OpensPath bw n is (o :: rest)) :
    bw.commitmentToElement o.commitment = some (bw.commitNodeInner n) := by
  cases is with
  | nil => exact absurd h (by simp [OpensPath])
  | cons i is => exact h.1

theorem OpensPath.indices {n : Node} {is : List Byte} {openings : List IpaOpening}
    (h : OpensPath bw n is openings) : openings.map IpaOpening.domainIndex <+: is := by
  induction openings generalizing n is with
  | nil => exact List.nil_prefix
  | cons o rest ih =>
      cases is with
      | nil => exact absurd h (by simp [OpensPath])
      | cons i is =>
          obtain ⟨-, hindex, -, hrest⟩ := h
          exact List.cons_prefix_cons.2 ⟨hindex, ih hrest⟩

/-- The leaf opening claims the low limb of the balance. -/
theorem OpensPath.last (hlaw : bw.Lawful) {bs : List Byte} {n : Node}
    (hn : ShapedRoot bs.length n) {first : IpaOpening} {rest : List IpaOpening}
    (hopens : OpensPath bw n (bs ++ [0]) (first :: rest)) (hlen : rest.length = bs.length) :
    bw.claimedValueToFr (rest.getLastD first).claimedValue =
      some (bw.frFrom (lowLimb (balanceAt n bs))) := by
  induction bs generalizing n first rest with
  | nil =>
      obtain rfl := List.eq_nil_of_length_eq_zero hlen
      obtain ⟨-, -, hclaimed, -⟩ := hopens
      rw [hlaw.evaluations_leaf hn] at hclaimed
      exact hclaimed
  | cons b bs ih =>
      obtain ⟨next, rest, rfl⟩ := List.exists_cons_of_length_eq_add_one hlen
      obtain ⟨-, -, -, hrest⟩ := hopens
      rw [List.getLastD_cons, balanceAt_cons]
      exact ih (hn.child b) hrest (by simpa using hlen)

/-! ## The prover -/

variable (bw) in
/-- The honest opening of a node. -/
def openingOf (n : Node) (i : Byte) : IpaOpening :=
  bw.proveOpening (bw.evaluations n) (bw.commitLagrange (bw.evaluations n)) i

variable (bw) in
/-- Honest openings of the nodes verify. -/
def HonestOpenings (nodes : List Node) : Prop :=
  ∀ n ∈ nodes, ∀ i, bw.verifyOpening (openingOf bw n i) = some true

namespace Banderwagon

theorem collectIpaWitness_empty (finalSlot : Option BalanceSlot) (bs : List Byte) :
    bw.collectIpaWitness finalSlot bs .empty = [] := by
  cases bs <;> rfl

theorem Lawful.collectIpaWitness_cons (hlaw : bw.Lawful) (finalSlot : Option BalanceSlot)
    (ch : List (Byte × Node)) (b : Byte) (bs : List Byte) :
    bw.collectIpaWitness finalSlot (b :: bs) (.internal ch) =
      openingOf bw (.internal ch) b ::
        bw.collectIpaWitness finalSlot bs ((Node.internal ch).child b) := by
  rw [collectIpaWitness, openingOf, hlaw.commitNodeInner_eq, Node.child, Node.children, evaluations,
    hlaw.frFrom_zero]
  cases ch.lookup b with
  | none => rw [Option.getD_none, collectIpaWitness_empty]
  | some child => rfl

theorem Lawful.collectIpaWitness_leaf (hlaw : bw.Lawful) (finalSlot : Option BalanceSlot)
    (slot : BalanceSlot) :
    bw.collectIpaWitness finalSlot [] (.leaf slot) =
      if finalSlot.isSome then [openingOf bw (.leaf slot) 0] else [] := by
  rw [collectIpaWitness, openingOf, hlaw.commitNodeInner_eq, evaluations]

/-- The honest openings go down to the address. -/
theorem Lawful.collectIpaWitness_opensPath (hlaw : bw.Lawful) (finalSlot : Option BalanceSlot)
    {bs : List Byte} {n : Node} (hn : ShapedRoot bs.length n) :
    OpensPath bw n (bs ++ [0]) (bw.collectIpaWitness finalSlot bs n) := by
  have hopening : ∀ m i is rest, OpensPath bw (m.child i) is rest →
      OpensPath bw m (i :: is) (openingOf bw m i :: rest) := by
    intro m i is rest hrest
    refine ⟨?_, rfl, hlaw.deserialize_serialize _, hrest⟩
    rw [hlaw.commitNodeInner_eq]
    exact hlaw.commitmentToElement_toBytes _
  induction bs generalizing n with
  | nil =>
      rcases hn with rfl | ⟨slot, rfl⟩
      · exact opensPath_nil _ _
      · rw [hlaw.collectIpaWitness_leaf]
        split_ifs
        · exact hopening _ _ _ _ (opensPath_nil _ _)
        · exact opensPath_nil _ _
  | cons b bs ih =>
      have hchild := hn.child b
      rcases hn with rfl | ⟨ch, rfl, -⟩
      · exact opensPath_nil _ _
      · rw [hlaw.collectIpaWitness_cons]
        exact hopening _ _ _ _ (ih hchild)

/-- Every opening collected is an honest one of a node of the tree. -/
theorem Lawful.collectIpaWitness_verify (hlaw : bw.Lawful) (finalSlot : Option BalanceSlot)
    {nodes : List Node} (hhonest : HonestOpenings bw nodes) {bs : List Byte} {n : Node}
    (hn : ShapedRoot bs.length n) (hin : nodesBelow n ⊆ nodes) :
    ∀ o ∈ bw.collectIpaWitness finalSlot bs n, bw.verifyOpening o = some true := by
  intro o ho
  induction bs generalizing n with
  | nil =>
      rcases hn with rfl | ⟨slot, rfl⟩
      · cases ho
      · rw [hlaw.collectIpaWitness_leaf] at ho
        split_ifs at ho
        · rw [List.mem_singleton.1 ho]
          exact hhonest _ (hin (mem_nodesBelow _)) 0
        · cases ho
  | cons b bs ih =>
      have hchild := hn.child b
      have hsub := List.Subset.trans (nodesBelow_child hn b) hin
      rcases hn with rfl | ⟨ch, rfl, -⟩
      · cases ho
      · rw [hlaw.collectIpaWitness_cons] at ho
        rcases List.mem_cons.1 ho with rfl | ho
        · exact hhonest _ (hin (mem_nodesBelow _)) b
        · exact ih hchild hsub ho

/-- There is a leaf opening for a stored address and none for another. -/
theorem Lawful.length_collectIpaWitness (hlaw : bw.Lawful) {bs : List Byte} {n : Node}
    (hn : ShapedRoot bs.length n) (finalSlot : Option BalanceSlot)
    (hslot : finalSlot = getPath bs n) :
    if finalSlot.isSome then (bw.collectIpaWitness finalSlot bs n).length = bs.length + 1
    else (bw.collectIpaWitness finalSlot bs n).length ≤ bs.length := by
  induction bs generalizing n with
  | nil =>
      rcases hn with rfl | ⟨slot, rfl⟩
      · rw [hslot]
        exact Nat.le_refl _
      · rw [hlaw.collectIpaWitness_leaf, hslot]
        rfl
  | cons b bs ih =>
      have hchild := hn.child b
      rw [getPath_cons] at hslot
      rcases hn with rfl | ⟨ch, rfl, -⟩
      · have hnone : finalSlot = none := hslot.trans (getPath_empty bs)
        rw [hnone]
        exact Nat.zero_le _
      · rw [hlaw.collectIpaWitness_cons]
        simpa only [List.length_cons, Nat.add_right_cancel_iff, Nat.add_le_add_iff_right] using
          ih hchild hslot

/-- There is no opening for the empty tree, and the first one for another is of the root. -/
theorem Lawful.collectIpaWitness_first (hlaw : bw.Lawful) (t : StateTree) (addr : Address)
    (finalSlot : Option BalanceSlot) :
    bw.collectIpaWitness finalSlot addr.val t.node = [] ∧ t.node = .empty ∨
      ∃ first rest, bw.collectIpaWitness finalSlot addr.val t.node = first :: rest ∧
        first.commitment = t.rootVia bw := by
  obtain ⟨b, bs, hbs⟩ := List.exists_cons_of_length_eq_add_one addr.property
  rcases t.cases_shape with ⟨hempty, -⟩ | ⟨ch, hch, -⟩
  · rw [hempty, collectIpaWitness_empty]
    exact Or.inl ⟨rfl, rfl⟩
  · rw [StateTree.rootVia, hch, hbs, hlaw.collectIpaWitness_cons, hlaw.commitNodeInner_eq]
    exact Or.inr ⟨_, _, rfl, rfl⟩

end Banderwagon

/-! ## The verifier -/

theorem indicesMatch_eq_true_iff (openings : List IpaOpening) (bs : List Byte) :
    indicesMatch openings bs = some true ↔ openings.map IpaOpening.domainIndex <+: bs := by
  induction openings generalizing bs with
  | nil => simp [indicesMatch]
  | cons o rest ih =>
      cases bs with
      | nil => simp [indicesMatch]
      | cons b bs =>
          rw [indicesMatch, List.map_cons, List.cons_prefix_cons, ← ih]
          by_cases hb : o.domainIndex = b <;> simp [hb]

theorem verifyOpenings_eq_true_iff (openings : List IpaOpening) :
    bw.verifyOpenings openings = some true ↔ ∀ o ∈ openings, bw.verifyOpening o = some true := by
  induction openings with
  | nil => simp [Banderwagon.verifyOpenings]
  | cons o rest ih =>
      rw [Banderwagon.verifyOpenings, List.forall_mem_cons, ← ih]
      cases bw.verifyOpening o with
      | none => simp
      | some verified => cases verified <;> simp

/-- What comes after a check is reached only if it passes. -/
theorem bind_check_iff (check : Option Bool) (next : Option Bool) :
    (check.bind fun passed => if !passed then some false else next) = some true ↔
      check = some true ∧ next = some true := by
  cases check with
  | none => simp
  | some passed => cases passed <;> simp

variable [DecidableEq Fr]

theorem linked_cons_cons_iff (o next : IpaOpening) (rest : List IpaOpening) :
    linked bw (o :: next :: rest) = true ↔
      (∃ e, bw.commitmentToElement next.commitment = some e ∧
        bw.claimedValueToFr o.claimedValue = some (bw.mapToScalarField e)) ∧
      linked bw (next :: rest) = true := by
  rw [linked, Banderwagon.childCommitmentToScalar]
  cases bw.commitmentToElement next.commitment with
  | none => simp
  | some e => cases bw.claimedValueToFr o.claimedValue <;> simp

theorem opensLowLimb_iff (o : IpaOpening) (slot : BalanceSlot) :
    opensLowLimb bw o slot = true ↔ o.domainIndex = 0 ∧
      bw.claimedValueToFr o.claimedValue = some (bw.frFrom (lowLimb slot.canonical)) := by
  rw [opensLowLimb]
  by_cases hindex : o.domainIndex = 0
  · cases bw.claimedValueToFr o.claimedValue <;> simp [hindex]
  · simp [hindex]

variable (bw) in
/-- Everything `verifyVerkle` checks of the openings. -/
def Accepts (root : Commitment) (addr : Address) (slotOpt : Option BalanceSlot) :
    List IpaOpening → Prop
  | [] => slotOpt = none ∧ root = zeroCommitment
  | first :: rest =>
      (∀ o ∈ first :: rest, bw.verifyOpening o = some true) ∧ first.commitment = root ∧
      linked bw (first :: rest) = true ∧
      match slotOpt with
      | none => (first :: rest).map IpaOpening.domainIndex <+: addr.val
      | some slot =>
          (first :: rest).map IpaOpening.domainIndex = addr.val ++ [0] ∧
          bw.claimedValueToFr (rest.getLastD first).claimedValue =
            some (bw.frFrom (lowLimb slot.canonical))

/-- Openings of the address bytes and one at index 0 after them. -/
theorem indices_eq_iff (first : IpaOpening) (rest : List IpaOpening) (bs : List Byte) :
    (first :: rest).map IpaOpening.domainIndex = bs ++ [0] ↔
      (first :: rest).length = bs.length + 1 ∧
      (first :: rest).dropLast.map IpaOpening.domainIndex <+: bs ∧
      (rest.getLastD first).domainIndex = 0 := by
  have hsplit : (first :: rest).dropLast ++ [rest.getLastD first] = first :: rest := by
    rw [← List.getLast_eq_getLastD (List.cons_ne_nil first rest)]
    exact List.dropLast_append_getLast _
  rw [← hsplit, List.dropLast_concat, List.map_append, List.length_append]
  constructor
  · intro h
    obtain ⟨hinit, hlast⟩ := List.append_inj' h rfl
    rw [← hinit, List.length_map]
    exact ⟨rfl, List.prefix_rfl, List.cons.inj hlast |>.1⟩
  · rintro ⟨hlen, hbytes, hlast⟩
    rw [hbytes.eq_of_length (by simpa using hlen), List.map_singleton, hlast]

variable (bw) in
/-- What the verifier says of openings, when the path is empty and the slot is the claimed one. -/
def checkOpenings (root : Commitment) (addr : Address) (slotOpt : Option BalanceSlot)
    (openings : List IpaOpening) : Option Bool :=
  verifyVerkle bw root addr slotOpt ⟨⟨[], slotOpt⟩, some ⟨openings⟩⟩

/-- Another path and slot are compared with the address and the claimed slot, and that is all. -/
theorem verifyVerkle_eq_ite (root : Commitment) (addr : Address) (slotOpt : Option BalanceSlot)
    (path : List ProofStep) (slot : Option BalanceSlot) (openings : List IpaOpening) :
    verifyVerkle bw root addr slotOpt ⟨⟨path, slot⟩, some ⟨openings⟩⟩ =
      if path.map ProofStep.byte <+: addr.val ∧ slot = slotOpt then
        checkOpenings bw root addr slotOpt openings
      else some false := by
  simp only [← all_zip_iff]
  rw [verifyVerkle]
  dsimp only
  by_cases hlen : path.length ≤ addr.val.length
  swap
  · simp [hlen, not_le.1 hlen]
  by_cases hbytes : ((path.zip addr.val).all fun p => p.1.byte == p.2) = true
  swap
  · simp [hbytes]
  by_cases hslot : slot = slotOpt
  swap
  · simp [hlen, hslot]
  rw [if_neg (not_lt.2 hlen), hbytes, if_neg (by simp), if_neg (not_not.2 hslot),
    if_pos ⟨⟨hlen, rfl⟩, hslot⟩, checkOpenings, verifyVerkle]
  simp

theorem checkOpenings_eq_true_iff (root : Commitment) (addr : Address)
    (slotOpt : Option BalanceSlot) (openings : List IpaOpening) :
    checkOpenings bw root addr slotOpt openings = some true ↔
      Accepts bw root addr slotOpt openings := by
  cases openings with
  | nil => cases slotOpt <;> simp [checkOpenings, verifyVerkle, Accepts, Subtype.ext_iff]
  | cons first rest =>
      rw [checkOpenings, verifyVerkle]
      dsimp only
      rw [if_neg (by simp), if_neg (by simp), if_neg (not_not.2 rfl)]
      change ((bw.verifyOpenings (first :: rest)).bind _) = _ ↔ _
      rw [bind_check_iff, verifyOpenings_eq_true_iff]
      simp only [Accepts]
      refine and_congr_right fun _ => ?_
      by_cases hroot : first.commitment = root
      swap
      · simp [hroot]
      rw [if_neg (not_not.2 hroot)]
      cases slotOpt with
      | none =>
          rw [if_neg (by simp)]
          change ((indicesMatch (first :: rest) addr.val).bind _) = _ ↔ _
          rw [bind_check_iff, indicesMatch_eq_true_iff]
          cases linked bw (first :: rest) <;> simp [hroot]
      | some slot =>
          simp only [indices_eq_iff]
          by_cases hcount : (first :: rest).length = addr.val.length + 1
          swap
          · rw [if_pos (by simpa using hcount)]
            simp only [hcount, false_and, and_false, Option.some.injEq, Bool.false_eq_true]
          rw [if_neg (by simp [hcount])]
          change ((indicesMatch (first :: rest).dropLast addr.val).bind _) = _ ↔ _
          rw [bind_check_iff, indicesMatch_eq_true_iff]
          cases linked bw (first :: rest) <;>
            simp [hroot, hcount, opensLowLimb_iff, and_assoc]

theorem verifyVerkle_eq_true_iff (root : Commitment) (addr : Address)
    (slotOpt : Option BalanceSlot) (proof : VerkleProof) :
    verifyVerkle bw root addr slotOpt proof = some true ↔
      proof.ipaWitness.isSome ∧ proof.path.map ProofStep.byte <+: addr.val ∧
      proof.slot = slotOpt ∧ Accepts bw root addr slotOpt proof.openings := by
  obtain ⟨⟨path, slot⟩, witness⟩ := proof
  cases witness with
  | none => simp [verifyVerkle]
  | some witness =>
      rw [verifyVerkle_eq_ite]
      show _ ↔ _ ∧ path.map ProofStep.byte <+: addr.val ∧ slot = slotOpt ∧
        Accepts bw root addr slotOpt witness.openings
      split_ifs with hmatch
      · simp [checkOpenings_eq_true_iff, hmatch]
      · refine iff_of_false (by simp) fun h => hmatch ⟨h.2.1, h.2.2.1⟩

/-- The openings of a path pass the verifier's link check. -/
theorem OpensPath.linked (hlaw : bw.Lawful) {h : Nat} {n : Node} (hn : ShapedRoot h n)
    {is : List Byte} (his : is.length ≤ h + 1) {openings : List IpaOpening}
    (hopens : OpensPath bw n is openings) : linked bw openings = true := by
  induction openings generalizing h n is with
  | nil => rfl
  | cons o rest ih =>
      cases rest with
      | nil => rfl
      | cons next rest =>
          have hlen := hopens.indices.length_le
          simp only [List.map_cons, List.length_cons, List.length_map] at hlen
          obtain ⟨h, rfl⟩ := Nat.exists_eq_add_one_of_ne_zero (show h ≠ 0 by omega)
          obtain ⟨i, is, rfl⟩ := List.exists_cons_of_ne_nil (List.ne_nil_of_length_pos
            (show 0 < is.length by omega))
          obtain ⟨-, -, hclaimed, hrest⟩ := hopens
          rw [linked_cons_cons_iff]
          rw [hlaw.evaluations_eq hn] at hclaimed
          exact ⟨⟨_, hrest.first, hclaimed⟩, ih (hn.child i) (by simpa using his) hrest⟩

end Verkle

/-! ## Honest proofs -/

theorem StateTree.shapedRoot_length (t : StateTree) (addr : Address) :
    ShapedRoot addr.val.length t.node := by
  rw [addr.property]
  exact t.shaped

/-- The honest proof verifies, whether the address is stored or not. -/
theorem verifyVerkle_verkleProof {Fr Element IpaProof : Type} [DecidableEq Fr]
    (bw : Banderwagon Fr Element IpaProof) (hlaw : bw.Lawful)
    (blake3 : Blake3) (entries : List (Address × BalanceSlot)) (addr : Address)
    (hhonest : HonestOpenings bw (nodesBelow (StateTree.fromEntries entries).node)) :
    verifyVerkle bw ((StateTree.fromEntries entries).rootVia bw) addr
      ((StateTree.fromEntries entries).get addr)
      ((StateTree.fromEntries entries).verkleProof bw blake3 addr) = some true := by
  generalize StateTree.fromEntries entries = t at hhonest
  obtain ⟨hslot, hpath⟩ := t.proof_spec blake3 addr
  have hshaped := t.shapedRoot_length addr
  refine (verifyVerkle_eq_true_iff _ _ _ _).2 ⟨rfl, hpath, hslot, ?_⟩
  change Accepts bw _ _ _ (bw.collectIpaWitness (t.proof blake3 addr).slot addr.val t.node)
  rw [hslot]
  have hverify := hlaw.collectIpaWitness_verify (t.get addr) hhonest hshaped (List.Subset.refl _)
  have hopens := hlaw.collectIpaWitness_opensPath (t.get addr) hshaped
  have hlen := hlaw.length_collectIpaWitness hshaped (t.get addr) rfl
  have hlinked := hopens.linked hlaw hshaped (by simp)
  rcases hlaw.collectIpaWitness_first t addr (t.get addr) with
    ⟨hnil, hempty⟩ | ⟨first, rest, hcons, hroot⟩
  · rw [hnil, Accepts, StateTree.get, StateTree.rootVia, hempty, getPath_empty,
      Banderwagon.commitNodeInner, hlaw.toBytes_zero]
    exact ⟨rfl, rfl⟩
  · rw [hcons] at hverify hopens hlen hlinked ⊢
    refine ⟨hverify, hroot, hlinked, ?_⟩
    cases hget : t.get addr with
    | none =>
        rw [hget] at hlen
        refine List.prefix_of_prefix_length_le hopens.indices (List.prefix_append _ _) ?_
        simpa using hlen
    | some slot =>
        rw [hget] at hlen
        have hcount : (first :: rest).length = addr.val.length + 1 := hlen
        have hlast := hopens.last hlaw hshaped (by simpa using hcount)
        have hbalance : balanceAt t.node addr.val = slot.canonical := by
          rw [balanceAt, show getPath addr.val t.node = some slot from hget]
          rfl
        rw [hbalance] at hlast
        exact ⟨hopens.indices.eq_of_length (by simpa using hcount), hlast⟩

/-! ## Openings of the zero vector

A tree with an entry of balance zero. Every vector in it is zero. -/

def emptiedEntries : List (Address × BalanceSlot) := [(zeroAddress, BalanceSlot.new 0)]

theorem knownNode_emptied :
    ∀ n ∈ nodesBelow (StateTree.fromEntries emptiedEntries).node, knownNode n := by
  decide +kernel

theorem evaluations_emptied :
    ∀ n ∈ nodesBelow (StateTree.fromEntries emptiedEntries).node,
      knownBanderwagon.evaluations n = fun _ => zeroCommitment := by
  intro n hn
  have hfirst : ∀ n ∈ nodesBelow (StateTree.fromEntries emptiedEntries).node,
      knownBanderwagon.evaluations n 0 = zeroCommitment := by
    decide +kernel
  funext i
  by_cases hi : i = 0
  · rw [hi, hfirst n hn]
  · exact evaluations_of_firstOnly (of_decide_eq_true (knownNode_emptied n hn)).1 hi

/-- The zero vector opens to zero at every index. -/
theorem verifyOpening_zero (i : Byte) :
    knownBanderwagon.verifyOpening ⟨zeroCommitment, i, zeroCommitment, KnownProof.toBytes .zero⟩ =
      some true := by
  have hpoint : knownBanderwagon.commitmentToElement zeroCommitment = some zeroCommitment :=
    if_pos rfl
  have hparse : knownBanderwagon.ipaFromBytes (KnownProof.toBytes .zero) = some (some .zero) := by
    simp [knownBanderwagon]
  rw [Banderwagon.verifyOpening, hpoint, hparse]
  exact congrArg some (decide_eq_true
    (p := zeroCommitment = zeroCommitment ∧ zeroCommitment = zeroCommitment) ⟨rfl, rfl⟩)

theorem honestOpenings_emptied :
    HonestOpenings knownBanderwagon (nodesBelow (StateTree.fromEntries emptiedEntries).node) := by
  intro n hn i
  have hcommit : knownBanderwagon.commitLagrange (fun _ => zeroCommitment) = zeroCommitment :=
    knownBanderwagon_lawful.commitLagrange_zero
  rw [openingOf, evaluations_emptied n hn, hcommit]
  exact verifyOpening_zero i

/-- The honest proof of an entry of balance zero. -/
theorem verifyVerkle_emptied :
    verifyVerkle knownBanderwagon ((StateTree.fromEntries emptiedEntries).rootVia knownBanderwagon)
      zeroAddress ((StateTree.fromEntries emptiedEntries).get zeroAddress)
      ((StateTree.fromEntries emptiedEntries).verkleProof knownBanderwagon (tableHash zeroTable)
        zeroAddress) = some true :=
  verifyVerkle_verkleProof knownBanderwagon knownBanderwagon_lawful (tableHash zeroTable)
    emptiedEntries zeroAddress honestOpenings_emptied

section Verkle

variable {Fr Element IpaProof : Type} {bw : Banderwagon Fr Element IpaProof} [DecidableEq Fr]

/-! ## Soundness -/

variable (bw) in
/-- An accepted opening of one of the nodes is true of the node's vector. -/
def TrueOpenings (nodes : List Node) (openings : List IpaOpening) : Prop :=
  ∀ o ∈ openings, bw.verifyOpening o = some true → ∀ n ∈ nodes,
    bw.commitmentToElement o.commitment = some (bw.commitLagrange (bw.evaluations n)) →
    bw.claimedValueToFr o.claimedValue = some (bw.evaluations n o.domainIndex)

instance [DecidableEq Element] (nodes : List Node) (openings : List IpaOpening) :
    Decidable (TrueOpenings bw nodes openings) :=
  inferInstanceAs (Decidable (∀ o ∈ openings, bw.verifyOpening o = some true → ∀ n ∈ nodes,
    bw.commitmentToElement o.commitment = some (bw.commitLagrange (bw.evaluations n)) →
    bw.claimedValueToFr o.claimedValue = some (bw.evaluations n o.domainIndex)))

variable (bw) in
/-- The points a verifier decodes. -/
def decodedPoints (openings : List IpaOpening) : List Element :=
  openings.filterMap fun o => bw.commitmentToElement o.commitment

/-- Accepted openings that are linked and start at a node go down from it. -/
theorem opensPath_of_linked (hlaw : bw.Lawful) {nodes : List Node} {openings : List IpaOpening}
    (htrue : TrueOpenings bw nodes openings)
    (hscalar : bw.ScalarInjective (nodes.map bw.commitNodeInner ++ decodedPoints bw openings))
    {os : List IpaOpening} (hos : os ⊆ openings)
    (hverify : ∀ o ∈ os, bw.verifyOpening o = some true) (hlinked : linked bw os = true)
    {h : Nat} {n : Node} (hn : ShapedRoot h n) (hin : nodesBelow n ⊆ nodes)
    (hfirst : ∀ o ∈ os.head?, bw.commitmentToElement o.commitment = some (bw.commitNodeInner n))
    {is : List Byte} (his : is.length ≤ h + 1)
    (hindices : os.map IpaOpening.domainIndex <+: is) : OpensPath bw n is os := by
  induction os generalizing h n is with
  | nil => exact opensPath_nil n is
  | cons o rest ih =>
      obtain ⟨i, is, rfl⟩ : ∃ i is', is = i :: is' := by
        cases is with
        | nil => simp at hindices
        | cons i is => exact ⟨i, is, rfl⟩
      rw [List.map_cons, List.cons_prefix_cons] at hindices
      rw [List.cons_subset] at hos
      obtain ⟨hindex, hindices⟩ := hindices
      have hpoint := hfirst o rfl
      have hclaimed : bw.claimedValueToFr o.claimedValue = some (bw.evaluations n i) := by
        rw [← hindex]
        refine htrue o hos.1 (hverify o List.mem_cons_self) n (hin (mem_nodesBelow n)) ?_
        rw [hpoint, hlaw.commitNodeInner_eq]
      refine ⟨hpoint, hindex, hclaimed, ?_⟩
      cases rest with
      | nil => exact opensPath_nil _ _
      | cons next rest =>
          -- A second opening is below a node that is not a leaf.
          have hlen := hindices.length_le
          simp only [List.map_cons, List.length_cons, List.length_map] at hlen his
          obtain ⟨h, rfl⟩ := Nat.exists_eq_add_one_of_ne_zero (show h ≠ 0 by omega)
          obtain ⟨⟨e, hdecoded, hlink⟩, hlinked⟩ := (linked_cons_cons_iff _ _ _).1 hlinked
          have hsub := List.Subset.trans (nodesBelow_child hn i) hin
          refine ih hos.2 (fun o ho => hverify o (List.mem_cons_of_mem _ ho)) hlinked (hn.child i)
            hsub ?_ (by omega) hindices
          rintro o' ⟨⟩
          rw [hdecoded]
          refine congrArg some (hscalar e (List.mem_append_right _ ?_) _ (List.mem_append_left _
            (List.mem_map_of_mem (hsub (mem_nodesBelow _)))) ?_)
          · exact List.mem_filterMap.2 ⟨next, hos.2 List.mem_cons_self, hdecoded⟩
          · rw [← hlaw.evaluations_eq hn]
            exact Option.some.inj (hlink.symm.trans hclaimed)

/-- What the verifier accepted at a tree's root goes down the tree. -/
theorem Accepts.opensPath (hlaw : bw.Lawful) {t : StateTree} {first : IpaOpening}
    {rest : List IpaOpening} (htrue : TrueOpenings bw (nodesBelow t.node) (first :: rest))
    (hscalar : bw.ScalarInjective ((nodesBelow t.node).map bw.commitNodeInner ++
      decodedPoints bw (first :: rest))) {addr : Address} {slotOpt : Option BalanceSlot}
    (haccepts : Accepts bw (t.rootVia bw) addr slotOpt (first :: rest)) (is : List Byte)
    (his : is.length ≤ 21) (hindices : (first :: rest).map IpaOpening.domainIndex <+: is) :
    OpensPath bw t.node is (first :: rest) := by
  obtain ⟨hverify, hroot, hlinked, -⟩ := haccepts
  refine opensPath_of_linked hlaw htrue hscalar (List.Subset.refl _) hverify hlinked t.shaped
    (List.Subset.refl _) ?_ his hindices
  rintro o ⟨⟩
  rw [hroot]
  exact hlaw.commitmentToElement_toBytes _

/-- Openings of all nodes down to the leaf of the address, which is opened at index 0. -/
def OpensLeaf (bw : Banderwagon Fr Element IpaProof) (t : StateTree) (addr : Address)
    (slot : BalanceSlot) (proof : VerkleProof) : Prop :=
  proof.slot = some slot ∧ proof.path.map ProofStep.byte <+: addr.val ∧
  ∃ first rest, proof.ipaWitness = some ⟨first :: rest⟩ ∧ first.commitment = t.rootVia bw ∧
    (∀ o ∈ first :: rest, bw.verifyOpening o = some true) ∧ rest.length = addr.val.length ∧
    OpensPath bw t.node (addr.val ++ [0]) (first :: rest)

/-- Such a proof verifies if the slot has the low limb of what is in the tree. -/
theorem OpensLeaf.verifyVerkle_eq {bw : Banderwagon Fr Element IpaProof} (hlaw : bw.Lawful)
    {t : StateTree} {addr : Address} {slot : BalanceSlot} {proof : VerkleProof}
    (h : OpensLeaf bw t addr slot proof)
    (hlimb : lowLimb (balanceAt t.node addr.val) = lowLimb slot.canonical) :
    verifyVerkle bw (t.rootVia bw) addr (some slot) proof = some true := by
  obtain ⟨⟨path, claimed⟩, witness⟩ := proof
  obtain ⟨hslot, hpath, first, rest, rfl, hroot, hverify, hlen, hopens⟩ := h
  have hlinked := hopens.linked hlaw t.shaped (by simp [addr.property])
  have hlast := hopens.last hlaw (t.shapedRoot_length addr) hlen
  rw [hlimb] at hlast
  have hindices : (first :: rest).map IpaOpening.domainIndex = addr.val ++ [0] :=
    hopens.indices.eq_of_length (by simpa using hlen)
  exact (verifyVerkle_eq_true_iff _ _ _ _).2
    ⟨rfl, hpath, hslot, hverify, hroot, hlinked, hindices, hlast⟩

/-- And no other does. -/
theorem opensLeaf_of_verifyVerkle {bw : Banderwagon Fr Element IpaProof} (hlaw : bw.Lawful)
    {t : StateTree} {addr : Address} {slot : BalanceSlot} {proof : VerkleProof}
    (htrue : TrueOpenings bw (nodesBelow t.node) proof.openings)
    (hscalar : bw.ScalarInjective ((nodesBelow t.node).map bw.commitNodeInner ++
      decodedPoints bw proof.openings))
    (hverify : verifyVerkle bw (t.rootVia bw) addr (some slot) proof = some true) :
    OpensLeaf bw t addr slot proof ∧
      lowLimb (balanceAt t.node addr.val) = lowLimb slot.canonical := by
  obtain ⟨hwitness, hpath, hslot, haccepts⟩ := (verifyVerkle_eq_true_iff _ _ _ _).1 hverify
  obtain ⟨⟨openings⟩, hsome⟩ := Option.isSome_iff_exists.1 hwitness
  have hopenings : proof.openings = openings := by
    rw [VerkleProof.openings, hsome]
    rfl
  rw [hopenings] at htrue hscalar haccepts
  cases openings with
  | nil => exact absurd haccepts.1 (by simp)
  | cons first rest =>
      obtain ⟨hindices, hlow⟩ := haccepts.2.2.2
      have hlen : rest.length = addr.val.length := by
        simpa using congrArg List.length hindices
      have hopens := haccepts.opensPath hlaw htrue hscalar (addr.val ++ [0])
        (by simp [addr.property]) (hindices ▸ List.prefix_rfl)
      have hlast := hopens.last hlaw (t.shapedRoot_length addr) hlen
      exact ⟨⟨hslot, hpath, first, rest, hsome, haccepts.2.1, haccepts.1, hlen, hopens⟩,
        hlaw.frFrom_injective (Option.some.inj (hlast.symm.trans hlow))⟩

/-- What the tree has for an address is not the slot, and has the same low limb: nothing where that
is zero, or a balance with another high limb. -/
def StateTree.Confusable (t : StateTree) (addr : Address) (slot : BalanceSlot) : Prop :=
  t.get addr = none ∧ lowLimb slot.canonical = 0 ∨
    ∃ stored, t.get addr = some stored ∧ lowLimb stored.canonical = lowLimb slot.canonical ∧
      highLimb stored.canonical ≠ highLimb slot.canonical

/-- With the low limb in the tree, either the slot is there or it is confusable. -/
theorem StateTree.confusable_iff (t : StateTree) (addr : Address) (slot : BalanceSlot) :
    t.Confusable addr slot ↔ lowLimb (balanceAt t.node addr.val) = lowLimb slot.canonical ∧
      ¬ ∃ stored, t.get addr = some stored ∧ stored.canonical = slot.canonical := by
  rw [StateTree.Confusable, balanceAt, StateTree.get]
  cases getPath addr.val t.node with
  | none =>
      have hzero : lowLimb 0 = 0 := rfl
      simp [hzero, eq_comm]
  | some stored =>
      have hlimbs : lowLimb stored.canonical = lowLimb slot.canonical →
          (highLimb stored.canonical = highLimb slot.canonical ↔
            stored.canonical = slot.canonical) := fun hlow =>
        ⟨eq_of_limbs hlow, congrArg highLimb⟩
      simp only [reduceCtorEq, false_and, false_or, Option.some.injEq, exists_eq_left',
        Option.map_some, Option.getD_some]
      exact and_congr_right fun hlow => not_congr (hlimbs hlow)

/-- A verified slot is that of the address, except for a confusable one with openings down to the
leaf. A slot of balance zero is confusable with no entry at all. -/
theorem verkle_inclusion_iff (bw : Banderwagon Fr Element IpaProof) (hlaw : bw.Lawful)
    (t : StateTree) (addr : Address) (slot : BalanceSlot) (proof : VerkleProof)
    (htrue : TrueOpenings bw (nodesBelow t.node) proof.openings)
    (hscalar : bw.ScalarInjective ((nodesBelow t.node).map bw.commitNodeInner ++
      decodedPoints bw proof.openings)) :
    (verifyVerkle bw (t.rootVia bw) addr (some slot) proof = some true →
      ∃ stored, t.get addr = some stored ∧ stored.canonical = slot.canonical) ↔
    ¬(t.Confusable addr slot ∧ OpensLeaf bw t addr slot proof) := by
  rw [t.confusable_iff]
  constructor
  · rintro hsound ⟨⟨hlimb, hother⟩, hopens⟩
    exact hother (hsound (hopens.verifyVerkle_eq hlaw hlimb))
  · intro hcond hverify
    obtain ⟨hopens, hlimb⟩ := opensLeaf_of_verifyVerkle hlaw htrue hscalar hverify
    by_contra hother
    exact hcond ⟨⟨hlimb, hother⟩, hopens⟩

end Verkle

/-- All openings on the way to the zero address, of the zero vector. -/
def zeroOpenings : IpaWitness where
  openings := List.replicate 21 ⟨zeroCommitment, 0, zeroCommitment, KnownProof.toBytes .zero⟩

/-- A proof that the zero address holds `slot`. -/
def zeroProof (slot : BalanceSlot) : VerkleProof where
  path := []
  slot := some slot
  ipaWitness := some zeroOpenings

/-- A tree in which every vector is zero. -/
theorem trueOpenings_zeroOpenings {nodes : List Node}
    (hzero : ∀ n ∈ nodes, knownBanderwagon.evaluations n = fun _ => zeroCommitment) :
    TrueOpenings knownBanderwagon nodes zeroOpenings.openings := by
  intro o ho _ n hn _
  rw [hzero n hn, List.eq_of_mem_replicate ho]
  rfl

theorem scalarInjective_zeroOpenings {nodes : List Node} (h : ∀ n ∈ nodes, knownNode n) :
    knownBanderwagon.ScalarInjective (nodes.map knownBanderwagon.commitNodeInner ++
      decodedPoints knownBanderwagon zeroOpenings.openings) :=
  scalarInjective_known h _ (by decide +kernel)

theorem knownNode_nil : ∀ n ∈ nodesBelow (StateTree.fromEntries []).node, knownNode n := by
  decide +kernel

theorem evaluations_nil : ∀ n ∈ nodesBelow (StateTree.fromEntries []).node,
    knownBanderwagon.evaluations n = fun _ => zeroCommitment := by
  intro n hn
  obtain rfl : n = .empty := by simpa [StateTree.fromEntries, nodesBelow, subnodes] using hn
  rfl

/-- The empty tree has no address, and openings of the zero vector verify a balance of zero. -/
theorem verkle_inclusion_absent :
    knownBanderwagon.Lawful ∧
    TrueOpenings knownBanderwagon (nodesBelow (StateTree.fromEntries []).node)
      (zeroProof (BalanceSlot.new 0)).openings ∧
    knownBanderwagon.ScalarInjective
      ((nodesBelow (StateTree.fromEntries []).node).map knownBanderwagon.commitNodeInner ++
        decodedPoints knownBanderwagon (zeroProof (BalanceSlot.new 0)).openings) ∧
    knownBanderwagon.Binding (nodesBelow (StateTree.fromEntries []).node) ∧
    verifyVerkle knownBanderwagon ((StateTree.fromEntries []).rootVia knownBanderwagon) zeroAddress
      (some (BalanceSlot.new 0)) (zeroProof (BalanceSlot.new 0)) = some true ∧
    (StateTree.fromEntries []).get zeroAddress = none :=
  ⟨knownBanderwagon_lawful, trueOpenings_zeroOpenings evaluations_nil,
    scalarInjective_zeroOpenings knownNode_nil, binding_known knownNode_nil, by decide +kernel,
    by decide +kernel⟩

/-- A balance of `2 ^ 64`, whose low limb is zero. -/
def highSlot : BalanceSlot := BalanceSlot.new 0x10000000000000000

/-- The condition at an entry of balance zero and that balance, whose high limb is not opened. -/
theorem verkle_inclusion_iff_emptied :
    (verifyVerkle knownBanderwagon ((StateTree.fromEntries emptiedEntries).rootVia knownBanderwagon)
        zeroAddress (some highSlot) (zeroProof highSlot) = some true ∧
      (StateTree.fromEntries emptiedEntries).get zeroAddress = some (BalanceSlot.new 0)) ∧
    ((verifyVerkle knownBanderwagon
          ((StateTree.fromEntries emptiedEntries).rootVia knownBanderwagon) zeroAddress
          (some highSlot) (zeroProof highSlot) = some true →
        ∃ stored, (StateTree.fromEntries emptiedEntries).get zeroAddress = some stored ∧
          stored.canonical = highSlot.canonical) ↔
      ¬((StateTree.fromEntries emptiedEntries).Confusable zeroAddress highSlot ∧
        OpensLeaf knownBanderwagon (StateTree.fromEntries emptiedEntries) zeroAddress highSlot
          (zeroProof highSlot))) :=
  ⟨by decide +kernel, verkle_inclusion_iff knownBanderwagon knownBanderwagon_lawful _ zeroAddress
    highSlot (zeroProof highSlot) (trueOpenings_zeroOpenings evaluations_emptied)
    (scalarInjective_zeroOpenings knownNode_emptied)⟩

/-! ## Absence -/

theorem StateTree.balanceAt_eq_zero_iff (t : StateTree) (addr : Address) :
    balanceAt t.node addr.val = 0 ↔ ∀ slot, t.get addr = some slot → slot.canonical = 0 := by
  rw [balanceAt, StateTree.get]
  cases getPath addr.val t.node <;> simp

section Verkle

variable {Fr Element IpaProof : Type} [DecidableEq Fr]

/-- A proof of absence whose openings stop on the way to the address. -/
def CutOff (bw : Banderwagon Fr Element IpaProof) (t : StateTree) (addr : Address)
    (proof : VerkleProof) : Prop :=
  proof.slot = none ∧ proof.path.map ProofStep.byte <+: addr.val ∧
  ∃ first rest, proof.ipaWitness = some ⟨first :: rest⟩ ∧ first.commitment = t.rootVia bw ∧
    (∀ o ∈ first :: rest, bw.verifyOpening o = some true) ∧
    OpensPath bw t.node addr.val (first :: rest)

theorem CutOff.verifyVerkle_eq {bw : Banderwagon Fr Element IpaProof} (hlaw : bw.Lawful)
    {t : StateTree} {addr : Address} {proof : VerkleProof} (h : CutOff bw t addr proof) :
    verifyVerkle bw (t.rootVia bw) addr none proof = some true := by
  obtain ⟨⟨path, slot⟩, witness⟩ := proof
  obtain ⟨hslot, hpath, first, rest, rfl, hroot, hverify, hopens⟩ := h
  have hlinked := hopens.linked hlaw t.shaped (by simp [addr.property])
  exact (verifyVerkle_eq_true_iff _ _ _ _).2
    ⟨rfl, hpath, hslot, hverify, hroot, hlinked, hopens.indices⟩

/-- A verified absence is one, or is of a balance of zero, except for an address with a balance and
openings cut off on the way to it. -/
theorem verkle_absence_iff (bw : Banderwagon Fr Element IpaProof) (hlaw : bw.Lawful)
    (t : StateTree) (addr : Address) (proof : VerkleProof)
    (htrue : TrueOpenings bw (nodesBelow t.node) proof.openings)
    (hbind : bw.Binding (nodesBelow t.node))
    (hscalar : bw.ScalarInjective ((nodesBelow t.node).map bw.commitNodeInner ++
      decodedPoints bw proof.openings)) :
    (verifyVerkle bw (t.rootVia bw) addr none proof = some true →
      ∀ slot, t.get addr = some slot → slot.canonical = 0) ↔
    ¬((∃ slot, t.get addr = some slot ∧ slot.canonical ≠ 0) ∧ CutOff bw t addr proof) := by
  constructor
  · rintro hsound ⟨⟨slot, hget, hne⟩, hcut⟩
    exact hne (hsound (hcut.verifyVerkle_eq hlaw) slot hget)
  · intro hcond hverify slot hget
    by_contra hne
    refine hcond ⟨⟨slot, hget, hne⟩, ?_⟩
    obtain ⟨hwitness, hpath, hslot, haccepts⟩ := (verifyVerkle_eq_true_iff _ _ _ _).1 hverify
    obtain ⟨⟨openings⟩, hsome⟩ := Option.isSome_iff_exists.1 hwitness
    have hopenings : proof.openings = openings := by
      rw [VerkleProof.openings, hsome]
      rfl
    rw [hopenings] at htrue hscalar haccepts
    cases openings with
    | nil =>
        have hnodes : bw.ScalarInjective ((nodesBelow t.node).map bw.commitNodeInner) :=
          fun e he e' he' => hscalar e (List.mem_append_left _ he) e' (List.mem_append_left _ he')
        have hzero := hlaw.balanceAt_eq_zero hbind hnodes haccepts.2 addr
        exact absurd ((t.balanceAt_eq_zero_iff addr).1 hzero slot hget) hne
    | cons first rest =>
        have hopens := haccepts.opensPath hlaw htrue hscalar addr.val (by simp [addr.property])
          haccepts.2.2.2
        exact ⟨hslot, hpath, first, rest, hsome, haccepts.2.1, haccepts.1, hopens⟩

end Verkle

/-! ## Cut off below the root

The tree with 100 at the zero address, and the first opening of its inclusion proof. -/

def zeroRootOpening : IpaOpening where
  commitment := zeroPoints.getD 20 zeroCommitment
  domainIndex := 0
  claimedValue := zeroScalars.getD 19 zeroCommitment
  ipaProofBytes := zeroRootProof

def cutOffProof : VerkleProof where
  path := []
  slot := none
  ipaWitness := some ⟨[zeroRootOpening]⟩

theorem trueOpenings_cutOffProof :
    TrueOpenings knownBanderwagon (nodesBelow (StateTree.fromEntries zeroEntries).node)
      cutOffProof.openings := by
  decide +kernel

theorem scalarInjective_cutOffProof :
    knownBanderwagon.ScalarInjective
      ((nodesBelow (StateTree.fromEntries zeroEntries).node).map knownBanderwagon.commitNodeInner ++
        decodedPoints knownBanderwagon cutOffProof.openings) :=
  scalarInjective_known knownNode_zeroEntries _ (by decide +kernel)

/-- The zero address holds 100, and its absence verifies. -/
theorem verkle_absence_cut_off :
    knownBanderwagon.Lawful ∧
    TrueOpenings knownBanderwagon (nodesBelow (StateTree.fromEntries zeroEntries).node)
      cutOffProof.openings ∧
    knownBanderwagon.Binding (nodesBelow (StateTree.fromEntries zeroEntries).node) ∧
    knownBanderwagon.ScalarInjective
      ((nodesBelow (StateTree.fromEntries zeroEntries).node).map knownBanderwagon.commitNodeInner ++
        decodedPoints knownBanderwagon cutOffProof.openings) ∧
    verifyVerkle knownBanderwagon ((StateTree.fromEntries zeroEntries).rootVia knownBanderwagon)
      zeroAddress none cutOffProof = some true ∧
    (StateTree.fromEntries zeroEntries).get zeroAddress = some hundred ∧ hundred.canonical ≠ 0 :=
  ⟨knownBanderwagon_lawful, trueOpenings_cutOffProof, binding_known knownNode_zeroEntries,
    scalarInjective_cutOffProof, by decide +kernel, by decide +kernel, by decide +kernel⟩

/-- The condition at that proof. -/
theorem verkle_absence_iff_cut_off :
    (verifyVerkle knownBanderwagon ((StateTree.fromEntries zeroEntries).rootVia knownBanderwagon)
        zeroAddress none cutOffProof = some true →
      ∀ slot, (StateTree.fromEntries zeroEntries).get zeroAddress = some slot →
        slot.canonical = 0) ↔
    ¬((∃ slot, (StateTree.fromEntries zeroEntries).get zeroAddress = some slot ∧
        slot.canonical ≠ 0) ∧
      CutOff knownBanderwagon (StateTree.fromEntries zeroEntries) zeroAddress cutOffProof) :=
  verkle_absence_iff knownBanderwagon knownBanderwagon_lawful _ zeroAddress cutOffProof
    trueOpenings_cutOffProof (binding_known knownNode_zeroEntries) scalarInjective_cutOffProof

end SuwappuDb
