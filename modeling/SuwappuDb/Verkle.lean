import SuwappuDb.StateTree

/-!
# Verkle commitments

`crates/suwappudb-state/src/tree/{verkle,verkle_scheme,ops}.rs` with the feature
`production-verkle`: the same trie as `StateTree`, committed to node by node as a vector of 256
scalars, and proofs that open the vectors on the way to an address.

The curve and the inner product argument are those of `banderwagon` and `ipa-multipoint`. They are
the parameter `Banderwagon`; `Banderwagon.Lawful` is what their documentation says about encodings,
the identity and the scalar zero, none of which is an assumption on the strength of the scheme.

* `commitNodeInner` — a node's commitment, as a point. No tags: what kind of node it is shows only
  in the vector.
* `proveOpening`, `verifyOpening` — one opening of one vector at one index.
* `collectIpaWitness`, `verifyVerkle` — prover and verifier.

The verifier gives the bytes of an opening to the library as they come, and indexes the address with
the openings' positions. `none` is a call into the library that does not return, or the panic of an
absence proof that has more openings than the address has bytes.
-/

namespace SuwappuDb

/-! ## The curve and the argument -/

/-- What `banderwagon` and `ipa-multipoint` provide, over the one CRS and with the one transcript
label the source uses. A vector of width `POLY_WIDTH` is a function of its index. -/
structure Banderwagon (Fr Element IpaProof : Type) where
  /-- `Fr::zero`. -/
  frZero : Fr
  /-- `Fr::from(u64)`. -/
  frFrom : U64 → Fr
  /-- `Fr::serialize_compressed`. -/
  serialize : Fr → ByteArr 32
  /-- `Fr::deserialize_compressed`. -/
  deserialize : ByteArr 32 → Option Fr
  /-- `Element::zero`. -/
  zero : Element
  /-- `Element::to_bytes`. -/
  toBytes : Element → ByteArr 32
  /-- `Element::from_bytes`. -/
  fromBytes : ByteArr 32 → Option Element
  /-- `Element::map_to_scalar_field`. -/
  mapToScalarField : Element → Fr
  /-- `DefaultCommitter::commit_lagrange`. -/
  commitLagrange : (Byte → Fr) → Element
  /-- `ipa::create`. -/
  ipaCreate : (a : Byte → Fr) → (aComm : Element) → (b : Byte → Fr) → (inputPoint : Fr) → IpaProof
  /-- `IPAProof::to_bytes`. -/
  ipaToBytes : IpaProof → List Byte
  /-- `IPAProof::from_bytes`, at width `POLY_WIDTH`, if it returns. -/
  ipaFromBytes : List Byte → Option (Option IpaProof)
  /-- `IPAProof::verify`, if it returns. -/
  ipaVerify : IpaProof → (b : Byte → Fr) → (aComm : Element) → (inputPoint outputPoint : Fr) →
    Option Bool

/-- The all-zero commitment. -/
def zeroCommitment : Commitment := ⟨List.replicate 32 0, List.length_replicate⟩

/-- The encodings round-trip, and zero is zero throughout. -/
structure Banderwagon.Lawful {Fr Element IpaProof : Type} (bw : Banderwagon Fr Element IpaProof) :
    Prop where
  frFrom_zero : bw.frFrom 0 = bw.frZero
  frFrom_injective : Function.Injective bw.frFrom
  deserialize_serialize : ∀ x, bw.deserialize (bw.serialize x) = some x
  toBytes_zero : bw.toBytes bw.zero = zeroCommitment
  fromBytes_toBytes : ∀ e, bw.fromBytes (bw.toBytes e) = some e
  mapToScalarField_zero : bw.mapToScalarField bw.zero = bw.frZero
  commitLagrange_zero : bw.commitLagrange (fun _ => bw.frZero) = bw.zero

/-! ## Openings -/

/-- One opening of a committed vector. -/
structure IpaOpening where
  commitment : Commitment
  domainIndex : Byte
  claimedValue : ByteArr 32
  ipaProofBytes : List Byte
  deriving DecidableEq

/-- The openings of a proof, root first. -/
structure IpaWitness where
  openings : List IpaOpening
  deriving DecidableEq

/-- A `Proof` with the field that the feature adds. -/
structure VerkleProof extends Proof where
  ipaWitness : Option IpaWitness
  deriving DecidableEq

/-- The low limb of `canonical_u128_to_u64_pair`. -/
def lowLimb (v : U128) : U64 := Fin.ofNat (2 ^ 64) v.val

/-- The high limb of `canonical_u128_to_u64_pair`. -/
def highLimb (v : U128) : U64 := Fin.ofNat (2 ^ 64) (v.val / 2 ^ 64)

namespace Banderwagon

variable {Fr Element IpaProof : Type} (bw : Banderwagon Fr Element IpaProof)

/-- `commitment_to_element`. -/
def commitmentToElement (c : Commitment) : Option Element :=
  if c = zeroCommitment then some bw.zero else bw.fromBytes c

/-- `child_commitment_to_scalar`. -/
def childCommitmentToScalar (c : Commitment) : Option Fr :=
  (bw.commitmentToElement c).map bw.mapToScalarField

/-- `claimed_value_to_fr`. -/
def claimedValueToFr (bytes : ByteArr 32) : Option Fr := bw.deserialize bytes

/-- `unit_b_vector`. -/
def unitBVector (domainIndex : Byte) : Byte → Fr := fun i =>
  if i = domainIndex then bw.frFrom 1 else bw.frZero

/-- `Fr::from(domain_index as u64)`. -/
def inputPoint (domainIndex : Byte) : Fr := bw.frFrom (Fin.ofNat (2 ^ 64) domainIndex.val)

/-- `prove_opening`. -/
def proveOpening (a : Byte → Fr) (aComm : Element) (domainIndex : Byte) : IpaOpening where
  commitment := bw.toBytes aComm
  domainIndex := domainIndex
  claimedValue := bw.serialize (a domainIndex)
  ipaProofBytes := bw.ipaToBytes
    (bw.ipaCreate a aComm (bw.unitBVector domainIndex) (bw.inputPoint domainIndex))

/-- `verify_opening`. -/
def verifyOpening (opening : IpaOpening) : Option Bool :=
  match bw.commitmentToElement opening.commitment, bw.deserialize opening.claimedValue with
  | some commitment, some claimedValue => do
      match ← bw.ipaFromBytes opening.ipaProofBytes with
      | none => some false
      | some proof =>
          bw.ipaVerify proof (bw.unitBVector opening.domainIndex) commitment
            (bw.inputPoint opening.domainIndex) claimedValue
  | _, _ => some false

/-- Every opening verifies; the first that does not is the last that is looked at. -/
def verifyOpenings : List IpaOpening → Option Bool
  | [] => some true
  | opening :: rest => do
      if ← bw.verifyOpening opening then verifyOpenings rest else some false

/-! ## Commitments -/

/-- `leaf_evaluations`: the balance in two limbs. -/
def leafEvaluations (slot : BalanceSlot) : Byte → Fr := fun i =>
  if i = 0 then bw.frFrom (lowLimb slot.canonical)
  else if i = 1 then bw.frFrom (highLimb slot.canonical)
  else bw.frFrom 0

/-- The vector with some entries set and `rest` elsewhere. -/
def evaluationsOf (rest : Fr) (entries : List (Byte × Fr)) : Byte → Fr := fun i =>
  (entries.lookup i).getD rest

mutual

/-- `commit_node_inner`. -/
def commitNodeInner : Node → Element
  | .empty => bw.zero
  | .leaf slot => bw.commitLagrange (bw.leafEvaluations slot)
  | .internal children =>
      bw.commitLagrange (evaluationsOf (bw.frFrom 0) (childScalars children))

/-- The bytes of an internal node's children with the scalars of their commitments. -/
def childScalars : List (Byte × Node) → List (Byte × Fr)
  | [] => []
  | (byte, child) :: rest =>
      (byte, bw.mapToScalarField (commitNodeInner child)) :: childScalars rest

end

/-! ## Prover -/

/-- `collect_ipa_witness`. -/
def collectIpaWitness (finalSlot : Option BalanceSlot) : List Byte → Node → List IpaOpening
  | b :: bs, .internal ch =>
      bw.proveOpening (evaluationsOf bw.frZero (bw.childScalars ch))
        (bw.commitNodeInner (.internal ch)) b ::
      match ch.lookup b with
      | some child => collectIpaWitness finalSlot bs child
      | none => []
  | _ :: _, _ => []
  | [], .leaf slot =>
      if finalSlot.isSome then
        [bw.proveOpening (bw.leafEvaluations slot) (bw.commitNodeInner (.leaf slot)) 0]
      else []
  | [], _ => []

end Banderwagon

section Verkle

variable {Fr Element IpaProof : Type} (bw : Banderwagon Fr Element IpaProof)

/-- `StateTree::root_via` with the scheme `BanderwagonIpaScheme`. -/
def StateTree.rootVia (t : StateTree) : Commitment := bw.toBytes (bw.commitNodeInner t.node)

/-- `StateTree::proof` with the feature on. The path still carries BLAKE3 siblings. -/
def StateTree.verkleProof (blake3 : Blake3) (t : StateTree) (addr : Address) : VerkleProof where
  toProof := t.proof blake3 addr
  ipaWitness := some ⟨bw.collectIpaWitness (t.proof blake3 addr).slot addr.val t.node⟩

/-! ## Verifier -/

/-- The openings' indices are the address bytes, position by position. -/
def indicesMatch : List IpaOpening → List Byte → Option Bool
  | [], _ => some true
  | _ :: _, [] => none
  | o :: os, b :: bs => if o.domainIndex = b then indicesMatch os bs else some false

variable [DecidableEq Fr]

/-- Every opening claims the scalar of the next one's commitment. -/
def linked : List IpaOpening → Bool
  | [] => true
  | [_] => true
  | o :: next :: rest =>
      match bw.childCommitmentToScalar next.commitment, bw.claimedValueToFr o.claimedValue with
      | some expectedScalar, some claimed => claimed == expectedScalar && linked (next :: rest)
      | _, _ => false

/-- The leaf opening is at index 0 and claims the low limb of the balance. -/
def opensLowLimb (opening : IpaOpening) (slot : BalanceSlot) : Bool :=
  if opening.domainIndex ≠ 0 then false
  else
    match bw.claimedValueToFr opening.claimedValue with
    | some claimed => claimed == bw.frFrom (lowLimb slot.canonical)
    | none => false

/-- `StateTree::verify_verkle`. -/
def verifyVerkle (root : Commitment) (addr : Address) (slotOpt : Option BalanceSlot)
    (proof : VerkleProof) : Option Bool :=
  match proof.ipaWitness with
  | none => some false
  | some witness =>
      if proof.path.length > addr.val.length then some false
      else if !(proof.path.zip addr.val).all fun p => p.1.byte == p.2 then some false
      else if proof.slot ≠ slotOpt then some false
      else
        match witness.openings with
        | [] => some (slotOpt.isNone && root == zeroCommitment)
        | first :: rest => do
            let openings := first :: rest
            if !(← bw.verifyOpenings openings) then some false
            else if first.commitment ≠ root then some false
            else if slotOpt.isSome && openings.length != addr.val.length + 1 then some false
            else
              let internal := if slotOpt.isSome then openings.dropLast else openings
              if !(← indicesMatch internal addr.val) then some false
              else if !linked bw openings then some false
              else
                match slotOpt with
                | some slot => some (opensLowLimb bw (rest.getLastD first) slot)
                | none => some true

end Verkle

end SuwappuDb
