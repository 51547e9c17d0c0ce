import SuwappuDb.VerkleMembership

/-!
# Where the Verkle verifier does not return

`StateTree::verify_verkle` on any input.

The openings are given to the libraries one after another as long as they verify, so an opening on
which a library does not return stops the verifier (`Stalls`). After that, for an inclusion the
number of openings is checked before the loop that compares their indices with the address, but not
for an absence. That loop panics when it is still running at the end of the address
(`indicesMatch_eq_none_iff`), and it is reached once all openings verify and the first is of the
root (`RunsPast`). There is no other place: `verifyVerkle_isSome_iff`.
-/

namespace SuwappuDb

section Verkle

variable {Fr Element IpaProof : Type} {bw : Banderwagon Fr Element IpaProof}

theorem indicesMatch_eq_none_iff (openings : List IpaOpening) (bs : List Byte) :
    indicesMatch openings bs = none ↔
      bs <+: openings.map IpaOpening.domainIndex ∧ bs.length < openings.length := by
  induction openings generalizing bs with
  | nil => simp [indicesMatch]
  | cons o rest ih =>
      cases bs with
      | nil => simp [indicesMatch]
      | cons b bs =>
          rw [indicesMatch, List.map_cons, List.cons_prefix_cons]
          by_cases hb : o.domainIndex = b
          · simp [hb, ih]
          · simp [hb, Ne.symm hb]

/-- The first opening that does not verify is one on which a library does not return. -/
theorem verifyOpenings_eq_none_iff (openings : List IpaOpening) :
    bw.verifyOpenings openings = none ↔ ∃ verified o rest, openings = verified ++ o :: rest ∧
      (∀ v ∈ verified, bw.verifyOpening v = some true) ∧ bw.verifyOpening o = none := by
  induction openings with
  | nil => simp [Banderwagon.verifyOpenings]
  | cons first rest ih =>
      rw [Banderwagon.verifyOpenings]
      constructor
      · intro h
        cases hfirst : bw.verifyOpening first with
        | none => exact ⟨[], first, rest, rfl, by simp, hfirst⟩
        | some passed =>
            cases passed with
            | false => simp [hfirst] at h
            | true =>
                rw [hfirst] at h
                obtain ⟨verified, o, rest, rfl, hverified, ho⟩ := ih.1 h
                exact ⟨first :: verified, o, rest, rfl,
                  List.forall_mem_cons.2 ⟨hfirst, hverified⟩, ho⟩
      · rintro ⟨verified, o, rest', hsplit, hverified, ho⟩
        cases verified with
        | nil =>
            obtain ⟨rfl, -⟩ := List.cons.inj hsplit
            simp [ho]
        | cons v verified =>
            obtain ⟨rfl, hrest⟩ := List.cons.inj hsplit
            obtain ⟨hv, hverified⟩ := List.forall_mem_cons.1 hverified
            have hnone := ih.2 ⟨verified, o, rest', hrest, hverified, ho⟩
            simp [hv, hnone]

variable (bw) in
/-- A proof with the address's bytes and the slot, and verified openings in front of one on which a
library does not return. -/
structure Stalls (addr : Address) (slotOpt : Option BalanceSlot) (proof : VerkleProof) :
    Prop where
  path : proof.path.map ProofStep.byte <+: addr.val
  slot : proof.slot = slotOpt
  opening : ∃ verified o rest, proof.openings = verified ++ o :: rest ∧
    (∀ v ∈ verified, bw.verifyOpening v = some true) ∧ bw.verifyOpening o = none

variable (bw) in
/-- A proof of absence with verified openings at the bytes of the address, and more of them than the
address has bytes. -/
structure RunsPast (root : Commitment) (addr : Address) (slotOpt : Option BalanceSlot)
    (proof : VerkleProof) : Prop where
  absence : slotOpt = none
  slot : proof.slot = none
  path : proof.path.map ProofStep.byte <+: addr.val
  verified : ∀ o ∈ proof.openings, bw.verifyOpening o = some true
  root : ∀ o ∈ proof.openings.head?, o.commitment = root
  indices : addr.val <+: proof.openings.map IpaOpening.domainIndex
  length : addr.val.length < proof.openings.length

variable [DecidableEq Fr]

/-- What comes after a check that has a verdict is reached once it passes. -/
theorem bind_check_eq_none_iff (check next : Option Bool) :
    (check.bind fun passed => if !passed then some false else next) = none ↔
      check = none ∨ check = some true ∧ next = none := by
  cases check with
  | none => simp
  | some passed => cases passed <;> simp

/-- The openings are stopped at by a library, or an absence is compared past the address. -/
theorem checkOpenings_eq_none_iff (root : Commitment) (addr : Address)
    (slotOpt : Option BalanceSlot) (openings : List IpaOpening) :
    checkOpenings bw root addr slotOpt openings = none ↔
      (∃ verified o rest, openings = verified ++ o :: rest ∧
        (∀ v ∈ verified, bw.verifyOpening v = some true) ∧ bw.verifyOpening o = none) ∨
      slotOpt = none ∧ (∀ o ∈ openings, bw.verifyOpening o = some true) ∧
        (∀ o ∈ openings.head?, o.commitment = root) ∧
        addr.val <+: openings.map IpaOpening.domainIndex ∧
        addr.val.length < openings.length := by
  cases openings with
  | nil => simp [checkOpenings, verifyVerkle]
  | cons first rest =>
      rw [checkOpenings, verifyVerkle]
      dsimp only
      rw [if_neg (by simp), if_neg (by simp), if_neg (not_not.2 rfl)]
      change ((bw.verifyOpenings (first :: rest)).bind _) = none ↔ _
      rw [bind_check_eq_none_iff, verifyOpenings_eq_none_iff, verifyOpenings_eq_true_iff]
      refine or_congr_right ?_
      by_cases hroot : first.commitment = root
      swap
      · simp [hroot]
      rw [if_neg (not_not.2 hroot)]
      cases slotOpt with
      | some slot =>
          refine iff_of_false (fun h => ?_) (by simp)
          by_cases hcount : (first :: rest).length = addr.val.length + 1
          swap
          · rw [if_pos (by simpa using hcount)] at h
            exact Option.some_ne_none _ h.2
          -- Without the leaf's there are as many openings as bytes.
          rw [if_neg (by simp [hcount])] at h
          rcases (bind_check_eq_none_iff _ _).1 h.2 with hnone | ⟨-, hnext⟩
          · have hpast : addr.val.length < (first :: rest).dropLast.length :=
              ((indicesMatch_eq_none_iff _ _).1 hnone).2
            rw [List.length_dropLast, hcount] at hpast
            exact absurd hpast (by simp)
          · cases hlinked : linked bw (first :: rest) <;> simp [hlinked] at hnext
      | none =>
          have hnext : (if !linked bw (first :: rest) then some false else some true) ≠ none := by
            cases linked bw (first :: rest) <;> simp
          rw [if_neg (by simp)]
          change _ ∧ ((indicesMatch (first :: rest) addr.val).bind _) = none ↔ _
          rw [bind_check_eq_none_iff, indicesMatch_eq_none_iff]
          constructor
          · rintro ⟨hverified, hpast | ⟨-, hnone⟩⟩
            · exact ⟨rfl, hverified, by simpa using hroot, hpast⟩
            · exact absurd hnone hnext
          · rintro ⟨-, hverified, -, hpast⟩
            exact ⟨hverified, .inl hpast⟩

theorem verifyVerkle_eq_none_iff (root : Commitment) (addr : Address)
    (slotOpt : Option BalanceSlot) (proof : VerkleProof) :
    verifyVerkle bw root addr slotOpt proof = none ↔
      Stalls bw addr slotOpt proof ∨ RunsPast bw root addr slotOpt proof := by
  obtain ⟨⟨path, slot⟩, witness⟩ := proof
  cases witness with
  | none =>
      refine iff_of_false (Option.some_ne_none _) ?_
      rintro (⟨-, -, verified, o, rest, hnil, -⟩ | hpast)
      · simp [VerkleProof.openings] at hnil
      · exact absurd hpast.length (Nat.not_lt_zero _)
  | some witness =>
      rw [verifyVerkle_eq_ite]
      split_ifs with hmatch
      · obtain ⟨hpath, rfl⟩ := hmatch
        rw [checkOpenings_eq_none_iff]
        constructor
        · rintro (hopening | ⟨rfl, hverified, hroot, hindices, hlength⟩)
          · exact .inl ⟨hpath, rfl, hopening⟩
          · exact .inr ⟨rfl, rfl, hpath, hverified, hroot, hindices, hlength⟩
        · rintro (hstalls | hpast)
          · exact .inl hstalls.opening
          · exact .inr ⟨hpast.absence, hpast.verified, hpast.root, hpast.indices, hpast.length⟩
      · refine iff_of_false not_false fun h => hmatch ?_
        rcases h with hstalls | hpast
        · exact ⟨hstalls.path, hstalls.slot⟩
        · exact ⟨hpast.path, hpast.slot.trans hpast.absence.symm⟩

/-- The verifier returns unless a library does not return on an opening it is given, or it is given
an absence proof that runs past the address. -/
theorem verifyVerkle_isSome_iff (bw : Banderwagon Fr Element IpaProof) (root : Commitment)
    (addr : Address) (slotOpt : Option BalanceSlot) (proof : VerkleProof) :
    (∃ verdict, verifyVerkle bw root addr slotOpt proof = some verdict) ↔
      ¬ Stalls bw addr slotOpt proof ∧ ¬ RunsPast bw root addr slotOpt proof := by
  rw [← not_or, ← verifyVerkle_eq_none_iff, ← Option.isSome_iff_exists, Option.isSome_iff_ne_none]

end Verkle

/-- The 21 openings of an inclusion proof, offered as a proof of absence. -/
theorem verifyVerkle_panics :
    knownBanderwagon.Lawful ∧
    (∀ o ∈ zeroOpenings.openings, knownBanderwagon.verifyOpening o = some true) ∧
    verifyVerkle knownBanderwagon
      ((StateTree.fromEntries emptiedEntries).rootVia knownBanderwagon) zeroAddress none
      ⟨⟨[], none⟩, some zeroOpenings⟩ = none :=
  ⟨knownBanderwagon_lawful, by decide +kernel, by decide +kernel⟩

end SuwappuDb
