import SuwappuDb.AnchorLog
import SuwappuDb.AnchorRegistry
import SuwappuDb.MixedParity

/-!
# The contract against the Rust code

What `LTPAnchorRegistry` and the anchor code in Rust say to the same input.

* `verifyEcdsa_iff_recoverSigner` — on signatures they agree. The bytes that are signed are the same
  (`solidityAbiEncode_eq`), and so are the bounds on the scalars.
* `same_history_iff` — on histories they do not. The first anchor of a chain has height `0` in Rust
  and a positive height in the contract, so an authentic anchor with the genesis parent is accepted
  by exactly one of them.
-/

namespace SuwappuDb

open LTPAnchorRegistry

/-- The anchor as the contract sees it. -/
def Anchor.onChain (anchor : Anchor) : LTPAnchorRegistry.Anchor where
  chainId := anchor.chainId
  height := anchor.height
  stateRoot := anchor.stateRoot
  parent := anchor.parent
  mac := anchor.mac

/-! ## Signatures -/

/-- The buffer that Rust fills is the encoding of Solidity. -/
theorem solidityAbiEncode_eq (anchor : Anchor) :
    solidityAbiEncode anchor.chainId anchor.height anchor.stateRoot anchor.parent anchor.mac =
      abiEncode anchor.onChain := by
  have hchain : beBytes 32 anchor.chainId.val =
      List.replicate 28 0 ++ beBytes 4 anchor.chainId.val :=
    @beBytes_of_lt 4 _ (by have := anchor.chainId.isLt; omega) 28
  have hheight : beBytes 32 anchor.height.val =
      List.replicate 24 0 ++ beBytes 8 anchor.height.val :=
    @beBytes_of_lt 8 _ (by have := anchor.height.isLt; omega) 24
  have hroot := anchor.stateRoot.property
  have hparent := anchor.parent.property
  have hmac := anchor.mac.property
  unfold solidityAbiEncode
  rw [← List.nil_append (List.replicate 160 (0 : Byte))]
  simp only []
  rw [@copyFromSlice_zeros _ _ 28 160 28 128 (by simp) (by simp),
    @copyFromSlice_zeros _ _ 56 128 24 96 (by simp) (by simp),
    @copyFromSlice_zeros _ _ 64 96 0 64 (by simp) (by simp [hroot]),
    @copyFromSlice_zeros _ _ 96 64 0 32 (by simp [hroot]) (by simp [hparent]),
    @copyFromSlice_zeros _ _ 128 32 0 0 (by simp [hroot, hparent]) (by simp [hmac])]
  simp only [abiEncode, Anchor.onChain, hchain, hheight, List.nil_append, List.append_assoc,
    List.replicate_zero, List.append_nil]

theorem ethSignedMessageHash_eq (crypto : AnchorCrypto) (anchor : Anchor) :
    ethSignedMessageHash crypto anchor = ethMessageHash crypto anchor.onChain := by
  rw [ethSignedMessageHash, solidityAbiEncode_eq]
  rfl

/-- The upper bound on `s` in the contract is the one in Rust. -/
theorem half_order :
    SECP256K1_ORDER / 2 = 0x7FFFFFFFFFFFFFFFFFFFFFFFFFFFFFFF5D576E7357A4501DDFE92F46681B20A0 := by
  decide +kernel

theorem isScalar_of_recover {crypto : AnchorCrypto} {digest : ByteArr 32} {odd : Bool} {r s : Nat}
    {vk : ByteArr 64} (h : crypto.recover digest odd r s = some vk) : IsScalar r ∧ IsScalar s := by
  by_contra hnot
  rw [crypto.recover_eq_none digest odd r s hnot] at h
  cases h

theorem recoveryId_eq_some {v : Byte} {odd : Bool} :
    recoveryId v = some odd ↔ (v = 27 ∨ v = 28) ∧ odd = decide (v = 28) := by
  unfold recoveryId
  split_ifs with h27 h28
  · subst h27
    simp [eq_comm]
  · subst h28
    simp [eq_comm]
  · simp [h27, h28]

section Signatures

variable {crypto : AnchorCrypto} {anchor : Anchor} {signature : ByteArr 65} {address : EthAddress}

/-- The signature `(v, r, s)` recovers to the address, with `s` in the lower half. -/
structure RecoversTo (crypto : AnchorCrypto) (digest : ByteArr 32) (v : Byte) (r s : Nat)
    (address : EthAddress) : Prop where
  recoveryByte : v = 27 ∨ v = 28
  lower : s ≤ SECP256K1_ORDER / 2
  key : ∃ vk, crypto.recover digest (decide (v = 28)) r s = some vk ∧
    EthAddress.fromVerifyingKey crypto vk = address

theorem verifyEcdsa_eq_ok : verifyEcdsa crypto anchor signature address = .ok () ↔
    RecoversTo crypto (ethSignedMessageHash crypto anchor) (signature.val.getD 64 0)
      (beValue (signature.val.take 32)) (beValue ((signature.val.drop 32).take 32)) address := by
  have hr : (signature.val.take 64).take 32 = signature.val.take 32 := List.take_take ..
  have hs : (signature.val.take 64).drop 32 = (signature.val.drop 32).take 32 := List.drop_take ..
  unfold verifyEcdsa signatureFromBytes
  rw [hr, hs]
  generalize beValue (signature.val.take 32) = r
  generalize beValue ((signature.val.drop 32).take 32) = s
  generalize signature.val.getD 64 0 = v
  constructor
  · intro h
    cases hid : recoveryId v with
    | none => simp [hid] at h
    | some odd =>
        obtain ⟨hv, rfl⟩ := recoveryId_eq_some.1 hid
        by_cases hscalar : IsScalar r ∧ IsScalar s
        · simp only [hid, if_pos hscalar] at h
          split_ifs at h with hhigh
          cases hkey :
              crypto.recover (ethSignedMessageHash crypto anchor) (decide (v = 28)) r s with
          | none => simp [hkey] at h
          | some vk =>
              simp only [hkey] at h
              split_ifs at h with haddress
              exact ⟨hv, not_lt.1 hhigh, vk, hkey, haddress⟩
        · simp [hid, if_neg hscalar] at h
  · rintro ⟨hv, hlower, vk, hkey, haddress⟩
    have hid := recoveryId_eq_some.2 ⟨hv, rfl⟩
    simp only [hid, if_pos (isScalar_of_recover hkey), if_neg (not_lt.2 hlower), hkey,
      if_pos haddress]

theorem recoverAddress_eq_ok {digest : ByteArr 32} (hne : address ≠ zeroBytes 20) :
    recoverAddress crypto digest signature.val = .ok address ↔
      RecoversTo crypto digest (signature.val.getD 64 0) (beValue (signature.val.take 32))
        (beValue ((signature.val.drop 32).take 32)) address := by
  simp only [recoverAddress, bind_eq_ok_iff, require_eq_ok, exists_const, pure, Except.pure,
    Except.ok.injEq, signature.property, true_and, ← half_order]
  generalize beValue (signature.val.take 32) = r
  generalize beValue ((signature.val.drop 32).take 32) = s
  generalize signature.val.getD 64 0 = v
  constructor
  · rintro ⟨hv, hlower, -, hrecovered⟩
    rw [ecrecover, if_pos hv] at hrecovered
    cases hkey : crypto.recover digest (decide (v = 28)) r s with
    | none =>
        rw [hkey] at hrecovered
        exact absurd hrecovered.symm hne
    | some vk =>
        rw [hkey] at hrecovered
        exact ⟨hv, hlower, vk, hkey, hrecovered⟩
  · rintro ⟨hv, hlower, vk, hkey, haddress⟩
    have hrecovered : ecrecover crypto digest v r s = address := by
      rw [ecrecover, if_pos hv, hkey]
      exact haddress
    exact ⟨hv, hlower, hrecovered ▸ hne, hrecovered⟩

/-- The signature that Rust accepts recovers to the address on chain. -/
theorem verifyEcdsa_iff_recovered (ha : address ≠ zeroBytes 20) :
    verifyEcdsa crypto anchor signature address = .ok () ↔
      recoverSigner crypto anchor.onChain signature.val = .ok address := by
  rw [verifyEcdsa_eq_ok, ethSignedMessageHash_eq]
  exact (recoverAddress_eq_ok ha).symm

end Signatures

/-- The signed bytes are the same on both sides, and a signature is good for an address in Rust if
and only if it recovers to that address on chain. (No key has the zero address; the contract takes
it for a failure.) -/
theorem verifyEcdsa_iff_recoverSigner (crypto : AnchorCrypto) (anchor : Anchor)
    (signature : ByteArr 65) (a : EthAddress) (ha : a ≠ zeroBytes 20) :
    (verifyEcdsa crypto anchor signature a = .ok () ↔
      recoverSigner crypto anchor.onChain signature.val = .ok a) ∧
    solidityAbiEncode anchor.chainId anchor.height anchor.stateRoot anchor.parent anchor.mac =
      abiEncode anchor.onChain ∧
    ethSignedMessageHash crypto anchor = ethMessageHash crypto anchor.onChain :=
  ⟨verifyEcdsa_iff_recovered ha, solidityAbiEncode_eq anchor,
    ethSignedMessageHash_eq crypto anchor⟩

/-- The first anchor of `contracts/test/fixtures/parity_vectors.json`. -/
def vectorAnchor : Anchor := Anchor.ecdsa 7 0 (digestOf 0) Anchor.GENESIS_PARENT

theorem vector_signature_agrees :
    EcdsaSecp256k1Signer.address vectorCrypto vectorSigningKey ≠ zeroBytes 20 ∧
    verifyEcdsa vectorCrypto vectorAnchor ⟨vectorSignature.val ++ [28], length_concat_byte _ _⟩
      (EcdsaSecp256k1Signer.address vectorCrypto vectorSigningKey) = .ok () ∧
    recoverSigner vectorCrypto vectorAnchor.onChain (vectorSignature.val ++ [28]) =
      .ok (EcdsaSecp256k1Signer.address vectorCrypto vectorSigningKey) := by
  have hne : EcdsaSecp256k1Signer.address vectorCrypto vectorSigningKey ≠ zeroBytes 20 := by
    decide +kernel
  have hrust : verifyEcdsa vectorCrypto vectorAnchor
      ⟨vectorSignature.val ++ [28], length_concat_byte _ _⟩
      (EcdsaSecp256k1Signer.address vectorCrypto vectorSigningKey) = .ok () := by
    decide +kernel
  exact ⟨hne, hrust, (verifyEcdsa_iff_recoverSigner vectorCrypto vectorAnchor
    ⟨vectorSignature.val ++ [28], length_concat_byte _ _⟩ _ hne).1.1 hrust⟩

/-! ## Histories -/

/-- An anchor as it is offered to both: with its credential in Rust and its signature on chain. -/
structure Offer where
  anchor : Anchor
  credential : AnchorAuthCredential
  signature : List Byte

/-- Which of the inputs a machine accepts, one after another. -/
def verdicts {σ ι : Type} (offer : σ → ι → σ × Bool) : σ → List ι → List Bool
  | _, [] => []
  | s, i :: rest => (offer s i).2 :: verdicts offer (offer s i).1 rest

/-- `append_with_credential`; a panic accepts nothing. -/
def offerToLog (crypto : AnchorCrypto) (config : VerifierConfig) (log : AnchorLog) (o : Offer) :
    AnchorLog × Bool :=
  match log.appendWithCredential crypto o.anchor o.credential config with
  | some (log', .ok ()) => (log', true)
  | some (log', .error _) => (log', false)
  | none => (log, false)

/-- `acceptAnchor`; a revert accepts nothing. -/
def offerToRegistry (crypto : AnchorCrypto) (s : Registry) (o : Offer) : Registry × Bool :=
  match acceptAnchor crypto o.anchor.onChain o.signature s with
  | .ok (s', _) => (s', true)
  | .error _ => (s, false)

section Histories

variable {crypto : AnchorCrypto} {config : VerifierConfig} {c : ChainId} {s : Registry} {o : Offer}

/-- An authentic anchor is the first of a log if it names the genesis parent and has height `0`. -/
theorem offerToLog_new (hchain : o.anchor.chainId = c)
    (hverified : verifyCredential crypto o.anchor o.credential (config.asExpectedFor o.anchor) =
      .ok ()) :
    offerToLog crypto config (AnchorLog.new c) o =
      if o.anchor.parent = Anchor.GENESIS_PARENT ∧ o.anchor.height = 0 then
        ((AnchorLog.new c).push ⟨o.anchor, o.credential⟩, true)
      else (AnchorLog.new c, false) := by
  unfold offerToLog
  split_ifs with hfirst
  · have haccepts : (AnchorLog.new c).Accepts crypto ⟨o.anchor, o.credential⟩ config :=
      ⟨hchain, hfirst.1, hfirst.2, hverified⟩
    rw [haccepts.appendWithCredential_eq]
  · cases hstep : (AnchorLog.new c).appendWithCredential crypto o.anchor o.credential config with
    | none => rfl
    | some r =>
        obtain ⟨log', result⟩ := r
        rcases AnchorLog.appendWithCredential_cases hstep with ⟨e, rfl, rfl⟩ | ⟨-, -, haccepts⟩
        · rfl
        · exact absurd ⟨haccepts.parent, haccepts.height⟩ hfirst

/-- An authentic anchor is the first of a chain in the contract if it names the genesis parent and
has a positive height. -/
theorem offerToRegistry_fresh (hauthentic : Authentic crypto s o.anchor.onChain o.signature)
    (hfresh : s.lastHeightAccepted o.anchor.chainId = 0) :
    offerToRegistry crypto s o =
      if o.anchor.parent = Anchor.GENESIS_PARENT ∧ o.anchor.height ≠ 0 then
        (s.record o.anchor.onChain, true)
      else (s, false) := by
  have hparent : expectedParent crypto s o.anchor.onChain.chainId = Anchor.GENESIS_PARENT :=
    if_pos hfresh
  have hheight : s.lastHeightAccepted o.anchor.onChain.chainId < o.anchor.onChain.height ↔
      o.anchor.height ≠ 0 := by
    rw [show s.lastHeightAccepted o.anchor.onChain.chainId = 0 from hfresh]
    exact Fin.pos_iff_ne_zero
  unfold offerToRegistry
  split_ifs with hfirst
  · rw [acceptAnchor_eq_ok.2
      ⟨hauthentic, hfirst.1.trans hparent.symm, hheight.2 hfirst.2, rfl, rfl⟩]
  · cases hstep : acceptAnchor crypto o.anchor.onChain o.signature s with
    | error message => rfl
    | ok r =>
        obtain ⟨-, hp, hh, -⟩ := acceptAnchor_eq_ok.1 hstep
        exact absurd ⟨hp.trans hparent, hheight.1 hh⟩ hfirst

end Histories

/-- Authentic anchors of one chain are offered to an empty log and to a contract that has accepted
none of the chain. The two accept the same of them only if none names the genesis parent, so that
neither accepts any. -/
theorem same_history_iff (crypto : AnchorCrypto) (config : VerifierConfig) (c : ChainId)
    (s : Registry) (offers : List Offer) (hchain : ∀ o ∈ offers, o.anchor.chainId = c)
    (hverified : ∀ o ∈ offers, verifyCredential crypto o.anchor o.credential
      (config.asExpectedFor o.anchor) = .ok ())
    (hauthentic : ∀ o ∈ offers, Authentic crypto s o.anchor.onChain o.signature)
    (hfresh : s.lastHeightAccepted c = 0) :
    verdicts (offerToLog crypto config) (AnchorLog.new c) offers =
        verdicts (offerToRegistry crypto) s offers ↔
      ∀ o ∈ offers, o.anchor.parent ≠ Anchor.GENESIS_PARENT := by
  induction offers with
  | nil => simp [verdicts]
  | cons o offers ih =>
      rw [List.forall_mem_cons] at hchain hverified hauthentic ⊢
      have hlog := offerToLog_new hchain.1 hverified.1
      have hregistry := offerToRegistry_fresh hauthentic.1 (hchain.1 ▸ hfresh)
      rw [verdicts, verdicts, hlog, hregistry]
      by_cases hparent : o.anchor.parent = Anchor.GENESIS_PARENT
      · -- One of the two accepts it, by its height.
        by_cases hheight : o.anchor.height = 0 <;> simp [hparent, hheight]
      · -- Both refuse it and are where they were.
        simp only [hparent, false_and, if_false, List.cons.injEq, true_and, ne_eq,
          not_false_eq_true]
        exact ih hchain.2 hverified.2 hauthentic.2

/-! ### The first anchor of a chain

The anchor of `fixture_valid_anchor_acceptance` in `tests/solidity_anchor_parity.rs`, signed by the
key `0x1111..11`. In Rust it is of a chain that is authenticated by the same signature. -/

def fixtureKey : ByteArr 32 := constBytes 32 1

def fixtureAnchor : Anchor where
  chainId := 103115120
  height := 0
  stateRoot := constBytes 32 7
  parent := Anchor.GENESIS_PARENT
  mac := digestOf 0xb82cd56954458dad3dee397928f1c91674a62b086d8edfd8418f3ef3f5e48ef2
  authScheme := .ecdsaSecp256k1

/-- An anchor of the same chain and key that names another parent. -/
def orphanAnchor : Anchor where
  chainId := 103115120
  height := 1
  stateRoot := constBytes 32 8
  parent := constBytes 32 5
  mac := digestOf 0x40dbf07abecfd9e54cca6b83bc11386180eca42298e6504d950a25df55f4ce18
  authScheme := .ecdsaSecp256k1

/-- Keccak-256 on the MACs' inputs, on what is signed and on the signer's key. -/
def fixtureKeccak : List (List Byte × Commitment) := [
  (ascii "SUWAPPUDB-ANCHOR/MAC" ++ List.replicate 32 1 ++ beBytes 4 103115120 ++ beBytes 8 0 ++
      List.replicate 32 7 ++ List.replicate 32 0,
    digestOf 0xb82cd56954458dad3dee397928f1c91674a62b086d8edfd8418f3ef3f5e48ef2),
  (beBytes 32 103115120 ++ beBytes 32 0 ++ List.replicate 32 7 ++ List.replicate 32 0 ++
      beBytes 32 0xb82cd56954458dad3dee397928f1c91674a62b086d8edfd8418f3ef3f5e48ef2,
    digestOf 0xb93493a27988aa7cb512b1c4e2f73935bf14fb71e30c81678b5623b8af5ea1c5),
  (ascii "\x19Ethereum Signed Message:\n32" ++
      beBytes 32 0xb93493a27988aa7cb512b1c4e2f73935bf14fb71e30c81678b5623b8af5ea1c5,
    digestOf 0x974984a5e0f275224112b2446634509faf2cd04e3be4250b0319cb677f64a618),
  (ascii "SUWAPPUDB-ANCHOR/MAC" ++ List.replicate 32 1 ++ beBytes 4 103115120 ++ beBytes 8 1 ++
      List.replicate 32 8 ++ List.replicate 32 5,
    digestOf 0x40dbf07abecfd9e54cca6b83bc11386180eca42298e6504d950a25df55f4ce18),
  (beBytes 32 103115120 ++ beBytes 32 1 ++ List.replicate 32 8 ++ List.replicate 32 5 ++
      beBytes 32 0x40dbf07abecfd9e54cca6b83bc11386180eca42298e6504d950a25df55f4ce18,
    digestOf 0x5c29859655716ece1240f260fed224d9e366d0785eaf1c996d990f5bf914abfc),
  (ascii "\x19Ethereum Signed Message:\n32" ++
      beBytes 32 0x5c29859655716ece1240f260fed224d9e366d0785eaf1c996d990f5bf914abfc,
    digestOf 0x3540f05f41f0399ca98b46a61db227c55576a2e9b565773af6bdc24dee9be2fd),
  (beBytes 32 0x4f355bdcb7cc0af728ef3cceb9615d90684bb5b2ca5f859ab0f0b704075871aa ++
      beBytes 32 0x385b6b1b8ead809ca67454d9683fcf2ba03456d6fe2c4abe2b07f0fbdbb2f1c1,
    digestOf 0x969b0a11b8a56bacf1ac18f219e7e376e7c213b7e7e7e46cc70a5dd086daff2a)]

def fixtureVerifyingKey : ByteArr 64 :=
  ⟨beBytes 32 0x4f355bdcb7cc0af728ef3cceb9615d90684bb5b2ca5f859ab0f0b704075871aa ++
      beBytes 32 0x385b6b1b8ead809ca67454d9683fcf2ba03456d6fe2c4abe2b07f0fbdbb2f1c1,
    length_beBytes_append 32 32 _ _⟩

/-- The functions on these inputs. -/
def fixtureCrypto : AnchorCrypto where
  blake3 := tableHash []
  keyedBlake3 _ := tableHash []
  keccak256 := tableHash fixtureKeccak
  recover _ _ r s := if IsScalar r ∧ IsScalar s then some fixtureVerifyingKey else none
  recover_eq_none _ _ _ _ h := if_neg h
  mldsa65 := none

def fixtureSigner : EthAddress := EthAddress.fromVerifyingKey fixtureCrypto fixtureVerifyingKey

def fixtureSignature : ByteArr 65 :=
  ⟨(⟨beBytes 32 0x9377c312145a5afb911bf9e8c067bcf6094c533603687850df502b61290bbf5e ++
      beBytes 32 0x657142dbecdaaed79a5564a0e13ebce17dc202dc66835ed4c37579a1520e8074,
    length_beBytes_append 32 32 _ _⟩ : ByteArr 64).val ++ [28], length_concat_byte _ _⟩

def orphanSignature : ByteArr 65 :=
  ⟨(⟨beBytes 32 0x431f3e9fbece48dfee0bca3fe9b31e571380388a2aba2f9153e6791db733634d ++
      beBytes 32 0x4f93e40dd8d00315a3eca456700544211b7ec5fb54d7f52b189fc0ac2bd9f607,
    length_beBytes_append 32 32 _ _⟩ : ByteArr 64).val ++ [28], length_concat_byte _ _⟩

def fixtureOffer : Offer where
  anchor := fixtureAnchor
  credential := .ecdsaSecp256k1 fixtureSignature
  signature := fixtureSignature.val

def orphanOffer : Offer where
  anchor := orphanAnchor
  credential := .ecdsaSecp256k1 orphanSignature
  signature := orphanSignature.val

/-- The contract after its owner has set the chain's key and approved the signer. -/
def fixtureRegistry : Registry :=
  (RegistryRun.runTransactions fixtureCrypto fixtureSigner [
    (fixtureSigner, .setChainKey 103115120 fixtureKey),
    (fixtureSigner, .addSigner fixtureSigner)]).registry

theorem verified_fixtureOffers : ∀ o ∈ [orphanOffer, fixtureOffer],
    verifyCredential fixtureCrypto o.anchor o.credential
      ((VerifierConfig.ecdsaSecp256k1 fixtureSigner).asExpectedFor o.anchor) = .ok () := by
  decide +kernel

theorem authentic_fixtureOffers : ∀ o ∈ [orphanOffer, fixtureOffer],
    Authentic fixtureCrypto fixtureRegistry o.anchor.onChain o.signature := by
  have hsigned : ∀ o ∈ [orphanOffer, fixtureOffer],
      recoverSigner fixtureCrypto o.anchor.onChain o.signature = .ok fixtureSigner := by
    decide +kernel
  have hmac : ∀ o ∈ [orphanOffer, fixtureOffer],
      verifyMac fixtureCrypto fixtureRegistry o.anchor.onChain = .ok true := by
    decide +kernel
  exact fun o ho => ⟨⟨fixtureSigner, hsigned o ho, by decide +kernel⟩, hmac o ho⟩

/-- Both refuse the orphan, and the contract alone refuses the first anchor of the chain. -/
theorem same_history_fixture :
    ((∀ o ∈ [orphanOffer, fixtureOffer], o.anchor.chainId = 103115120) ∧
      (∀ o ∈ [orphanOffer, fixtureOffer], verifyCredential fixtureCrypto o.anchor o.credential
        ((VerifierConfig.ecdsaSecp256k1 fixtureSigner).asExpectedFor o.anchor) = .ok ()) ∧
      (∀ o ∈ [orphanOffer, fixtureOffer],
        Authentic fixtureCrypto fixtureRegistry o.anchor.onChain o.signature) ∧
      fixtureRegistry.lastHeightAccepted 103115120 = 0) ∧
    (verdicts (offerToLog fixtureCrypto (.ecdsaSecp256k1 fixtureSigner))
        (AnchorLog.new 103115120) [orphanOffer, fixtureOffer] =
      verdicts (offerToRegistry fixtureCrypto) fixtureRegistry [orphanOffer, fixtureOffer] ↔
      ∀ o ∈ [orphanOffer, fixtureOffer], o.anchor.parent ≠ Anchor.GENESIS_PARENT) := by
  have hchain : ∀ o ∈ [orphanOffer, fixtureOffer], o.anchor.chainId = 103115120 := by decide +kernel
  have hfresh : fixtureRegistry.lastHeightAccepted 103115120 = 0 := by decide +kernel
  exact ⟨⟨hchain, verified_fixtureOffers, authentic_fixtureOffers, hfresh⟩,
    same_history_iff fixtureCrypto (.ecdsaSecp256k1 fixtureSigner) 103115120 fixtureRegistry
      [orphanOffer, fixtureOffer] hchain verified_fixtureOffers authentic_fixtureOffers hfresh⟩

/-- Rust accepts the first anchor of the chain; the contract reverts, as `0 > 0` does not hold. -/
theorem same_history_first :
    verdicts (offerToLog fixtureCrypto (.ecdsaSecp256k1 fixtureSigner))
      (AnchorLog.new 103115120) [fixtureOffer] = [true] ∧
    verdicts (offerToRegistry fixtureCrypto) fixtureRegistry [fixtureOffer] = [false] ∧
    (acceptAnchor fixtureCrypto fixtureAnchor.onChain fixtureSignature.val fixtureRegistry).map
      Prod.snd = .error "LTPAnchorRegistry: Non-monotonic height" :=
  ⟨by decide +kernel, by decide +kernel, by decide +kernel⟩

end SuwappuDb
