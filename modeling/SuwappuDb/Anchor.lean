import SuwappuDb.StateTree

/-!
# Anchors and their credentials

`crates/suwappudb-bridge/src/anchor/{types,credential,signing}.rs`: the anchor record, its MAC and
its hash, the bytes an ECDSA signature is made over, and the verifiers of the four schemes.

BLAKE3, Keccak-256, the recovery of a secp256k1 key and ML-DSA-65 are those of the crates `blake3`,
`sha3`, `k256` and `pqcrypto_mldsa`. They are the parameter `AnchorCrypto`, of which nothing is
assumed but that no key is recovered from scalars out of range.

An anchor is authenticated under the chain id and the height it carries itself. What ties it to a
log and to a place in it is the log's business (`AnchorLog`).
-/

namespace SuwappuDb

abbrev U32 := Fin (2 ^ 32)

instance U32.neZero : NeZero (2 ^ 32) := ⟨by decide⟩

/-! ## Cryptography -/

/-- The order of the group of secp256k1. -/
def SECP256K1_ORDER : Nat := 0xFFFFFFFFFFFFFFFFFFFFFFFFFFFFFFFEBAAEDCE6AF48A03BBFD25E8CD0364141

/-- The non-zero scalars of secp256k1. -/
def IsScalar (n : Nat) : Prop := 0 < n ∧ n < SECP256K1_ORDER

instance (n : Nat) : Decidable (IsScalar n) := inferInstanceAs (Decidable (_ ∧ _))

/-- The `VerificationError` of `pqcrypto_traits`. -/
inductive VerificationError where
  | invalidSignature | unknownVerificationError
  deriving DecidableEq

/-- `pqcrypto_mldsa::mldsa65`. -/
structure MlDsa65 where
  /-- `DetachedSignature::from_bytes` succeeds. -/
  parsesSignature : List Byte → Bool
  /-- `PublicKey::from_bytes` succeeds. -/
  parsesPublicKey : List Byte → Bool
  verifyDetachedSignature :
    (signature payload publicKey : List Byte) → Except VerificationError Unit

/-- What the anchor code takes from other crates. -/
structure AnchorCrypto where
  blake3 : List Byte → ByteArr 32
  /-- `Hasher::new_keyed`. -/
  keyedBlake3 : (key : ByteArr 32) → List Byte → ByteArr 32
  keccak256 : List Byte → ByteArr 32
  /-- The secp256k1 key, as `X ‖ Y`, that made the signature `(r, s)`; `odd` is the parity of the
  `y` coordinate of the point with `x` coordinate `r`. -/
  recover : (digest : ByteArr 32) → (odd : Bool) → (r s : Nat) → Option (ByteArr 64)
  recover_eq_none : ∀ digest odd r s, ¬ (IsScalar r ∧ IsScalar s) → recover digest odd r s = none
  /-- Only with the feature `production-pqc`. -/
  mldsa65 : Option MlDsa65

/-- No signature is one. -/
def recoverNothing (_ : ByteArr 32) (_ : Bool) (_ _ : Nat) : Option (ByteArr 64) := none

theorem recoverNothing_eq_none (digest : ByteArr 32) (odd : Bool) (r s : Nat) :
    ¬ (IsScalar r ∧ IsScalar s) → recoverNothing digest odd r s = none :=
  fun _ => rfl

/-! ## Anchors -/

abbrev ChainId := U32
abbrev AnchorHash := ByteArr 32

inductive AuthScheme where
  | blake3Mac | sp1ZkProof | ecdsaSecp256k1 | mlDsa65Hybrid
  deriving DecidableEq

inductive AuthVerifyError where
  | unsupportedScheme (scheme : AuthScheme)
  | invalidAuthenticator
  deriving DecidableEq

theorem length_zeros (n : Nat) : (List.replicate n (0 : Byte)).length = n := List.length_replicate

/-- An array of zero bytes. -/
def zeroBytes (n : Nat) : ByteArr n := ⟨List.replicate n 0, length_zeros n⟩

def Anchor.GENESIS_PARENT : AnchorHash := zeroBytes 32

/-- One chain's anchor for one block. -/
structure Anchor where
  chainId : ChainId
  height : U64
  stateRoot : Commitment
  parent : AnchorHash
  mac : ByteArr 32
  authScheme : AuthScheme
  deriving DecidableEq

section Crypto

variable (crypto : AnchorCrypto)

/-- `compute_mac`. -/
def computeMac (chainId : ChainId) (height : U64) (stateRoot : Commitment) (parent : AnchorHash)
    (key : ByteArr 32) : ByteArr 32 :=
  crypto.keyedBlake3 key (ascii "SUWAPPUDB-ANCHOR/MAC" ++ beBytes 4 chainId.val ++
    beBytes 8 height.val ++ stateRoot.val ++ parent.val)

namespace Anchor

def new (chainId : ChainId) (height : U64) (stateRoot : Commitment) (parent : AnchorHash)
    (key : ByteArr 32) : Anchor where
  chainId := chainId
  height := height
  stateRoot := stateRoot
  parent := parent
  mac := computeMac crypto chainId height stateRoot parent key
  authScheme := .blake3Mac

/-- An anchor whose signature is kept beside it. -/
def ecdsa (chainId : ChainId) (height : U64) (stateRoot : Commitment) (parent : AnchorHash) :
    Anchor where
  chainId := chainId
  height := height
  stateRoot := stateRoot
  parent := parent
  mac := zeroBytes 32
  authScheme := .ecdsaSecp256k1

def verifyMac (anchor : Anchor) (key : ByteArr 32) : Bool :=
  let expected := computeMac crypto anchor.chainId anchor.height anchor.stateRoot anchor.parent key
  anchor.authScheme == .blake3Mac && anchor.mac == expected

def verifyAuthResult (anchor : Anchor) (key : ByteArr 32) : Except AuthVerifyError Unit :=
  match anchor.authScheme with
  | .blake3Mac => if anchor.verifyMac crypto key then .ok () else .error .invalidAuthenticator
  | .sp1ZkProof | .ecdsaSecp256k1 | .mlDsa65Hybrid => .error (.unsupportedScheme anchor.authScheme)

/-- The scheme is not part of what is hashed. -/
def hash (anchor : Anchor) : AnchorHash :=
  crypto.blake3 (ascii "SUWAPPUDB-ANCHOR/HASH" ++ beBytes 4 anchor.chainId.val ++
    beBytes 8 anchor.height.val ++ anchor.stateRoot.val ++ anchor.parent.val ++ anchor.mac.val)

end Anchor

/-! ## ECDSA -/

abbrev EthAddress := ByteArr 20

inductive EcdsaVerifyError where
  | malformedSignature | recoveryFailed | unauthorizedSigner
  deriving DecidableEq

theorem length_dropTwelve (digest : ByteArr 32) : (digest.val.drop 12).length = 20 := by
  rw [List.length_drop, digest.property]

/-- `EthAddress::from_verifying_key`, of the 64 bytes after the SEC1 tag. -/
def EthAddress.fromVerifyingKey (vk : ByteArr 64) : EthAddress :=
  ⟨(crypto.keccak256 vk.val).val.drop 12, length_dropTwelve _⟩

/-- `solidity_abi_encode`. -/
def solidityAbiEncode (chainId : ChainId) (height : U64) (stateRoot : Commitment)
    (parent : AnchorHash) (mac : ByteArr 32) : List Byte :=
  let buf := List.replicate 160 0
  let buf := copyFromSlice buf 28 (beBytes 4 chainId.val)
  let buf := copyFromSlice buf 56 (beBytes 8 height.val)
  let buf := copyFromSlice buf 64 stateRoot.val
  let buf := copyFromSlice buf 96 parent.val
  copyFromSlice buf 128 mac.val

/-- `eth_signed_message_hash`. -/
def ethSignedMessageHash (anchor : Anchor) : ByteArr 32 :=
  let encoded := solidityAbiEncode anchor.chainId anchor.height anchor.stateRoot anchor.parent
    anchor.mac
  let inner := crypto.keccak256 encoded
  crypto.keccak256 (ascii "\x19Ethereum Signed Message:\n32" ++ inner.val)

/-- `Signature::try_from` of `k256`: the scalars `r` and `s`. -/
def signatureFromBytes (bytes : List Byte) : Option (Nat × Nat) :=
  let r := beValue (bytes.take 32)
  let s := beValue (bytes.drop 32)
  if IsScalar r ∧ IsScalar s then some (r, s) else none

/-- The recovery id of Ethereum's `v`. -/
def recoveryId (v : Byte) : Option Bool :=
  if v = 27 then some false else if v = 28 then some true else none

def verifyEcdsa (anchor : Anchor) (signature : ByteArr 65) (expectedSigner : EthAddress) :
    Except EcdsaVerifyError Unit :=
  match recoveryId (signature.val.getD 64 0), signatureFromBytes (signature.val.take 64) with
  | some odd, some (r, s) =>
      -- `normalize_s` changes the signature: `s` is in the upper half.
      if SECP256K1_ORDER / 2 < s then .error .malformedSignature
      else
        match crypto.recover (ethSignedMessageHash crypto anchor) odd r s with
        | none => .error .recoveryFailed
        | some vk =>
            if EthAddress.fromVerifyingKey crypto vk = expectedSigner then .ok ()
            else .error .unauthorizedSigner
  | _, _ => .error .malformedSignature

/-! ## Credentials -/

structure Sp1PublicValues where
  prevStateRoot : ByteArr 32
  newStateRoot : ByteArr 32
  blockHash : ByteArr 32
  deriving DecidableEq

/-- What is kept beside an anchor. A MAC is in the anchor itself. -/
inductive AnchorAuthCredential where
  | blake3Mac
  | sp1ZkProof (vkeyHash : ByteArr 32) (publicValues : Sp1PublicValues) (proofBytes : List Byte)
  | ecdsaSecp256k1 (signature : ByteArr 65)
  | mlDsa65Hybrid (ecdsaSignature : ByteArr 65) (mldsaSignature : List Byte)
  deriving DecidableEq

inductive ExpectedVerifier where
  | blake3Mac (key : ByteArr 32)
  | ecdsaSecp256k1 (signer : EthAddress)
  | mlDsa65Hybrid (signer : EthAddress) (mldsaPublicKey : List Byte)
  | sp1ZkProof (vkeyHash expectedPrevStateRoot expectedNewStateRoot expectedBlockHash : ByteArr 32)
  deriving DecidableEq

/-- How the anchors of a chain are verified. -/
inductive VerifierConfig where
  | blake3Mac (key : ByteArr 32)
  | ecdsaSecp256k1 (signer : EthAddress)
  | mlDsa65Hybrid (signer : EthAddress) (mldsaPublicKey : List Byte)
  | sp1ZkProof (vkeyHash expectedPrevStateRoot expectedBlockHash : ByteArr 32)
  deriving DecidableEq

namespace VerifierConfig

def asExpectedFor (config : VerifierConfig) (anchor : Anchor) : ExpectedVerifier :=
  match config with
  | .blake3Mac key => .blake3Mac key
  | .ecdsaSecp256k1 signer => .ecdsaSecp256k1 signer
  | .mlDsa65Hybrid signer mldsaPublicKey => .mlDsa65Hybrid signer mldsaPublicKey
  | .sp1ZkProof vkeyHash expectedPrevStateRoot expectedBlockHash =>
      .sp1ZkProof vkeyHash expectedPrevStateRoot anchor.stateRoot expectedBlockHash

def scheme : VerifierConfig → AuthScheme
  | .blake3Mac _ => .blake3Mac
  | .ecdsaSecp256k1 _ => .ecdsaSecp256k1
  | .mlDsa65Hybrid _ _ => .mlDsa65Hybrid
  | .sp1ZkProof _ _ _ => .sp1ZkProof

end VerifierConfig

inductive MlDsaVerifyError where
  | malformedSignature | invalidSignature
  deriving DecidableEq

inductive CredentialVerifyError where
  | schemeMismatch
  | unsupportedScheme (scheme : AuthScheme)
  | blake3MacInvalid
  | ecdsaFailed (error : EcdsaVerifyError)
  | mlDsaFailed (error : MlDsaVerifyError)
  | sp1VkeyMismatch
  | sp1PublicValuesMismatch
  deriving DecidableEq

/-- `verify_mldsa65`. -/
def verifyMldsa65 (mldsa65 : MlDsa65) (anchor : Anchor)
    (signatureBytes publicKeyBytes : List Byte) : Except MlDsaVerifyError Unit :=
  if !mldsa65.parsesSignature signatureBytes then .error .malformedSignature
  else if !mldsa65.parsesPublicKey publicKeyBytes then .error .malformedSignature
  else
    match mldsa65.verifyDetachedSignature signatureBytes (ethSignedMessageHash crypto anchor).val
        publicKeyBytes with
    | .ok () => .ok ()
    | .error .invalidSignature => .error .invalidSignature
    | .error .unknownVerificationError => .error .malformedSignature

/-- `verify_hybrid`: both signatures, or none of it without the feature. -/
def verifyHybrid (anchor : Anchor) (ecdsaSignature : ByteArr 65) (mldsaSignature : List Byte)
    (signer : EthAddress) (mldsaPublicKey : List Byte) : Except CredentialVerifyError Unit :=
  match crypto.mldsa65 with
  | none => .error (.unsupportedScheme .mlDsa65Hybrid)
  | some mldsa65 => do
      (verifyEcdsa crypto anchor ecdsaSignature signer).mapError .ecdsaFailed
      (verifyMldsa65 crypto mldsa65 anchor mldsaSignature mldsaPublicKey).mapError .mlDsaFailed

/-- `verify_credential`. A proof that passes its checks is still refused: nothing verifies it. -/
def verifyCredential (anchor : Anchor) (credential : AnchorAuthCredential)
    (expected : ExpectedVerifier) : Except CredentialVerifyError Unit :=
  match anchor.authScheme, credential, expected with
  | .blake3Mac, .blake3Mac, .blake3Mac key =>
      if anchor.verifyMac crypto key then .ok () else .error .blake3MacInvalid
  | .ecdsaSecp256k1, .ecdsaSecp256k1 signature, .ecdsaSecp256k1 signer =>
      (verifyEcdsa crypto anchor signature signer).mapError .ecdsaFailed
  | .mlDsa65Hybrid, .mlDsa65Hybrid ecdsaSignature mldsaSignature,
      .mlDsa65Hybrid signer mldsaPublicKey =>
      verifyHybrid crypto anchor ecdsaSignature mldsaSignature signer mldsaPublicKey
  | .sp1ZkProof, .sp1ZkProof vkeyHash publicValues _,
      .sp1ZkProof expectedVkey expectedPrevStateRoot expectedNewStateRoot expectedBlockHash =>
      if vkeyHash ≠ expectedVkey then .error .sp1VkeyMismatch
      else if publicValues.prevStateRoot ≠ expectedPrevStateRoot ∨
          publicValues.newStateRoot ≠ expectedNewStateRoot ∨
          publicValues.blockHash ≠ expectedBlockHash then .error .sp1PublicValuesMismatch
      else .error (.unsupportedScheme .sp1ZkProof)
  | _, _, _ => .error .schemeMismatch

/-! ## Signers -/

inductive SignerError where
  | signFailed (reason : String)
  | schemeMismatch
  deriving DecidableEq

/-- The trait `AnchorSigner`. -/
structure AnchorSigner where
  scheme : AuthScheme
  sign : Anchor → Except SignerError AnchorAuthCredential

/-- The `SigningKey` of `k256`. -/
structure SigningKey where
  /-- `X ‖ Y`. -/
  verifyingKey : ByteArr 64
  /-- The bytes `r ‖ s` and the recovery id. -/
  signPrehashRecoverable : (digest : ByteArr 32) → Option (ByteArr 64 × Fin 4)

theorem length_concat_byte (bytes : ByteArr 64) (v : Byte) : (bytes.val ++ [v]).length = 65 := by
  rw [List.length_append, bytes.property, List.length_singleton]

namespace EcdsaSecp256k1Signer

def address (inner : SigningKey) : EthAddress :=
  EthAddress.fromVerifyingKey crypto inner.verifyingKey

def sign (inner : SigningKey) (anchor : Anchor) : Except SignerError AnchorAuthCredential :=
  if anchor.authScheme ≠ .ecdsaSecp256k1 then .error .schemeMismatch
  else
    match inner.signPrehashRecoverable (ethSignedMessageHash crypto anchor) with
    | none => .error (.signFailed "k256 sign_prehash_recoverable")
    | some (sig, recovery) =>
        .ok (.ecdsaSecp256k1
          ⟨sig.val ++ [Fin.ofNat 256 (recovery.val + 27)], length_concat_byte _ _⟩)

/-- `EcdsaSecp256k1Signer` as an `AnchorSigner`. -/
def signer (inner : SigningKey) : AnchorSigner where
  scheme := .ecdsaSecp256k1
  sign := sign crypto inner

end EcdsaSecp256k1Signer

end Crypto

end SuwappuDb
