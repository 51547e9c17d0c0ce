import SuwappuDb.RegistryParity

/-!
# Signed anchors on chain

What `LTPAnchorRegistry.acceptAnchor` says to the anchors that `dispatchWithSigner` makes.

`Anchor::ecdsa` leaves the MAC zero, since the signature is kept beside the anchor. The contract
asks for both: the signature of an approved signer, and a MAC that is a Keccak-256 digest, which is
never zero (`verifyMac_ecdsa`). So no anchor of a signed chain is ever accepted
(`checks_dispatched`), and all of them authenticate only where none is made:
`dispatched_authentic_iff`.
-/

namespace SuwappuDb

open LTPAnchorRegistry AnchorDispatcher

section Signed

variable {crypto : AnchorCrypto} {d d' : AnchorDispatcher} {c : ChainId} {log : AnchorLog}
  {expected address : EthAddress} {signer : AnchorSigner} {height : U64} {root : Commitment}
  {s : Registry}

/-- A signature is good for one address. -/
theorem address_eq_of_verifyEcdsa {anchor : Anchor} {signature : ByteArr 65}
    (h : verifyEcdsa crypto anchor signature expected = .ok ())
    (h' : verifyEcdsa crypto anchor signature address = .ok ()) : expected = address := by
  obtain ⟨-, -, vk, hkey, haddress⟩ := verifyEcdsa_eq_ok.1 h
  obtain ⟨-, -, vk', hkey', haddress'⟩ := verifyEcdsa_eq_ok.1 h'
  obtain rfl := Option.some.inj (hkey.symm.trans hkey')
  exact haddress.symm.trans haddress'

theorem verifyCredential_ecdsa {anchor : Anchor} (hscheme : anchor.authScheme = .ecdsaSecp256k1)
    {signature : ByteArr 65} :
    verifyCredential crypto anchor (.ecdsaSecp256k1 signature)
        ((VerifierConfig.ecdsaSecp256k1 expected).asExpectedFor anchor) = .ok () ↔
      verifyEcdsa crypto anchor signature expected = .ok () := by
  simp only [verifyCredential, VerifierConfig.asExpectedFor, hscheme, mapError_eq_ok_iff]

/-- When an honest signer gets an anchor, and which one. -/
theorem dispatchWithSigner_eq_ok (hconfig : d.configs.get? c = some (.ecdsaSecp256k1 expected))
    (hlog : d.logs.get? c = some log) (hsigner : signer.Honest crypto address) {anchor : Anchor} :
    d.dispatchWithSigner crypto c height root signer = (d', some (.ok anchor)) ↔
      expected = address ∧ log.chainId = c ∧ log.IsNext height ∧
      anchor = Anchor.ecdsa c height root (log.tip crypto) ∧
      ∃ signature, signer.sign anchor = .ok (.ecdsaSecp256k1 signature) ∧
        verifyEcdsa crypto anchor signature address = .ok () ∧
        d' = d.updateLog c (log.push ⟨anchor, .ecdsaSecp256k1 signature⟩) := by
  obtain ⟨signature, hsign, hverify⟩ :=
    hsigner.signs (Anchor.ecdsa c height root (log.tip crypto)) rfl
  rw [dispatchWithSigner_ecdsa hconfig hlog hsigner.scheme hsign]
  constructor
  · intro h
    split at h
    · next log' happend =>
        rcases AnchorLog.appendWithCredential_cases happend with ⟨e, he, -⟩ | ⟨-, rfl, haccepts⟩
        · cases he
        · obtain ⟨rfl, hanchor⟩ := Prod.mk.inj h
          obtain rfl := Except.ok.inj (Option.some.inj hanchor)
          have hexpected := address_eq_of_verifyEcdsa
            ((verifyCredential_ecdsa rfl).1 haccepts.verified) hverify
          exact ⟨hexpected, haccepts.chainId.symm, haccepts.height, rfl, signature, hsign, hverify,
            rfl⟩
    · cases h
    · cases h
  · rintro ⟨rfl, hchain, hheight, rfl, signature', hsign', -, rfl⟩
    obtain rfl : signature = signature' := by
      simpa using hsign.symm.trans hsign'
    have haccepts : log.Accepts crypto
        ⟨Anchor.ecdsa c height root (log.tip crypto), .ecdsaSecp256k1 signature⟩
        (.ecdsaSecp256k1 expected) :=
      ⟨hchain.symm, rfl, hheight, (verifyCredential_ecdsa rfl).2 hverify⟩
    rw [haccepts.appendWithCredential_eq]

/-- The contract's MAC check fails for a signed anchor, whatever its fields and the chain's key. -/
theorem verifyMac_ecdsa (hkeccak : ∀ input, crypto.keccak256 input ≠ zeroBytes 32)
    (hkey : s.chainKey c ≠ zeroBytes 32) (height : U64) (root : Commitment) (parent : AnchorHash) :
    verifyMac crypto s (Anchor.ecdsa c height root parent).onChain = .ok false := by
  have hmac : (Anchor.ecdsa c height root parent).onChain.mac ≠
      LTPAnchorRegistry.computeMac crypto (Anchor.ecdsa c height root parent).onChain
        (s.chainKey c) :=
    fun heq => hkeccak _ heq.symm
  have hrequire : require (s.chainKey c ≠ zeroBytes 32) "LTPAnchorRegistry: Chain not registered" =
      .ok () := require_eq_ok.2 hkey
  change (require (s.chainKey c ≠ zeroBytes 32) _ >>= fun _ => _) = _
  rw [hrequire]
  exact congrArg Except.ok (beq_false_of_ne hmac)

/-- What `dispatchWithSigner` has stored: the anchor is the last of its chain's log, with this
signature beside it. -/
def StoredWith (d : AnchorDispatcher) (c : ChainId) (anchor : Anchor) (signature : ByteArr 65) :
    Prop :=
  ∃ log, d.logs.get? c = some log ∧
    log.entries.getLast? = some ⟨anchor, .ecdsaSecp256k1 signature⟩

/-- A signed anchor, with the signature that is stored, passes the check of the signer and fails
that of the MAC. -/
theorem checks_dispatched (hkeccak : ∀ input, crypto.keccak256 input ≠ zeroBytes 32)
    (hconfig : d.configs.get? c = some (.ecdsaSecp256k1 expected)) (hlog : d.logs.get? c = some log)
    (hsigner : signer.Honest crypto address) (hne : address ≠ zeroBytes 20)
    (hkey : s.chainKey c ≠ zeroBytes 32) {anchor : Anchor}
    (h : d.dispatchWithSigner crypto c height root signer = (d', some (.ok anchor))) :
    (∃ signature, StoredWith d' c anchor signature ∧
      recoverSigner crypto anchor.onChain signature.val = .ok address) ∧
    verifyMac crypto s anchor.onChain = .ok false := by
  obtain ⟨-, -, -, rfl, signature, -, hverify, rfl⟩ :=
    (dispatchWithSigner_eq_ok hconfig hlog hsigner).1 h
  refine ⟨⟨signature, ⟨log.push ⟨_, .ecdsaSecp256k1 signature⟩, ?_, List.getLast?_concat⟩,
    (verifyEcdsa_iff_recovered hne).1 hverify⟩,
    verifyMac_ecdsa hkeccak hkey height root (log.tip crypto)⟩
  rw [get?_updateLog, if_pos rfl, hlog]
  rfl

end Signed

/-- The zero address is not approved by any call. -/
theorem exec_zero_not_approved {crypto : AnchorCrypto} {sender : EthAddress} {s s' : Registry}
    {call : Call} {event : Event} (h : exec crypto sender s call = .ok (s', event))
    (hzero : s.isApprovedSigner (zeroBytes 20) = false) :
    s'.isApprovedSigner (zeroBytes 20) = false := by
  cases call with
  | acceptAnchor anchor signature =>
      obtain ⟨-, -, -, rfl, -⟩ := acceptAnchor_eq_ok.1 h
      exact hzero
  | setChainKey chainId key =>
      obtain ⟨-, -, rfl, -⟩ := setChainKey_eq_ok.1 h
      exact hzero
  | addSigner signer =>
      obtain ⟨-, hne, rfl, -⟩ := addSigner_eq_ok.1 h
      exact (Function.update_of_ne hne.symm true _).trans hzero
  | removeSigner signer =>
      obtain ⟨-, rfl, -⟩ := removeSigner_eq_ok.1 h
      by_cases hsigner : zeroBytes 20 = signer
      · rw [← hsigner]
        exact Function.update_self (zeroBytes 20) false s.isApprovedSigner
      · exact (Function.update_of_ne hsigner false _).trans hzero

theorem step_zero_not_approved {crypto : AnchorCrypto} {run : RegistryRun}
    (hzero : run.registry.isApprovedSigner (zeroBytes 20) = false) (tx : EthAddress × Call) :
    (run.step crypto tx).registry.isApprovedSigner (zeroBytes 20) = false := by
  unfold RegistryRun.step
  split
  · next s event hexec => exact exec_zero_not_approved hexec hzero
  · exact hzero

/-- Nor is it ever by the transactions of a run. -/
theorem approved_ne_zero {crypto : AnchorCrypto} {deployer : EthAddress}
    {txs : List (EthAddress × Call)} {a : EthAddress}
    (h : (RegistryRun.runTransactions crypto deployer txs).registry.isApprovedSigner a = true) :
    a ≠ zeroBytes 20 := by
  have hzero : (RegistryRun.runTransactions crypto deployer txs).registry.isApprovedSigner
      (zeroBytes 20) = false := by
    apply RegistryRun.runTransactions_induction
      (motive := fun run => run.registry.isApprovedSigner (zeroBytes 20) = false) rfl
    intro run tx hrun
    exact step_zero_not_approved hrun tx
  intro heq
  rw [heq, hzero] at h
  cases h

/-- An honest signer writes to a chain that is authenticated by signatures. The contract has
approved the signer and has a key for the chain. Every anchor the signer gets passes the contract's
check of its signature; but it passes that and the check of its MAC if and only if there is none:
the signer is not the chain's, or the height is not the next of the log. -/
theorem dispatched_authentic_iff (crypto : AnchorCrypto)
    (hkeccak : ∀ input, crypto.keccak256 input ≠ zeroBytes 32) (d : AnchorDispatcher) (c : ChainId)
    (expected : EthAddress) (hconfig : d.configs.get? c = some (.ecdsaSecp256k1 expected))
    (log : AnchorLog) (hlog : d.logs.get? c = some log) (signer : AnchorSigner)
    (address : EthAddress) (hsigner : signer.Honest crypto address) (deployer : EthAddress)
    (txs : List (EthAddress × Call)) (s : Registry)
    (hs : (RegistryRun.runTransactions crypto deployer txs).registry = s)
    (happroved : s.isApprovedSigner address = true) (hkey : s.chainKey c ≠ zeroBytes 32)
    (height : U64) (root : Commitment) :
    (∀ d' anchor, d.dispatchWithSigner crypto c height root signer = (d', some (.ok anchor)) →
      ∃ signature, StoredWith d' c anchor signature ∧
        recoverSigner crypto anchor.onChain signature.val = .ok address) ∧
    ((∀ d' anchor, d.dispatchWithSigner crypto c height root signer = (d', some (.ok anchor)) →
      ∃ signature, StoredWith d' c anchor signature ∧
        Authentic crypto s anchor.onChain signature.val) ↔
      ¬ (expected = address ∧ log.chainId = c ∧ log.IsNext height)) := by
  subst hs
  have hne := approved_ne_zero happroved
  refine ⟨fun d' anchor hdispatch => ?_, fun hall hcond => ?_, fun hcond d' anchor hdispatch => ?_⟩
  · exact (checks_dispatched hkeccak hconfig hlog hsigner hne hkey hdispatch).1
  · obtain ⟨hexpected, hchain, hheight⟩ := hcond
    obtain ⟨signature, hsign, hverify⟩ :=
      hsigner.signs (Anchor.ecdsa c height root (log.tip crypto)) rfl
    have hdispatch := (dispatchWithSigner_eq_ok hconfig hlog hsigner).2
      ⟨hexpected, hchain, hheight, rfl, signature, hsign, hverify, rfl⟩
    obtain ⟨_, -, hauthentic⟩ := hall _ _ hdispatch
    have hmac := (checks_dispatched hkeccak hconfig hlog hsigner hne hkey hdispatch).2
    rw [hauthentic.mac] at hmac
    cases hmac
  · obtain ⟨hexpected, hchain, hheight, -⟩ :=
      (dispatchWithSigner_eq_ok hconfig hlog hsigner).1 hdispatch
    exact absurd ⟨hexpected, hchain, hheight⟩ hcond

/-! ## A signed chain

The chain and the signer of `MixedParity`, with the first of its anchors. -/

/-- Keccak-256 also on what the contract makes the MAC of the first anchor over. -/
def authKeccak : List (List Byte × Commitment) := vectorKeccak ++ [
  (ascii "SUWAPPUDB-ANCHOR/MAC" ++ List.replicate 32 1 ++ beBytes 4 7 ++ List.replicate 72 0,
    digestOf 0x052e330918d3364129814bce287c7ca8338b03b02e8db1746d61c8d79f83960f)]

/-- `vectorCrypto`, with a Keccak-256 that is never zero. -/
def authCrypto : AnchorCrypto where
  blake3 := vectorCrypto.blake3
  keyedBlake3 := vectorCrypto.keyedBlake3
  keccak256 input :=
    if tableHash authKeccak input = zeroBytes 32 then digestOf 1 else tableHash authKeccak input
  recover := vectorCrypto.recover
  recover_eq_none := vectorCrypto.recover_eq_none
  mldsa65 := none

theorem keccak256_authCrypto_ne_zero (input : List Byte) :
    authCrypto.keccak256 input ≠ zeroBytes 32 := by
  change (if tableHash authKeccak input = zeroBytes 32 then _ else _) ≠ _
  split_ifs with hzero
  · decide +kernel
  · exact hzero

theorem recovers_authCrypto : vectorSigningKey.Recovers authCrypto :=
  recovers_vectorSigningKey

/-- The signer's address. -/
def authAddress : EthAddress := EcdsaSecp256k1Signer.address authCrypto vectorSigningKey

def authSigner : AnchorSigner := EcdsaSecp256k1Signer.signer authCrypto vectorSigningKey

/-- A dispatcher with the one signed chain. -/
def authDispatcher : AnchorDispatcher :=
  AnchorDispatcher.registerWithConfig {} 7 (.ecdsaSecp256k1 authAddress)

/-- The owner sets the chain's key and approves the signer. -/
def authTransactions : List (EthAddress × Call) := [
  (authAddress, .setChainKey 7 (constBytes 32 1)), (authAddress, .addSigner authAddress)]

def authRegistry : Registry :=
  (RegistryRun.runTransactions authCrypto authAddress authTransactions).registry

/-- The first anchor is made, and it is not authentic. -/
theorem dispatched_authentic_vector :
    (authSigner.Honest authCrypto authAddress ∧ authRegistry.isApprovedSigner authAddress = true ∧
      authRegistry.chainKey 7 ≠ zeroBytes 32) ∧
    ¬ ∀ d' anchor,
      authDispatcher.dispatchWithSigner authCrypto 7 0 (digestOf 0) authSigner =
        (d', some (.ok anchor)) →
      ∃ signature, StoredWith d' 7 anchor signature ∧
        Authentic authCrypto authRegistry anchor.onChain signature.val := by
  have hsigner : authSigner.Honest authCrypto authAddress := honest_signer recovers_authCrypto
  have happroved : authRegistry.isApprovedSigner authAddress = true := by decide +kernel
  have hkey : authRegistry.chainKey 7 ≠ zeroBytes 32 := by decide +kernel
  have hauthentic := (dispatched_authentic_iff authCrypto keccak256_authCrypto_ne_zero
    authDispatcher 7 authAddress rfl (AnchorLog.new 7) rfl authSigner authAddress hsigner
    authAddress authTransactions authRegistry rfl happroved hkey 0 (digestOf 0)).2
  exact ⟨⟨hsigner, happroved, hkey⟩,
    fun hall => hauthentic.1 hall ⟨rfl, rfl, rfl⟩⟩

/-- The first anchor, and what the signer makes for it. -/
def authAnchor : Anchor := Anchor.ecdsa 7 0 (digestOf 0) Anchor.GENESIS_PARENT

def authSignature : ByteArr 65 := ⟨vectorSignature.val ++ [28], length_concat_byte _ _⟩

/-- The contract knows the signer of the first anchor, and rejects its MAC. -/
theorem dispatched_mac_mismatch :
    (authDispatcher.dispatchWithSigner authCrypto 7 0 (digestOf 0) authSigner).2 =
      some (.ok authAnchor) ∧
    StoredWith (authDispatcher.dispatchWithSigner authCrypto 7 0 (digestOf 0) authSigner).1 7
      authAnchor authSignature ∧
    recoverSigner authCrypto authAnchor.onChain authSignature.val = .ok authAddress ∧
    acceptAnchor authCrypto authAnchor.onChain authSignature.val authRegistry =
      .error "LTPAnchorRegistry: MAC mismatch" := by
  have hsigner : recoverSigner authCrypto authAnchor.onChain authSignature.val =
      .ok authAddress := by
    decide +kernel
  have hmac : verifyMac authCrypto authRegistry authAnchor.onChain = .ok false := by decide +kernel
  refine ⟨by decide +kernel, ⟨⟨7, [⟨authAnchor, .ecdsaSecp256k1 authSignature⟩]⟩, ?_, rfl⟩, hsigner,
    ?_⟩
  · decide +kernel
  · simp only [acceptAnchor, hsigner, hmac]
    rfl

end SuwappuDb
