import SuwappuDb.AnchorParity

/-!
# Parity with signed chains

A root is brought to chains with MACs by `dispatch` and to signed chains, one by one, by
`dispatchWithSigner`.

* `AnchorSigner.Honest` — a signer whose signatures verify. `EcdsaSecp256k1Signer` is one for a key
  that recovers (`honest_signer`).
* `recorded_mixedHeight` — one root, first by `dispatch`, then to the signed chains. The loop of
  `dispatch` does not go past a signed chain, so a chain with a MAC behind one is never written.
* `mixed_parity_iff` — the check agrees on all roots if and only if the ids of all chains with MACs
  are below those of the signed ones.
-/

namespace SuwappuDb

open AnchorDispatcher

/-! ## Signers -/

/-- The signatures verify under the address. -/
structure AnchorSigner.Honest (crypto : AnchorCrypto) (signer : AnchorSigner)
    (address : EthAddress) : Prop where
  scheme : signer.scheme = .ecdsaSecp256k1
  signs : ∀ anchor : Anchor, anchor.authScheme = .ecdsaSecp256k1 →
    ∃ signature, signer.sign anchor = .ok (.ecdsaSecp256k1 signature) ∧
      verifyEcdsa crypto anchor signature address = .ok ()

/-- Every digest is signed with scalars in range, the second in the lower half, from which the key
is recovered. -/
def SigningKey.Recovers (crypto : AnchorCrypto) (key : SigningKey) : Prop :=
  ∀ digest, ∃ (sig : ByteArr 64) (odd : Bool),
    key.signPrehashRecoverable digest = some (sig, if odd then 1 else 0) ∧
    IsScalar (beValue (sig.val.take 32)) ∧ IsScalar (beValue (sig.val.drop 32)) ∧
    beValue (sig.val.drop 32) ≤ SECP256K1_ORDER / 2 ∧
    crypto.recover digest odd (beValue (sig.val.take 32)) (beValue (sig.val.drop 32)) =
      some key.verifyingKey

theorem recoveryId_of_odd (odd : Bool) :
    recoveryId (Fin.ofNat 256 ((if odd then 1 else 0 : Fin 4).val + 27)) = some odd := by
  cases odd <;> rfl

theorem getD_concat_byte (bytes : ByteArr 64) (v : Byte) : (bytes.val ++ [v]).getD 64 0 = v := by
  have hlen := bytes.property
  rw [List.getD_eq_getElem?_getD, List.getElem?_append_right hlen.le, hlen]
  rfl

theorem honest_signer {crypto : AnchorCrypto} {key : SigningKey} (h : key.Recovers crypto) :
    (EcdsaSecp256k1Signer.signer crypto key).Honest crypto
      (EcdsaSecp256k1Signer.address crypto key) where
  scheme := rfl
  signs anchor hscheme := by
    obtain ⟨sig, odd, hsign, hr, hs, hlow, hrecover⟩ := h (ethSignedMessageHash crypto anchor)
    refine ⟨⟨sig.val ++ [Fin.ofNat 256 ((if odd then 1 else 0 : Fin 4).val + 27)],
      length_concat_byte _ _⟩, ?_, ?_⟩
    · rw [EcdsaSecp256k1Signer.signer]
      simp only [EcdsaSecp256k1Signer.sign]
      rw [if_neg (not_not.2 hscheme), hsign]
    · unfold verifyEcdsa
      simp only [getD_concat_byte, recoveryId_of_odd, List.take_left' sig.property,
        signatureFromBytes]
      rw [if_pos ⟨hr, hs⟩]
      simp only [not_lt.2 hlow, if_false, hrecover]
      exact if_pos rfl

/-! ## Writing a signed chain -/

namespace AnchorDispatcher

variable {crypto : AnchorCrypto} {d : AnchorDispatcher} {rootsOf : ChainId → List Commitment}

/-- A signed chain whose log has the length of the height gets an entry. -/
theorem dispatchWithSigner_honest (hrec : Recorded crypto d rootsOf) {c : ChainId}
    {address : EthAddress} {signer : AnchorSigner}
    (hconfig : d.configs.get? c = some (.ecdsaSecp256k1 address))
    (hsigner : signer.Honest crypto address) {height : U64}
    (hheight : height.val = (rootsOf c).length) (root : Commitment) :
    ∃ log entry, d.logs.get? c = some log ∧ entry.anchor.stateRoot = root ∧
      log.Accepts crypto entry (.ecdsaSecp256k1 address) ∧
      d.dispatchWithSigner crypto c height root signer =
        (d.updateLog c (log.push entry), some (.ok entry.anchor)) := by
  obtain ⟨log, hlog⟩ := exists_log hconfig
  obtain ⟨signature, hsign, hverify⟩ :=
    hsigner.signs (Anchor.ecdsa c height root (log.tip crypto)) rfl
  have haccepts : log.Accepts crypto
      ⟨Anchor.ecdsa c height root (log.tip crypto), .ecdsaSecp256k1 signature⟩
      (.ecdsaSecp256k1 address) := by
    refine hrec.accepts hlog hconfig rfl rfl hheight ?_
    change (verifyEcdsa crypto _ signature address).mapError _ = _
    rw [hverify]
    rfl
  refine ⟨log, _, hlog, rfl, haccepts, ?_⟩
  rw [dispatchWithSigner_ecdsa hconfig hlog hsigner.scheme hsign, haccepts.appendWithCredential_eq]

/-- `dispatchWithSigner` for one chain after another. -/
def signAll (crypto : AnchorCrypto) (signers : ChainId → AnchorSigner) (height : U64)
    (root : Commitment) (ids : List ChainId) (d : AnchorDispatcher) : AnchorDispatcher :=
  ids.foldl (fun d c => (d.dispatchWithSigner crypto c height root (signers c)).1) d

theorem signAll_written {signers : ChainId → AnchorSigner} {height : U64} (root : Commitment)
    (ids : List ChainId) (hnodup : ids.Nodup) (hrec : Recorded crypto d rootsOf)
    (hsigners : ∀ c ∈ ids, ∃ address, d.configs.get? c = some (.ecdsaSecp256k1 address) ∧
      (signers c).Honest crypto address)
    (hheight : ∀ c ∈ ids, height.val = (rootsOf c).length) :
    Written crypto root ids rootsOf d (signAll crypto signers height root ids d) := by
  induction ids generalizing d rootsOf with
  | nil => exact .nil hrec
  | cons c ids ih =>
      obtain ⟨hc, hnodup⟩ := List.nodup_cons.1 hnodup
      obtain ⟨address, hconfig, hhonest⟩ := hsigners c List.mem_cons_self
      obtain ⟨log, entry, hlog, rfl, haccepts, hdispatch⟩ := dispatchWithSigner_honest hrec hconfig
        hhonest (hheight c List.mem_cons_self) root
      have hstep : signAll crypto signers height entry.anchor.stateRoot (c :: ids) d =
          signAll crypto signers height entry.anchor.stateRoot ids
            (d.updateLog c (log.push entry)) := by
        rw [signAll, List.foldl_cons, hdispatch]
        rfl
      rw [hstep]
      refine .cons hc hlog (ih hnodup (hrec.update hlog hconfig haccepts)
        (fun c' hc' => hsigners c' (List.mem_cons_of_mem c hc')) fun c' hc' => ?_)
      have hne : c' ≠ c := fun heq => hc (heq ▸ hc')
      rw [Function.update_of_ne hne]
      exact hheight c' (List.mem_cons_of_mem c hc')

/-! ## A root for all chains -/

/-- One root at one height: `dispatch`, whatever it returns, and then the signed chains. -/
def mixedHeight (crypto : AnchorCrypto) (signers : ChainId → AnchorSigner) (ids : List ChainId)
    (height : U64) (root : Commitment) (d : AnchorDispatcher) : AnchorDispatcher :=
  signAll crypto signers height root ids (d.dispatch crypto height root).1

/-- The roots, at the heights from `n` on. -/
def mixedRun (crypto : AnchorCrypto) (signers : ChainId → AnchorSigner) (ids : List ChainId) :
    Nat → List Commitment → AnchorDispatcher → AnchorDispatcher
  | _, [], d => d
  | n, root :: roots, d =>
      mixedRun crypto signers ids (n + 1) roots
        (mixedHeight crypto signers ids (Fin.ofNat (2 ^ 64) n) root d)

/-- These are the signed chains, and their signers are honest. -/
structure SignedBy (crypto : AnchorCrypto) (signers : ChainId → AnchorSigner) (ids : List ChainId)
    (configs : OrdMap ChainId VerifierConfig) : Prop where
  nodup : ids.Nodup
  mem_iff : ∀ c, c ∈ ids ↔ ∃ address, configs.get? c = some (.ecdsaSecp256k1 address)
  honest : ∀ c address, configs.get? c = some (.ecdsaSecp256k1 address) →
    (signers c).Honest crypto address

/-- The chains with MACs that `dispatch` comes to, and the signed chains. -/
def reached (d : AnchorDispatcher) (ids : List ChainId) (c : ChainId) : Bool :=
  decide (c ∈ (d.configs.entries.map Prod.fst).takeWhile d.isMac) || decide (c ∈ ids)

theorem reached_congr {d d' : AnchorDispatcher} (h : d'.configs = d.configs) (ids : List ChainId) :
    d'.reached ids = d.reached ids := by
  have hmac : d'.isMac = d.isMac := by
    funext c
    rw [isMac, isMac, h]
  funext c
  rw [reached, reached, h, hmac]

theorem mem_takeWhile_logs {c : ChainId} : c ∈ (d.logs.entries.map Prod.fst).takeWhile d.isMac ↔
    c ∈ (d.configs.entries.map Prod.fst).takeWhile d.isMac := by
  simp only [OrdMap.mem_takeWhile_keys, d.matched]

/-- One root is one more root of the chains that are reached. -/
theorem recorded_mixedHeight {signers : ChainId → AnchorSigner} {ids : List ChainId}
    {roots : List Commitment} {height : U64} (hsigned : SignedBy crypto signers ids d.configs)
    (hrec : Recorded crypto d fun c => if d.reached ids c then roots else [])
    (hheight : height.val = roots.length) (root : Commitment) :
    (mixedHeight crypto signers ids height root d).configs = d.configs ∧
    Recorded crypto (mixedHeight crypto signers ids height root d)
      fun c => if d.reached ids c then roots ++ [root] else [] := by
  have hmacs : ∀ c ∈ (d.logs.entries.map Prod.fst).takeWhile d.isMac, d.reached ids c = true := by
    intro c hc
    simp [reached, mem_takeWhile_logs.1 hc]
  obtain ⟨d', result, hloop, hwritten, -⟩ := dispatchLoop_spec height root
    (d.logs.entries.map Prod.fst) d [] _ d.logs.sorted.nodup_keys
    (fun c hc => OrdMap.mem_keys.1 hc) hrec (fun c hc => by rw [if_pos (hmacs c hc), hheight])
  -- No chain is written twice: a signed chain has no MAC.
  have hsigned_ne : ∀ c ∈ ids, c ∉ (d.logs.entries.map Prod.fst).takeWhile d.isMac := by
    intro c hc hmem
    obtain ⟨address, hconfig⟩ := (hsigned.mem_iff c).1 hc
    obtain ⟨key, hconfig'⟩ := isMac_eq_true.1 (List.mem_takeWhile_imp hmem)
    rw [hconfig] at hconfig'
    cases hconfig'
  have hids : ∀ c ∈ ids, d.reached ids c = true := fun c hc => by simp [reached, hc]
  have hsign : Written crypto root ids _ d' (signAll crypto signers height root ids d') :=
    signAll_written root ids hsigned.nodup hwritten.recorded
    (fun c hc => by
      obtain ⟨address, hconfig⟩ := (hsigned.mem_iff c).1 hc
      exact ⟨address, by rw [hwritten.configs, hconfig], hsigned.honest c address hconfig⟩)
    (fun c hc => by rw [if_neg (hsigned_ne c hc), if_pos (hids c hc), hheight])
  have hmixed : mixedHeight crypto signers ids height root d =
      signAll crypto signers height root ids d' := by
    rw [mixedHeight, dispatch, hloop]
  rw [hmixed]
  refine ⟨hsign.configs.trans hwritten.configs, hsign.recorded.congr fun c _ => ?_⟩
  by_cases hc : c ∈ ids
  · rw [if_pos hc, if_neg (hsigned_ne c hc), if_pos (hids c hc), if_pos (hids c hc)]
  · rw [if_neg hc]
    by_cases hmac : c ∈ (d.logs.entries.map Prod.fst).takeWhile d.isMac
    · rw [if_pos hmac, if_pos (hmacs c hmac), if_pos (hmacs c hmac)]
    · have hnot : ¬ d.reached ids c = true := by
        simp [reached, hc, mem_takeWhile_logs.not.1 hmac]
      rw [if_neg hmac, if_neg hnot, if_neg hnot]

theorem recorded_mixedRun {signers : ChainId → AnchorSigner} {ids : List ChainId}
    {done : List Commitment} (roots : List Commitment)
    (hsigned : SignedBy crypto signers ids d.configs)
    (hrec : Recorded crypto d fun c => if d.reached ids c then done else [])
    (hlen : done.length + roots.length ≤ 2 ^ 64) :
    (mixedRun crypto signers ids done.length roots d).configs = d.configs ∧
    Recorded crypto (mixedRun crypto signers ids done.length roots d)
      fun c => if d.reached ids c then done ++ roots else [] := by
  induction roots generalizing d done with
  | nil => exact ⟨rfl, by simpa [mixedRun] using hrec⟩
  | cons root roots ih =>
      rw [List.length_cons] at hlen
      have hheight : (Fin.ofNat (2 ^ 64) done.length).val = done.length :=
        Nat.mod_eq_of_lt (by omega)
      obtain ⟨hconfigs, hrec'⟩ := recorded_mixedHeight hsigned hrec hheight root
      have hreached := reached_congr hconfigs ids
      rw [← hreached] at hrec'
      rw [← hconfigs] at hsigned
      obtain ⟨hconfigs', hrec''⟩ := ih hsigned hrec' (by simp; omega)
      rw [hreached, List.append_assoc] at hrec''
      rw [List.length_append] at hconfigs' hrec''
      exact ⟨hconfigs'.trans hconfigs, hrec''⟩

end AnchorDispatcher

/-- All chains are reached if the chains with MACs come first. -/
theorem AnchorDispatcher.all_reached_iff {d : AnchorDispatcher} {ids : List ChainId}
    (hconfigs : ∀ c config, d.configs.get? c = some config →
      (∃ key, config = .blake3Mac key) ∨ ∃ address, config = .ecdsaSecp256k1 address)
    (hids : ∀ c, c ∈ ids ↔ ∃ address, d.configs.get? c = some (.ecdsaSecp256k1 address)) :
    (∀ c, (d.configs.get? c).isSome → d.reached ids c = true) ↔
      ∀ b e key address, d.configs.get? b = some (.blake3Mac key) →
        d.configs.get? e = some (.ecdsaSecp256k1 address) → b < e := by
  simp only [reached, Bool.or_eq_true, decide_eq_true_eq, OrdMap.mem_takeWhile_keys]
  constructor
  · intro hall b e key address hb he
    by_contra hlt
    rcases hall b (by rw [hb]; rfl) with ⟨-, hmacs⟩ | hmem
    · obtain ⟨key', he'⟩ := isMac_eq_true.1 (hmacs e (not_lt.1 hlt) (by rw [he]; rfl))
      rw [he] at he'
      cases he'
    · obtain ⟨address', hb'⟩ := (hids b).1 hmem
      rw [hb] at hb'
      cases hb'
  · intro hlt c hc
    obtain ⟨config, hconfig⟩ := Option.isSome_iff_exists.1 hc
    rcases hconfigs c config hconfig with ⟨key, rfl⟩ | ⟨address, rfl⟩
    · refine Or.inl ⟨hc, fun j hj hsome => ?_⟩
      obtain ⟨config', hconfig'⟩ := Option.isSome_iff_exists.1 hsome
      rcases hconfigs j config' hconfig' with ⟨key', rfl⟩ | ⟨address, rfl⟩
      · exact isMac_eq_true.2 ⟨key', hconfig'⟩
      · exact absurd (hlt c j key address hconfig hconfig') (not_lt.2 hj)
    · exact Or.inr ((hids c).2 ⟨address, hconfig⟩)

/-- Roots are brought to chains with MACs by `dispatch` and to signed chains by honest signers. The
check agrees on all of them exactly when there is no signed chain with an id below that of a chain
with a MAC. -/
theorem mixed_parity_iff (crypto : AnchorCrypto) (regs : List (ChainId × VerifierConfig))
    (signers : ChainId → AnchorSigner) (ids : List ChainId) (roots : List Commitment)
    (hne : regs ≠ [])
    (hschemes : ∀ p ∈ regs, p.2.scheme = .blake3Mac ∨ p.2.scheme = .ecdsaSecp256k1)
    (hsigned : SignedBy crypto signers ids (registerConfigs regs).configs)
    (hlen : roots.length ≤ 2 ^ 64) :
    (∀ (h : U64) r, roots[h.val]? = some r →
      (mixedRun crypto signers ids 0 roots (registerConfigs regs)).parityCheck crypto h =
        some (.agreed r)) ↔
    roots = [] ∨ ∀ b e key signer, (registerConfigs regs).configs.get? b = some (.blake3Mac key) →
      (registerConfigs regs).configs.get? e = some (.ecdsaSecp256k1 signer) → b < e := by
  have hregistered := registered_registerConfigs regs
  generalize registerConfigs regs = d at hsigned hregistered ⊢
  have hconfig_cases : ∀ c config, d.configs.get? c = some config →
      (∃ key, config = .blake3Mac key) ∨ ∃ address, config = .ecdsaSecp256k1 address := by
    intro c config hconfig
    have hscheme := hschemes _ (hregistered.mem c config hconfig)
    cases config with
    | blake3Mac key => exact Or.inl ⟨key, rfl⟩
    | ecdsaSecp256k1 address => exact Or.inr ⟨address, rfl⟩
    | mlDsa65Hybrid signer mldsaPublicKey => simp [VerifierConfig.scheme] at hscheme
    | sp1ZkProof vkeyHash expectedPrevStateRoot expectedBlockHash =>
        simp [VerifierConfig.scheme] at hscheme
  have hrec : Recorded crypto d fun c => if d.reached ids c then [] else [] := by
    simpa using hregistered.recorded crypto
  obtain ⟨hconfigs, hrun⟩ := recorded_mixedRun roots hsigned hrec (by simpa using hlen)
  rw [List.length_nil] at hconfigs hrun
  simp only [List.nil_append] at hrun
  rw [← all_reached_iff hconfig_cases hsigned.mem_iff]
  simp only [hrun.parityCheck_iff, AnchorDispatcher.matched, hconfigs]
  obtain ⟨p, hp⟩ := List.exists_mem_of_ne_nil regs hne
  have hchain : ∃ c, (d.configs.get? c).isSome :=
    ⟨p.1, d.matched p.1 ▸ hregistered.isSome p.1 (List.mem_map_of_mem hp)⟩
  constructor
  · intro hagreed
    refine or_iff_not_imp_left.2 fun hroots c hc => ?_
    obtain ⟨root, rest, rfl⟩ := List.exists_cons_of_ne_nil hroots
    by_contra hnot
    have hget := (hagreed 0 root rfl).2 c hc
    rw [if_neg hnot] at hget
    cases hget
  · rintro (rfl | hall) h r hr
    · cases hr
    · exact ⟨hchain, fun c hc => by rw [if_pos (hall c hc), hr]⟩

/-! ## Two chains

The signed chain is that of `contracts/test/fixtures/parity_vectors.json`, with the key, the roots
and the first signature there. -/

/-- Keccak-256 on what two signatures are made over, and on the signer's key. -/
def vectorKeccak : List (List Byte × Commitment) := [
  (beBytes 32 7 ++ beBytes 32 0 ++ beBytes 32 0 ++ beBytes 32 0 ++ beBytes 32 0,
    digestOf 0xabf103d77c04495a32fdd672e199a712aa74c398ae5ce9d4cb9dd5bbed9150cb),
  (ascii "\x19Ethereum Signed Message:\n32" ++
      beBytes 32 0xabf103d77c04495a32fdd672e199a712aa74c398ae5ce9d4cb9dd5bbed9150cb,
    digestOf 0x741c93be67b132bd340f09f281e555b7000e49ea350eff109928ce9c934d9388),
  (beBytes 32 7 ++ beBytes 32 1 ++ List.replicate 32 0x11 ++
      beBytes 32 0x25390b97630a4f0d11ee90ca44fa1c3992f426bd50d60d6e98ef01a89b450415 ++ beBytes 32 0,
    digestOf 0x3e7eb28e21fab2021e94998c03cb06ccb2aad0769d2a3aa251dc8eef88d64c1d),
  (ascii "\x19Ethereum Signed Message:\n32" ++
      beBytes 32 0x3e7eb28e21fab2021e94998c03cb06ccb2aad0769d2a3aa251dc8eef88d64c1d,
    digestOf 0xe53ef357cbaaf768c12f176fe039a6fa31475dc26767722c82d31f22e67981b4),
  (beBytes 32 0x24653eac434488002cc06bbfb7f10fe18991e35f9fe4302dbea6d2353dc0ab1c ++
      beBytes 32 0x119fc5009a032aa9fe47f5e149bb8442f71f884ccb516590686d8ff6ab91c613,
    digestOf 0xd885744b9cb252077d755ad317c5185167401ed00cf5f5b2fc97d9bbfdb7d025)]

theorem length_beBytes_append (a b m n : Nat) : (beBytes a m ++ beBytes b n).length = a + b := by
  rw [List.length_append, length_beBytes, length_beBytes]

/-- The signer's key. -/
def vectorKey : ByteArr 64 :=
  ⟨beBytes 32 0x24653eac434488002cc06bbfb7f10fe18991e35f9fe4302dbea6d2353dc0ab1c ++
      beBytes 32 0x119fc5009a032aa9fe47f5e149bb8442f71f884ccb516590686d8ff6ab91c613,
    length_beBytes_append 32 32 _ _⟩

/-- The first signature, without `v`. -/
def vectorSignature : ByteArr 64 :=
  ⟨beBytes 32 0x0915864fa7828150b8af7bd5cd84b7f4770ab94ae011f31b4c39db9f1aca1aa4 ++
      beBytes 32 0x298f0e6f56a2439980c43009e3191d817660705421c3eabee4b3949bd1d75944,
    length_beBytes_append 32 32 _ _⟩

/-- The signature over the next anchor. -/
def vectorNextSignature : ByteArr 64 :=
  ⟨beBytes 32 0x0c924ce10f05e75be29a6e4174bd789edfe3db1f83eb41590719bef6eb37a80c ++
      beBytes 32 0x0a7f3a213fd04cc3c1eb613692ac67d2e0a83c5bf444f436beca01b67c3b3014,
    length_beBytes_append 32 32 _ _⟩

/-- BLAKE3 on the first anchors of the chains `3` and `7`. -/
def vectorHashes : List (List Byte × Commitment) := [
  (ascii "SUWAPPUDB-ANCHOR/HASH" ++ beBytes 4 3 ++ List.replicate 72 0 ++
      beBytes 32 0xe794517cf54ffb7411be2c08f246217484b9fba4a2d07e421853b83c6a58b127,
    digestOf 0x079781f19d93eaac720d0a40d4691274928e633cbc12c84769a76f0350a5426c),
  (ascii "SUWAPPUDB-ANCHOR/HASH" ++ beBytes 4 7 ++ List.replicate 104 0,
    digestOf 0x25390b97630a4f0d11ee90ca44fa1c3992f426bd50d60d6e98ef01a89b450415)]

/-- Keyed BLAKE3 on a key followed by the material of the chains `3` and `9`. -/
def vectorMacs : List (List Byte × Commitment) := [
  (List.replicate 32 1 ++ ascii "SUWAPPUDB-ANCHOR/MAC" ++ beBytes 4 3 ++ beBytes 8 1 ++
      List.replicate 32 0x11 ++
      beBytes 32 0x079781f19d93eaac720d0a40d4691274928e633cbc12c84769a76f0350a5426c,
    digestOf 0x135d5568a881df6fecc365eb01b3230edb586f83d3e4e0ff07d2f7f92d86196c),
  (List.replicate 32 1 ++ ascii "SUWAPPUDB-ANCHOR/MAC" ++ beBytes 4 3 ++ List.replicate 72 0,
    digestOf 0xe794517cf54ffb7411be2c08f246217484b9fba4a2d07e421853b83c6a58b127),
  (List.replicate 32 1 ++ ascii "SUWAPPUDB-ANCHOR/MAC" ++ beBytes 4 9 ++ List.replicate 72 0,
    digestOf 0xb3ff2454c616753eb9f3e0b6c3909371c6ca39eac186623cfc307f4de5e0bfa3)]

def vectorRecover (r s : Nat) : Option (ByteArr 64) :=
  if IsScalar r ∧ IsScalar s then some vectorKey else none

/-- The functions on these inputs. -/
def vectorCrypto : AnchorCrypto where
  blake3 := tableHash vectorHashes
  keyedBlake3 key input := tableHash vectorMacs (key.val ++ input)
  keccak256 := tableHash vectorKeccak
  recover _ _ := vectorRecover
  recover_eq_none _ _ _ _ h := if_neg h
  mldsa65 := none

theorem recover_vectorCrypto (digest : ByteArr 32) (odd : Bool) (r s : Nat) :
    vectorCrypto.recover digest odd r s = vectorRecover r s := rfl

/-- The signature over a digest. -/
def signatureOver (digest : ByteArr 32) : ByteArr 64 :=
  if digest = digestOf 0xe53ef357cbaaf768c12f176fe039a6fa31475dc26767722c82d31f22e67981b4 then
    vectorNextSignature
  else vectorSignature

def vectorSigningKey : SigningKey where
  verifyingKey := vectorKey
  signPrehashRecoverable digest := some (signatureOver digest, 1)

theorem recovers_vectorSigningKey : vectorSigningKey.Recovers vectorCrypto := by
  intro digest
  have hscalars : (IsScalar (beValue ((signatureOver digest).val.take 32)) ∧
      IsScalar (beValue ((signatureOver digest).val.drop 32))) ∧
      beValue ((signatureOver digest).val.drop 32) ≤ SECP256K1_ORDER / 2 := by
    unfold signatureOver
    split_ifs
    · decide +kernel
    · decide +kernel
  refine ⟨signatureOver digest, true, rfl, hscalars.1.1, hscalars.1.2, hscalars.2, ?_⟩
  rw [recover_vectorCrypto, vectorRecover, if_pos hscalars.1]
  rfl

/-- A chain `b` with a MAC, and the signed chain `7`. -/
def vectorRegs (b : ChainId) : List (ChainId × VerifierConfig) := [
  (b, .blake3Mac (constBytes 32 1)),
  (7, .ecdsaSecp256k1 (EcdsaSecp256k1Signer.address vectorCrypto vectorSigningKey))]

def vectorSigners (_ : ChainId) : AnchorSigner :=
  EcdsaSecp256k1Signer.signer vectorCrypto vectorSigningKey

theorem signedBy_vectorRegs (b : ChainId) :
    SignedBy vectorCrypto vectorSigners [7] (registerConfigs (vectorRegs b)).configs := by
  have hget : ∀ c, (registerConfigs (vectorRegs b)).configs.get? c =
      if c = 7 then some (.ecdsaSecp256k1
        (EcdsaSecp256k1Signer.address vectorCrypto vectorSigningKey))
      else if c = b then some (.blake3Mac (constBytes 32 1))
      else none := by
    intro c
    simp [registerConfigs, vectorRegs, registerWithConfig, OrdMap.get?_insert]
  refine ⟨List.nodup_singleton 7, fun c => ?_, fun c address hconfig => ?_⟩
  · rw [hget, List.mem_singleton]
    split_ifs with h7 h3
    · simp [h7]
    · simp [h7]
    · simp [h7]
  · rw [hget] at hconfig
    split_ifs at hconfig
    · cases hconfig
      exact honest_signer recovers_vectorSigningKey
    · cases hconfig

theorem mixed_parity_vectors :
    (vectorRegs 3 ≠ [] ∧
      (∀ p ∈ vectorRegs 3, p.2.scheme = .blake3Mac ∨ p.2.scheme = .ecdsaSecp256k1) ∧
      SignedBy vectorCrypto vectorSigners [7] (registerConfigs (vectorRegs 3)).configs) ∧
    ∀ (h : U64) r, [digestOf 0, constBytes 32 0x11][h.val]? = some r →
      (mixedRun vectorCrypto vectorSigners [7] 0 [digestOf 0, constBytes 32 0x11]
        (registerConfigs (vectorRegs 3))).parityCheck vectorCrypto h = some (.agreed r) := by
  have hsigned : SignedBy vectorCrypto vectorSigners [7] (registerConfigs (vectorRegs 3)).configs :=
    signedBy_vectorRegs 3
  refine ⟨⟨List.cons_ne_nil _ _, by simp [vectorRegs, VerifierConfig.scheme], hsigned⟩,
    (mixed_parity_iff vectorCrypto (vectorRegs 3) vectorSigners [7]
      [digestOf 0, constBytes 32 0x11]
      (List.cons_ne_nil _ _) (by simp [vectorRegs, VerifierConfig.scheme]) hsigned
      (by decide)).2 (Or.inr fun b e key signer hb he => ?_)⟩
  obtain rfl := List.mem_singleton.1 ((hsigned.mem_iff e).2 ⟨signer, he⟩)
  have hmem := (registered_registerConfigs (vectorRegs 3)).mem b _ hb
  simp only [vectorRegs, List.mem_cons, Prod.mk.injEq, reduceCtorEq, and_false, List.not_mem_nil,
    or_false] at hmem
  rw [hmem.1]
  decide

/-- The chain with the MAC behind the signed one is not written. -/
theorem mixed_parity_behind :
    SignedBy vectorCrypto vectorSigners [7] (registerConfigs (vectorRegs 9)).configs ∧
    (mixedRun vectorCrypto vectorSigners [7] 0 [digestOf 0]
      (registerConfigs (vectorRegs 9))).parityCheck vectorCrypto 0 =
        some (.disagreed [(7, digestOf 0)] [9]) :=
  ⟨signedBy_vectorRegs 9, by decide +kernel⟩

end SuwappuDb
