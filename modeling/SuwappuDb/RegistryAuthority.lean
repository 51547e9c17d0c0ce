import SuwappuDb.AnchorRegistry

/-!
# Who can make the contract accept what

`acceptAnchor` decides by the contract's mappings. Here the decision is traced back to the
transactions that wrote them: which signers the owner approved and did not remove again, which key
it gave the chain last, and which anchors were accepted before.

* `lastRuling`, `lastKey` — the owner's last word on a signer and on a chain's key. Only what the
  deployer sends counts, and not what reverts: the zero signer, the zero key.
* `Administered` — the mappings hold just that. Every transaction keeps it
  (`Administered.step`), so it holds after any run.
* `acceptAnchor_iff` — acceptance in terms of the transactions and the accepted anchors alone.
-/

namespace SuwappuDb

namespace LTPAnchorRegistry

/-! ## The owner's last word -/

/-- What a transaction of the owner says about a signer. -/
def ruling (owner signer : EthAddress) (tx : EthAddress × Call) : Option Bool :=
  if tx.1 = owner then
    match tx.2 with
    | .addSigner a => if a = signer then some true else none
    | .removeSigner a => if a = signer then some false else none
    | _ => none
  else none

/-- The key that a transaction of the owner gives a chain. -/
def keyGiven (owner : EthAddress) (c : U32) (tx : EthAddress × Call) : Option (ByteArr 32) :=
  if tx.1 = owner then
    match tx.2 with
    | .setChainKey c' key => if c' = c ∧ key ≠ zeroBytes 32 then some key else none
    | _ => none
  else none

def lastRuling (owner : EthAddress) (txs : List (EthAddress × Call)) (signer : EthAddress) :
    Option Bool :=
  (txs.filterMap (ruling owner signer)).getLast?

def lastKey (owner : EthAddress) (txs : List (EthAddress × Call)) (c : U32) :
    Option (ByteArr 32) :=
  (txs.filterMap (keyGiven owner c)).getLast?

theorem getLast?_filterMap_concat {α β : Type*} (f : α → Option β) (l : List α) (a : α) :
    ((l ++ [a]).filterMap f).getLast? = (f a).or (l.filterMap f).getLast? := by
  cases ha : f a <;> simp [ha]

theorem lastKey_ne_zero {owner : EthAddress} {txs : List (EthAddress × Call)} {c : U32}
    {key : ByteArr 32} (h : lastKey owner txs c = some key) : key ≠ zeroBytes 32 := by
  obtain ⟨tx, -, hgiven⟩ := List.mem_filterMap.1 (List.mem_of_getLast? h)
  unfold keyGiven at hgiven
  split at hgiven
  · split at hgiven
    · split at hgiven
      · next hkey =>
          cases hgiven
          exact hkey.2
      · cases hgiven
    · cases hgiven
  · cases hgiven

/-- The mappings hold what the owner said last. The zero address is not spoken of: it is never
recovered from a signature. -/
structure Administered (deployer : EthAddress) (txs : List (EthAddress × Call)) (s : Registry) :
    Prop where
  owner : s.owner = deployer
  approved : ∀ signer, signer ≠ zeroBytes 20 →
    s.isApprovedSigner signer = (lastRuling deployer txs signer).getD false
  key : ∀ c, s.chainKey c = (lastKey deployer txs c).getD (zeroBytes 32)

namespace Administered

variable {crypto : AnchorCrypto} {deployer : EthAddress} {txs : List (EthAddress × Call)}
  {run : RegistryRun}

/-- A transaction in which the owner says nothing, and that leaves the mappings alone. -/
theorem idle {s s' : Registry} (h : Administered deployer txs s) {tx : EthAddress × Call}
    (hruling : ∀ signer, signer ≠ zeroBytes 20 → ruling deployer signer tx = none)
    (hkey : ∀ c, keyGiven deployer c tx = none) (howner : s'.owner = s.owner)
    (happroved : s'.isApprovedSigner = s.isApprovedSigner) (hkeys : s'.chainKey = s.chainKey) :
    Administered deployer (txs ++ [tx]) s' where
  owner := howner.trans h.owner
  approved signer hne := by
    rw [lastRuling, getLast?_filterMap_concat, hruling signer hne, Option.none_or, happroved]
    exact h.approved signer hne
  key c := by
    rw [lastKey, getLast?_filterMap_concat, hkey c, Option.none_or, hkeys]
    exact h.key c

/-- A ruling on a signer. -/
theorem rule {s : Registry} (h : Administered deployer txs s) {tx : EthAddress × Call}
    {signer : EthAddress} {verdict : Bool}
    (hruling : ∀ a, ruling deployer a tx = if signer = a then some verdict else none)
    (hkey : ∀ c, keyGiven deployer c tx = none) :
    Administered deployer (txs ++ [tx])
      { s with isApprovedSigner := Function.update s.isApprovedSigner signer verdict } where
  owner := h.owner
  approved a hne := by
    rw [lastRuling, getLast?_filterMap_concat, hruling a]
    by_cases ha : signer = a
    · subst ha
      simp
    · rw [if_neg ha, Option.none_or]
      show Function.update s.isApprovedSigner signer verdict a = _
      rw [Function.update_of_ne (Ne.symm ha)]
      exact h.approved a hne
  key c := by
    rw [lastKey, getLast?_filterMap_concat, hkey c, Option.none_or]
    exact h.key c

/-- A key for a chain. -/
theorem giveKey {s : Registry} (h : Administered deployer txs s) {tx : EthAddress × Call} {c : U32}
    {key : ByteArr 32} (hruling : ∀ a, ruling deployer a tx = none)
    (hkey : ∀ c', keyGiven deployer c' tx = if c = c' then some key else none) :
    Administered deployer (txs ++ [tx])
      { s with chainKey := Function.update s.chainKey c key } where
  owner := h.owner
  approved a hne := by
    rw [lastRuling, getLast?_filterMap_concat, hruling a, Option.none_or]
    exact h.approved a hne
  key c' := by
    rw [lastKey, getLast?_filterMap_concat, hkey c']
    by_cases hc : c = c'
    · subst hc
      simp
    · rw [if_neg hc, Option.none_or]
      show Function.update s.chainKey c key c' = _
      rw [Function.update_of_ne (Ne.symm hc)]
      exact h.key c'

/-- A transaction that goes through. -/
theorem exec {s s' : Registry} (h : Administered deployer txs s) {sender : EthAddress} {call : Call}
    {event : Event} (hexec : exec crypto sender s call = .ok (s', event)) :
    Administered deployer (txs ++ [(sender, call)]) s' := by
  cases call with
  | acceptAnchor anchor signature =>
      obtain ⟨-, -, -, rfl, -⟩ := acceptAnchor_eq_ok.1 hexec
      exact h.idle (fun _ _ => by simp [ruling]) (fun _ => by simp [keyGiven]) rfl rfl rfl
  | setChainKey c key =>
      obtain ⟨howner, hkey, rfl, -⟩ := setChainKey_eq_ok.1 hexec
      exact h.giveKey (by simp [ruling]) (by simp [keyGiven, howner.trans h.owner, hkey])
  | addSigner signer =>
      obtain ⟨howner, -, rfl, -⟩ := addSigner_eq_ok.1 hexec
      exact h.rule (by simp [ruling, howner.trans h.owner]) (by simp [keyGiven])
  | removeSigner signer =>
      obtain ⟨howner, rfl, -⟩ := removeSigner_eq_ok.1 hexec
      exact h.rule (by simp [ruling, howner.trans h.owner]) (by simp [keyGiven])

/-- A transaction that reverts: what it says does not count. -/
theorem revert {s : Registry} (h : Administered deployer txs s) {sender : EthAddress} {call : Call}
    {message : String} (hexec : LTPAnchorRegistry.exec crypto sender s call = .error message) :
    Administered deployer (txs ++ [(sender, call)]) s := by
  have hrefused : ∀ s' event, LTPAnchorRegistry.exec crypto sender s call ≠ .ok (s', event) := by
    simp [hexec]
  cases call with
  | acceptAnchor anchor signature =>
      exact h.idle (fun _ _ => by simp [ruling]) (fun _ => by simp [keyGiven]) rfl rfl rfl
  | setChainKey c key =>
      refine h.idle (fun _ _ => by simp [ruling]) (fun c' => ?_) rfl rfl rfl
      simp only [keyGiven]
      split_ifs with howner hkey
      · exact absurd (setChainKey_eq_ok.2 ⟨howner.trans h.owner.symm, hkey.2, rfl, rfl⟩)
          (hrefused _ _)
      · rfl
      · rfl
  | addSigner signer =>
      refine h.idle (fun a hne => ?_) (fun _ => by simp [keyGiven]) rfl rfl rfl
      simp only [ruling]
      split_ifs with howner hsigner
      · exact absurd (addSigner_eq_ok.2 ⟨howner.trans h.owner.symm, hsigner ▸ hne, rfl, rfl⟩)
          (hrefused _ _)
      · rfl
      · rfl
  | removeSigner signer =>
      refine h.idle (fun a _ => ?_) (fun _ => by simp [keyGiven]) rfl rfl rfl
      simp only [ruling]
      split_ifs with howner hsigner
      · exact absurd (removeSigner_eq_ok.2 ⟨howner.trans h.owner.symm, rfl, rfl⟩) (hrefused _ _)
      · rfl
      · rfl

theorem step (h : Administered deployer txs run.registry) (tx : EthAddress × Call) :
    Administered deployer (txs ++ [tx]) (run.step crypto tx).registry := by
  unfold RegistryRun.step
  cases hexec : LTPAnchorRegistry.exec crypto tx.1 run.registry tx.2 with
  | ok result => exact h.exec hexec
  | error message => exact h.revert hexec

theorem deploy (deployer : EthAddress) : Administered deployer [] (deploy deployer) where
  owner := rfl
  approved _ _ := rfl
  key _ := rfl

theorem runTransactions (crypto : AnchorCrypto) (deployer : EthAddress)
    (txs : List (EthAddress × Call)) :
    Administered deployer txs (RegistryRun.runTransactions crypto deployer txs).registry := by
  induction txs using List.reverseRecOn with
  | nil => exact deploy deployer
  | append_singleton txs tx ih =>
      rw [RegistryRun.runTransactions, List.foldl_append]
      exact ih.step tx

end Administered

/-! ## Acceptance -/

theorem recoverSigner_ne_zero {crypto : AnchorCrypto} {anchor : Anchor} {signature : List Byte}
    {signer : EthAddress} (h : recoverSigner crypto anchor signature = .ok signer) :
    signer ≠ zeroBytes 20 := by
  simp only [recoverSigner, recoverAddress, bind_eq_ok_iff, require_eq_ok, exists_const, pure,
    Except.pure, Except.ok.injEq] at h
  obtain ⟨-, -, -, hne, rfl⟩ := h
  exact hne

theorem verifyMac_eq_true {crypto : AnchorCrypto} {s : Registry} {anchor : Anchor} :
    verifyMac crypto s anchor = .ok true ↔
      s.chainKey anchor.chainId ≠ zeroBytes 32 ∧
        anchor.mac = computeMac crypto anchor (s.chainKey anchor.chainId) := by
  simp only [verifyMac, bind_eq_ok_iff, require_eq_ok, exists_const, pure, Except.pure,
    Except.ok.injEq, beq_iff_eq]

/-- The height check, in terms of what was accepted. -/
theorem History.lastHeightAccepted_lt_iff {crypto : AnchorCrypto} {s : Registry} {c : U32}
    {history : List Anchor} (h : History crypto s c history) {height : U64} :
    s.lastHeightAccepted c < height ↔ 0 < height ∧ ∀ a ∈ history, a.height < height := by
  constructor
  · intro hlt
    exact ⟨(Fin.zero_le _).trans_lt hlt, fun a ha => (h.le_lastHeightAccepted ha).trans_lt hlt⟩
  · intro hall
    rw [h.height, h.last]
    cases hlast : history.getLast? with
    | none => exact hall.1
    | some a => exact hall.2 a (List.mem_of_getLast? hlast)

theorem Administered.authentic_iff {crypto : AnchorCrypto} {deployer : EthAddress}
    {txs : List (EthAddress × Call)} {s : Registry} (h : Administered deployer txs s)
    {anchor : Anchor} {signature : List Byte} :
    Authentic crypto s anchor signature ↔
      (∃ signer, recoverSigner crypto anchor signature = .ok signer ∧
        lastRuling deployer txs signer = some true) ∧
      ∃ key, lastKey deployer txs anchor.chainId = some key ∧
        anchor.mac = computeMac crypto anchor key := by
  have hsigned : ∀ signer, recoverSigner crypto anchor signature = .ok signer →
      (s.isApprovedSigner signer = true ↔ lastRuling deployer txs signer = some true) := by
    intro signer hsigner
    rw [h.approved signer (recoverSigner_ne_zero hsigner)]
    cases lastRuling deployer txs signer <;> simp
  have hmac : verifyMac crypto s anchor = .ok true ↔
      ∃ key, lastKey deployer txs anchor.chainId = some key ∧
        anchor.mac = computeMac crypto anchor key := by
    rw [verifyMac_eq_true, h.key]
    cases hlast : lastKey deployer txs anchor.chainId with
    | none => simp
    | some key => simp [lastKey_ne_zero hlast]
  constructor
  · intro hauthentic
    obtain ⟨signer, hsigner, happroved⟩ := hauthentic.signed
    exact ⟨⟨signer, hsigner, (hsigned signer hsigner).1 happroved⟩, hmac.1 hauthentic.mac⟩
  · intro hsaid
    obtain ⟨⟨signer, hsigner, hruling⟩, hkey⟩ := hsaid
    exact ⟨⟨signer, hsigner, (hsigned signer hsigner).2 hruling⟩, hmac.2 hkey⟩

open RegistryRun in
/-- What it takes to be accepted. After any transactions of any senders, the contract accepts an
anchor with a signature exactly if the signature recovers a signer on whom the deployer's last word
was to add it, the MAC is under the last non-zero key that the deployer gave the chain, the parent
is the hash of the chain's last accepted anchor (the genesis parent if there is none), and the
height is positive and above all that were accepted for the chain. Nobody but the deployer ever
becomes the owner. -/
theorem acceptAnchor_iff (crypto : AnchorCrypto) (deployer : EthAddress)
    (txs : List (EthAddress × Call)) (anchor : Anchor) (signature : List Byte) :
    (runTransactions crypto deployer txs).registry.owner = deployer ∧
    ((∃ s' event, acceptAnchor crypto anchor signature
        (runTransactions crypto deployer txs).registry = .ok (s', event)) ↔
      (∃ signer, recoverSigner crypto anchor signature = .ok signer ∧
        lastRuling deployer txs signer = some true) ∧
      (∃ key, lastKey deployer txs anchor.chainId = some key ∧
        anchor.mac = computeMac crypto anchor key) ∧
      anchor.parent = HashChain.tip (hashAnchor crypto) GENESIS_PARENT
        ((runTransactions crypto deployer txs).history anchor.chainId) ∧
      0 < anchor.height ∧
      ∀ a ∈ (runTransactions crypto deployer txs).history anchor.chainId,
        a.height < anchor.height) := by
  have hadmin := Administered.runTransactions crypto deployer txs
  have h := history_runTransactions crypto deployer txs anchor.chainId
  refine ⟨hadmin.owner, ?_⟩
  simp only [acceptAnchor_eq_ok, exists_and_left, exists_eq, and_true]
  rw [h.expectedParent_eq, h.lastHeightAccepted_lt_iff, hadmin.authentic_iff, and_assoc]

end LTPAnchorRegistry

end SuwappuDb
