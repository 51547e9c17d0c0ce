import Mathlib.Data.List.Induction
import SuwappuDb.Anchor
import SuwappuDb.Lib.HashChain
import SuwappuDb.Lib.Prog

/-!
# The registry contract

`contracts/src/LTPAnchorRegistry.sol`: the contract that accepts anchors on chain. It keeps the last
accepted anchor of each chain and its height, and takes the height `0` to mean that there is none.

* `acceptAnchor_eq_ok` — what an accepted anchor fulfils, and what the call changes.
* `History` — the accepted anchors of a chain are a hash chain of rising positive heights, of which
  the contract stores the last. An accepted anchor keeps it (`History.concat`), and all other calls
  leave what it speaks of alone (`exec_cases`).
* `registry_history` — the statement about whole runs, from the constructor on.

A mapping is a total function that is zero at first. A call that reverts is an error with its
message, and leaves no state behind. `ecrecover` is the precompile; its key recovery is that of
`AnchorCrypto`.
-/

namespace SuwappuDb

namespace LTPAnchorRegistry

/-! ## The contract -/

/-- `struct Anchor`. There is no scheme here. -/
@[ext] structure Anchor where
  chainId : U32
  height : U64
  stateRoot : ByteArr 32
  parent : ByteArr 32
  mac : ByteArr 32
  deriving DecidableEq

/-- The anchor of zeros, which a mapping starts with. -/
def Anchor.zero : Anchor where
  chainId := 0
  height := 0
  stateRoot := zeroBytes 32
  parent := zeroBytes 32
  mac := zeroBytes 32

def GENESIS_PARENT : ByteArr 32 := zeroBytes 32

structure Registry where
  owner : EthAddress
  lastAnchor : U32 → Anchor := fun _ => Anchor.zero
  chainKey : U32 → ByteArr 32 := fun _ => zeroBytes 32
  lastHeightAccepted : U32 → U64 := fun _ => 0
  isApprovedSigner : EthAddress → Bool := fun _ => false

inductive Event where
  | anchorAccepted (chainId : U32) (height : U64) (stateRoot : ByteArr 32)
  | chainKeySet (chainId : U32) (newKey : ByteArr 32)
  | signerAdded (signer : EthAddress)
  | signerRemoved (signer : EthAddress)
  deriving DecidableEq

def require (condition : Prop) [Decidable condition] (message : String) : Except String Unit :=
  if condition then .ok () else .error message

/-- The constructor, called by `deployer`. -/
def deploy (deployer : EthAddress) : Registry where
  owner := deployer

/-! ### Administration -/

def onlyOwner (sender : EthAddress) (s : Registry) : Except String Unit :=
  require (sender = s.owner) "LTPAnchorRegistry: Only owner"

def setChainKey (sender : EthAddress) (chainId : U32) (key : ByteArr 32) (s : Registry) :
    Except String (Registry × Event) := do
  onlyOwner sender s
  require (key ≠ zeroBytes 32) "Key cannot be zero"
  return ({ s with chainKey := Function.update s.chainKey chainId key }, .chainKeySet chainId key)

def addSigner (sender signer : EthAddress) (s : Registry) : Except String (Registry × Event) := do
  onlyOwner sender s
  require (signer ≠ zeroBytes 20) "Invalid signer"
  return ({ s with isApprovedSigner := Function.update s.isApprovedSigner signer true },
    .signerAdded signer)

def removeSigner (sender signer : EthAddress) (s : Registry) :
    Except String (Registry × Event) := do
  onlyOwner sender s
  return ({ s with isApprovedSigner := Function.update s.isApprovedSigner signer false },
    .signerRemoved signer)

/-! ### Cryptography -/

section Crypto

variable (crypto : AnchorCrypto)

/-- The precompile: the zero address where it fails. -/
def ecrecover (messageHash : ByteArr 32) (v : Byte) (r s : Nat) : EthAddress :=
  if v = 27 ∨ v = 28 then
    match crypto.recover messageHash (v = 28) r s with
    | some key => EthAddress.fromVerifyingKey crypto key
    | none => zeroBytes 20
  else zeroBytes 20

def recoverAddress (messageHash : ByteArr 32) (signature : List Byte) :
    Except String EthAddress := do
  require (signature.length = 65) "LTPAnchorRegistry: Invalid signature length"
  let r := beValue (signature.take 32)
  let s := beValue ((signature.drop 32).take 32)
  let v := signature.getD 64 0
  require (v = 27 ∨ v = 28) "LTPAnchorRegistry: Invalid signature"
  require (s ≤ 0x7FFFFFFFFFFFFFFFFFFFFFFFFFFFFFFF5D576E7357A4501DDFE92F46681B20A0)
    "LTPAnchorRegistry: Invalid signature"
  let recovered := ecrecover crypto messageHash v r s
  require (recovered ≠ zeroBytes 20) "LTPAnchorRegistry: Invalid signature"
  return recovered

/-- `abi.encode` of the struct: one word of 32 bytes for each field. -/
def abiEncode (anchor : Anchor) : List Byte :=
  beBytes 32 anchor.chainId.val ++ beBytes 32 anchor.height.val ++ anchor.stateRoot.val ++
    anchor.parent.val ++ anchor.mac.val

/-- The digest that is signed. -/
def ethMessageHash (anchor : Anchor) : ByteArr 32 :=
  let messageHash := crypto.keccak256 (abiEncode anchor)
  crypto.keccak256 (ascii "\x19Ethereum Signed Message:\n32" ++ messageHash.val)

def recoverSigner (anchor : Anchor) (signature : List Byte) : Except String EthAddress :=
  recoverAddress crypto (ethMessageHash crypto anchor) signature

/-- Keccak-256 in the place of BLAKE3. -/
def computeMac (anchor : Anchor) (key : ByteArr 32) : ByteArr 32 :=
  crypto.keccak256 (ascii "SUWAPPUDB-ANCHOR/MAC" ++ key.val ++ beBytes 4 anchor.chainId.val ++
    beBytes 8 anchor.height.val ++ anchor.stateRoot.val ++ anchor.parent.val)

/-- `hashAnchor` and `hashAnchorMemory`. -/
def hashAnchor (anchor : Anchor) : ByteArr 32 :=
  crypto.keccak256 (ascii "SUWAPPUDB-ANCHOR/HASH" ++ beBytes 4 anchor.chainId.val ++
    beBytes 8 anchor.height.val ++ anchor.stateRoot.val ++ anchor.parent.val ++ anchor.mac.val)

def verifyMac (s : Registry) (anchor : Anchor) : Except String Bool := do
  let key := s.chainKey anchor.chainId
  require (key ≠ zeroBytes 32) "LTPAnchorRegistry: Chain not registered"
  return anchor.mac == computeMac crypto anchor key

/-! ### Accepting an anchor -/

/-- The last accepted anchor of a chain and its height. -/
def Registry.record (s : Registry) (anchor : Anchor) : Registry :=
  { s with
    lastAnchor := Function.update s.lastAnchor anchor.chainId anchor
    lastHeightAccepted := Function.update s.lastHeightAccepted anchor.chainId anchor.height }

/-- Step 3 of `acceptAnchor`. -/
def requireParent (s : Registry) (anchor : Anchor) : Except String Unit :=
  let expectedParent := hashAnchor crypto (s.lastAnchor anchor.chainId)
  if s.lastHeightAccepted anchor.chainId = 0 then
    require (anchor.parent = GENESIS_PARENT)
      "LTPAnchorRegistry: Genesis anchor must have GENESIS parent"
  else require (anchor.parent = expectedParent) "LTPAnchorRegistry: Parent mismatch"

def acceptAnchor (anchor : Anchor) (signature : List Byte) (s : Registry) :
    Except String (Registry × Event) := do
  let signer ← recoverSigner crypto anchor signature
  require (s.isApprovedSigner signer = true) "LTPAnchorRegistry: Unauthorized signer"
  let macOk ← verifyMac crypto s anchor
  require (macOk = true) "LTPAnchorRegistry: MAC mismatch"
  requireParent crypto s anchor
  require (s.lastHeightAccepted anchor.chainId < anchor.height)
    "LTPAnchorRegistry: Non-monotonic height"
  return (s.record anchor, .anchorAccepted anchor.chainId anchor.height anchor.stateRoot)

/-! ## What one call does -/

theorem require_eq_ok {condition : Prop} [Decidable condition] {message : String} {u : Unit} :
    require condition message = .ok u ↔ condition := by
  unfold require
  split_ifs with h <;> simp [h]

variable {crypto} {s s' : Registry} {anchor : Anchor} {signature : List Byte} {event : Event}

/-- The anchor is signed by an approved signer, and its MAC verifies. -/
structure Authentic (crypto : AnchorCrypto) (s : Registry) (anchor : Anchor)
    (signature : List Byte) : Prop where
  signed : ∃ signer, recoverSigner crypto anchor signature = .ok signer ∧
    s.isApprovedSigner signer = true
  mac : verifyMac crypto s anchor = .ok true

/-- The parent that the next anchor of a chain has to name. -/
def expectedParent (crypto : AnchorCrypto) (s : Registry) (c : U32) : ByteArr 32 :=
  if s.lastHeightAccepted c = 0 then GENESIS_PARENT else hashAnchor crypto (s.lastAnchor c)

theorem requireParent_eq_ok {u : Unit} : requireParent crypto s anchor = .ok u ↔
    anchor.parent = expectedParent crypto s anchor.chainId := by
  unfold requireParent expectedParent
  split_ifs <;> exact require_eq_ok

theorem acceptAnchor_eq_ok :
    acceptAnchor crypto anchor signature s = .ok (s', event) ↔
      Authentic crypto s anchor signature ∧
      anchor.parent = expectedParent crypto s anchor.chainId ∧
      s.lastHeightAccepted anchor.chainId < anchor.height ∧
      s' = s.record anchor ∧
      event = .anchorAccepted anchor.chainId anchor.height anchor.stateRoot := by
  unfold acceptAnchor
  simp only [bind_eq_ok_iff, require_eq_ok, requireParent_eq_ok, exists_const, pure, Except.pure,
    Except.ok.injEq, Prod.mk.injEq]
  constructor
  · rintro ⟨signer, hsigner, happroved, macOk, hmac, rfl, hp, hheight, rfl, rfl⟩
    exact ⟨⟨⟨signer, hsigner, happroved⟩, hmac⟩, hp, hheight, rfl, rfl⟩
  · rintro ⟨⟨⟨signer, hsigner, happroved⟩, hmac⟩, hp, hheight, rfl, rfl⟩
    exact ⟨signer, hsigner, happroved, true, hmac, rfl, hp, hheight, rfl, rfl⟩

end Crypto

section Administration

variable {sender signer : EthAddress} {chainId : U32} {key : ByteArr 32} {s s' : Registry}
  {event : Event}

theorem setChainKey_eq_ok : setChainKey sender chainId key s = .ok (s', event) ↔
    sender = s.owner ∧ key ≠ zeroBytes 32 ∧
      { s with chainKey := Function.update s.chainKey chainId key } = s' ∧
      .chainKeySet chainId key = event := by
  simp only [setChainKey, onlyOwner, bind_eq_ok_iff, require_eq_ok, exists_const, pure,
    Except.pure, Except.ok.injEq, Prod.mk.injEq]

theorem addSigner_eq_ok : addSigner sender signer s = .ok (s', event) ↔
    sender = s.owner ∧ signer ≠ zeroBytes 20 ∧
      { s with isApprovedSigner := Function.update s.isApprovedSigner signer true } = s' ∧
      .signerAdded signer = event := by
  simp only [addSigner, onlyOwner, bind_eq_ok_iff, require_eq_ok, exists_const, pure,
    Except.pure, Except.ok.injEq, Prod.mk.injEq]

theorem removeSigner_eq_ok : removeSigner sender signer s = .ok (s', event) ↔
    sender = s.owner ∧
      { s with isApprovedSigner := Function.update s.isApprovedSigner signer false } = s' ∧
      .signerRemoved signer = event := by
  simp only [removeSigner, onlyOwner, bind_eq_ok_iff, require_eq_ok, exists_const, pure,
    Except.pure, Except.ok.injEq, Prod.mk.injEq]

end Administration

/-- A transaction, apart from its sender. -/
inductive Call where
  | acceptAnchor (anchor : Anchor) (signature : List Byte)
  | setChainKey (chainId : U32) (key : ByteArr 32)
  | addSigner (signer : EthAddress)
  | removeSigner (signer : EthAddress)

def exec (crypto : AnchorCrypto) (sender : EthAddress) (s : Registry) :
    Call → Except String (Registry × Event)
  | .acceptAnchor anchor signature => acceptAnchor crypto anchor signature s
  | .setChainKey chainId key => setChainKey sender chainId key s
  | .addSigner signer => addSigner sender signer s
  | .removeSigner signer => removeSigner sender signer s

/-- The chain that a call is for. -/
def Call.chain? : Call → Option U32
  | .acceptAnchor anchor _ => some anchor.chainId
  | .setChainKey chainId _ => some chainId
  | .addSigner _ => none
  | .removeSigner _ => none

/-- The anchor that a call offers. -/
def Call.anchor? : Call → Option Anchor
  | .acceptAnchor anchor _ => some anchor
  | _ => none

/-- What the contract keeps about one chain. -/
def Registry.chain (s : Registry) (c : U32) : Anchor × U64 × ByteArr 32 :=
  (s.lastAnchor c, s.lastHeightAccepted c, s.chainKey c)

section Calls

variable {crypto : AnchorCrypto} {sender : EthAddress} {s s' : Registry} {call : Call}
  {event : Event}

/-- A call that does not revert accepts its anchor, or leaves all accepted anchors as they are. -/
theorem exec_cases (h : exec crypto sender s call = .ok (s', event)) :
    (∃ anchor, call.anchor? = some anchor ∧
      anchor.parent = expectedParent crypto s anchor.chainId ∧
      s.lastHeightAccepted anchor.chainId < anchor.height ∧ s' = s.record anchor) ∨
    (call.anchor? = none ∧ s'.lastAnchor = s.lastAnchor ∧
      s'.lastHeightAccepted = s.lastHeightAccepted) := by
  cases call with
  | acceptAnchor anchor signature =>
      obtain ⟨-, hparent, hheight, rfl, -⟩ := acceptAnchor_eq_ok.1 h
      exact Or.inl ⟨anchor, rfl, hparent, hheight, rfl⟩
  | setChainKey chainId key =>
      obtain ⟨-, -, rfl, -⟩ := setChainKey_eq_ok.1 h
      exact Or.inr ⟨rfl, rfl, rfl⟩
  | addSigner signer =>
      obtain ⟨-, -, rfl, -⟩ := addSigner_eq_ok.1 h
      exact Or.inr ⟨rfl, rfl, rfl⟩
  | removeSigner signer =>
      obtain ⟨-, rfl, -⟩ := removeSigner_eq_ok.1 h
      exact Or.inr ⟨rfl, rfl, rfl⟩

/-- What is kept about a chain is changed by calls for that chain only. -/
theorem chain_exec (h : exec crypto sender s call = .ok (s', event)) {c : U32}
    (hc : call.chain? ≠ some c) : s'.chain c = s.chain c := by
  cases call with
  | acceptAnchor anchor signature =>
      obtain ⟨-, -, -, rfl, -⟩ := acceptAnchor_eq_ok.1 h
      have hne : c ≠ anchor.chainId := fun heq => hc (congrArg some heq.symm)
      simp [Registry.chain, Registry.record, hne]
  | setChainKey chainId key =>
      obtain ⟨-, -, rfl, -⟩ := setChainKey_eq_ok.1 h
      have hne : c ≠ chainId := fun heq => hc (congrArg some heq.symm)
      simp [Registry.chain, hne]
  | addSigner signer =>
      obtain ⟨-, -, rfl, -⟩ := addSigner_eq_ok.1 h
      rfl
  | removeSigner signer =>
      obtain ⟨-, rfl, -⟩ := removeSigner_eq_ok.1 h
      rfl

end Calls

/-! ## The accepted anchors of a chain -/

/-- The accepted anchors of a chain, and what the contract stores of them. -/
structure History (crypto : AnchorCrypto) (s : Registry) (c : U32) (history : List Anchor) :
    Prop where
  linked : HashChain.Linked (hashAnchor crypto) Anchor.parent GENESIS_PARENT history
  rising : history.Pairwise fun a b => a.height < b.height
  positive : ∀ a ∈ history, 0 < a.height
  last : s.lastAnchor c = history.getLast?.getD Anchor.zero
  height : s.lastHeightAccepted c = (s.lastAnchor c).height

namespace History

variable {crypto : AnchorCrypto} {s s' : Registry} {c : U32} {history : List Anchor}

theorem deploy (crypto : AnchorCrypto) (deployer : EthAddress) (c : U32) :
    History crypto (deploy deployer) c [] where
  linked := HashChain.linked_nil
  rising := List.Pairwise.nil
  positive := by simp
  last := rfl
  height := rfl

/-- The flag that there is no anchor yet is right. -/
theorem lastHeightAccepted_eq_zero (h : History crypto s c history) :
    s.lastHeightAccepted c = 0 ↔ history = [] := by
  rw [h.height, h.last]
  cases hlast : history.getLast? with
  | none =>
      rw [List.getLast?_eq_none_iff] at hlast
      simp [hlast, Anchor.zero]
  | some a =>
      have hpos := h.positive a (List.mem_of_getLast? hlast)
      have hne : history ≠ [] := by
        rintro rfl
        cases hlast
      simp [hne, hpos.ne']

theorem expectedParent_eq (h : History crypto s c history) :
    expectedParent crypto s c = HashChain.tip (hashAnchor crypto) GENESIS_PARENT history := by
  unfold expectedParent
  split_ifs with hzero
  · rw [h.lastHeightAccepted_eq_zero.1 hzero, HashChain.tip_nil]
  · have hne := mt h.lastHeightAccepted_eq_zero.2 hzero
    rw [h.last, HashChain.tip, List.getLast?_eq_some_getLast hne]
    rfl

/-- All accepted heights are at most the one that is stored. -/
theorem le_lastHeightAccepted (h : History crypto s c history) {a : Anchor} (ha : a ∈ history) :
    a.height ≤ s.lastHeightAccepted c := by
  induction history using List.reverseRecOn with
  | nil => cases ha
  | append_singleton earlier b _ =>
      rw [h.height, h.last, List.getLast?_concat, Option.getD_some]
      rcases List.mem_append.1 ha with hearlier | hb
      · exact ((List.pairwise_append.1 h.rising).2.2 a hearlier b List.mem_cons_self).le
      · rw [List.mem_singleton.1 hb]

theorem congr (h : History crypto s c history) (hanchor : s'.lastAnchor c = s.lastAnchor c)
    (hheight : s'.lastHeightAccepted c = s.lastHeightAccepted c) : History crypto s' c history where
  linked := h.linked
  rising := h.rising
  positive := h.positive
  last := hanchor.trans h.last
  height := by rw [hheight, hanchor, h.height]

/-- The step: one more anchor. -/
theorem concat {anchor : Anchor} (h : History crypto s anchor.chainId history)
    (hparent : anchor.parent = expectedParent crypto s anchor.chainId)
    (hheight : s.lastHeightAccepted anchor.chainId < anchor.height) :
    History crypto (s.record anchor) anchor.chainId (history ++ [anchor]) where
  linked := h.linked.concat (hparent.trans h.expectedParent_eq)
  rising := by
    rw [List.pairwise_append]
    refine ⟨h.rising, List.pairwise_singleton _ _, fun a ha b hb => ?_⟩
    rw [List.mem_singleton.1 hb]
    exact (h.le_lastHeightAccepted ha).trans_lt hheight
  positive a ha := by
    rcases List.mem_append.1 ha with hold | hnew
    · exact h.positive a hold
    · rw [List.mem_singleton.1 hnew]
      exact (Fin.zero_le _).trans_lt hheight
  last := by simp [Registry.record]
  height := by simp [Registry.record]

end History

/-! ## Runs -/

/-- The contract, with the anchors it has accepted so far. -/
structure RegistryRun where
  registry : Registry
  accepted : List Anchor

namespace RegistryRun

variable (crypto : AnchorCrypto)

def step (run : RegistryRun) (tx : EthAddress × Call) : RegistryRun :=
  match exec crypto tx.1 run.registry tx.2 with
  | .ok (s, _) => ⟨s, run.accepted ++ tx.2.anchor?.toList⟩
  | .error _ => run

def runTransactions (deployer : EthAddress) (txs : List (EthAddress × Call)) : RegistryRun :=
  txs.foldl (step crypto) ⟨deploy deployer, []⟩

/-- The accepted anchors of one chain, in the order in which they were accepted. -/
def history (run : RegistryRun) (c : U32) : List Anchor :=
  run.accepted.filter fun a => a.chainId = c

variable {crypto}

theorem history_step {run : RegistryRun}
    (h : ∀ c, History crypto run.registry c (run.history c)) (tx : EthAddress × Call) (c : U32) :
    History crypto (run.step crypto tx).registry c ((run.step crypto tx).history c) := by
  unfold step
  cases hexec : exec crypto tx.1 run.registry tx.2 with
  | error message => exact h c
  | ok result =>
      obtain ⟨s, event⟩ := result
      rcases exec_cases hexec with
        ⟨anchor, hanchor, hparent, hheight, rfl⟩ | ⟨hnone, hlast, hheights⟩
      · simp only [hanchor, history, Option.toList_some, List.filter_append]
        by_cases hc : anchor.chainId = c
        · subst hc
          rw [List.filter_cons_of_pos (by simp), List.filter_nil]
          exact (h anchor.chainId).concat hparent hheight
        · rw [List.filter_cons_of_neg (by simpa using hc), List.filter_nil, List.append_nil]
          refine (h c).congr ?_ ?_ <;> simp [Registry.record, Ne.symm hc]
      · simp only [hnone, history, Option.toList_none, List.append_nil]
        exact (h c).congr (by rw [hlast]) (by rw [hheights])

/-- What holds at the deployment and is kept by every transaction holds after any run. -/
theorem runTransactions_induction {motive : RegistryRun → Prop} {deployer : EthAddress}
    (hdeploy : motive ⟨deploy deployer, []⟩)
    (hstep : ∀ run tx, motive run → motive (run.step crypto tx))
    (txs : List (EthAddress × Call)) : motive (runTransactions crypto deployer txs) := by
  apply List.foldlRecOn txs (step crypto) hdeploy
  intro run hrun tx _
  exact hstep run tx hrun

/-- An anchor that were accepted twice would be twice in the history of its chain. -/
theorem nodup_accepted {run : RegistryRun}
    (h : ∀ c, History crypto run.registry c (run.history c)) : run.accepted.Nodup := by
  rw [List.nodup_iff_count_le_one]
  intro a
  have hnodup : (run.history a.chainId).Nodup :=
    (h a.chainId).rising.imp fun hlt heq => by rw [heq] at hlt; exact lt_irrefl _ hlt
  have hcount := List.nodup_iff_count_le_one.1 hnodup a
  rwa [history, List.count_filter (by simp)] at hcount

end RegistryRun

theorem history_runTransactions (crypto : AnchorCrypto) (deployer : EthAddress)
    (txs : List (EthAddress × Call)) (c : U32) :
    History crypto (RegistryRun.runTransactions crypto deployer txs).registry c
      ((RegistryRun.runTransactions crypto deployer txs).history c) :=
  RegistryRun.runTransactions_induction
    (motive := fun run => ∀ c, History crypto run.registry c (run.history c))
    (fun c => History.deploy crypto deployer c)
    (fun _ tx hrun => RegistryRun.history_step hrun tx) txs c

open RegistryRun in
/-- After any transactions of any senders, the accepted anchors of a chain have rising positive
heights and are a hash chain from the genesis parent on. The contract knows the height of the last,
and has accepted none twice. The next transaction leaves alone what is kept about the chains it is
not for, and leaves everything alone if it reverts. -/
theorem registry_history (crypto : AnchorCrypto) (deployer : EthAddress)
    (txs : List (EthAddress × Call)) :
    (∀ c, ((runTransactions crypto deployer txs).history c).Pairwise
      fun a b => a.height < b.height) ∧
    (∀ c, ∀ a ∈ (runTransactions crypto deployer txs).history c, 0 < a.height) ∧
    (∀ c, HashChain.Linked (hashAnchor crypto) Anchor.parent GENESIS_PARENT
      ((runTransactions crypto deployer txs).history c)) ∧
    (∀ c, ((runTransactions crypto deployer txs).registry.lastAnchor c).height =
      (runTransactions crypto deployer txs).registry.lastHeightAccepted c) ∧
    (∀ c, (runTransactions crypto deployer txs).registry.lastAnchor c =
      ((runTransactions crypto deployer txs).history c).getLast?.getD Anchor.zero) ∧
    (runTransactions crypto deployer txs).accepted.Nodup ∧
    ∀ sender call,
      (∀ c, call.chain? ≠ some c →
        ((runTransactions crypto deployer txs).step crypto (sender, call)).registry.chain c =
          (runTransactions crypto deployer txs).registry.chain c) ∧
      ∀ message,
        exec crypto sender (runTransactions crypto deployer txs).registry call = .error message →
        (runTransactions crypto deployer txs).step crypto (sender, call) =
          runTransactions crypto deployer txs := by
  have h := history_runTransactions crypto deployer txs
  generalize runTransactions crypto deployer txs = run at h ⊢
  refine ⟨fun c => (h c).rising, fun c => (h c).positive, fun c => (h c).linked,
    fun c => (h c).height.symm, fun c => (h c).last, nodup_accepted h,
    fun sender call => ⟨fun c hc => ?_, fun message herror => ?_⟩⟩
  · unfold step
    cases hexec : exec crypto sender run.registry call with
    | error message => rfl
    | ok result => exact chain_exec hexec hc
  · rw [step, herror]

end LTPAnchorRegistry

end SuwappuDb
