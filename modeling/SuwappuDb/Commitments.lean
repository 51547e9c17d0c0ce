import SuwappuDb.BlockStore
import SuwappuDb.RegistryAuthority
import SuwappuDb.RegistryParity
import SuwappuDb.Serializability

/-!
# One hash stands for a history

Blocks and anchors name the hash of the one before them, so the last hash is a commitment to all of
them. Both arguments are `HashChain.Linked.eq_of_tip_eq`; what is left is to find the chain in what
is stored.

* `replay_eq_ok`, `latest_ofBlocks` — a replayed store is a hash chain, and its latest block the end
  of it.
* `latest_commits` — two stores that replay and have the same latest hash hold the same chain, and
  their replays end in the same state. So a store from anybody will do, if the latest hash is known.
* `getLastAnchorHash`, `getLastAnchorHash_commits` — two contracts that answer alike for a chain
  have accepted the same anchors for it, whoever sent what to them.
-/

namespace SuwappuDb

/-! ## Blocks -/

section Blocks

variable {blake3 : Blake3}

/-- Blocks with fields of proper length have a hash of their own. -/
theorem injOn_hash_of_fits {blocks : List Block} (hfits : ∀ b ∈ blocks, b.Fits)
    (hcf : CollisionFree blake3 (blocks.map Block.encoding)) :
    Set.InjOn (Block.hash blake3) {b | b ∈ blocks} := by
  intro b hb b' hb' heq
  have henc := hcf _ (List.mem_map_of_mem hb) _ (List.mem_map_of_mem hb') heq
  refine injOn_encodeBlock (hfits b hb) (hfits b' hb') ?_
  rw [Block.encoding, Block.encoding] at henc
  rw [encodeBlock_eq, encodeBlock_eq, List.append_cancel_left henc]

namespace InMemoryBlockStore

variable {blocks : List Block}

/-- The index never names a hash that is not held. -/
theorem exists_byHash (hinj : Set.InjOn (Block.hash blake3) {b | b ∈ blocks}) {p : U64 × BlockHash}
    (hp : p ∈ (ofBlocks blake3 blocks).byHeight.entries) :
    ∃ b, (ofBlocks blake3 blocks).byHash.get? p.2 = some b := by
  rw [ofBlocks, (foldl_put blake3 blocks {}).2, OrdMap.mem_entries, OrdMap.get?_insertAll_lastAt,
    show (∅ : OrdMap U64 BlockHash).get? p.1 = none from rfl, Option.or_none] at hp
  obtain ⟨b, hb, heq⟩ := List.mem_map.1 (OrdMap.mem_of_lastAt hp)
  obtain ⟨-, hhash⟩ := Prod.mk.inj heq
  exact ⟨b, hhash ▸ get?_byHash_of_mem hinj hb⟩

theorem mem_of_mem_iterFrom (hinj : Set.InjOn (Block.hash blake3) {b | b ∈ blocks}) {start : U64}
    {b : Block} (hb : b ∈ (ofBlocks blake3 blocks).iterFrom start) : b ∈ blocks := by
  have hheld := ((mem_iterFrom hinj).1 hb).2
  rw [getByHeight_ofBlocks hinj] at hheld
  exact List.mem_of_mem_filter (List.mem_of_getLast? hheld)

/-- The latest block is the end of the chain that is read back. -/
theorem latest_ofBlocks (hinj : Set.InjOn (Block.hash blake3) {b | b ∈ blocks}) :
    (ofBlocks blake3 blocks).latest = ((ofBlocks blake3 blocks).iterFrom 0).getLast? := by
  have hall : ((ofBlocks blake3 blocks).byHeight.entries.filter fun p => (0 : U64) ≤ p.1) =
      (ofBlocks blake3 blocks).byHeight.entries :=
    List.filter_eq_self.2 fun p _ => decide_eq_true (Fin.zero_le p.1)
  have hheld := fun p => exists_byHash (p := p) hinj
  rw [latest, iterFrom, hall]
  generalize (ofBlocks blake3 blocks).byHeight.entries = entries at hheld
  cases entries using List.reverseRecOn with
  | nil => rfl
  | append_singleton entries p =>
      obtain ⟨b, hb⟩ := hheld p (by simp)
      simp [hb]

end InMemoryBlockStore

/-- A replay that succeeds has read a hash chain, and ends where a live run of it ends. -/
theorem replay_eq_ok {registry : ContractRegistry} (hpure : registry.Pure) {sched : ReplaySchedule}
    {store : InMemoryBlockStore} {s t : State}
    (h : replay blake3 sched registry store.toBlockStore s 0 = some (t, .ok ())) :
    HashChain.Linked (Block.hash blake3) Block.parent GENESIS_PARENT (store.iterFrom 0) ∧
    ∃ roots, liveRun blake3 (fun _ => default) registry 0 s
      ((store.iterFrom 0).map Block.intents) = some (t, roots) := by
  obtain ⟨t', verdict, live, roots, hreplay, hrun, hiff, hstate⟩ := replayFrom_spec blake3 sched
    (fun _ => default) (fun height s block => executeWithRegistry_agree blake3 s block hpure _ _)
    (store.iterFrom 0) 0 GENESIS_PARENT s
  cases (show some (t', verdict) = some (t, .ok ()) from hreplay.symm.trans h)
  rw [hstate rfl]
  exact ⟨(hiff.1 rfl).2.1, roots, hrun⟩

/-- The hash of the latest block stands for the store. Two stores are filled by any puts, and both
replay from the same state. If their latest blocks have the same hash, then they hold the same
chain, and the two replays end in the same state. -/
theorem latest_commits {registry : ContractRegistry} (hpure : registry.Pure)
    {blocks blocks' : List Block} (hfits : ∀ b ∈ blocks ++ blocks', b.Fits)
    (hcf : CollisionFree blake3 ((blocks ++ blocks').map Block.encoding))
    (hgenesis : ∀ b ∈ blocks ++ blocks', b.hash blake3 ≠ GENESIS_PARENT)
    {s t t' : State} {sched sched' : ReplaySchedule}
    (hreplay : replay blake3 sched registry (InMemoryBlockStore.ofBlocks blake3 blocks).toBlockStore
      s 0 = some (t, .ok ()))
    (hreplay' : replay blake3 sched' registry
      (InMemoryBlockStore.ofBlocks blake3 blocks').toBlockStore s 0 = some (t', .ok ()))
    (hlatest : (InMemoryBlockStore.ofBlocks blake3 blocks).latest.map (Block.hash blake3) =
      (InMemoryBlockStore.ofBlocks blake3 blocks').latest.map (Block.hash blake3)) :
    (InMemoryBlockStore.ofBlocks blake3 blocks).iterFrom 0 =
      (InMemoryBlockStore.ofBlocks blake3 blocks').iterFrom 0 ∧ t = t' := by
  have hinj := injOn_hash_of_fits hfits hcf
  have hleft : ∀ b ∈ blocks, b ∈ blocks ++ blocks' := fun b hb => List.mem_append_left _ hb
  have hright : ∀ b ∈ blocks', b ∈ blocks ++ blocks' := fun b hb => List.mem_append_right _ hb
  have hinjLeft := hinj.mono hleft
  have hinjRight := hinj.mono hright
  have hread := fun b (hb : b ∈ (InMemoryBlockStore.ofBlocks blake3 blocks).iterFrom 0) =>
    hleft b (InMemoryBlockStore.mem_of_mem_iterFrom hinjLeft hb)
  have hread' := fun b (hb : b ∈ (InMemoryBlockStore.ofBlocks blake3 blocks').iterFrom 0) =>
    hright b (InMemoryBlockStore.mem_of_mem_iterFrom hinjRight hb)
  obtain ⟨hlinked, roots, hlive⟩ := replay_eq_ok hpure hreplay
  obtain ⟨hlinked', roots', hlive'⟩ := replay_eq_ok hpure hreplay'
  rw [InMemoryBlockStore.latest_ofBlocks hinjLeft, InMemoryBlockStore.latest_ofBlocks hinjRight]
    at hlatest
  have hchain := hlinked.eq_of_tip_eq hlinked'
    (fun b hb b' hb' heq => hinj (hread b hb) (hread' b' hb') heq)
    (fun b hb => hgenesis b ((List.mem_append.1 hb).elim (hread b) (hread' b)))
    (congrArg (Option.getD · GENESIS_PARENT) hlatest)
  refine ⟨hchain, ?_⟩
  rw [← hchain, hlive] at hlive'
  exact congrArg Prod.fst (Option.some.inj hlive')

end Blocks

/-- The two blocks of a chain, put in one order and in the other. -/
theorem latest_commits_chainBlocks :
    smallRegistry.Pure ∧ (∀ b ∈ chainBlocks ++ chainBlocks.reverse, b.Fits) ∧
    CollisionFree (tableHash chainTable)
      ((chainBlocks ++ chainBlocks.reverse).map Block.encoding) ∧
    (∀ b ∈ chainBlocks ++ chainBlocks.reverse,
      b.hash (tableHash chainTable) ≠ GENESIS_PARENT) ∧
    ∃ t t',
      replay (tableHash chainTable) default smallRegistry
        (InMemoryBlockStore.ofBlocks (tableHash chainTable) chainBlocks).toBlockStore zeroState 0 =
          some (t, .ok ()) ∧
      replay (tableHash chainTable) default smallRegistry
        (InMemoryBlockStore.ofBlocks (tableHash chainTable) chainBlocks.reverse).toBlockStore
        zeroState 0 = some (t', .ok ()) ∧ t = t' := by
  have hfits : ∀ b ∈ chainBlocks ++ chainBlocks.reverse, b.Fits := by
    simp [chainBlocks, emptyBlock, payingBlock, payments, Block.Fits, Intent.Fits]
  have hcf : CollisionFree (tableHash chainTable)
      ((chainBlocks ++ chainBlocks.reverse).map Block.encoding) :=
    collisionFree_tableHash (by decide +kernel) (by decide +kernel)
  have hgenesis : ∀ b ∈ chainBlocks ++ chainBlocks.reverse,
      b.hash (tableHash chainTable) ≠ GENESIS_PARENT := by decide +kernel
  have hreversed : (replay (tableHash chainTable) default smallRegistry
      (InMemoryBlockStore.ofBlocks (tableHash chainTable) chainBlocks.reverse).toBlockStore
      zeroState 0).map Prod.snd = some (.ok ()) := by
    decide +kernel
  obtain ⟨⟨t, verdict⟩, hreplay, hverdict⟩ := Option.map_eq_some_iff.1 replay_chainBlocks
  obtain ⟨⟨t', verdict'⟩, hreplay', hverdict'⟩ := Option.map_eq_some_iff.1 hreversed
  obtain rfl : verdict = .ok () := hverdict
  obtain rfl : verdict' = .ok () := hverdict'
  exact ⟨smallRegistry_pure, hfits, hcf, hgenesis, t, t', hreplay, hreplay',
    (latest_commits smallRegistry_pure hfits hcf hgenesis hreplay hreplay'
      (by decide +kernel)).2⟩

/-! ## Anchors on chain -/

namespace LTPAnchorRegistry

/-- `getLastAnchorHash`. Without an accepted anchor it is the hash of the zero anchor. -/
def Registry.getLastAnchorHash (crypto : AnchorCrypto) (s : Registry) (c : U32) : ByteArr 32 :=
  hashAnchor crypto (s.lastAnchor c)

/-- What `hashAnchor` hashes. -/
def hashInput (anchor : Anchor) : List Byte :=
  ascii "SUWAPPUDB-ANCHOR/HASH" ++ beBytes 4 anchor.chainId.val ++ beBytes 8 anchor.height.val ++
    anchor.stateRoot.val ++ anchor.parent.val ++ anchor.mac.val

theorem hashInput_inj {a b : Anchor} (h : hashInput a = hashInput b) : a = b := by
  obtain ⟨h, hmac⟩ := List.append_inj' h (a.mac.property.trans b.mac.property.symm)
  obtain ⟨h, hparent⟩ := List.append_inj' h (a.parent.property.trans b.parent.property.symm)
  obtain ⟨h, hroot⟩ := List.append_inj' h (a.stateRoot.property.trans b.stateRoot.property.symm)
  obtain ⟨h, hheight⟩ := List.append_inj' h (by simp)
  have hchain := List.append_cancel_left h
  ext1
  · exact Fin.ext (beBytes_inj a.chainId.isLt b.chainId.isLt hchain)
  · exact Fin.ext (beBytes_inj a.height.isLt b.height.isLt hheight)
  · exact Subtype.ext hroot
  · exact Subtype.ext hparent
  · exact Subtype.ext hmac

/-- The last anchors of two histories are the same, if the answers are. -/
theorem getLast?_eq_of_hashAnchor_eq {crypto : AnchorCrypto} {history history' : List Anchor}
    (hpos : ∀ a ∈ history, 0 < a.height) (hpos' : ∀ a ∈ history', 0 < a.height)
    (hinj : ∀ a ∈ Anchor.zero :: (history ++ history'), ∀ b ∈ Anchor.zero :: (history ++ history'),
      hashAnchor crypto a = hashAnchor crypto b → a = b)
    (hhash : hashAnchor crypto (history.getLast?.getD Anchor.zero) =
      hashAnchor crypto (history'.getLast?.getD Anchor.zero)) :
    history.getLast? = history'.getLast? := by
  cases hlast : history.getLast? with
  | none =>
      cases hlast' : history'.getLast? with
      | none => rfl
      | some b =>
          have hb := List.mem_of_getLast? hlast'
          rw [hlast, hlast'] at hhash
          have heq : Anchor.zero = b := hinj _ (by simp) b (by simp [hb]) hhash
          exact absurd (heq ▸ hpos' b hb) (lt_irrefl _)
  | some a =>
      have ha := List.mem_of_getLast? hlast
      cases hlast' : history'.getLast? with
      | none =>
          rw [hlast, hlast'] at hhash
          have heq : a = Anchor.zero := hinj a (by simp [ha]) _ (by simp) hhash
          exact absurd (heq ▸ hpos a ha) (lt_irrefl _)
      | some b =>
          have hb := List.mem_of_getLast? hlast'
          rw [hlast, hlast'] at hhash
          exact congrArg some (hinj a (by simp [ha]) b (by simp [hb]) hhash)

open RegistryRun in
/-- The answer of `getLastAnchorHash` stands for all that was accepted. Two contracts were deployed
by anybody, and anybody has sent them anything. If they answer alike for a chain, they have accepted
the same anchors for it, in the same order. -/
theorem getLastAnchorHash_commits (crypto : AnchorCrypto) (deployer deployer' : EthAddress)
    (txs txs' : List (EthAddress × Call)) (c : U32)
    (hcf : CollisionFree crypto.keccak256 ((Anchor.zero ::
      ((runTransactions crypto deployer txs).history c ++
        (runTransactions crypto deployer' txs').history c)).map hashInput))
    (hgenesis : ∀ a ∈ (runTransactions crypto deployer txs).history c ++
      (runTransactions crypto deployer' txs').history c, hashAnchor crypto a ≠ GENESIS_PARENT)
    (hhash : (runTransactions crypto deployer txs).registry.getLastAnchorHash crypto c =
      (runTransactions crypto deployer' txs').registry.getLastAnchorHash crypto c) :
    (runTransactions crypto deployer txs).history c =
      (runTransactions crypto deployer' txs').history c := by
  have h := history_runTransactions crypto deployer txs c
  have h' := history_runTransactions crypto deployer' txs' c
  rw [Registry.getLastAnchorHash, Registry.getLastAnchorHash, h.last, h'.last] at hhash
  set history := (runTransactions crypto deployer txs).history c
  set history' := (runTransactions crypto deployer' txs').history c
  have hinj : ∀ a ∈ Anchor.zero :: (history ++ history'),
      ∀ b ∈ Anchor.zero :: (history ++ history'),
      hashAnchor crypto a = hashAnchor crypto b → a = b := fun a ha b hb heq =>
    hashInput_inj (hcf _ (List.mem_map_of_mem ha) _ (List.mem_map_of_mem hb) heq)
  have hlast := getLast?_eq_of_hashAnchor_eq h.positive h'.positive hinj hhash
  refine h.linked.eq_of_tip_eq h'.linked (fun a ha b hb => ?_) hgenesis ?_
  · exact hinj a (by simp [ha]) b (by simp [hb])
  · rw [HashChain.tip, HashChain.tip, hlast]

/-- Keccak-256 on what two contracts hash for two anchors. -/
def anchoredKeccak : List (List Byte × Commitment) := [
  (ascii "SUWAPPUDB-ANCHOR/MAC" ++ List.replicate 32 1 ++ beBytes 4 1 ++ beBytes 8 1 ++
      List.replicate 32 7 ++ List.replicate 32 0,
    digestOf 0xd2a106c26e70e504ba31587cdb9f18ee96a3db744d873f7d659dc74fe2fe9e35),
  (beBytes 32 1 ++ beBytes 32 1 ++ List.replicate 32 7 ++ List.replicate 32 0 ++
      beBytes 32 0xd2a106c26e70e504ba31587cdb9f18ee96a3db744d873f7d659dc74fe2fe9e35,
    digestOf 0x64692ad44fb172e9bc8305bbded9439afefbeb66176073850aa7655a02d7a070),
  (ascii "\x19Ethereum Signed Message:\n32" ++
      beBytes 32 0x64692ad44fb172e9bc8305bbded9439afefbeb66176073850aa7655a02d7a070,
    digestOf 0x6d2b63b925862728d491352a47d772fc4cdf2fa04726bb5bf834503dff7ee0ab),
  (beBytes 32 0x79be667ef9dcbbac55a06295ce870b07029bfcdb2dce28d959f2815b16f81798 ++
      beBytes 32 0x483ada7726a3c4655da4fbfc0e1108a8fd17b448a68554199c47d08ffb10d4b8,
    digestOf 0xc0a6c424ac7157ae408398df7e5f4552091a69125d5dfcb7b8c2659029395bdf),
  (ascii "SUWAPPUDB-ANCHOR/HASH" ++ beBytes 4 1 ++ beBytes 8 1 ++ List.replicate 32 7 ++
      List.replicate 32 0 ++
      beBytes 32 0xd2a106c26e70e504ba31587cdb9f18ee96a3db744d873f7d659dc74fe2fe9e35,
    digestOf 0x804ce9201cc7473a70f8f3492593b2b794128058247f8c2ff2ff0e976c2b9439),
  (ascii "SUWAPPUDB-ANCHOR/MAC" ++ List.replicate 32 1 ++ beBytes 4 1 ++ beBytes 8 2 ++
      List.replicate 32 8 ++
      beBytes 32 0x804ce9201cc7473a70f8f3492593b2b794128058247f8c2ff2ff0e976c2b9439,
    digestOf 0x1d645f6b387ad2ae26f0f04241bfeb2d9cad2113ca303fe0ee20d3887d91d67e),
  (beBytes 32 1 ++ beBytes 32 2 ++ List.replicate 32 8 ++
      beBytes 32 0x804ce9201cc7473a70f8f3492593b2b794128058247f8c2ff2ff0e976c2b9439 ++
      beBytes 32 0x1d645f6b387ad2ae26f0f04241bfeb2d9cad2113ca303fe0ee20d3887d91d67e,
    digestOf 0x1abbe746c3ef7a6069a8550827fb9f4d52525f52e55fb0c228dd9923ee5be009),
  (ascii "\x19Ethereum Signed Message:\n32" ++
      beBytes 32 0x1abbe746c3ef7a6069a8550827fb9f4d52525f52e55fb0c228dd9923ee5be009,
    digestOf 0x072d8b4b0e1e04b09a0ce2f7dbdb3856732b41cb7b98200d5cdf95eb196320f8),
  (ascii "SUWAPPUDB-ANCHOR/HASH" ++ beBytes 4 1 ++ beBytes 8 2 ++ List.replicate 32 8 ++
      beBytes 32 0x804ce9201cc7473a70f8f3492593b2b794128058247f8c2ff2ff0e976c2b9439 ++
      beBytes 32 0x1d645f6b387ad2ae26f0f04241bfeb2d9cad2113ca303fe0ee20d3887d91d67e,
    digestOf 0x09da199bf3976489698b581e95545fa06753ed84e3f8f148428b8c4b6cf71317),
  (ascii "SUWAPPUDB-ANCHOR/HASH" ++ beBytes 4 0 ++ beBytes 8 0 ++ List.replicate 96 0,
    digestOf 0x4f77ab563c0e33b8c8cbd32c2dd272bda83c4ad6dc0fd8f511edbdf0273047db)]

/-- The signer's key: the generator of the curve. -/
def anchoredVerifyingKey : ByteArr 64 :=
  ⟨beBytes 32 0x79be667ef9dcbbac55a06295ce870b07029bfcdb2dce28d959f2815b16f81798 ++
      beBytes 32 0x483ada7726a3c4655da4fbfc0e1108a8fd17b448a68554199c47d08ffb10d4b8,
    length_beBytes_append 32 32 _ _⟩

def anchoredCrypto : AnchorCrypto where
  blake3 := tableHash []
  keyedBlake3 _ := tableHash []
  keccak256 := tableHash anchoredKeccak
  recover _ _ r s := if IsScalar r ∧ IsScalar s then some anchoredVerifyingKey else none
  recover_eq_none _ _ _ _ h := if_neg h
  mldsa65 := none

def anchoredSigner : EthAddress := EthAddress.fromVerifyingKey anchoredCrypto anchoredVerifyingKey

def anchoredAnchor : Anchor where
  chainId := 1
  height := 1
  stateRoot := constBytes 32 7
  parent := GENESIS_PARENT
  mac := digestOf 0xd2a106c26e70e504ba31587cdb9f18ee96a3db744d873f7d659dc74fe2fe9e35

def anchoredSignature : List Byte :=
  beBytes 32 0xc6047f9441ed7d6d3045406e95c07cd85c778e4b8cef3ca7abac09b95c709ee5 ++
    beBytes 32 0x66680e594c462db4fd94c5339134081466037df0c53da439ede23191223e8179 ++ [28]

/-- The anchor after it. -/
def anchoredNext : Anchor where
  chainId := 1
  height := 2
  stateRoot := constBytes 32 8
  parent := digestOf 0x804ce9201cc7473a70f8f3492593b2b794128058247f8c2ff2ff0e976c2b9439
  mac := digestOf 0x1d645f6b387ad2ae26f0f04241bfeb2d9cad2113ca303fe0ee20d3887d91d67e

def anchoredNextSignature : List Byte :=
  beBytes 32 0xf9308a019258c31049344f85f89d5229b531c845836f99b08601f113bce036f9 ++
    beBytes 32 0x5535f8e6752dbd6a5eea4480b92d2729c4558fe9752dd79334411208ee0db8db ++ [28]

/-- What a contract is sent by its owner, and then by anybody. -/
def anchoredTxs (owner : EthAddress) : List (EthAddress × Call) := [
  (owner, .setChainKey 1 (constBytes 32 1)), (owner, .addSigner anchoredSigner),
  (constBytes 20 9, .acceptAnchor anchoredAnchor anchoredSignature),
  (constBytes 20 9, .acceptAnchor anchoredNext anchoredNextSignature)]

open RegistryRun in
/-- Two contracts of different owners; the second was offered the anchors twice. -/
theorem getLastAnchorHash_commits_anchored :
    CollisionFree anchoredCrypto.keccak256 ((Anchor.zero ::
      ((runTransactions anchoredCrypto (constBytes 20 1)
          (anchoredTxs (constBytes 20 1))).history 1 ++
        (runTransactions anchoredCrypto (constBytes 20 2) (anchoredTxs (constBytes 20 2) ++
          anchoredTxs (constBytes 20 1))).history 1)).map hashInput) ∧
    (runTransactions anchoredCrypto (constBytes 20 1) (anchoredTxs (constBytes 20 1))).history 1 =
      [anchoredAnchor, anchoredNext] ∧
    (runTransactions anchoredCrypto (constBytes 20 1) (anchoredTxs (constBytes 20 1))).history 1 =
      (runTransactions anchoredCrypto (constBytes 20 2) (anchoredTxs (constBytes 20 2) ++
        anchoredTxs (constBytes 20 1))).history 1 := by
  have hcf : CollisionFree anchoredCrypto.keccak256 ((Anchor.zero ::
      ((runTransactions anchoredCrypto (constBytes 20 1)
          (anchoredTxs (constBytes 20 1))).history 1 ++
        (runTransactions anchoredCrypto (constBytes 20 2) (anchoredTxs (constBytes 20 2) ++
          anchoredTxs (constBytes 20 1))).history 1)).map hashInput) :=
    collisionFree_tableHash (by decide +kernel) (by decide +kernel)
  exact ⟨hcf, by decide +kernel, getLastAnchorHash_commits anchoredCrypto (constBytes 20 1)
    (constBytes 20 2) (anchoredTxs (constBytes 20 1)) _ 1 hcf (by decide +kernel)
    (by decide +kernel)⟩

end LTPAnchorRegistry

end SuwappuDb
