import SuwappuDb.AnchorParity

/-!
# Replayed anchors

What `parityCheck` says after entries of the logs have been replaced by other anchors of the same
dispatcher.

The check authenticates an anchor under the chain id and the height that the anchor carries, and
compares neither with the log and the index where it is found. So an old anchor passes for a new
one wherever the key is the same.

* `tamper` — replace the anchors at one height, on any chains.
* `Unforgeable` — all that is assumed of the MACs: what one chain's key has made does not verify
  under another key.
* `replayed_parity_iff` — the check can be brought to agree on another root exactly by replacing the
  entries of all chains, each by an anchor for the other root that was made with the chain's key.
-/

namespace SuwappuDb

/-- `__tamper_for_tests`: the credential stays. -/
def AnchorLog.tamperForTests (log : AnchorLog) (height : U64) (replacement : Anchor) : AnchorLog :=
  { log with
    entries := log.entries.modify height.val fun entry => { entry with anchor := replacement } }

theorem AnchorLog.entryAt_tamperForTests (log : AnchorLog) (height : U64) (replacement : Anchor) :
    (log.tamperForTests height replacement).entryAt height =
      (log.entryAt height).map fun entry => { entry with anchor := replacement } := by
  simp only [entryAt, tamperForTests, List.getElem?_modify, if_true]
  rfl

namespace AnchorDispatcher

variable {crypto : AnchorCrypto} {d : AnchorDispatcher}

/-- The logs with the entries at the height replaced on the chains that have a replacement. -/
def tamperedLogs (d : AnchorDispatcher) (height : U64) (replacement : ChainId → Option Anchor) :
    OrdMap ChainId AnchorLog :=
  d.logs.filterMap fun c log => some ((replacement c).elim log (log.tamperForTests height))

theorem get?_tamperedLogs (d : AnchorDispatcher) (height : U64)
    (replacement : ChainId → Option Anchor) (c : ChainId) :
    (d.tamperedLogs height replacement).get? c =
      (d.logs.get? c).map fun log => (replacement c).elim log (log.tamperForTests height) := by
  rw [tamperedLogs, OrdMap.get?_filterMap]
  cases d.logs.get? c <;> rfl

theorem matched_tamper (d : AnchorDispatcher) (height : U64) (replacement : ChainId → Option Anchor)
    (c : ChainId) :
    ((d.tamperedLogs height replacement).get? c).isSome = (d.configs.get? c).isSome := by
  rw [get?_tamperedLogs, Option.isSome_map, d.matched]

def tamper (d : AnchorDispatcher) (height : U64) (replacement : ChainId → Option Anchor) :
    AnchorDispatcher where
  logs := d.tamperedLogs height replacement
  configs := d.configs
  matched := d.matched_tamper height replacement

/-- The anchor of a chain for a height, if the dispatcher has made it. -/
def anchorOf (d : AnchorDispatcher) (p : ChainId × U64) : Option Anchor :=
  (d.logs.get? p.1).bind fun log => log.at p.2

/-- An entry in the log of one chain verifies under the config of another only if that is the same
config. -/
def Unforgeable (crypto : AnchorCrypto) (d : AnchorDispatcher) : Prop :=
  ∀ p ∈ d.configs.entries, ∀ q ∈ d.logs.entries, ∀ e ∈ q.2.entries,
    verifyEntryWithConfig crypto e p.2 = true → d.configs.get? q.1 = some p.2

instance (crypto : AnchorCrypto) (d : AnchorDispatcher) : Decidable (Unforgeable crypto d) :=
  inferInstanceAs (Decidable (∀ p ∈ _, ∀ q ∈ _, ∀ e ∈ _, _))

theorem verifyEntryWithConfig_mac {entry : AnchorEntry} {key : ByteArr 32} :
    verifyEntryWithConfig crypto entry (.blake3Mac key) = true ↔
      entry.credential = .blake3Mac ∧ entry.anchor.verifyMac crypto key = true := by
  rw [verifyEntryWithConfig_eq_true]
  unfold verifyCredential VerifierConfig.asExpectedFor
  cases hscheme : entry.anchor.authScheme <;> cases entry.credential <;>
    simp [Anchor.verifyMac, hscheme]

end AnchorDispatcher

open AnchorDispatcher

namespace Uniform

variable {crypto : AnchorCrypto} {d : AnchorDispatcher} {roots : List Commitment}

/-- What the dispatcher has made for a chain and a height. -/
theorem anchorOf_eq_some (h : Uniform crypto d roots) {p : ChainId × U64} {anchor : Anchor}
    (hanchor : d.anchorOf p = some anchor) :
    roots[p.2.val]? = some anchor.stateRoot ∧
      ∃ log, d.logs.get? p.1 = some log ∧ ⟨anchor, .blake3Mac⟩ ∈ log.entries := by
  obtain ⟨log, hlog, hat⟩ := Option.bind_eq_some_iff.1 hanchor
  obtain ⟨entry, hentry, rfl⟩ := Option.map_eq_some_iff.1 hat
  obtain ⟨config, hconfig⟩ := exists_config hlog
  obtain ⟨key, hkey⟩ := isMac_eq_true.1 (h.mac p.1 config hconfig)
  have hrecords := h.recorded.records p.1 log _ hlog hkey
  have hmem : entry ∈ log.entries := List.mem_of_getElem? hentry
  have hcredential := (verifyEntryWithConfig_mac.1 (hrecords.verified entry hmem)).1
  refine ⟨by rw [hrecords.getElem?_eq, hentry]; rfl, log, hlog, ?_⟩
  rwa [← hcredential]

theorem exists_anchorOf (h : Uniform crypto d roots) {p : ChainId × U64} {config : VerifierConfig}
    {r : Commitment} (hconfig : d.configs.get? p.1 = some config)
    (hroot : roots[p.2.val]? = some r) : ∃ anchor, d.anchorOf p = some anchor := by
  obtain ⟨log, hlog⟩ := exists_log hconfig
  rw [(h.recorded.records p.1 log config hlog hconfig).getElem?_eq,
    Option.map_eq_some_iff] at hroot
  obtain ⟨entry, hentry, -⟩ := hroot
  refine ⟨entry.anchor, ?_⟩
  rw [anchorOf, hlog, Option.bind_some, AnchorLog.at, hentry]
  rfl

/-- The entry at the height where the anchors are replaced. -/
theorem entryAt_tamper (h : Uniform crypto d roots) {height : U64} {rh : Commitment}
    (hroot : roots[height.val]? = some rh) (replacement : ChainId → Option Anchor) {c : ChainId}
    {log : AnchorLog} (hlog : (d.tamper height replacement).logs.get? c = some log) :
    ∃ anchor, d.anchorOf (c, height) = some anchor ∧
      log.entryAt height = some ⟨(replacement c).getD anchor, .blake3Mac⟩ := by
  rw [tamper, get?_tamperedLogs, Option.map_eq_some_iff] at hlog
  obtain ⟨log, hold, rfl⟩ := hlog
  obtain ⟨config, hconfig⟩ := exists_config hold
  obtain ⟨anchor, hanchor⟩ := @exists_anchorOf _ _ _ h (c, height) config rh hconfig hroot
  obtain ⟨key, hkey⟩ := isMac_eq_true.1 (h.mac c config hconfig)
  refine ⟨anchor, hanchor, ?_⟩
  rw [anchorOf, hold, Option.bind_some, AnchorLog.at, Option.map_eq_some_iff] at hanchor
  obtain ⟨⟨anchor, credential⟩, hentry, rfl⟩ := hanchor
  have hverified := (h.recorded.records c log _ hold hkey).verified _ (List.mem_of_getElem? hentry)
  obtain rfl : credential = .blake3Mac := (verifyEntryWithConfig_mac.1 hverified).1
  cases replacement c with
  | none => exact hentry
  | some other =>
      rw [Option.elim_some, AnchorLog.entryAt_tamperForTests, hentry]
      rfl

/-- The root that the check may be brought to agree on. Each chain's entry has to be replaced, by an
anchor for that root that was made with the chain's key. -/
theorem parityCheck_tamper_iff (h : Uniform crypto d roots) (hmac : Unforgeable crypto d)
    {height : U64} {rh : Commitment} (hroot : roots[height.val]? = some rh)
    (source : ChainId → Option (ChainId × U64)) {r : Commitment} (hne : r ≠ rh) :
    (d.tamper height fun c => (source c).bind d.anchorOf).parityCheck crypto height =
        some (.agreed r) ↔
      (∃ c, (d.configs.get? c).isSome) ∧ ∀ c config, d.configs.get? c = some config →
        ∃ c' height', source c = some (c', height') ∧ d.configs.get? c' = some config ∧
          roots[height'.val]? = some r := by
  rw [parityCheck_eq_agreed]
  refine and_congr (exists_congr fun c => by rw [AnchorDispatcher.matched]; rfl) ⟨?_, ?_⟩
  · intro hall c config hconfig
    obtain ⟨log, hlog⟩ := exists_log (show (d.tamper height _).configs.get? c = some config from
      hconfig)
    obtain ⟨anchor, hanchor, hentry⟩ := h.entryAt_tamper hroot _ hlog
    obtain ⟨e, config', he, hconfig', hverify, hstate⟩ := hall c log hlog
    obtain rfl := Option.some.inj (hconfig.symm.trans hconfig')
    obtain rfl := Option.some.inj (hentry.symm.trans he)
    cases hsource : (source c).bind d.anchorOf with
    | none =>
        -- The chain's own anchor is still there, and names the root that was dispatched.
        rw [hsource, Option.getD_none] at hstate
        have hown := (h.anchorOf_eq_some hanchor).1
        rw [hroot, hstate] at hown
        exact absurd (Option.some.inj hown).symm hne
    | some other =>
        rw [hsource, Option.getD_some] at hstate hverify
        obtain ⟨p, hp, hother⟩ := Option.bind_eq_some_iff.1 hsource
        obtain ⟨hroot', log', hlog', hmem⟩ := h.anchorOf_eq_some hother
        refine ⟨p.1, p.2, hp, ?_, by rw [hroot', hstate]⟩
        exact hmac (c, config) (OrdMap.mem_entries.2 hconfig) (p.1, log')
          (OrdMap.mem_entries.2 hlog') _ hmem hverify
  · intro hall c log hlog
    obtain ⟨config, hconfig⟩ := exists_config hlog
    obtain ⟨anchor, -, hentry⟩ := h.entryAt_tamper hroot _ hlog
    obtain ⟨c', height', hsource, hconfig', hroot'⟩ := hall c config hconfig
    obtain ⟨other, hother⟩ := @exists_anchorOf _ _ _ h (c', height') config r hconfig' hroot'
    obtain ⟨hstate, log', hlog', hmem⟩ := h.anchorOf_eq_some hother
    rw [hsource, Option.bind_some, hother, Option.getD_some] at hentry
    refine ⟨_, config, hentry, hconfig, ?_, Option.some.inj (hstate.symm.trans hroot')⟩
    exact (h.recorded.records c' log' config hlog' hconfig').verified _ hmem

end Uniform

/-- Without a chain there is nothing to write. -/
theorem uniform_runDispatches_nil (crypto : AnchorCrypto) (calls : List (U64 × Commitment)) :
    Uniform crypto (DispatchRun.runDispatches crypto {} calls).dispatcher
      (DispatchRun.runDispatches crypto {} calls).roots := by
  have hempty : ∀ roots, (calls.foldl (DispatchRun.step crypto) ⟨{}, roots⟩).dispatcher = {} := by
    induction calls with
    | nil => exact fun _ => rfl
    | cons call calls ih => exact fun roots => ih (roots ++ [call.2])
  rw [DispatchRun.runDispatches, hempty]
  refine ⟨fun c config hconfig => ?_, fun c log hlog => ?_, fun c log config hlog => ?_⟩
  · cases hconfig
  · cases hlog
  · cases hlog

/-- After any dispatches to chains with MACs, entries at one height are replaced, on any chains, by
anchors that the dispatcher has made for any chains and heights. The check still agrees on nothing
but the root that was dispatched for the height, unless the entries of all chains are replaced, by
anchors for one other root and each made with the key of the chain it is put on. -/
theorem replayed_parity_iff (crypto : AnchorCrypto) (keys : List (ChainId × ByteArr 32))
    (calls : List (U64 × Commitment)) {d : AnchorDispatcher} {roots : List Commitment}
    (hrun : DispatchRun.runDispatches crypto (registerKeys keys) calls = ⟨d, roots⟩)
    (hmac : Unforgeable crypto d) {height : U64} {rh : Commitment}
    (hroot : roots[height.val]? = some rh) (source : ChainId → Option (ChainId × U64)) :
    (∀ r, (d.tamper height fun c => (source c).bind d.anchorOf).parityCheck crypto height =
      some (.agreed r) → r = rh) ↔
    ¬ ∃ r, r ≠ rh ∧ (∃ c, (d.configs.get? c).isSome) ∧
      ∀ c config, d.configs.get? c = some config →
        ∃ c' height', source c = some (c', height') ∧ d.configs.get? c' = some config ∧
          roots[height'.val]? = some r := by
  have huniform : Uniform crypto d roots := by
    cases hkeys : keys with
    | nil =>
        have hempty := uniform_runDispatches_nil crypto calls
        rw [hkeys] at hrun
        rwa [show DispatchRun.runDispatches crypto {} calls = ⟨d, roots⟩ from hrun] at hempty
    | cons p rest =>
        obtain ⟨d', roots', hrun', huniform, -⟩ :=
          uniform_runDispatches crypto (hkeys ▸ List.cons_ne_nil p rest : keys ≠ []) calls
        cases hrun.symm.trans hrun'
        exact huniform
  constructor
  · rintro hdetected ⟨r, hne, hreplayed⟩
    exact hne (hdetected r ((huniform.parityCheck_tamper_iff hmac hroot source hne).2 hreplayed))
  · intro hnone r hagreed
    by_contra hne
    exact hnone ⟨r, hne, (huniform.parityCheck_tamper_iff hmac hroot source hne).1 hagreed⟩

/-! ## Two chains with different keys -/

/-- The dispatches that were made: one root for each of the heights `0` and `1`. -/
def replayCalls : List (U64 × Commitment) := [(0, digestOf 10), (1, digestOf 12)]

def replayKey (b : Byte) : ByteArr 32 := constBytes 32 b

def replayKeys : List (ChainId × ByteArr 32) := [(1, replayKey 1), (2, replayKey 2)]

/-- What the anchors of the two chains have in common: chain id, height, root and parent. -/
def replayMaterial (c height root parent : Nat) : List Byte :=
  beBytes 4 c ++ beBytes 8 height ++ beBytes 32 root ++ beBytes 32 parent

/-- BLAKE3 of the first anchor of each chain. -/
def replayHashes : List (List Byte × Commitment) := [
  (ascii "SUWAPPUDB-ANCHOR/HASH" ++ replayMaterial 1 0 10 0 ++
      beBytes 32 0x4b120c0932742b7bc156dfbfe424016e4517eb666461d0069ef1b168981d2d58,
    digestOf 0x96ca20770d18846f75a453d430e1257f165d6ea0b5ee6cb8dfa15fd78af447b8),
  (ascii "SUWAPPUDB-ANCHOR/HASH" ++ replayMaterial 2 0 10 0 ++
      beBytes 32 0x3707e117afccfd25b741c618b2b7d6a5dfbe379cc5a806c2c71aeeca05c49d06,
    digestOf 0x46dc7adc270745013b8ccc8828995f2f2dccdb30bbe233b6e628c201b6f82310)]

/-- Keyed BLAKE3 of a chain's material, under the first key and under the second. -/
def replayMacs : List (List Byte × Nat × Nat) := [
  (replayMaterial 1 0 10 0,
    0x4b120c0932742b7bc156dfbfe424016e4517eb666461d0069ef1b168981d2d58,
    0x4fe926ef5854084087540f3db6d3bfe5ca553959406225f242d6248009e9524f),
  (replayMaterial 1 1 12 0x96ca20770d18846f75a453d430e1257f165d6ea0b5ee6cb8dfa15fd78af447b8,
    0xd3b63596704446961a0010de848bb75ce0c51aac996717dae4f477d45f76812f,
    0x035ec51f1db8853771898a7f93d20049c1e1345183f826c31aece6534f0567c6),
  (replayMaterial 2 0 10 0,
    0x242b1ffc05d6c5433ef3b7e108b5227f4597e130f0b2abcd17ca81eff54d3dcc,
    0x3707e117afccfd25b741c618b2b7d6a5dfbe379cc5a806c2c71aeeca05c49d06),
  (replayMaterial 2 1 12 0x46dc7adc270745013b8ccc8828995f2f2dccdb30bbe233b6e628c201b6f82310,
    0xf942e2e929f28d956c0574fb39b6b420d0db386000e403f466828a597279a0a0,
    0xb650cc50222523a747411532e026073c96096aadeb66399930a3f18a640965ef)]

/-- The functions on these inputs. -/
def replayCrypto : AnchorCrypto where
  blake3 := tableHash replayHashes
  keyedBlake3 key input := tableHash
    (replayMacs.map fun p => (ascii "SUWAPPUDB-ANCHOR/MAC" ++ p.1,
      digestOf (if key = replayKey 1 then p.2.1 else p.2.2))) input
  keccak256 := tableHash []
  recover _ _ _ _ := none
  recover_eq_none _ _ _ _ _ := rfl
  mldsa65 := none

def replayRun : DispatchRun :=
  DispatchRun.runDispatches replayCrypto (registerKeys replayKeys) replayCalls

theorem DispatchRun.eta (run : DispatchRun) : run = ⟨run.dispatcher, run.roots⟩ := rfl

theorem roots_replayRun : replayRun.roots = [digestOf 10, digestOf 12] := by decide +kernel

theorem unforgeable_replayRun : Unforgeable replayCrypto replayRun.dispatcher := by decide +kernel

/-- Only the first chain's entry is replaced: the second chain still names the right root. -/
def replayFirst (c : ChainId) : Option (ChainId × U64) := if c = 1 then some (1, 0) else none

theorem not_replayFirst : ¬ ∃ r, r ≠ digestOf 12 ∧
    (∃ c, (replayRun.dispatcher.configs.get? c).isSome) ∧
    ∀ c config, replayRun.dispatcher.configs.get? c = some config →
      ∃ c' height', replayFirst c = some (c', height') ∧
        replayRun.dispatcher.configs.get? c' = some config ∧
        replayRun.roots[height'.val]? = some r := by
  rintro ⟨r, -, -, hall⟩
  obtain ⟨c', height', hsource, -⟩ := hall 2 (.blake3Mac (replayKey 2)) (by decide +kernel)
  cases hsource

theorem replayed_parity_first :
    (Unforgeable replayCrypto replayRun.dispatcher ∧
      replayRun.roots[(1 : U64).val]? = some (digestOf 12)) ∧
    ∀ r, (replayRun.dispatcher.tamper 1 fun c =>
        (replayFirst c).bind replayRun.dispatcher.anchorOf).parityCheck replayCrypto 1 =
      some (.agreed r) → r = digestOf 12 := by
  have hroot : replayRun.roots[(1 : U64).val]? = some (digestOf 12) := by rw [roots_replayRun]; rfl
  exact ⟨⟨unforgeable_replayRun, hroot⟩, (replayed_parity_iff replayCrypto replayKeys replayCalls
    replayRun.eta unforgeable_replayRun hroot replayFirst).2 not_replayFirst⟩

/-- Each chain's entry at height `1` is replaced by its own entry at height `0`. The check agrees on
the old root. -/
theorem replayed_parity_stale :
    Unforgeable replayCrypto replayRun.dispatcher ∧
    replayRun.roots = [digestOf 10, digestOf 12] ∧
    (replayRun.dispatcher.tamper 1 fun c => replayRun.dispatcher.anchorOf (c, 0)).parityCheck
      replayCrypto 1 = some (.agreed (digestOf 10)) ∧
    digestOf 10 ≠ digestOf 12 :=
  ⟨unforgeable_replayRun, roots_replayRun, by decide +kernel, by decide +kernel⟩

end SuwappuDb
