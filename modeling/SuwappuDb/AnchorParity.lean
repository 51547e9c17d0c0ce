import Mathlib.Data.List.TakeWhile
import SuwappuDb.AnchorDispatcher
import SuwappuDb.StateTreeProof

/-!
# Cross-chain parity

What `parityCheck` says after the writes of a dispatcher.

* `Recorded` — each chain's log is well formed, verifies under the chain's config and names a given
  list of roots. One accepted append is one more root of one chain (`Recorded.update`), and what the
  check says then is a matter of the lists of roots alone (`Recorded.parityCheck_iff`).
* `Written` — a dispatcher after one append to each of some chains.
* `dispatch_parity` — chains that are all authenticated by MACs have the same list of roots, the
  roots of the dispatches that succeeded.
-/

namespace SuwappuDb

/-! ## What the logs record -/

open AnchorDispatcher

section Records

variable {crypto : AnchorCrypto} {config : VerifierConfig} {roots : List Commitment}
  {log : AnchorLog} {entry : AnchorEntry}

theorem scheme_eq_of_verified {anchor : Anchor} {credential : AnchorAuthCredential}
    (h : verifyCredential crypto anchor credential (config.asExpectedFor anchor) = .ok ()) :
    config.scheme = anchor.authScheme := by
  cases config <;> cases hscheme : anchor.authScheme <;> cases credential <;>
    simp_all [verifyCredential, VerifierConfig.asExpectedFor, VerifierConfig.scheme]

theorem verifyEntryWithConfig_eq_true :
    verifyEntryWithConfig crypto entry config = true ↔
      verifyCredential crypto entry.anchor entry.credential (config.asExpectedFor entry.anchor) =
        .ok () := by
  unfold verifyEntryWithConfig
  split_ifs with hscheme
  · simp only [false_iff]
    exact fun h => hscheme (scheme_eq_of_verified h)
  · split <;> simp_all

/-- The log is well formed, its entries verify under the config, and they name these roots. -/
structure Records (crypto : AnchorCrypto) (config : VerifierConfig) (roots : List Commitment)
    (log : AnchorLog) : Prop where
  wellFormed : log.WellFormed crypto
  verified : ∀ e ∈ log.entries, verifyEntryWithConfig crypto e config = true
  roots : (log.entries.map fun e => e.anchor.stateRoot) = roots

theorem records_new (crypto : AnchorCrypto) (config : VerifierConfig) (c : ChainId) :
    Records crypto config [] (AnchorLog.new c) where
  wellFormed := AnchorLog.wellFormed_new crypto c
  verified := by simp [AnchorLog.new]
  roots := rfl

namespace Records

theorem length_eq (h : Records crypto config roots log) : log.entries.length = roots.length := by
  rw [← h.roots, List.length_map]

/-- There are only so many heights. -/
theorem length_le (h : Records crypto config roots log) : roots.length ≤ 2 ^ 64 := by
  by_contra hlt
  rw [← h.length_eq, not_le] at hlt
  have hheight := h.wellFormed.dense _ _ (List.getElem?_eq_getElem hlt)
  exact absurd (log.entries[2 ^ 64].anchor.height.isLt) (by omega)

theorem push (h : Records crypto config roots log) (haccepts : log.Accepts crypto entry config) :
    Records crypto config (roots ++ [entry.anchor.stateRoot]) (log.push entry) where
  wellFormed := h.wellFormed.push haccepts
  verified e he := by
    rcases List.mem_append.1 he with hmem | hmem
    · exact h.verified e hmem
    · rw [List.mem_singleton.1 hmem]
      exact verifyEntryWithConfig_eq_true.2 haccepts.verified
  roots := by
    rw [AnchorLog.push, List.map_append, h.roots]
    rfl

/-- The entry at an index names the root at that index. -/
theorem getElem?_eq (h : Records crypto config roots log) (height : U64) :
    roots[height.val]? = (log.entryAt height).map fun e => e.anchor.stateRoot := by
  rw [← h.roots, List.getElem?_map]
  rfl

end Records

end Records

/-- Each chain's log records the chain's roots. -/
structure Recorded (crypto : AnchorCrypto) (d : AnchorDispatcher)
    (rootsOf : ChainId → List Commitment) : Prop where
  chainId : ∀ c log, d.logs.get? c = some log → log.chainId = c
  records : ∀ c log config, d.logs.get? c = some log → d.configs.get? c = some config →
    Records crypto config (rootsOf c) log

namespace AnchorDispatcher

variable {crypto : AnchorCrypto} {d d' : AnchorDispatcher} {c : ChainId} {log : AnchorLog}

theorem exists_config (hlog : d.logs.get? c = some log) :
    ∃ config, d.configs.get? c = some config := by
  have hmatched := d.matched c
  rw [hlog] at hmatched
  exact Option.isSome_iff_exists.1 hmatched.symm

theorem exists_log {config : VerifierConfig} (hconfig : d.configs.get? c = some config) :
    ∃ log, d.logs.get? c = some log := by
  have hmatched := d.matched c
  rw [hconfig] at hmatched
  exact Option.isSome_iff_exists.1 hmatched

theorem get?_updateLog (d : AnchorDispatcher) (c : ChainId) (log : AnchorLog) (c' : ChainId) :
    (d.updateLog c log).logs.get? c' =
      if c' = c then (d.logs.get? c').map fun _ => log else d.logs.get? c' :=
  OrdMap.get?_modify d.logs c c' _

theorem ext_maps (hlogs : d.logs = d'.logs) (hconfigs : d.configs = d'.configs) : d = d' := by
  cases d
  cases d'
  cases hlogs
  cases hconfigs
  rfl

theorem updateLog_self (hlog : d.logs.get? c = some log) : d.updateLog c log = d := by
  refine ext_maps (OrdMap.ext_get? fun c' => ?_) rfl
  rw [get?_updateLog]
  split_ifs with hc
  · rw [hc, hlog]
    rfl
  · rfl

end AnchorDispatcher

namespace Recorded

variable {crypto : AnchorCrypto} {d : AnchorDispatcher} {rootsOf : ChainId → List Commitment}
  {c : ChainId} {log : AnchorLog} {config : VerifierConfig} {entry : AnchorEntry}

/-- The check agrees on what all chains record. -/
theorem parityCheck_iff (h : Recorded crypto d rootsOf) {height : U64} {r : Commitment} :
    d.parityCheck crypto height = some (.agreed r) ↔
      (∃ c, (d.logs.get? c).isSome) ∧
        ∀ c, (d.logs.get? c).isSome → (rootsOf c)[height.val]? = some r := by
  rw [parityCheck_eq_agreed]
  refine and_congr Iff.rfl ⟨fun hall c hc => ?_, fun hall c log hlog => ?_⟩
  · obtain ⟨log, hlog⟩ := Option.isSome_iff_exists.1 hc
    obtain ⟨e, config, he, hconfig, -, hroot⟩ := hall c log hlog
    rw [(h.records c log config hlog hconfig).getElem?_eq, he, Option.map_some, hroot]
  · obtain ⟨config, hconfig⟩ := exists_config hlog
    have hrecords := h.records c log config hlog hconfig
    have hget := hall c (by rw [hlog]; rfl)
    rw [hrecords.getElem?_eq, Option.map_eq_some_iff] at hget
    obtain ⟨e, he, hroot⟩ := hget
    exact ⟨e, config, he, hconfig, hrecords.verified e (List.mem_of_getElem? he), hroot⟩

/-- An accepted entry is one more root of its chain. -/
theorem update (h : Recorded crypto d rootsOf) (hlog : d.logs.get? c = some log)
    (hconfig : d.configs.get? c = some config) (haccepts : log.Accepts crypto entry config) :
    Recorded crypto (d.updateLog c (log.push entry))
      (Function.update rootsOf c (rootsOf c ++ [entry.anchor.stateRoot])) where
  chainId c' log' hlog' := by
    rw [get?_updateLog] at hlog'
    split_ifs at hlog' with hc
    · subst hc
      rw [hlog] at hlog'
      cases hlog'
      exact h.chainId c' log hlog
    · exact h.chainId c' log' hlog'
  records c' log' config' hlog' hconfig' := by
    rw [get?_updateLog] at hlog'
    split_ifs at hlog' with hc
    · subst hc
      rw [hlog] at hlog'
      cases hlog'
      obtain rfl := Option.some.inj (hconfig.symm.trans hconfig')
      rw [Function.update_self]
      exact (h.records c' log config hlog hconfig).push haccepts
    · rw [Function.update_of_ne hc]
      exact h.records c' log' config' hlog' hconfig'

/-- What is said about chains that are not registered does not matter. -/
theorem congr (h : Recorded crypto d rootsOf) {rootsOf' : ChainId → List Commitment}
    (heq : ∀ c, (d.logs.get? c).isSome → rootsOf c = rootsOf' c) :
    Recorded crypto d rootsOf' where
  chainId := h.chainId
  records c log config hlog hconfig := by
    rw [← heq c (by rw [hlog]; rfl)]
    exact h.records c log config hlog hconfig

/-- A chain whose log has the length of the height accepts an authentic anchor for its tip. -/
theorem accepts (h : Recorded crypto d rootsOf) (hlog : d.logs.get? c = some log)
    (hconfig : d.configs.get? c = some config) (hchain : entry.anchor.chainId = c)
    (hparent : entry.anchor.parent = log.tip crypto)
    (hheight : entry.anchor.height.val = (rootsOf c).length)
    (hverify : verifyCredential crypto entry.anchor entry.credential
      (config.asExpectedFor entry.anchor) = .ok ()) :
    log.Accepts crypto entry config where
  chainId := hchain.trans (h.chainId c log hlog).symm
  parent := hparent
  height := by
    have hrecords := h.records c log config hlog hconfig
    rw [AnchorLog.isNext_iff hrecords.wellFormed.dense, hrecords.length_eq, hheight]
  verified := hverify

end Recorded

/-- From `d` to `d'` each of the chains, and no other, got one entry with the root. -/
structure Written (crypto : AnchorCrypto) (root : Commitment) (chains : List ChainId)
    (rootsOf : ChainId → List Commitment) (d d' : AnchorDispatcher) : Prop where
  configs : d'.configs = d.configs
  others : ∀ c ∉ chains, d'.logs.get? c = d.logs.get? c
  pushed : ∀ c ∈ chains, ∀ log, d.logs.get? c = some log →
    ∃ entry, d'.logs.get? c = some (log.push entry)
  recorded : Recorded crypto d' fun c => if c ∈ chains then rootsOf c ++ [root] else rootsOf c

namespace Written

variable {crypto : AnchorCrypto} {root : Commitment} {chains : List ChainId}
  {rootsOf : ChainId → List Commitment} {d d' : AnchorDispatcher}

theorem nil (h : Recorded crypto d rootsOf) : Written crypto root [] rootsOf d d where
  configs := rfl
  others _ _ := rfl
  pushed := by simp
  recorded := by simpa using h

/-- One chain first. -/
theorem cons {c : ChainId} {log : AnchorLog} {entry : AnchorEntry} (hc : c ∉ chains)
    (hlog : d.logs.get? c = some log)
    (h : Written crypto root chains (Function.update rootsOf c (rootsOf c ++ [root]))
      (d.updateLog c (log.push entry)) d') :
    Written crypto root (c :: chains) rootsOf d d' where
  configs := h.configs
  others c' hc' := by
    rw [List.mem_cons, not_or] at hc'
    rw [h.others c' hc'.2, get?_updateLog, if_neg hc'.1]
  pushed c' hc' log' hlog' := by
    rcases List.mem_cons.1 hc' with rfl | hmem
    · obtain rfl := Option.some.inj (hlog.symm.trans hlog')
      refine ⟨entry, ?_⟩
      rw [h.others c' hc, get?_updateLog, if_pos rfl, hlog]
      rfl
    · have hne : c' ≠ c := fun heq => hc (heq ▸ hmem)
      exact h.pushed c' hmem log' (by rw [get?_updateLog, if_neg hne, hlog'])
  recorded := by
    convert h.recorded using 2 with c'
    by_cases heq : c' = c
    · subst heq
      simp [hc]
    · simp [heq]

end Written

/-! ## The loop of `dispatch` -/

theorem Anchor.verifyMac_new (crypto : AnchorCrypto) (c : ChainId) (height : U64)
    (root : Commitment) (parent : AnchorHash) (key : ByteArr 32) :
    (Anchor.new crypto c height root parent key).verifyMac crypto key = true := by
  simp [Anchor.verifyMac, Anchor.new]

namespace AnchorDispatcher

variable {crypto : AnchorCrypto} {d : AnchorDispatcher}

/-- The chain is authenticated by a MAC. -/
def isMac (d : AnchorDispatcher) (c : ChainId) : Bool :=
  match d.configs.get? c with
  | some (.blake3Mac _) => true
  | _ => false

theorem isMac_eq_true {c : ChainId} :
    d.isMac c = true ↔ ∃ key, d.configs.get? c = some (.blake3Mac key) := by
  unfold isMac
  split
  · next key h => simp [h]
  · next hne =>
      simp only [Bool.false_eq_true, false_iff]
      rintro ⟨key, h⟩
      exact hne key h

/-- The anchor that `dispatch` makes for a chain, with its credential. -/
def macEntry (crypto : AnchorCrypto) (c : ChainId) (height : U64) (root : Commitment)
    (log : AnchorLog) (key : ByteArr 32) : AnchorEntry :=
  ⟨Anchor.new crypto c height root (log.tip crypto) key, .blake3Mac⟩

/-- One turn of the loop, at a chain with a MAC. -/
theorem dispatchLoop_mac {rootsOf : ChainId → List Commitment} (hrec : Recorded crypto d rootsOf)
    {c : ChainId} {log : AnchorLog} {key : ByteArr 32} (hlog : d.logs.get? c = some log)
    (hconfig : d.configs.get? c = some (.blake3Mac key)) (height : U64) (root : Commitment)
    (rest : List ChainId) (out : List Anchor) :
    dispatchLoop crypto height root (c :: rest) d out =
      if h : (rootsOf c).length < 2 ^ 64 then
        if height.val = (rootsOf c).length then
          dispatchLoop crypto height root rest
            (d.updateLog c (log.push (macEntry crypto c height root log key)))
            (out ++ [(macEntry crypto c height root log key).anchor])
        else (d, some (.error (c, .heightGap ⟨(rootsOf c).length, h⟩ height)))
      else (d, none) := by
  have hrecords := hrec.records c log _ hlog hconfig
  have happend := @AnchorLog.append_of_dense crypto log
    (macEntry crypto c height root log key).anchor key hrecords.wellFormed.dense
    (hrec.chainId c log hlog).symm rfl rfl
    (Anchor.verifyMac_new crypto c height root (log.tip crypto) key)
  rw [dispatchLoop, hconfig, hlog]
  dsimp only
  rw [AnchorLog.hash_latest]
  simp only [hrecords.length_eq, macEntry, Anchor.new] at happend ⊢
  by_cases h : (rootsOf c).length < 2 ^ 64
  · by_cases hheight : height.val = (rootsOf c).length
    · rw [dif_pos h, if_pos hheight] at happend ⊢
      rw [happend]
    · rw [dif_pos h, if_neg hheight] at happend ⊢
      rw [happend]
      dsimp only
      rw [updateLog_self hlog]
  · rw [dif_neg h] at happend ⊢
    rw [happend]

/-- The chain's entry of `macEntry` is accepted. -/
theorem accepts_macEntry {rootsOf : ChainId → List Commitment} (hrec : Recorded crypto d rootsOf)
    {c : ChainId} {log : AnchorLog} {key : ByteArr 32} (hlog : d.logs.get? c = some log)
    (hconfig : d.configs.get? c = some (.blake3Mac key)) {height : U64}
    (hheight : height.val = (rootsOf c).length) (root : Commitment) :
    log.Accepts crypto (macEntry crypto c height root log key) (.blake3Mac key) :=
  hrec.accepts hlog hconfig rfl rfl hheight
    (if_pos (Anchor.verifyMac_new crypto c height root (log.tip crypto) key))

/-- The turn of a chain that has no MAC ends the loop. -/
theorem dispatchLoop_other {d : AnchorDispatcher} {c : ChainId} {log : AnchorLog}
    (hlog : d.logs.get? c = some log) (hmac : d.isMac c = false) (height : U64)
    (root : Commitment) (ids : List ChainId) (out : List Anchor) :
    dispatchLoop crypto height root (c :: ids) d out =
      (d, some (.error (c, .schemeRequiresSigner))) := by
  obtain ⟨config, hconfig⟩ := exists_config hlog
  rw [dispatchLoop, hconfig, hlog]
  cases config with
  | blake3Mac key => simp [isMac, hconfig] at hmac
  | ecdsaSecp256k1 signer => rfl
  | mlDsa65Hybrid signer mldsaPublicKey => rfl
  | sp1ZkProof vkeyHash expectedPrevStateRoot expectedBlockHash => rfl

/-- The anchors are of the chains `ids`, and each was pushed to the log of its chain. -/
structure Appended (ids : List ChainId) (anchors : List Anchor) (d d' : AnchorDispatcher) :
    Prop where
  chains : anchors.map Anchor.chainId = ids
  pushed : ∀ anchor ∈ anchors, ∀ log, d.logs.get? anchor.chainId = some log →
    d'.logs.get? anchor.chainId = some (log.push ⟨anchor, .blake3Mac⟩)

/-- One more anchor, pushed before the others. -/
theorem Appended.cons {c : ChainId} {ids : List ChainId} (hc : c ∉ ids) {anchor : Anchor}
    (hchain : anchor.chainId = c) {anchors : List Anchor} {d d' : AnchorDispatcher}
    {log : AnchorLog} (hlog : d.logs.get? c = some log)
    (hfirst : d'.logs.get? c = some (log.push ⟨anchor, .blake3Mac⟩))
    (h : Appended ids anchors (d.updateLog c (log.push ⟨anchor, .blake3Mac⟩)) d') :
    Appended (c :: ids) (anchor :: anchors) d d' where
  chains := by rw [List.map_cons, hchain, h.chains]
  pushed a ha log' hlog' := by
    rcases List.mem_cons.1 ha with rfl | ha
    · rw [hchain] at hlog' ⊢
      obtain rfl := Option.some.inj (hlog.symm.trans hlog')
      exact hfirst
    · have hmem : a.chainId ∈ ids := h.chains ▸ List.mem_map_of_mem ha
      have hne : a.chainId ≠ c := fun heq => hc (heq ▸ hmem)
      exact h.pushed a ha log' (by rw [get?_updateLog, if_neg hne, hlog'])

/-- The loop writes the chains up to the first that has no MAC, if their logs have the length of the
height. If all have one, it returns what it has written. -/
theorem dispatchLoop_spec (height : U64) (root : Commitment) (ids : List ChainId)
    (d : AnchorDispatcher) (out : List Anchor) (rootsOf : ChainId → List Commitment)
    (hnodup : ids.Nodup) (hregistered : ∀ c ∈ ids, (d.logs.get? c).isSome)
    (hrec : Recorded crypto d rootsOf)
    (hheight : ∀ c ∈ ids.takeWhile d.isMac, height.val = (rootsOf c).length) :
    ∃ d' result, dispatchLoop crypto height root ids d out = (d', some result) ∧
      Written crypto root (ids.takeWhile d.isMac) rootsOf d d' ∧
      (ids.all d.isMac → ∃ anchors, result = .ok (out ++ anchors) ∧ Appended ids anchors d d') := by
  induction ids generalizing d out rootsOf with
  | nil =>
      exact ⟨d, .ok out, rfl, .nil hrec, fun _ => ⟨[], by rw [List.append_nil], rfl, by simp⟩⟩
  | cons c ids ih =>
      obtain ⟨hc, hnodup⟩ := List.nodup_cons.1 hnodup
      obtain ⟨log, hlog⟩ := Option.isSome_iff_exists.1 (hregistered c List.mem_cons_self)
      cases hmac : d.isMac c with
      | false =>
          -- The loop ends here, with nothing written.
          refine ⟨d, _, dispatchLoop_other hlog hmac height root ids out, ?_, by simp [hmac]⟩
          rw [List.takeWhile_cons, if_neg (by simp [hmac])]
          exact .nil hrec
      | true =>
          obtain ⟨key, hconfig⟩ := isMac_eq_true.1 hmac
          rw [List.takeWhile_cons, if_pos hmac] at hheight ⊢
          have hnext := hheight c List.mem_cons_self
          have hne : ∀ c' ∈ ids, c' ≠ c := fun c' hc' heq => hc (heq ▸ hc')
          obtain ⟨d', result, hloop, hwritten, hok⟩ := ih
            (d.updateLog c (log.push (macEntry crypto c height root log key)))
            (out ++ [(macEntry crypto c height root log key).anchor])
            (Function.update rootsOf c (rootsOf c ++ [root])) hnodup
            (fun c' hc' => by
              rw [get?_updateLog, if_neg (hne c' hc')]
              exact hregistered c' (List.mem_cons_of_mem c hc'))
            (hrec.update hlog hconfig (accepts_macEntry hrec hlog hconfig hnext root))
            (fun c' hc' => by
              rw [Function.update_of_ne (hne c' (List.takeWhile_subset _ hc'))]
              exact hheight c' (List.mem_cons_of_mem c hc'))
          have hturn := dispatchLoop_mac hrec hlog hconfig height root ids out
          rw [dif_pos (hnext ▸ height.isLt), if_pos hnext] at hturn
          have hskipped : c ∉ ids.takeWhile d.isMac := fun h => hc (List.takeWhile_subset _ h)
          refine ⟨d', result, hturn.trans hloop, .cons hskipped hlog hwritten, fun hall => ?_⟩
          rw [List.all_cons, Bool.and_eq_true] at hall
          obtain ⟨anchors, rfl, happended⟩ := hok hall.2
          refine ⟨(macEntry crypto c height root log key).anchor :: anchors,
            by rw [List.append_assoc, List.singleton_append], .cons hc rfl hlog ?_ happended⟩
          rw [hwritten.others c hskipped, get?_updateLog, if_pos rfl, hlog]
          rfl

end AnchorDispatcher

/-! ## Registered chains -/

/-- Register chains, one after another. -/
def registerConfigs (regs : List (ChainId × VerifierConfig)) : AnchorDispatcher :=
  regs.foldl (fun d p => d.registerWithConfig p.1 p.2) {}

/-- Register chains with MAC keys. -/
def registerKeys (keys : List (ChainId × ByteArr 32)) : AnchorDispatcher :=
  keys.foldl (fun d p => d.register p.1 p.2) {}

theorem registerKeys_eq (keys : List (ChainId × ByteArr 32)) :
    registerKeys keys = registerConfigs (keys.map fun p => (p.1, .blake3Mac p.2)) := by
  rw [registerConfigs, List.foldl_map]
  rfl

/-- The registered chains, with empty logs. -/
structure Registered (regs : List (ChainId × VerifierConfig)) (d : AnchorDispatcher) : Prop where
  fresh : ∀ c log, d.logs.get? c = some log → log = AnchorLog.new c
  mem : ∀ c config, d.configs.get? c = some config → (c, config) ∈ regs
  isSome : ∀ c ∈ regs.map Prod.fst, (d.logs.get? c).isSome

theorem registered_registerConfigs (regs : List (ChainId × VerifierConfig)) :
    Registered regs (registerConfigs regs) := by
  induction regs using List.reverseRecOn with
  | nil =>
      refine ⟨fun c log h => ?_, fun c config h => ?_, fun c h => ?_⟩
      · cases h
      · cases h
      · cases h
  | append_singleton regs p ih =>
      obtain ⟨c, config⟩ := p
      have hstep : registerConfigs (regs ++ [(c, config)]) =
          (registerConfigs regs).registerWithConfig c config := by
        rw [registerConfigs, List.foldl_append]
        rfl
      rw [hstep]
      refine ⟨fun c' log hlog => ?_, fun c' config' hconfig => ?_, fun c' hc' => ?_⟩
      · rcases log_registerWithConfig hlog with hnew | hold
        · exact hnew
        · exact ih.fresh c' log hold
      · rw [registerWithConfig, OrdMap.get?_insert] at hconfig
        split_ifs at hconfig with heq
        · rw [heq, Option.some.inj hconfig]
          exact List.mem_append_right _ List.mem_cons_self
        · exact List.mem_append_left _ (ih.mem c' config' hconfig)
      · rw [registerWithConfig, get?_logsWith]
        split_ifs with heq
        · rfl
        · rw [List.map_append, List.mem_append] at hc'
          rcases hc' with hold | hnew
          · exact ih.isSome c' hold
          · exact absurd (List.mem_singleton.1 hnew) heq

theorem Registered.recorded {regs : List (ChainId × VerifierConfig)} {d : AnchorDispatcher}
    (h : Registered regs d) (crypto : AnchorCrypto) : Recorded crypto d fun _ => [] where
  chainId c log hlog := by rw [h.fresh c log hlog]; rfl
  records c log config hlog _ := by
    rw [h.fresh c log hlog]
    exact records_new crypto config c

/-! ## Chains with MACs -/

/-- A dispatcher with the roots of the dispatches that succeeded. -/
structure DispatchRun where
  dispatcher : AnchorDispatcher
  roots : List Commitment

namespace DispatchRun

variable (crypto : AnchorCrypto)

def step (run : DispatchRun) (call : U64 × Commitment) : DispatchRun :=
  match run.dispatcher.dispatch crypto call.1 call.2 with
  | (d, some (.ok _)) => ⟨d, run.roots ++ [call.2]⟩
  | (d, _) => ⟨d, run.roots⟩

/-- Any calls of `dispatch`. -/
def runDispatches (d : AnchorDispatcher) (calls : List (U64 × Commitment)) : DispatchRun :=
  calls.foldl (step crypto) ⟨d, []⟩

end DispatchRun

/-- All chains have MACs and record the same roots. -/
structure Uniform (crypto : AnchorCrypto) (d : AnchorDispatcher) (roots : List Commitment) :
    Prop where
  mac : ∀ c config, d.configs.get? c = some config → d.isMac c = true
  recorded : Recorded crypto d fun _ => roots

namespace Uniform

variable {crypto : AnchorCrypto} {d : AnchorDispatcher} {roots : List Commitment}

theorem isMac (h : Uniform crypto d roots) {c : ChainId} (hc : (d.logs.get? c).isSome) :
    d.isMac c = true := by
  obtain ⟨log, hlog⟩ := Option.isSome_iff_exists.1 hc
  obtain ⟨config, hconfig⟩ := exists_config hlog
  exact h.mac c config hconfig

/-- A dispatch at the next height writes all chains. -/
theorem dispatch_next (h : Uniform crypto d roots) {height : U64} (root : Commitment)
    (hheight : height.val = roots.length) :
    ∃ d' anchors, d.dispatch crypto height root = (d', some (.ok anchors)) ∧
      Appended (d.logs.entries.map Prod.fst) anchors d d' ∧
      (∀ c, (d'.logs.get? c).isSome = (d.logs.get? c).isSome) ∧
      Uniform crypto d' (roots ++ [root]) := by
  have hids := fun c => @OrdMap.mem_keys _ _ _ d.logs c
  have hall : ∀ c ∈ d.logs.entries.map Prod.fst, d.isMac c = true := fun c hc =>
    h.isMac ((hids c).1 hc)
  obtain ⟨d', result, hloop, hwritten, hok⟩ := dispatchLoop_spec height root
    (d.logs.entries.map Prod.fst) d [] (fun _ => roots) d.logs.sorted.nodup_keys
    (fun c hc => (hids c).1 hc) h.recorded (fun _ _ => hheight)
  obtain ⟨anchors, rfl, happended⟩ := hok (List.all_eq_true.2 hall)
  rw [List.takeWhile_eq_self_iff.2 hall] at hwritten
  refine ⟨d', anchors, hloop, happended, fun c => ?_, ?_, ?_⟩
  · rw [d'.matched, d.matched, hwritten.configs]
  · intro c config hconfig
    rw [hwritten.configs] at hconfig
    rw [AnchorDispatcher.isMac, hwritten.configs]
    exact h.mac c config hconfig
  · refine hwritten.recorded.congr fun c hc => if_pos ?_
    rwa [hids, d.matched, ← hwritten.configs, ← d'.matched]

/-- A dispatch at another height stops at the first chain, before it has written anything. -/
theorem dispatch_cases (h : Uniform crypto d roots) (hne : ∃ c, (d.logs.get? c).isSome)
    (height : U64) (root : Commitment) :
    (∃ d' anchors, height.val = roots.length ∧
      d.dispatch crypto height root = (d', some (.ok anchors)) ∧
      Appended (d.logs.entries.map Prod.fst) anchors d d' ∧
      (∀ c, (d'.logs.get? c).isSome = (d.logs.get? c).isSome) ∧
      Uniform crypto d' (roots ++ [root])) ∨
    (height.val ≠ roots.length ∧ ∃ e, d.dispatch crypto height root = (d, some (.error e))) ∨
    (d.dispatch crypto height root = (d, none) ∧ roots.length = 2 ^ 64) := by
  by_cases hheight : height.val = roots.length
  · obtain ⟨d', anchors, hnext⟩ := h.dispatch_next root hheight
    exact Or.inl ⟨d', anchors, hheight, hnext⟩
  · have hids := fun c => @OrdMap.mem_keys _ _ _ d.logs c
    obtain ⟨c, hc⟩ := hne
    unfold AnchorDispatcher.dispatch
    cases hkeys : d.logs.entries.map Prod.fst with
    | nil =>
        rw [← hids, hkeys] at hc
        cases hc
    | cons first rest =>
        have hfirst := (hids first).1 (by rw [hkeys]; exact List.mem_cons_self)
        obtain ⟨log, hlog⟩ := Option.isSome_iff_exists.1 hfirst
        obtain ⟨key, hconfig⟩ := isMac_eq_true.1 (h.isMac hfirst)
        have hturn := dispatchLoop_mac h.recorded hlog hconfig height root rest []
        by_cases hlt : roots.length < 2 ^ 64
        · rw [dif_pos hlt, if_neg hheight] at hturn
          exact Or.inr (Or.inl ⟨hheight, _, hturn⟩)
        · rw [dif_neg hlt] at hturn
          have hle := (h.recorded.records first log _ hlog hconfig).length_le
          exact Or.inr (Or.inr ⟨hturn, le_antisymm hle (not_lt.1 hlt)⟩)

theorem step (h : Uniform crypto d roots) (hne : ∃ c, (d.logs.get? c).isSome)
    (call : U64 × Commitment) :
    Uniform crypto ((⟨d, roots⟩ : DispatchRun).step crypto call).dispatcher
      ((⟨d, roots⟩ : DispatchRun).step crypto call).roots ∧
    ∀ c, (((⟨d, roots⟩ : DispatchRun).step crypto call).dispatcher.logs.get? c).isSome =
      (d.logs.get? c).isSome := by
  unfold DispatchRun.step
  rcases h.dispatch_cases hne call.1 call.2 with
    ⟨d', anchors, -, hdispatch, -, hsome, huniform⟩ | ⟨-, e, hdispatch⟩ | ⟨hdispatch, -⟩
  · simp only [hdispatch]
    exact ⟨huniform, hsome⟩
  · simp only [hdispatch]
    exact ⟨h, fun _ => trivial⟩
  · simp only [hdispatch]
    exact ⟨h, fun _ => trivial⟩

/-- Any dispatches keep the chains uniform, and register nothing. -/
theorem run (h : Uniform crypto d roots) (hne : ∃ c, (d.logs.get? c).isSome)
    (calls : List (U64 × Commitment)) :
    Uniform crypto (calls.foldl (DispatchRun.step crypto) ⟨d, roots⟩).dispatcher
      (calls.foldl (DispatchRun.step crypto) ⟨d, roots⟩).roots ∧
    ∀ c, ((calls.foldl (DispatchRun.step crypto) ⟨d, roots⟩).dispatcher.logs.get? c).isSome =
      (d.logs.get? c).isSome := by
  induction calls generalizing d roots with
  | nil => exact ⟨h, fun _ => rfl⟩
  | cons call calls ih =>
      obtain ⟨hstep, hsome⟩ := h.step hne call
      obtain ⟨c, hc⟩ := hne
      obtain ⟨hrun, hsome'⟩ := ih hstep ⟨c, (hsome c).trans hc⟩
      exact ⟨hrun, fun c => (hsome' c).trans (hsome c)⟩

end Uniform

theorem uniform_registerKeys (crypto : AnchorCrypto) (keys : List (ChainId × ByteArr 32)) :
    Uniform crypto (registerKeys keys) [] := by
  have hregistered := registered_registerConfigs (keys.map fun p => (p.1, .blake3Mac p.2))
  rw [registerKeys_eq]
  refine ⟨fun c config hconfig => ?_, hregistered.recorded crypto⟩
  obtain ⟨p, -, heq⟩ := List.mem_map.1 (hregistered.mem c config hconfig)
  obtain ⟨-, rfl⟩ := Prod.mk.inj heq
  exact isMac_eq_true.2 ⟨p.2, hconfig⟩

theorem isSome_registerKeys (keys : List (ChainId × ByteArr 32)) (c : ChainId) :
    ((registerKeys keys).logs.get? c).isSome ↔ c ∈ keys.map Prod.fst := by
  have hregistered := registered_registerConfigs (keys.map fun p => (p.1, .blake3Mac p.2))
  rw [registerKeys_eq]
  constructor
  · intro hsome
    obtain ⟨log, hlog⟩ := Option.isSome_iff_exists.1 hsome
    obtain ⟨config, hconfig⟩ := exists_config hlog
    obtain ⟨p, hmem, heq⟩ := List.mem_map.1 (hregistered.mem c config hconfig)
    obtain ⟨rfl, -⟩ := Prod.mk.inj heq
    exact List.mem_map_of_mem hmem
  · intro hmem
    obtain ⟨p, hp, rfl⟩ := List.mem_map.1 hmem
    exact hregistered.isSome p.1 (List.mem_map.2 ⟨_, List.mem_map_of_mem hp, rfl⟩)

/-- The state after any dispatches to chains with MACs. -/
theorem uniform_runDispatches (crypto : AnchorCrypto) {keys : List (ChainId × ByteArr 32)}
    (hne : keys ≠ []) (calls : List (U64 × Commitment)) :
    ∃ d roots, DispatchRun.runDispatches crypto (registerKeys keys) calls = ⟨d, roots⟩ ∧
      Uniform crypto d roots ∧ ∀ c, (d.logs.get? c).isSome ↔ c ∈ keys.map Prod.fst := by
  obtain ⟨p, hp⟩ := List.exists_mem_of_ne_nil keys hne
  obtain ⟨huniform, hsome⟩ := (uniform_registerKeys crypto keys).run
    ⟨p.1, (isSome_registerKeys keys p.1).2 (List.mem_map_of_mem hp)⟩ calls
  refine ⟨_, _, rfl, huniform, fun c => ?_⟩
  rw [← isSome_registerKeys]
  exact Bool.eq_iff_iff.1 (hsome c)

/-- After any dispatches to chains with MACs, all logs have the length of the list of the roots that
were dispatched with success, and the check agrees on these roots. The next dispatch, for the height
that is this length, writes one anchor to each log, and these are the anchors it returns; for
another height it reports an error and changes nothing. (It cannot do either once there is a log of
`2 ^ 64` entries, where the next height overflows.) -/
theorem dispatch_parity (crypto : AnchorCrypto) (keys : List (ChainId × ByteArr 32))
    (hne : keys ≠ []) (calls : List (U64 × Commitment)) :
    ∃ d roots, DispatchRun.runDispatches crypto (registerKeys keys) calls = ⟨d, roots⟩ ∧
      (∀ c, (d.logs.get? c).isSome ↔ c ∈ keys.map Prod.fst) ∧
      (∀ c log, d.logs.get? c = some log → log.entries.length = roots.length) ∧
      (∀ (h : U64) r, roots[h.val]? = some r → d.parityCheck crypto h = some (.agreed r)) ∧
      ∀ height root,
        (∃ d' anchors, height.val = roots.length ∧
          d.dispatch crypto height root = (d', some (.ok anchors)) ∧
          anchors.map Anchor.chainId = d.logs.entries.map Prod.fst ∧
          ∀ c log, d.logs.get? c = some log → ∃ anchor ∈ anchors, anchor.chainId = c ∧
            d'.logs.get? c = some (log.push ⟨anchor, .blake3Mac⟩)) ∨
        (height.val ≠ roots.length ∧ ∃ e, d.dispatch crypto height root = (d, some (.error e))) ∨
        (d.dispatch crypto height root = (d, none) ∧ roots.length = 2 ^ 64) := by
  obtain ⟨d, roots, hrun, huniform, hsome⟩ := uniform_runDispatches crypto hne calls
  obtain ⟨p, hp⟩ := List.exists_mem_of_ne_nil keys hne
  have hchain : ∃ c, (d.logs.get? c).isSome := ⟨p.1, (hsome p.1).2 (List.mem_map_of_mem hp)⟩
  refine ⟨d, roots, hrun, hsome, fun c log hlog => ?_, fun h r hr => ?_, fun height root => ?_⟩
  · obtain ⟨config, hconfig⟩ := exists_config hlog
    exact (huniform.recorded.records c log config hlog hconfig).length_eq
  · exact huniform.recorded.parityCheck_iff.2 ⟨hchain, fun _ _ => hr⟩
  · rcases huniform.dispatch_cases hchain height root with
      ⟨d', anchors, hheight, hdispatch, happended, -, -⟩ | herror | hpanic
    · refine Or.inl ⟨d', anchors, hheight, hdispatch, happended.chains, fun c log hlog => ?_⟩
      have hc : c ∈ anchors.map Anchor.chainId := by
        rw [happended.chains, OrdMap.mem_keys, hlog]
        rfl
      obtain ⟨anchor, hanchor, rfl⟩ := List.mem_map.1 hc
      exact ⟨anchor, hanchor, rfl, happended.pushed anchor hanchor log hlog⟩
    · exact Or.inr (Or.inl herror)
    · exact Or.inr (Or.inr hpanic)

/-- Two chains, one of them registered twice. -/
def smallKeys : List (ChainId × ByteArr 32) := [(2, digestOf 1), (1, digestOf 2), (2, digestOf 3)]

/-- The middle call is for a height that is not next. -/
def smallCalls : List (U64 × Commitment) := [(0, digestOf 10), (5, digestOf 11), (1, digestOf 12)]

theorem dispatch_parity_smallCalls :
    smallKeys ≠ [] ∧ ∀ crypto : AnchorCrypto,
    ∃ d roots, DispatchRun.runDispatches crypto (registerKeys smallKeys) smallCalls = ⟨d, roots⟩ ∧
      (∀ c, (d.logs.get? c).isSome ↔ c ∈ smallKeys.map Prod.fst) ∧
      (∀ c log, d.logs.get? c = some log → log.entries.length = roots.length) ∧
      (∀ (h : U64) r, roots[h.val]? = some r → d.parityCheck crypto h = some (.agreed r)) ∧
      ∀ height root,
        (∃ d' anchors, height.val = roots.length ∧
          d.dispatch crypto height root = (d', some (.ok anchors)) ∧
          anchors.map Anchor.chainId = d.logs.entries.map Prod.fst ∧
          ∀ c log, d.logs.get? c = some log → ∃ anchor ∈ anchors, anchor.chainId = c ∧
            d'.logs.get? c = some (log.push ⟨anchor, .blake3Mac⟩)) ∨
        (height.val ≠ roots.length ∧ ∃ e, d.dispatch crypto height root = (d, some (.error e))) ∨
        (d.dispatch crypto height root = (d, none) ∧ roots.length = 2 ^ 64) :=
  ⟨List.cons_ne_nil _ _, fun crypto =>
    dispatch_parity crypto smallKeys (List.cons_ne_nil _ _) smallCalls⟩

end SuwappuDb
