import SuwappuDb.AnchorLog

/-!
# The anchor dispatcher

`crates/suwappudb-bridge/src/anchor/dispatcher.rs`: one anchor log for each registered chain, the
two ways to write a root to them, and the check that they agree.

* `dispatch` — one anchor for each chain, in the order of the chain ids. It stops at the first chain
  it cannot write, and the chains before that one keep their new anchor.
* `dispatchWithSigner` — one anchor for one chain that is not authenticated by a MAC.
* `parityCheck` — do the entries of all chains at one index verify, and name one root? The height
  and the chain id that an entry carries are not compared with where it is.
* `parityCheck_eq_agreed` — the check in terms of the entries it looks at.

A call takes the dispatcher to the dispatcher it leaves, panic or not; the result `none` is a panic.
-/

namespace SuwappuDb

inductive DispatchSignerError where
  | chainNotRegistered (chainId : ChainId)
  | schemeMismatch (config signer : AuthScheme)
  | blake3UsesDispatch
  | unsupportedProducerScheme (scheme : AuthScheme)
  | signer (error : SignerError)
  | append (error : AppendError)
  deriving DecidableEq

inductive ParityResult where
  | agreed (stateRoot : Commitment)
  | disagreed (divergent : List (ChainId × Commitment)) (missing : List ChainId)
  deriving DecidableEq

theorem matched_empty (c : ChainId) : ((∅ : OrdMap ChainId AnchorLog).get? c).isSome =
    ((∅ : OrdMap ChainId VerifierConfig).get? c).isSome := rfl

/-- A log and a config for each registered chain. -/
structure AnchorDispatcher where
  logs : OrdMap ChainId AnchorLog := ∅
  configs : OrdMap ChainId VerifierConfig := ∅
  matched : ∀ c, (logs.get? c).isSome = (configs.get? c).isSome := by exact matched_empty

namespace AnchorDispatcher

/-! ## Registration -/

/-- `entry(chain_id).or_insert_with(..)`. -/
def logsWith (d : AnchorDispatcher) (chainId : ChainId) : OrdMap ChainId AnchorLog :=
  match d.logs.get? chainId with
  | some _ => d.logs
  | none => d.logs.insert chainId (AnchorLog.new chainId)

theorem get?_logsWith (d : AnchorDispatcher) (chainId c : ChainId) :
    (d.logsWith chainId).get? c =
      if c = chainId then some ((d.logs.get? chainId).getD (AnchorLog.new chainId))
      else d.logs.get? c := by
  unfold logsWith
  cases hlog : d.logs.get? chainId with
  | some log =>
      split_ifs with hc
      · rw [hc, hlog]
        rfl
      · rfl
  | none =>
      rw [OrdMap.get?_insert]
      rfl

theorem matched_register (d : AnchorDispatcher) (chainId : ChainId) (config : VerifierConfig)
    (c : ChainId) : ((d.logsWith chainId).get? c).isSome =
      ((d.configs.insert chainId config).get? c).isSome := by
  rw [get?_logsWith, OrdMap.get?_insert]
  split_ifs with hc
  · rfl
  · exact d.matched c

/-- A log that is there is kept. -/
def registerWithConfig (d : AnchorDispatcher) (chainId : ChainId) (config : VerifierConfig) :
    AnchorDispatcher where
  logs := d.logsWith chainId
  configs := d.configs.insert chainId config
  matched := d.matched_register chainId config

/-- A log after a registration is a new one or one that was there. -/
theorem log_registerWithConfig {d : AnchorDispatcher} {chainId c : ChainId}
    {config : VerifierConfig} {log : AnchorLog}
    (h : (d.registerWithConfig chainId config).logs.get? c = some log) :
    log = AnchorLog.new c ∨ d.logs.get? c = some log := by
  rw [registerWithConfig, get?_logsWith] at h
  split_ifs at h with hc
  · subst hc
    cases hold : d.logs.get? c with
    | none =>
        rw [hold] at h
        exact .inl (Option.some.inj h).symm
    | some old =>
        rw [hold] at h
        exact .inr h
  · exact .inr h

def register (d : AnchorDispatcher) (chainId : ChainId) (key : ByteArr 32) : AnchorDispatcher :=
  d.registerWithConfig chainId (.blake3Mac key)

/-! ## Writing -/

theorem matched_update (d : AnchorDispatcher) (chainId : ChainId) (log : AnchorLog) (c : ChainId) :
    ((d.logs.modify chainId fun _ => log).get? c).isSome = (d.configs.get? c).isSome := by
  rw [← d.matched c, OrdMap.get?_modify]
  split_ifs
  · rw [Option.isSome_map]
  · rfl

/-- Write through `logs.get_mut`. -/
def updateLog (d : AnchorDispatcher) (chainId : ChainId) (log : AnchorLog) : AnchorDispatcher where
  logs := d.logs.modify chainId fun _ => log
  configs := d.configs
  matched := d.matched_update chainId log

variable (crypto : AnchorCrypto)

/-- The loop of `dispatch` over the chains that are left, with the anchors made so far. -/
def dispatchLoop (height : U64) (stateRoot : Commitment) :
    List ChainId → AnchorDispatcher → List Anchor →
      AnchorDispatcher × Option (Except (ChainId × AppendError) (List Anchor))
  | [], d, out => (d, some (.ok out))
  | chainId :: rest, d, out =>
      match d.configs.get? chainId, d.logs.get? chainId with
      | some (.blake3Mac key), some log =>
          let parent := (log.latest.map (Anchor.hash crypto)).getD Anchor.GENESIS_PARENT
          let anchor := Anchor.new crypto chainId height stateRoot parent key
          match log.append crypto anchor key with
          | some (log, .ok ()) =>
              dispatchLoop height stateRoot rest (d.updateLog chainId log) (out ++ [anchor])
          | some (log, .error e) => (d.updateLog chainId log, some (.error (chainId, e)))
          | none => (d, none)
      | some (.blake3Mac _), none => (d, none)
      | some _, _ => (d, some (.error (chainId, .schemeRequiresSigner)))
      | none, _ => (d, none)

def dispatch (d : AnchorDispatcher) (height : U64) (stateRoot : Commitment) :
    AnchorDispatcher × Option (Except (ChainId × AppendError) (List Anchor)) :=
  dispatchLoop crypto height stateRoot (d.logs.entries.map Prod.fst) d []

def dispatchWithSigner (d : AnchorDispatcher) (chainId : ChainId) (height : U64)
    (stateRoot : Commitment) (signer : AnchorSigner) :
    AnchorDispatcher × Option (Except DispatchSignerError Anchor) :=
  match d.configs.get? chainId with
  | none => (d, some (.error (.chainNotRegistered chainId)))
  | some config =>
      if config.scheme ≠ signer.scheme then
        (d, some (.error (.schemeMismatch config.scheme signer.scheme)))
      else if config.scheme = .blake3Mac then (d, some (.error .blake3UsesDispatch))
      else
        let latest := (d.logs.get? chainId).bind AnchorLog.latest
        let parent := (latest.map (Anchor.hash crypto)).getD Anchor.GENESIS_PARENT
        match signer.scheme with
        | .ecdsaSecp256k1 =>
            let anchor := Anchor.ecdsa chainId height stateRoot parent
            match signer.sign anchor with
            | .error e => (d, some (.error (.signer e)))
            | .ok (.ecdsaSecp256k1 signature) =>
                match d.logs.get? chainId with
                | none => (d, none)
                | some log =>
                    match log.appendWithCredential crypto anchor (.ecdsaSecp256k1 signature)
                        config with
                    | some (log, .ok ()) => (d.updateLog chainId log, some (.ok anchor))
                    | some (log, .error e) =>
                        (d.updateLog chainId log, some (.error (.append e)))
                    | none => (d, none)
            | .ok _ => (d, some (.error (.signer .schemeMismatch)))
        | other => (d, some (.error (.unsupportedProducerScheme other)))

/-- A signer's anchor goes to the log of its chain. -/
theorem dispatchWithSigner_ecdsa {crypto : AnchorCrypto} {d : AnchorDispatcher} {c : ChainId}
    {log : AnchorLog} {address : EthAddress} {signer : AnchorSigner} {height : U64}
    {root : Commitment} {signature : ByteArr 65}
    (hconfig : d.configs.get? c = some (.ecdsaSecp256k1 address))
    (hlog : d.logs.get? c = some log) (hscheme : signer.scheme = .ecdsaSecp256k1)
    (hsign : signer.sign (Anchor.ecdsa c height root (log.tip crypto)) =
      .ok (.ecdsaSecp256k1 signature)) :
    d.dispatchWithSigner crypto c height root signer =
      match log.appendWithCredential crypto (Anchor.ecdsa c height root (log.tip crypto))
          (.ecdsaSecp256k1 signature) (.ecdsaSecp256k1 address) with
      | some (log', .ok ()) =>
          (d.updateLog c log', some (.ok (Anchor.ecdsa c height root (log.tip crypto))))
      | some (log', .error e) => (d.updateLog c log', some (.error (.append e)))
      | none => (d, none) := by
  rw [dispatchWithSigner, hconfig]
  simp only [VerifierConfig.scheme, hscheme, hlog, Option.bind_some, AnchorLog.hash_latest, hsign,
    ne_eq, not_true_eq_false, if_false, reduceCtorEq]

/-! ## The check -/

/-- `verify_entry_with_config`. -/
def verifyEntryWithConfig (entry : AnchorEntry) (config : VerifierConfig) : Bool :=
  if config.scheme ≠ entry.anchor.authScheme then false
  else
    match verifyCredential crypto entry.anchor entry.credential
        (config.asExpectedFor entry.anchor) with
    | .ok () => true
    | .error _ => false

/-- What `parity_check` collects. -/
structure ParityScan where
  roots : List (ChainId × Commitment) := []
  missing : List ChainId := []
  tampered : List ChainId := []

def scanChain (d : AnchorDispatcher) (height : U64) (scan : ParityScan) (p : ChainId × AnchorLog) :
    Option ParityScan :=
  match p.2.entryAt height with
  | none => some { scan with missing := scan.missing ++ [p.1] }
  | some entry =>
      match d.configs.get? p.1 with
      | none => none
      | some config => some {
          roots := scan.roots ++ [(p.1, entry.anchor.stateRoot)]
          missing := scan.missing
          tampered :=
            if verifyEntryWithConfig crypto entry config then scan.tampered
            else scan.tampered ++ [p.1] }

/-- What `parity_check` says to what it has collected. -/
def ParityScan.result (scan : ParityScan) : ParityResult :=
  if scan.missing ≠ [] then .disagreed scan.roots scan.missing
  else if scan.tampered ≠ [] then .disagreed scan.roots scan.tampered
  else
    match scan.roots with
    | [] => .disagreed [] []
    | (_, first) :: _ =>
        if scan.roots.all fun p => p.2 == first then .agreed first else .disagreed scan.roots []

def parityCheck (d : AnchorDispatcher) (height : U64) : Option ParityResult :=
  (d.logs.entries.foldlM (d.scanChain crypto height) {}).map ParityScan.result

variable {crypto} {d : AnchorDispatcher} {height : U64}

/-! ## What the check says -/

/-- The chains and roots of the logs that have an entry at the height. -/
def rootsAt (height : U64) (l : List (ChainId × AnchorLog)) : List (ChainId × Commitment) :=
  l.filterMap fun p => (p.2.entryAt height).map fun e => (p.1, e.anchor.stateRoot)

/-- The chains of the logs that have none. -/
def missingAt (height : U64) (l : List (ChainId × AnchorLog)) : List ChainId :=
  (l.filter fun p => (p.2.entryAt height).isNone).map Prod.fst

/-- There is an entry at the height, and it does not verify. -/
def isTampered (crypto : AnchorCrypto) (d : AnchorDispatcher) (height : U64)
    (p : ChainId × AnchorLog) : Bool :=
  match p.2.entryAt height, d.configs.get? p.1 with
  | some entry, some config => !verifyEntryWithConfig crypto entry config
  | _, _ => false

def tamperedAt (crypto : AnchorCrypto) (d : AnchorDispatcher) (height : U64)
    (l : List (ChainId × AnchorLog)) : List ChainId :=
  (l.filter (isTampered crypto d height)).map Prod.fst

theorem foldlM_scanChain (l : List (ChainId × AnchorLog)) (scan : ParityScan)
    (hconfigs : ∀ p ∈ l, (d.configs.get? p.1).isSome) :
    l.foldlM (d.scanChain crypto height) scan = some {
      roots := scan.roots ++ rootsAt height l
      missing := scan.missing ++ missingAt height l
      tampered := scan.tampered ++ tamperedAt crypto d height l } := by
  induction l generalizing scan with
  | nil => simp [rootsAt, missingAt, tamperedAt]
  | cons p l ih =>
      rw [List.forall_mem_cons] at hconfigs
      obtain ⟨config, hconfig⟩ := Option.isSome_iff_exists.1 hconfigs.1
      rw [List.foldlM_cons, scanChain]
      cases hentry : p.2.entryAt height with
      | none => simp [ih _ hconfigs.2, rootsAt, missingAt, tamperedAt, isTampered, hentry]
      | some entry =>
          cases hverify : verifyEntryWithConfig crypto entry config <;>
            simp [ih _ hconfigs.2, rootsAt, missingAt, tamperedAt, isTampered, hentry, hconfig,
              hverify]

/-- The check never panics: what it says is a matter of the three lists. -/
theorem parityCheck_eq (crypto : AnchorCrypto) (d : AnchorDispatcher) (height : U64) :
    d.parityCheck crypto height = some (ParityScan.result {
      roots := rootsAt height d.logs.entries
      missing := missingAt height d.logs.entries
      tampered := tamperedAt crypto d height d.logs.entries }) := by
  have hconfigs : ∀ p ∈ d.logs.entries, (d.configs.get? p.1).isSome := by
    rintro ⟨c, log⟩ hmem
    rw [← d.matched, OrdMap.mem_entries.1 hmem]
    rfl
  rw [parityCheck, foldlM_scanChain d.logs.entries {} hconfigs]
  rfl

theorem missingAt_eq_nil : missingAt height d.logs.entries = [] ↔
    ∀ c log, d.logs.get? c = some log → ∃ e, log.entryAt height = some e := by
  simp only [missingAt, List.map_eq_nil_iff, List.filter_eq_nil_iff, Prod.forall,
    OrdMap.mem_entries, Option.isNone_iff_eq_none, ← Option.ne_none_iff_exists']

theorem tamperedAt_eq_nil : tamperedAt crypto d height d.logs.entries = [] ↔
    ∀ c log e config, d.logs.get? c = some log → log.entryAt height = some e →
      d.configs.get? c = some config → verifyEntryWithConfig crypto e config = true := by
  simp only [tamperedAt, List.map_eq_nil_iff, List.filter_eq_nil_iff, Prod.forall,
    OrdMap.mem_entries, isTampered]
  constructor
  · intro h c log e config hlog he hconfig
    simpa [he, hconfig] using h c log hlog
  · intro h c log hlog
    cases he : log.entryAt height with
    | none => simp
    | some e =>
        cases hconfig : d.configs.get? c with
        | none => simp
        | some config => simp [h c log e config hlog he hconfig]

theorem ParityScan.result_eq_agreed {scan : ParityScan} {r : Commitment} :
    scan.result = .agreed r ↔ scan.missing = [] ∧ scan.tampered = [] ∧ scan.roots ≠ [] ∧
      ∀ p ∈ scan.roots, p.2 = r := by
  unfold ParityScan.result
  by_cases hmissing : scan.missing = []
  · by_cases htampered : scan.tampered = []
    · cases hroots : scan.roots with
      | nil => simp [hmissing, htampered]
      | cons p rest =>
          obtain ⟨c, first⟩ := p
          simp only [hmissing, htampered, ne_eq, not_true_eq_false, if_false, true_and,
            List.cons_ne_nil, not_false_eq_true, List.forall_mem_cons]
          split_ifs with hall
          · simp only [List.all_cons, beq_self_eq_true, Bool.true_and, List.all_eq_true,
              beq_iff_eq] at hall
            simp only [ParityResult.agreed.injEq]
            exact ⟨fun h => ⟨h, fun q hq => (hall q hq).trans h⟩, And.left⟩
          · simp only [List.all_cons, beq_self_eq_true, Bool.true_and, List.all_eq_true,
              beq_iff_eq] at hall
            simp only [false_iff, not_and]
            rintro rfl hrest
            exact hall hrest
    · simp [hmissing, htampered]
  · simp [hmissing]

theorem mem_rootsAt {c : ChainId} {r : Commitment} : (c, r) ∈ rootsAt height d.logs.entries ↔
    ∃ log e, d.logs.get? c = some log ∧ log.entryAt height = some e ∧ e.anchor.stateRoot = r := by
  rw [rootsAt, List.mem_filterMap]
  constructor
  · rintro ⟨⟨c', log⟩, hmem, heq⟩
    obtain ⟨e, he, hpair⟩ := Option.map_eq_some_iff.1 heq
    obtain ⟨rfl, rfl⟩ := Prod.mk.inj hpair
    exact ⟨log, e, OrdMap.mem_entries.1 hmem, he, rfl⟩
  · rintro ⟨log, e, hlog, he, rfl⟩
    exact ⟨(c, log), OrdMap.mem_entries.2 hlog, by simp [he]⟩

/-- The check agrees on a root if there is a chain, and every chain has an entry at the index that
verifies and names the root. -/
theorem parityCheck_eq_agreed {r : Commitment} :
    d.parityCheck crypto height = some (.agreed r) ↔
      (∃ c, (d.logs.get? c).isSome) ∧ ∀ c log, d.logs.get? c = some log →
        ∃ e config, log.entryAt height = some e ∧ d.configs.get? c = some config ∧
          verifyEntryWithConfig crypto e config = true ∧ e.anchor.stateRoot = r := by
  rw [parityCheck_eq, Option.some.injEq, ParityScan.result_eq_agreed, missingAt_eq_nil,
    tamperedAt_eq_nil]
  simp only [Prod.forall, mem_rootsAt]
  constructor
  · rintro ⟨hsome, hverify, hne, hall⟩
    obtain ⟨⟨c, r'⟩, hmem⟩ := List.exists_mem_of_ne_nil _ hne
    obtain ⟨log, e, hlog, -⟩ := mem_rootsAt.1 hmem
    refine ⟨⟨c, by rw [hlog]; rfl⟩, fun c log hlog => ?_⟩
    obtain ⟨e, he⟩ := hsome c log hlog
    have hmatched := d.matched c
    rw [hlog] at hmatched
    obtain ⟨config, hconfig⟩ := Option.isSome_iff_exists.1 hmatched.symm
    exact ⟨e, config, he, hconfig, hverify c log e config hlog he hconfig,
      hall c _ ⟨log, e, hlog, he, rfl⟩⟩
  · rintro ⟨⟨c, hc⟩, hall⟩
    refine ⟨fun c log hlog => ?_, fun c log e config hlog he hconfig => ?_, ?_, ?_⟩
    · obtain ⟨e, -, he, -⟩ := hall c log hlog
      exact ⟨e, he⟩
    · obtain ⟨e', config', he', hconfig', hverify, -⟩ := hall c log hlog
      obtain rfl := Option.some.inj (he.symm.trans he')
      obtain rfl := Option.some.inj (hconfig.symm.trans hconfig')
      exact hverify
    · obtain ⟨log, hlog⟩ := Option.isSome_iff_exists.1 hc
      obtain ⟨e, -, he, -⟩ := hall c log hlog
      exact List.ne_nil_of_mem (mem_rootsAt.2 ⟨log, e, hlog, he, rfl⟩)
    · rintro c r' ⟨log, e, hlog, he, rfl⟩
      obtain ⟨e', -, he', -, -, hroot⟩ := hall c log hlog
      obtain rfl := Option.some.inj (he.symm.trans he')
      exact hroot

end AnchorDispatcher

end SuwappuDb
