import SuwappuDb.AnchorTamper

/-!
# What a parity report lists

The report of `parityCheck` when the chains disagree, after any calls of a dispatcher's entry
points.

* `runDispatcher` — any registrations, dispatches and signed dispatches. What they do is register
  chains and append entries (`runDispatcher_induct`). The logs stay well formed, so the entry at an
  index is the anchor of that height.
* `ExactReport` — the chains with an anchor of the height and its root, the chains without one, both
  in the order of the ids.
* `parity_report_iff` — a report is exact if and only if some chain has no anchor of the height, or
  all that there are verify. When all chains have one and some do not verify, those are listed as
  missing.
-/

namespace SuwappuDb

open AnchorDispatcher

/-! ## Any calls -/

/-- A call of one of a dispatcher's entry points. -/
inductive DispatcherCall where
  | register (chainId : ChainId) (key : ByteArr 32)
  | registerWithConfig (chainId : ChainId) (config : VerifierConfig)
  | dispatch (height : U64) (stateRoot : Commitment)
  | dispatchWithSigner (chainId : ChainId) (height : U64) (stateRoot : Commitment)
      (signer : AnchorSigner)

/-- The dispatcher that a call leaves. -/
def DispatcherCall.run (crypto : AnchorCrypto) (d : AnchorDispatcher) :
    DispatcherCall → AnchorDispatcher
  | .register chainId key => d.register chainId key
  | .registerWithConfig chainId config => d.registerWithConfig chainId config
  | .dispatch height stateRoot => (d.dispatch crypto height stateRoot).1
  | .dispatchWithSigner chainId height stateRoot signer =>
      (d.dispatchWithSigner crypto chainId height stateRoot signer).1

/-- Any calls, on a new dispatcher. -/
def runDispatcher (crypto : AnchorCrypto) (calls : List DispatcherCall) : AnchorDispatcher :=
  calls.foldl (DispatcherCall.run crypto) {}

/-! ## What a dispatch does

Both kinds of dispatch append entries that they have made to logs, one at a time. -/

/-- An entry of the two kinds that a dispatcher makes. -/
inductive AnchorEntry.IsMade (crypto : AnchorCrypto) (c : ChainId) : AnchorEntry → Prop
  | mac (height : U64) (root : Commitment) (parent : AnchorHash) (key : ByteArr 32) :
      IsMade crypto c ⟨Anchor.new crypto c height root parent key, .blake3Mac⟩
  | ecdsa (height : U64) (root : Commitment) (parent : AnchorHash) (signature : ByteArr 65) :
      IsMade crypto c ⟨Anchor.ecdsa c height root parent, .ecdsaSecp256k1 signature⟩

/-- One log has accepted an entry that the dispatcher has made. -/
inductive Appends (crypto : AnchorCrypto) (d : AnchorDispatcher) : AnchorDispatcher → Prop
  | push {c : ChainId} {log : AnchorLog} {entry : AnchorEntry} {config : VerifierConfig}
      (hlog : d.logs.get? c = some log) (hmade : entry.IsMade crypto c)
      (haccepts : log.Accepts crypto entry config) :
      Appends crypto d (d.updateLog c (log.push entry))

namespace Appends

open Relation

variable {crypto : AnchorCrypto} {d : AnchorDispatcher}

/-- A call of one log, whatever it says. -/
theorem of_run {c : ChainId} {log log' : AnchorLog} {result : Except AppendError Unit}
    (hlog : d.logs.get? c = some log) (call : LogCall) (hmade : call.entry.IsMade crypto c)
    (hrun : call.run crypto log = some (log', result)) :
    ReflTransGen (Appends crypto) d (d.updateLog c log') := by
  rcases LogCall.run_cases hrun with ⟨-, -, rfl⟩ | ⟨-, rfl, haccepts⟩
  · rw [updateLog_self hlog]
  · exact .single (.push hlog hmade haccepts)

theorem dispatchLoop (height : U64) (root : Commitment) (ids : List ChainId)
    (d : AnchorDispatcher) (out : List Anchor) :
    ReflTransGen (Appends crypto) d
      (AnchorDispatcher.dispatchLoop crypto height root ids d out).1 := by
  induction ids generalizing d out with
  | nil => exact .refl
  | cons c ids ih =>
      rw [AnchorDispatcher.dispatchLoop]
      split
      · next key log hconfig hlog =>
          dsimp only
          have hstep : ∀ {parent log' result}, log.append crypto
              (Anchor.new crypto c height root parent key) key = some (log', result) →
              ReflTransGen (Appends crypto) d (d.updateLog c log') := by
            intro parent log' result happend
            exact of_run hlog (.append _ key) (.mac height root parent key) happend
          split
          · next log' happend => exact (hstep happend).trans (ih _ _)
          · next log' e happend => exact hstep happend
          · exact .refl
      · exact .refl
      · exact .refl
      · exact .refl

theorem dispatchWithSigner (d : AnchorDispatcher) (chainId : ChainId) (height : U64)
    (root : Commitment) (signer : AnchorSigner) :
    ReflTransGen (Appends crypto) d
      (d.dispatchWithSigner crypto chainId height root signer).1 := by
  unfold AnchorDispatcher.dispatchWithSigner
  split
  · exact .refl
  next config hconfig =>
  split_ifs
  · exact .refl
  · exact .refl
  dsimp only
  split
  · split
    · exact .refl
    · next signature hsign =>
        split
        · exact .refl
        · next log hlog =>
            have hstep : ∀ {parent log' result}, log.appendWithCredential crypto
                (Anchor.ecdsa chainId height root parent) (.ecdsaSecp256k1 signature) config =
                  some (log', result) →
                ReflTransGen (Appends crypto) d (d.updateLog chainId log') := by
              intro parent log' result happend
              exact of_run hlog (.appendWithCredential _ (.ecdsaSecp256k1 signature) config)
                (.ecdsa height root parent signature) happend
            split
            · next log' happend => exact hstep happend
            · next log' e happend => exact hstep happend
            · exact .refl
    · exact .refl
  · exact .refl

end Appends

/-- A call registers a chain or appends entries. -/
theorem DispatcherCall.run_cases (crypto : AnchorCrypto) (d : AnchorDispatcher)
    (call : DispatcherCall) :
    (∃ chainId config, call.run crypto d = d.registerWithConfig chainId config) ∨
      Relation.ReflTransGen (Appends crypto) d (call.run crypto d) := by
  cases call with
  | register chainId key => exact .inl ⟨chainId, .blake3Mac key, rfl⟩
  | registerWithConfig chainId config => exact .inl ⟨chainId, config, rfl⟩
  | dispatch height root => exact .inr (Appends.dispatchLoop height root _ d [])
  | dispatchWithSigner chainId height root signer =>
      exact .inr (Appends.dispatchWithSigner d chainId height root signer)

/-- What registrations and appends keep holds after any calls. -/
theorem runDispatcher_induct {crypto : AnchorCrypto} {I : AnchorDispatcher → Prop} (hempty : I {})
    (hregister : ∀ d chainId config, I d → I (d.registerWithConfig chainId config))
    (happend : ∀ d d', I d → Appends crypto d d' → I d') (calls : List DispatcherCall) :
    I (runDispatcher crypto calls) := by
  unfold runDispatcher
  apply List.foldlRecOn (motive := I) calls _ hempty
  intro d hd call _
  rcases call.run_cases crypto d with ⟨chainId, config, heq⟩ | hsteps
  · exact heq ▸ hregister d chainId config hd
  · generalize call.run crypto d = d' at hsteps
    induction hsteps with
    | refl => exact hd
    | tail _ hstep ih => exact happend _ _ ih hstep

/-- The logs are well formed and under their own ids. -/
def LogsWellFormed (crypto : AnchorCrypto) (d : AnchorDispatcher) : Prop :=
  ∀ c log, d.logs.get? c = some log → log.chainId = c ∧ log.WellFormed crypto

theorem logsWellFormed_runDispatcher (crypto : AnchorCrypto) (calls : List DispatcherCall) :
    LogsWellFormed crypto (runDispatcher crypto calls) := by
  refine runDispatcher_induct (fun c log hlog => ?_) (fun d chainId config hd c log hlog => ?_)
    (fun d d' hd hstep c' other hother => ?_) calls
  · cases hlog
  · rcases log_registerWithConfig hlog with rfl | hold
    · exact ⟨rfl, AnchorLog.wellFormed_new crypto c⟩
    · exact hd c log hold
  · obtain @⟨c, log, entry, config, hlog, -, haccepts⟩ := hstep
    rw [get?_updateLog] at hother
    split_ifs at hother with hc
    · subst hc
      rw [hlog] at hother
      obtain rfl : log.push entry = other := Option.some.inj hother
      obtain ⟨hid, hwf⟩ := hd c' log hlog
      exact ⟨hid, hwf.push haccepts⟩
    · exact hd c' other hother

/-! ## Reports -/

/-- A registered chain without an anchor of the height. -/
def IsMissing (d : AnchorDispatcher) (height : U64) (c : ChainId) : Prop :=
  ∃ log, d.logs.get? c = some log ∧ ∀ e ∈ log.entries, e.anchor.height ≠ height

/-- The chain has this entry of the height. -/
def HoldsEntry (d : AnchorDispatcher) (height : U64) (c : ChainId) (e : AnchorEntry) : Prop :=
  ∃ log, d.logs.get? c = some log ∧ e ∈ log.entries ∧ e.anchor.height = height

/-- The chains that have an anchor of the height, with its root, and the chains that have none. -/
structure ExactReport (d : AnchorDispatcher) (height : U64)
    (divergent : List (ChainId × Commitment)) (missing : List ChainId) : Prop where
  mem_divergent : ∀ c r, (c, r) ∈ divergent ↔ ∃ e, HoldsEntry d height c e ∧ e.anchor.stateRoot = r
  mem_missing : ∀ c, c ∈ missing ↔ IsMissing d height c
  divergentOrder : divergent.Pairwise fun p q => p.1 < q.1
  missingOrder : missing.Pairwise (· < ·)

section Report

variable {crypto : AnchorCrypto} {d : AnchorDispatcher} {height : U64}

/-- What the scan collects is exact. -/
theorem LogsWellFormed.exactReport (hwf : LogsWellFormed crypto d) (height : U64) :
    ExactReport d height (rootsAt height d.logs.entries) (missingAt height d.logs.entries) where
  mem_divergent c r := by
    rw [mem_rootsAt]
    constructor
    · rintro ⟨log, e, hlog, he, rfl⟩
      exact ⟨e, ⟨log, hlog, (hwf c log hlog).2.entryAt_eq_some.1 he⟩, rfl⟩
    · rintro ⟨e, ⟨log, hlog, he⟩, rfl⟩
      exact ⟨log, e, hlog, (hwf c log hlog).2.entryAt_eq_some.2 he, rfl⟩
  mem_missing c := by
    rw [missingAt, List.mem_map]
    constructor
    · rintro ⟨⟨c, log⟩, hmem, rfl⟩
      obtain ⟨hmem, hnone⟩ := List.mem_filter.1 hmem
      have hlog := OrdMap.mem_entries.1 hmem
      refine ⟨log, hlog, fun e he heq => ?_⟩
      rw [(hwf c log hlog).2.entryAt_eq_some.2 ⟨he, heq⟩] at hnone
      cases hnone
    · rintro ⟨log, hlog, hnone⟩
      refine ⟨(c, log), List.mem_filter.2 ⟨OrdMap.mem_entries.2 hlog, ?_⟩, rfl⟩
      rw [Option.isNone_iff_eq_none, Option.eq_none_iff_forall_ne_some]
      intro e he
      obtain ⟨hmem, heq⟩ := (hwf c log hlog).2.entryAt_eq_some.1 he
      exact hnone e hmem heq
  divergentOrder := by
    rw [rootsAt, List.pairwise_filterMap]
    refine d.logs.sorted.imp fun {p q} hlt b hb b' hb' => ?_
    obtain ⟨-, -, rfl⟩ := Option.map_eq_some_iff.1 hb
    obtain ⟨-, -, rfl⟩ := Option.map_eq_some_iff.1 hb'
    exact hlt
  missingOrder := List.pairwise_map.2 (d.logs.sorted.filter _)

theorem ParityScan.eq_of_result_eq_disagreed {scan : ParityScan}
    {divergent : List (ChainId × Commitment)} {missing : List ChainId}
    (h : scan.result = .disagreed divergent missing) :
    divergent = scan.roots ∧
      missing = if scan.missing = [] then scan.tampered else scan.missing := by
  obtain ⟨roots, gone, tampered⟩ := scan
  unfold ParityScan.result at h
  by_cases hmissing : gone = []
  · by_cases htampered : tampered = []
    · cases roots with
      | nil => simp_all
      | cons p rest =>
          simp only [hmissing, htampered, ne_eq, not_true_eq_false, if_false] at h
          split_ifs at h
          simp_all
    · simp_all
  · simp_all

theorem LogsWellFormed.tamperedAt_eq_nil_iff (hwf : LogsWellFormed crypto d) :
    tamperedAt crypto d height d.logs.entries = [] ↔
      ∀ c e config, HoldsEntry d height c e → d.configs.get? c = some config →
        verifyEntryWithConfig crypto e config = true := by
  rw [tamperedAt_eq_nil]
  constructor
  · rintro h c e config ⟨log, hlog, he⟩ hconfig
    exact h c log e config hlog ((hwf c log hlog).2.entryAt_eq_some.2 he) hconfig
  · intro h c log e config hlog he hconfig
    exact h c e config ⟨log, hlog, (hwf c log hlog).2.entryAt_eq_some.1 he⟩ hconfig

end Report

/-- After any calls, the report at a height is exact if and only if some chain has no anchor of the
height, or every anchor of the height verifies under its chain's config. -/
theorem parity_report_iff (crypto : AnchorCrypto) (calls : List DispatcherCall) (height : U64) :
    (∀ divergent missing, (runDispatcher crypto calls).parityCheck crypto height =
        some (.disagreed divergent missing) →
      ExactReport (runDispatcher crypto calls) height divergent missing) ↔
    (∃ c, IsMissing (runDispatcher crypto calls) height c) ∨
      ∀ c e config, HoldsEntry (runDispatcher crypto calls) height c e →
        (runDispatcher crypto calls).configs.get? c = some config →
        verifyEntryWithConfig crypto e config = true := by
  have hwf := logsWellFormed_runDispatcher crypto calls
  generalize runDispatcher crypto calls = d at hwf ⊢
  have hexact := hwf.exactReport height
  rw [← hwf.tamperedAt_eq_nil_iff]
  constructor
  · intro hreport
    by_contra hcond
    obtain ⟨hmissing, htampered⟩ := not_or.1 hcond
    have hnil : missingAt height d.logs.entries = [] := by
      rw [List.eq_nil_iff_forall_not_mem]
      exact fun c hc => hmissing ⟨c, (hexact.mem_missing c).1 hc⟩
    have hcheck : d.parityCheck crypto height = some (.disagreed (rootsAt height d.logs.entries)
        (tamperedAt crypto d height d.logs.entries)) := by
      rw [parityCheck_eq, ParityScan.result]
      simp [hnil, htampered]
    -- A chain that is listed has an anchor, which does not verify.
    obtain ⟨c, hc⟩ := List.exists_mem_of_ne_nil _ htampered
    exact hmissing ⟨c, ((hreport _ _ hcheck).mem_missing c).1 hc⟩
  · intro hcond divergent missing hcheck
    rw [parityCheck_eq, Option.some.injEq] at hcheck
    obtain ⟨rfl, rfl⟩ := ParityScan.eq_of_result_eq_disagreed hcheck
    by_cases hnil : missingAt height d.logs.entries = []
    · have htampered : tamperedAt crypto d height d.logs.entries = [] := by
        rcases hcond with ⟨c, hc⟩ | htampered
        · rw [← hexact.mem_missing, hnil] at hc
          cases hc
        · exact htampered
      rw [if_pos hnil, htampered, ← hnil]
      exact hexact
    · rw [if_neg hnil]
      exact hexact

/-- A chain gets an anchor and then another key. -/
def rekeyedCalls : List DispatcherCall := [
  .register 1 (replayKey 1), .dispatch 0 (digestOf 10),
  .registerWithConfig 1 (.blake3Mac (replayKey 2))]

/-- The chain is listed as one that has an anchor, and as one that has none. -/
theorem parity_report_rekeyed :
    (runDispatcher replayCrypto rekeyedCalls).parityCheck replayCrypto 0 =
      some (.disagreed [(1, digestOf 10)] [1]) ∧
    ¬ IsMissing (runDispatcher replayCrypto rekeyedCalls) 0 1 ∧
    ¬ ExactReport (runDispatcher replayCrypto rekeyedCalls) 0 [(1, digestOf 10)] [1] := by
  have hpresent : ¬ IsMissing (runDispatcher replayCrypto rekeyedCalls) 0 1 := by
    have hwf := logsWellFormed_runDispatcher replayCrypto rekeyedCalls
    have hnil : missingAt 0 (runDispatcher replayCrypto rekeyedCalls).logs.entries = [] := by
      decide +kernel
    rw [← (hwf.exactReport 0).mem_missing, hnil]
    exact List.not_mem_nil
  exact ⟨by decide +kernel, hpresent, fun h => hpresent ((h.mem_missing 1).1 List.mem_cons_self)⟩

end SuwappuDb
