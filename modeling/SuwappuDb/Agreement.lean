import SuwappuDb.ParityReport
import SuwappuDb.SignedAnchors

/-!
# What an agreement is worth

`parity_check` after any calls of a dispatcher's entry points, by any signers.

The dispatcher has four kinds of chains and makes anchors for two of them: `dispatch` refuses all
chains that have no MAC key, and `dispatch_with_signer` signs with ECDSA only. A chain with hybrid
signatures or with proofs gets no anchor. It may have some from a time when it was registered
otherwise, but they do not verify any more.

* `Grows` — what a dispatch does: the logs get longer, by anchors of the two kinds.
* `agreed_iff` — the check agrees on a root exactly if there is a chain and every chain has an
  anchor of the height for that root, made with the MAC key or signed by the signer that the chain
  has now. With a hybrid chain or a chain of proofs it never agrees.
* `agreement_stable` — no dispatch undoes an agreement.
-/

namespace SuwappuDb

open AnchorDispatcher

/-! ## What a dispatch adds -/

/-- The logs have grown, and nothing else has changed. -/
structure Grows (crypto : AnchorCrypto) (d d' : AnchorDispatcher) : Prop where
  configs : d'.configs = d.configs
  logs : ∀ c log, d.logs.get? c = some log → ∃ log' added, d'.logs.get? c = some log' ∧
    log'.entries = log.entries ++ added ∧ ∀ e ∈ added, e.IsMade crypto c

namespace Grows

variable {crypto : AnchorCrypto} {d d' d'' : AnchorDispatcher}

theorem refl (crypto : AnchorCrypto) (d : AnchorDispatcher) : Grows crypto d d :=
  ⟨rfl, fun _ log hlog => ⟨log, [], hlog, (List.append_nil _).symm, by simp⟩⟩

theorem trans (h : Grows crypto d d') (h' : Grows crypto d' d'') : Grows crypto d d'' := by
  refine ⟨h'.configs.trans h.configs, fun c log hlog => ?_⟩
  obtain ⟨log', added, hlog', hentries, hmade⟩ := h.logs c log hlog
  obtain ⟨log'', added', hlog'', hentries', hmade'⟩ := h'.logs c log' hlog'
  refine ⟨log'', added ++ added', hlog'', ?_, fun e he => ?_⟩
  · rw [hentries', hentries, List.append_assoc]
  · rcases List.mem_append.1 he with he | he
    · exact hmade e he
    · exact hmade' e he

theorem of_appends (h : Appends crypto d d') : Grows crypto d d' := by
  obtain @⟨c, log, entry, config, hlog, hmade, -⟩ := h
  refine ⟨rfl, fun c' other hother => ?_⟩
  rw [get?_updateLog]
  split_ifs with hc
  · subst hc
    obtain rfl := Option.some.inj (hlog.symm.trans hother)
    exact ⟨log.push entry, [entry], by rw [hlog]; rfl, rfl, by simpa using hmade⟩
  · exact ⟨other, [], hother, (List.append_nil _).symm, by simp⟩

/-- An entry that is there stays. -/
theorem holdsEntry (h : Grows crypto d d') {height : U64} {c : ChainId} {e : AnchorEntry}
    (he : HoldsEntry d height c e) : HoldsEntry d' height c e := by
  obtain ⟨log, hlog, hmem, hheight⟩ := he
  obtain ⟨log', added, hlog', hentries, -⟩ := h.logs c log hlog
  refine ⟨log', hlog', ?_, hheight⟩
  rw [hentries]
  exact List.mem_append_left added hmem

end Grows

/-- A call that registers nothing. -/
def DispatcherCall.IsDispatch : DispatcherCall → Prop
  | .register _ _ | .registerWithConfig _ _ => False
  | .dispatch _ _ | .dispatchWithSigner _ _ _ _ => True

theorem grows_run {crypto : AnchorCrypto} (d : AnchorDispatcher) {call : DispatcherCall}
    (hcall : call.IsDispatch) : Grows crypto d (call.run crypto d) := by
  have hsteps : Relation.ReflTransGen (Appends crypto) d (call.run crypto d) := by
    cases call with
    | register => exact hcall.elim
    | registerWithConfig => exact hcall.elim
    | dispatch height root => exact Appends.dispatchLoop height root _ d []
    | dispatchWithSigner c height root signer =>
        exact Appends.dispatchWithSigner d c height root signer
  generalize call.run crypto d = d' at hsteps
  induction hsteps with
  | refl => exact Grows.refl crypto d
  | tail _ hstep ih => exact ih.trans (Grows.of_appends hstep)

theorem grows_foldl {crypto : AnchorCrypto} (d : AnchorDispatcher) {calls : List DispatcherCall}
    (hcalls : ∀ call ∈ calls, call.IsDispatch) :
    Grows crypto d (calls.foldl (DispatcherCall.run crypto) d) := by
  induction calls generalizing d with
  | nil => exact Grows.refl crypto d
  | cons call calls ih =>
      rw [List.forall_mem_cons] at hcalls
      exact (grows_run d hcalls.1).trans (ih _ hcalls.2)

/-! ## Whose the entries are -/

/-- The dispatcher has made all that is in its logs. -/
def LogsMade (crypto : AnchorCrypto) (d : AnchorDispatcher) : Prop :=
  ∀ c log, d.logs.get? c = some log → ∀ e ∈ log.entries, e.IsMade crypto c

theorem LogsMade.grows {crypto : AnchorCrypto} {d d' : AnchorDispatcher}
    (hmade : LogsMade crypto d) (h : Grows crypto d d') : LogsMade crypto d' := by
  intro c log' hlog' e he
  -- No chain is new, so the log is one that was there.
  obtain ⟨config, hconfig⟩ := exists_config hlog'
  rw [h.configs] at hconfig
  obtain ⟨log, hlog⟩ := exists_log hconfig
  obtain ⟨log'', added, hlog'', hentries, hadded⟩ := h.logs c log hlog
  obtain rfl := Option.some.inj (hlog'.symm.trans hlog'')
  rw [hentries] at he
  rcases List.mem_append.1 he with he | he
  · exact hmade c log hlog e he
  · exact hadded e he

theorem logsMade_runDispatcher (crypto : AnchorCrypto) (calls : List DispatcherCall) :
    LogsMade crypto (runDispatcher crypto calls) := by
  refine runDispatcher_induct (fun c log hlog => ?_) (fun d chainId config hd c log hlog e he => ?_)
    (fun d d' hd hstep => hd.grows (Grows.of_appends hstep)) calls
  · cases hlog
  · rcases log_registerWithConfig hlog with rfl | hold
    · cases he
    · exact hd c log hold e he

/-! ## Agreement -/

/-- The entry is an anchor for the root, by whom the chain's config names. -/
def AnchorEntry.IsBy (crypto : AnchorCrypto) (c : ChainId) (height : U64) (root : Commitment)
    (e : AnchorEntry) : VerifierConfig → Prop
  | .blake3Mac key =>
      ∃ parent, e = ⟨Anchor.new crypto c height root parent key, .blake3Mac⟩
  | .ecdsaSecp256k1 signer => ∃ parent signature,
      e = ⟨Anchor.ecdsa c height root parent, .ecdsaSecp256k1 signature⟩ ∧
        verifyEcdsa crypto (Anchor.ecdsa c height root parent) signature signer = .ok ()
  | .mlDsa65Hybrid _ _ | .sp1ZkProof _ _ _ => False

theorem AnchorEntry.IsBy.stateRoot_eq {crypto : AnchorCrypto} {c : ChainId} {height : U64}
    {root : Commitment} {e : AnchorEntry} {config : VerifierConfig}
    (h : e.IsBy crypto c height root config) : e.anchor.stateRoot = root := by
  cases config with
  | blake3Mac key =>
      obtain ⟨parent, rfl⟩ := h
      rfl
  | ecdsaSecp256k1 signer =>
      obtain ⟨parent, signature, rfl, -⟩ := h
      rfl
  | mlDsa65Hybrid signer mldsaPublicKey => exact h.elim
  | sp1ZkProof vkeyHash expectedPrevStateRoot expectedBlockHash => exact h.elim

section Agreement

variable {crypto : AnchorCrypto} {d : AnchorDispatcher} {c : ChainId} {height : U64}
  {root : Commitment} {e : AnchorEntry}

/-- What the check of one entry says, of an entry that the dispatcher has made. -/
theorem AnchorEntry.IsMade.verify_iff (hmade : e.IsMade crypto c) (config : VerifierConfig) :
    verifyEntryWithConfig crypto e config = true ↔
      e.IsBy crypto c e.anchor.height e.anchor.stateRoot config := by
  cases config with
  | blake3Mac key' =>
      rw [verifyEntryWithConfig_mac]
      cases hmade with
      | mac height root parent key =>
          constructor
          · rintro ⟨-, hverify⟩
            have hmac : computeMac crypto c height root parent key =
                computeMac crypto c height root parent key' := by
              exact Subtype.ext (by simpa [Anchor.verifyMac, Anchor.new] using hverify)
            exact ⟨parent, by simp [Anchor.new, hmac]⟩
          · rintro ⟨parent', heq⟩
            rw [heq]
            simp [Anchor.verifyMac, Anchor.new]
      | ecdsa height root parent signature => simp [AnchorEntry.IsBy]
  | ecdsaSecp256k1 signer =>
      rw [verifyEntryWithConfig_eq_true]
      cases hmade with
      | mac height root parent key =>
          simp [AnchorEntry.IsBy, verifyCredential, VerifierConfig.asExpectedFor, Anchor.new]
      | ecdsa height root parent signature =>
          rw [verifyCredential_ecdsa rfl]
          constructor
          · intro hverify
            exact ⟨parent, signature, rfl, hverify⟩
          · rintro ⟨parent', signature', heq, hverify⟩
            obtain ⟨hanchor, hcredential⟩ := AnchorEntry.mk.inj heq
            obtain rfl := AnchorAuthCredential.ecdsaSecp256k1.inj hcredential
            exact hanchor ▸ hverify
  | mlDsa65Hybrid signer mldsaPublicKey =>
      rw [verifyEntryWithConfig_eq_true]
      cases hmade <;>
        simp [AnchorEntry.IsBy, verifyCredential, VerifierConfig.asExpectedFor, Anchor.new,
          Anchor.ecdsa]
  | sp1ZkProof vkeyHash expectedPrevStateRoot expectedBlockHash =>
      rw [verifyEntryWithConfig_eq_true]
      cases hmade <;>
        simp [AnchorEntry.IsBy, verifyCredential, VerifierConfig.asExpectedFor, Anchor.new,
          Anchor.ecdsa]

/-- The check in terms of the entries of the height. -/
theorem LogsWellFormed.parityCheck_eq_agreed (hwf : LogsWellFormed crypto d) :
    d.parityCheck crypto height = some (.agreed root) ↔
      (∃ c, (d.configs.get? c).isSome) ∧ ∀ c config, d.configs.get? c = some config →
        ∃ e, HoldsEntry d height c e ∧ verifyEntryWithConfig crypto e config = true ∧
          e.anchor.stateRoot = root := by
  rw [AnchorDispatcher.parityCheck_eq_agreed]
  refine and_congr (exists_congr fun c => by rw [d.matched]) ⟨fun h c config hconfig => ?_,
    fun h c log hlog => ?_⟩
  · obtain ⟨log, hlog⟩ := exists_log hconfig
    obtain ⟨e, config', he, hconfig', hverify, hroot⟩ := h c log hlog
    obtain rfl := Option.some.inj (hconfig.symm.trans hconfig')
    exact ⟨e, ⟨log, hlog, (hwf c log hlog).2.entryAt_eq_some.1 he⟩, hverify, hroot⟩
  · obtain ⟨config, hconfig⟩ := exists_config hlog
    obtain ⟨e, ⟨log', hlog', he⟩, hverify, hroot⟩ := h c config hconfig
    obtain rfl := Option.some.inj (hlog.symm.trans hlog')
    exact ⟨e, config, (hwf c log hlog).2.entryAt_eq_some.2 he, hconfig, hverify, hroot⟩

end Agreement

/-- After any calls, the check at a height agrees on a root if and only if a chain is registered and
every registered chain has an entry of the height that is an anchor for the root by whom its config
names now. -/
theorem agreed_iff (crypto : AnchorCrypto) (calls : List DispatcherCall) (height : U64)
    (root : Commitment) :
    (runDispatcher crypto calls).parityCheck crypto height = some (.agreed root) ↔
      (∃ c, ((runDispatcher crypto calls).configs.get? c).isSome) ∧
      ∀ c config, (runDispatcher crypto calls).configs.get? c = some config →
        ∃ e, HoldsEntry (runDispatcher crypto calls) height c e ∧
          e.IsBy crypto c height root config := by
  have hwf := logsWellFormed_runDispatcher crypto calls
  have hmade := logsMade_runDispatcher crypto calls
  generalize runDispatcher crypto calls = d at hwf hmade ⊢
  rw [hwf.parityCheck_eq_agreed]
  refine and_congr Iff.rfl (forall₃_congr fun c config hconfig => exists_congr fun e =>
    and_congr_right fun he => ?_)
  obtain ⟨log, hlog, hmem, rfl⟩ := he
  rw [(hmade c log hlog e hmem).verify_iff config]
  constructor
  · rintro ⟨hby, rfl⟩
    exact hby
  · intro hby
    obtain rfl := hby.stateRoot_eq
    exact ⟨hby, rfl⟩

/-- Once the check at a height agrees on a root, it does so after any further dispatches, of any
roots at any heights and by any signers, whether they succeed or not. -/
theorem agreement_stable (crypto : AnchorCrypto) (calls later : List DispatcherCall) (height : U64)
    (root : Commitment) (hlater : ∀ call ∈ later, call.IsDispatch)
    (hagreed : (runDispatcher crypto calls).parityCheck crypto height = some (.agreed root)) :
    (runDispatcher crypto (calls ++ later)).parityCheck crypto height = some (.agreed root) := by
  have hgrows : Grows crypto (runDispatcher crypto calls)
      (runDispatcher crypto (calls ++ later)) := by
    rw [runDispatcher, runDispatcher, List.foldl_append]
    exact grows_foldl _ hlater
  rw [(logsWellFormed_runDispatcher crypto _).parityCheck_eq_agreed] at hagreed ⊢
  rw [hgrows.configs]
  refine ⟨hagreed.1, fun c config hconfig => ?_⟩
  obtain ⟨e, he, hverify⟩ := hagreed.2 c config hconfig
  exact ⟨e, hgrows.holdsEntry he, hverify⟩

/-- A chain with a MAC gets its anchor from the dispatch, which then stops at the signed chain; that
one gets its anchor from the signer. -/
def agreedCalls : List DispatcherCall := [
  .register 3 (constBytes 32 1), .registerWithConfig 7 (.ecdsaSecp256k1 authAddress),
  .dispatch 0 (digestOf 0), .dispatchWithSigner 7 0 (digestOf 0) authSigner]

/-- Another root for the same height, and then for the next, which only the first chain gets. -/
def laterCalls : List DispatcherCall := [
  .dispatch 0 (digestOf 5), .dispatchWithSigner 7 0 (digestOf 5) authSigner,
  .dispatch 1 (digestOf 6)]

theorem agreement_stable_agreedCalls :
    ((∀ call ∈ laterCalls, call.IsDispatch) ∧
      (runDispatcher authCrypto agreedCalls).parityCheck authCrypto 0 =
        some (.agreed (digestOf 0))) ∧
    (runDispatcher authCrypto (agreedCalls ++ laterCalls)).parityCheck authCrypto 0 =
      some (.agreed (digestOf 0)) := by
  have hlater : ∀ call ∈ laterCalls, call.IsDispatch := by
    simp [laterCalls, DispatcherCall.IsDispatch]
  have hagreed : (runDispatcher authCrypto agreedCalls).parityCheck authCrypto 0 =
      some (.agreed (digestOf 0)) := by
    decide +kernel
  exact ⟨⟨hlater, hagreed⟩,
    agreement_stable authCrypto agreedCalls laterCalls 0 (digestOf 0) hlater hagreed⟩

end SuwappuDb
