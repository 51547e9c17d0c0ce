import SuwappuDb.Anchor
import SuwappuDb.Lib.HashChain

/-!
# The anchor log

`crates/suwappudb-bridge/src/anchor/log.rs`: one chain's anchors, each with the credential it was
accepted with, and the two ways to append.

* `appendWithCredential_cases` — what one append can do. An entry is pushed if it names the tip of
  the log, has the next height and verifies; in all other cases the log stays.
* `WellFormed` — the entries are of the log's chain, the entry at an index has that height, and they
  are a hash chain. An append keeps it, so it holds after any calls of either entry point.
* `wellFormed_runCalls` — the statement about whole runs.

`none` is the panic of `height + 1` at the last height there is. Nothing has been written by then.
-/

namespace SuwappuDb

inductive AppendError where
  | chainMismatch (log anchor : ChainId)
  | parentMismatch (expected got : AnchorHash)
  | heightGap (expected got : U64)
  | badAuth
  | unsupportedAuthScheme (scheme : AuthScheme)
  | schemeRequiresSigner
  | credentialInvalid (error : CredentialVerifyError)
  deriving DecidableEq

/-- An anchor with the credential beside it. -/
structure AnchorEntry where
  anchor : Anchor
  credential : AnchorAuthCredential
  deriving DecidableEq

structure AnchorLog where
  chainId : ChainId
  entries : List AnchorEntry
  deriving DecidableEq

/-- Rust's `h + 1`: no result when it would wrap around. -/
def succ? (h : U64) : Option U64 :=
  if hlt : h.val + 1 < 2 ^ 64 then some ⟨h.val + 1, hlt⟩ else none

namespace AnchorLog

variable (crypto : AnchorCrypto)

def new (chainId : ChainId) : AnchorLog := ⟨chainId, []⟩

/-- The hash that the next anchor has to name. -/
def tip (log : AnchorLog) : AnchorHash :=
  HashChain.tip (fun e : AnchorEntry => e.anchor.hash crypto) Anchor.GENESIS_PARENT log.entries

/-- The parent and the height of the next anchor. -/
def expectedNext (log : AnchorLog) : Option (AnchorHash × U64) :=
  match log.entries.getLast? with
  | some prev => (succ? prev.anchor.height).map fun height => (prev.anchor.hash crypto, height)
  | none => some (Anchor.GENESIS_PARENT, 0)

def appendWithCredential (log : AnchorLog) (anchor : Anchor) (credential : AnchorAuthCredential)
    (config : VerifierConfig) : Option (AnchorLog × Except AppendError Unit) :=
  if anchor.chainId ≠ log.chainId then
    some (log, .error (.chainMismatch log.chainId anchor.chainId))
  else do
    let (expectedParent, expectedHeight) ← log.expectedNext crypto
    if anchor.parent ≠ expectedParent then
      some (log, .error (.parentMismatch expectedParent anchor.parent))
    else if anchor.height ≠ expectedHeight then
      some (log, .error (.heightGap expectedHeight anchor.height))
    else
      match verifyCredential crypto anchor credential (config.asExpectedFor anchor) with
      | .error e => some (log, .error (.credentialInvalid e))
      | .ok () => some ({ log with entries := log.entries ++ [⟨anchor, credential⟩] }, .ok ())

/-- The error an older caller of `append` expects. -/
def legacyResult : Except AppendError Unit → Except AppendError Unit
  | .error (.credentialInvalid .blake3MacInvalid) => .error .badAuth
  | other => other

def append (log : AnchorLog) (anchor : Anchor) (key : ByteArr 32) :
    Option (AnchorLog × Except AppendError Unit) :=
  let auth := if anchor.chainId = log.chainId then anchor.verifyAuthResult crypto key else .ok ()
  match auth with
  | .error (.unsupportedScheme scheme) => some (log, .error (.unsupportedAuthScheme scheme))
  | _ =>
      -- A MAC that does not verify is found again below, after the parent and the height.
      (log.appendWithCredential crypto anchor .blake3Mac (.blake3Mac key)).map fun r =>
        (r.1, legacyResult r.2)

def entryAt (log : AnchorLog) (height : U64) : Option AnchorEntry := log.entries[height.val]?

def latest (log : AnchorLog) : Option Anchor := log.entries.getLast?.map AnchorEntry.anchor

end AnchorLog

def AnchorLog.at (log : AnchorLog) (height : U64) : Option Anchor :=
  (log.entryAt height).map AnchorEntry.anchor

/-! ## One append -/

theorem succ?_eq_some {h h' : U64} : succ? h = some h' ↔ h'.val = h.val + 1 := by
  unfold succ?
  split_ifs with hlt
  · simp [Fin.ext_iff, eq_comm]
  · have hbound := h'.isLt
    simp only [false_iff]
    omega

namespace AnchorLog

variable {crypto : AnchorCrypto} {log log' : AnchorLog} {anchor : Anchor}
  {credential : AnchorAuthCredential} {config : VerifierConfig} {key : ByteArr 32}
  {result : Except AppendError Unit}

/-- The height after the last entry's. -/
def IsNext (log : AnchorLog) (height : U64) : Prop :=
  match log.entries.getLast? with
  | some prev => height.val = prev.anchor.height.val + 1
  | none => height = 0

theorem expectedNext_eq_some {parent : AnchorHash} {height : U64} :
    log.expectedNext crypto = some (parent, height) ↔
      parent = log.tip crypto ∧ log.IsNext height := by
  unfold expectedNext tip IsNext HashChain.tip
  cases log.entries.getLast? with
  | none => simp [eq_comm]
  | some prev =>
      simp only [Option.map_eq_some_iff, Option.map_some, Option.getD_some, Prod.mk.injEq]
      constructor
      · rintro ⟨height', hsucc, rfl, rfl⟩
        exact ⟨rfl, succ?_eq_some.1 hsucc⟩
      · rintro ⟨rfl, hheight⟩
        exact ⟨height, succ?_eq_some.2 hheight, rfl, rfl⟩

/-- What an entry has to fulfil to be appended. -/
structure Accepts (crypto : AnchorCrypto) (log : AnchorLog) (entry : AnchorEntry)
    (config : VerifierConfig) : Prop where
  chainId : entry.anchor.chainId = log.chainId
  parent : entry.anchor.parent = log.tip crypto
  height : log.IsNext entry.anchor.height
  verified : verifyCredential crypto entry.anchor entry.credential
    (config.asExpectedFor entry.anchor) = .ok ()

/-- The log with one more entry. -/
def push (log : AnchorLog) (entry : AnchorEntry) : AnchorLog :=
  { log with entries := log.entries ++ [entry] }

/-- What an append can do. -/
theorem appendWithCredential_cases
    (h : log.appendWithCredential crypto anchor credential config = some (log', result)) :
    (∃ e, result = .error e ∧ log' = log) ∨
      (result = .ok () ∧ log' = log.push ⟨anchor, credential⟩ ∧
        log.Accepts crypto ⟨anchor, credential⟩ config) := by
  unfold appendWithCredential at h
  split_ifs at h with hchain
  · obtain ⟨rfl, rfl⟩ := Prod.mk.inj (Option.some.inj h)
    exact Or.inl ⟨_, rfl, rfl⟩
  obtain ⟨⟨parent, height⟩, hnext, h⟩ := Option.bind_eq_some_iff.1 h
  obtain ⟨rfl, hheight⟩ := expectedNext_eq_some.1 hnext
  dsimp only at h
  split_ifs at h with hparent hgap
  · obtain ⟨rfl, rfl⟩ := Prod.mk.inj (Option.some.inj h)
    exact Or.inl ⟨_, rfl, rfl⟩
  · obtain ⟨rfl, rfl⟩ := Prod.mk.inj (Option.some.inj h)
    exact Or.inl ⟨_, rfl, rfl⟩
  · rw [ne_eq, not_not] at hchain hparent hgap
    subst hgap
    cases hverify : verifyCredential crypto anchor credential (config.asExpectedFor anchor) with
    | error e =>
        rw [hverify] at h
        obtain ⟨rfl, rfl⟩ := Prod.mk.inj (Option.some.inj h)
        exact Or.inl ⟨_, rfl, rfl⟩
    | ok u =>
        rw [hverify] at h
        obtain ⟨rfl, rfl⟩ := Prod.mk.inj (Option.some.inj h)
        exact Or.inr ⟨rfl, rfl, hchain, hparent, hheight, hverify⟩

/-- What meets the conditions is appended. -/
theorem Accepts.appendWithCredential_eq (h : log.Accepts crypto ⟨anchor, credential⟩ config) :
    log.appendWithCredential crypto anchor credential config =
      some (log.push ⟨anchor, credential⟩, .ok ()) := by
  have hnext : log.expectedNext crypto = some (anchor.parent, anchor.height) :=
    expectedNext_eq_some.2 ⟨h.parent, h.height⟩
  have hchain : anchor.chainId = log.chainId := h.chainId
  have hverified : verifyCredential crypto anchor credential (config.asExpectedFor anchor) =
    .ok () := h.verified
  simp [appendWithCredential, hchain, hnext, hverified, push]

/-- `append` does what `appendWithCredential` does with the credential of a MAC. -/
theorem append_cases (h : log.append crypto anchor key = some (log', result)) :
    (∃ e, result = .error e ∧ log' = log) ∨
      (result = .ok () ∧ log' = log.push ⟨anchor, .blake3Mac⟩ ∧
        log.Accepts crypto ⟨anchor, .blake3Mac⟩ (.blake3Mac key)) := by
  unfold append at h
  dsimp only at h
  generalize (if anchor.chainId = log.chainId then _ else _) = auth at h
  split at h
  · obtain ⟨rfl, rfl⟩ := Prod.mk.inj (Option.some.inj h)
    exact Or.inl ⟨_, rfl, rfl⟩
  · obtain ⟨⟨log'', result'⟩, happend, heq⟩ := Option.map_eq_some_iff.1 h
    obtain ⟨rfl, rfl⟩ := Prod.mk.inj heq
    rcases appendWithCredential_cases happend with ⟨e, rfl, rfl⟩ | ⟨rfl, rfl, haccepts⟩
    · refine Or.inl ?_
      unfold legacyResult
      split
      · exact ⟨_, rfl, rfl⟩
      · exact ⟨_, rfl, rfl⟩
    · exact Or.inr ⟨rfl, rfl, haccepts⟩

/-! ## Well-formed logs -/

/-- The entry at an index has that height. -/
def Dense (log : AnchorLog) : Prop :=
  ∀ i (e : AnchorEntry), log.entries[i]? = some e → e.anchor.height.val = i

/-- The entries are a hash chain of the log's chain, the entry at an index having that height. -/
structure WellFormed (crypto : AnchorCrypto) (log : AnchorLog) : Prop where
  chainId : ∀ e ∈ log.entries, e.anchor.chainId = log.chainId
  dense : log.Dense
  linked : HashChain.Linked (fun e : AnchorEntry => e.anchor.hash crypto)
    (fun e => e.anchor.parent) Anchor.GENESIS_PARENT log.entries

theorem wellFormed_new (crypto : AnchorCrypto) (chainId : ChainId) :
    (new chainId).WellFormed crypto where
  chainId := by simp [new]
  dense := by simp [Dense, new]
  linked := HashChain.linked_nil

/-- In a dense log the next height is the length. -/
theorem isNext_iff (hdense : log.Dense) {height : U64} :
    log.IsNext height ↔ height.val = log.entries.length := by
  unfold IsNext
  cases hlast : log.entries.getLast? with
  | none =>
      rw [List.getLast?_eq_none_iff] at hlast
      rw [hlast, Fin.ext_iff]
      rfl
  | some prev =>
      have hne : log.entries ≠ [] := by
        rintro hnil
        simp [hnil] at hlast
      have hpos := List.length_pos_of_ne_nil hne
      rw [List.getLast?_eq_getElem?] at hlast
      have hprev := hdense _ prev hlast
      show height.val = prev.anchor.height.val + 1 ↔ _
      omega

theorem WellFormed.push (hwf : log.WellFormed crypto) {entry : AnchorEntry}
    (haccepts : log.Accepts crypto entry config) : (log.push entry).WellFormed crypto where
  chainId e he := by
    rcases List.mem_append.1 he with hmem | hmem
    · exact hwf.chainId e hmem
    · rw [List.mem_singleton.1 hmem]
      exact haccepts.chainId
  dense i e he := by
    rcases Nat.lt_trichotomy i log.entries.length with hlt | rfl | hgt
    · exact hwf.dense i e (by rwa [AnchorLog.push, List.getElem?_append_left hlt] at he)
    · obtain rfl : entry = e := by simpa [AnchorLog.push] using he
      exact (isNext_iff hwf.dense).1 haccepts.height
    · have hnone : (log.push entry).entries[i]? = none :=
        List.getElem?_eq_none (by simp [AnchorLog.push]; omega)
      rw [hnone] at he
      cases he
  linked := hwf.linked.concat haccepts.parent

theorem expectedNext_of_dense (hdense : log.Dense) :
    log.expectedNext crypto =
      if h : log.entries.length < 2 ^ 64 then some (log.tip crypto, ⟨log.entries.length, h⟩)
      else none := by
  refine Option.ext fun p => ?_
  obtain ⟨parent, height⟩ := p
  rw [expectedNext_eq_some, isNext_iff hdense]
  split_ifs with h
  · simp [Fin.ext_iff, eq_comm]
  · have hbound := height.isLt
    simp only [iff_false, not_and]
    omega

/-- What a dense log says to an anchor of its chain that names its tip and verifies. -/
theorem appendWithCredential_of_dense (hdense : log.Dense) (hchain : anchor.chainId = log.chainId)
    (hparent : anchor.parent = log.tip crypto)
    (hverify : verifyCredential crypto anchor credential (config.asExpectedFor anchor) = .ok ()) :
    log.appendWithCredential crypto anchor credential config =
      if h : log.entries.length < 2 ^ 64 then
        if anchor.height.val = log.entries.length then
          some (log.push ⟨anchor, credential⟩, .ok ())
        else some (log, .error (.heightGap ⟨log.entries.length, h⟩ anchor.height))
      else none := by
  rw [appendWithCredential, if_neg (not_not.2 hchain), expectedNext_of_dense hdense]
  split_ifs with h hheight
  · simp [hparent, hverify, Fin.ext_iff, hheight, push]
  · simp [hparent, Fin.ext_iff, hheight]
  · rfl

theorem append_of_dense (hdense : log.Dense) (hchain : anchor.chainId = log.chainId)
    (hparent : anchor.parent = log.tip crypto) (hscheme : anchor.authScheme = .blake3Mac)
    (hmac : anchor.verifyMac crypto key = true) :
    log.append crypto anchor key =
      if h : log.entries.length < 2 ^ 64 then
        if anchor.height.val = log.entries.length then
          some (log.push ⟨anchor, .blake3Mac⟩, .ok ())
        else some (log, .error (.heightGap ⟨log.entries.length, h⟩ anchor.height))
      else none := by
  have hauth : anchor.verifyAuthResult crypto key = .ok () := by
    simp [Anchor.verifyAuthResult, hscheme, hmac]
  have hverify : verifyCredential crypto anchor .blake3Mac
      ((VerifierConfig.blake3Mac key).asExpectedFor anchor) = .ok () := by
    simp [verifyCredential, VerifierConfig.asExpectedFor, hscheme, hmac]
  rw [append, if_pos hchain, hauth]
  dsimp only
  rw [appendWithCredential_of_dense hdense hchain hparent hverify]
  split_ifs <;> rfl

theorem hash_latest (crypto : AnchorCrypto) (log : AnchorLog) :
    (log.latest.map (Anchor.hash crypto)).getD Anchor.GENESIS_PARENT = log.tip crypto := by
  rw [latest, Option.map_map]
  rfl

/-- In a dense log the entry at a height is the one that has it. -/
theorem WellFormed.entryAt_eq_some (hwf : log.WellFormed crypto) {height : U64} {e : AnchorEntry} :
    log.entryAt height = some e ↔ e ∈ log.entries ∧ e.anchor.height = height := by
  rw [entryAt]
  constructor
  · intro he
    exact ⟨List.mem_of_getElem? he, Fin.ext (hwf.dense _ e he)⟩
  · rintro ⟨hmem, rfl⟩
    obtain ⟨i, hi⟩ := List.getElem?_of_mem hmem
    rwa [hwf.dense i e hi]

theorem WellFormed.at_eq_some (hwf : log.WellFormed crypto) {height : U64} {a : Anchor} :
    log.at height = some a ↔ (∃ e ∈ log.entries, e.anchor = a) ∧ a.height = height := by
  simp only [AnchorLog.at, Option.map_eq_some_iff, hwf.entryAt_eq_some]
  constructor
  · rintro ⟨e, ⟨hmem, hheight⟩, rfl⟩
    exact ⟨⟨e, hmem, rfl⟩, hheight⟩
  · rintro ⟨⟨e, hmem, rfl⟩, hheight⟩
    exact ⟨e, ⟨hmem, hheight⟩, rfl⟩

end AnchorLog

/-! ## Runs -/

/-- A call of one of the two entry points. -/
inductive LogCall where
  | append (anchor : Anchor) (key : ByteArr 32)
  | appendWithCredential (anchor : Anchor) (credential : AnchorAuthCredential)
      (config : VerifierConfig)

namespace LogCall

def run (crypto : AnchorCrypto) (log : AnchorLog) :
    LogCall → Option (AnchorLog × Except AppendError Unit)
  | .append anchor key => log.append crypto anchor key
  | .appendWithCredential anchor credential config =>
      log.appendWithCredential crypto anchor credential config

/-- What the call would push. -/
def entry : LogCall → AnchorEntry
  | .append anchor _ => ⟨anchor, .blake3Mac⟩
  | .appendWithCredential anchor credential _ => ⟨anchor, credential⟩

/-- What the call verifies it with. -/
def config : LogCall → VerifierConfig
  | .append _ key => .blake3Mac key
  | .appendWithCredential _ _ config => config

theorem run_cases {crypto : AnchorCrypto} {log log' : AnchorLog} {result : Except AppendError Unit}
    {call : LogCall} (h : call.run crypto log = some (log', result)) :
    (∃ e, result = .error e ∧ log' = log) ∨
      (result = .ok () ∧ log' = log.push call.entry ∧
        log.Accepts crypto call.entry call.config) := by
  cases call with
  | append anchor key => exact AnchorLog.append_cases h
  | appendWithCredential anchor credential config => exact AnchorLog.appendWithCredential_cases h

end LogCall

/-- A log with, entry by entry, the config each was appended with. -/
structure LogRun where
  log : AnchorLog
  configs : List VerifierConfig

namespace LogRun

variable (crypto : AnchorCrypto)

/-- A call that panics has not touched the log. -/
def step (r : LogRun) (call : LogCall) : LogRun :=
  match call.run crypto r.log with
  | some (log, .ok ()) => ⟨log, r.configs ++ [call.config]⟩
  | some (log, .error _) => ⟨log, r.configs⟩
  | none => r

/-- Any calls, on a new log. -/
def runCalls (chainId : ChainId) (calls : List LogCall) : LogRun :=
  calls.foldl (step crypto) ⟨AnchorLog.new chainId, []⟩

/-- The log is well formed and its entries verify under their configs. -/
structure Inv (chainId : ChainId) (r : LogRun) : Prop where
  chainId : r.log.chainId = chainId
  wellFormed : r.log.WellFormed crypto
  verified : List.Forall₂ (fun (e : AnchorEntry) (config : VerifierConfig) =>
    verifyCredential crypto e.anchor e.credential (config.asExpectedFor e.anchor) = .ok ())
    r.log.entries r.configs

variable {crypto}

theorem Inv.step {chainId : ChainId} {r : LogRun} (h : r.Inv crypto chainId) (call : LogCall) :
    (r.step crypto call).Inv crypto chainId := by
  unfold LogRun.step
  cases hrun : call.run crypto r.log with
  | none => exact h
  | some p =>
      obtain ⟨log, result⟩ := p
      rcases LogCall.run_cases hrun with ⟨e, rfl, rfl⟩ | ⟨rfl, rfl, haccepts⟩
      · exact h
      · exact {
          chainId := h.chainId
          wellFormed := h.wellFormed.push haccepts
          verified := List.rel_append h.verified (.cons haccepts.verified .nil) }

theorem inv_runCalls (crypto : AnchorCrypto) (chainId : ChainId) (calls : List LogCall) :
    (runCalls crypto chainId calls).Inv crypto chainId := by
  have hstart : (⟨AnchorLog.new chainId, []⟩ : LogRun).Inv crypto chainId :=
    ⟨rfl, AnchorLog.wellFormed_new crypto chainId, .nil⟩
  unfold runCalls
  apply List.foldlRecOn (motive := fun r : LogRun => r.Inv crypto chainId) calls _ hstart
  intro r hr call _
  exact hr.step call

end LogRun

/-- After any calls a log is dense and linked, its entries verified under the config they were
appended with, and `at` finds the entry of a height. A call that returns an error leaves it
alone. -/
theorem wellFormed_runCalls (crypto : AnchorCrypto) (chainId : ChainId) (calls : List LogCall) :
    ∃ log configs, LogRun.runCalls crypto chainId calls = ⟨log, configs⟩ ∧
      log.chainId = chainId ∧
      (∀ (h : Nat) (e : AnchorEntry), log.entries[h]? = some e →
        e.anchor.height.val = h ∧ e.anchor.chainId = chainId ∧
        (h = 0 → e.anchor.parent = Anchor.GENESIS_PARENT) ∧
        ∀ (h' : Nat) (prev : AnchorEntry), h = h' + 1 → log.entries[h']? = some prev →
          e.anchor.parent = prev.anchor.hash crypto) ∧
      configs.length = log.entries.length ∧
      (∀ (h : Nat) (e : AnchorEntry) (config : VerifierConfig), log.entries[h]? = some e →
        configs[h]? = some config →
        verifyCredential crypto e.anchor e.credential (config.asExpectedFor e.anchor) = .ok ()) ∧
      (∀ h a, log.at h = some a ↔ (∃ e ∈ log.entries, e.anchor = a) ∧ a.height = h) ∧
      ∀ call log' e, LogCall.run crypto log call = some (log', .error e) → log' = log := by
  have hinv := LogRun.inv_runCalls crypto chainId calls
  refine ⟨_, _, rfl, hinv.chainId, fun h e he => ⟨hinv.wellFormed.dense h e he, ?_, ?_, ?_⟩,
    hinv.verified.length_eq.symm, fun h e config he hconfig => ?_,
    fun h a => hinv.wellFormed.at_eq_some, fun call log' e hcall => ?_⟩
  · exact (hinv.wellFormed.chainId e (List.mem_of_getElem? he)).trans hinv.chainId
  · rintro rfl
    exact hinv.wellFormed.linked.first e he
  · rintro h' prev rfl hprev
    exact hinv.wellFormed.linked.next h' prev e hprev he
  · obtain ⟨hh, rfl⟩ := List.getElem?_eq_some_iff.1 he
    obtain ⟨hh', rfl⟩ := List.getElem?_eq_some_iff.1 hconfig
    exact hinv.verified.get hh hh'
  · rcases LogCall.run_cases hcall with ⟨-, -, hlog⟩ | ⟨hok, -, -⟩
    · exact hlog
    · cases hok

end SuwappuDb
