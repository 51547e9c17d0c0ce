import SuwappuDb.AptosMove
import SuwappuDb.MoveBundle

/-!
# The coin module and its stand-ins

A transfer of the canonical coin is written down in `move/canonical-coin/sources/coin.move`. It
reaches the state in two ways: the mock executor imitates it on the balances of a view, and the
Aptos executor runs it on `CoinStore`s made from such a view and reads the written ones back.

* **The mock** (`mock_matches_coin_iff`). The module changes a store in place and reads it again;
  the mock computes both balances from the view and writes them one after the other. They part
  where the two writes meet, and where 64 bits are not enough: the module aborts, the mock does not.
* **The stores** (`coin_transfer_exact_iff`). A store shows at most `2 ^ 64 - 1` coins of an
  account, and what it does not show is gone after the transfer.
-/

namespace SuwappuDb

/-! ## When the coin aborts -/

/-- A transfer over a balance view succeeds if the debited store has the amount and the two sums fit
into 64 bits. To oneself, the amount is added where it was taken away. -/
theorem Coin.exists_transfer_iff (view : MoveBalanceView) (src dst : MoveAddress) (amount : U64) :
    (∃ written, Coin.transfer (balanceViewResolver view) src dst amount = .ok written) ↔
      amount.val ≤ (u64OrMax (view.coinValue src)).val ∧
      (view.nonce src).value.val + 1 < 2 ^ 64 ∧
      (dst ≠ src → (u64OrMax (view.coinValue dst)).val + amount.val < 2 ^ 64) := by
  simp only [Coin.transfer, borrowGlobalMut_view, bind_eq_ok_iff, Except.ok.injEq, exists_eq_left',
    addU64_eq_ok, subU64_eq_ok, pure, Except.pure, OrdMap.get?_insert, OrdMap.get?_empty,
    Option.getD_none]
  constructor
  · intro h
    obtain ⟨-, -, -, fromValue, ⟨hle, -⟩, fromSequence, hsequence, toValue, hto, -⟩ := h
    refine ⟨hle, ?_, fun hne => ?_⟩
    · have hfits := fromSequence.isLt
      rw [← hsequence] at hfits
      exact hfits
    · have hfits := toValue.isLt
      rw [← hto, if_neg hne] at hfits
      exact hfits
  · intro h
    obtain ⟨hle, hsequence, hto⟩ := h
    have hfrom : (u64OrMax (view.coinValue src)).val - amount.val < 2 ^ 64 :=
      (Nat.sub_le _ _).trans_lt (u64OrMax (view.coinValue src)).isLt
    refine ⟨_, (), if_pos hle, ⟨_, hfrom⟩, ⟨hle, rfl⟩, ⟨_, hsequence⟩, rfl, ⟨_, ?_⟩, rfl, rfl⟩
    split_ifs with heq
    · show (u64OrMax (view.coinValue src)).val - amount.val + amount.val < 2 ^ 64
      rw [Nat.sub_add_cancel hle]
      exact (u64OrMax (view.coinValue src)).isLt
    · exact hto heq

/-! ## The mock's transfer -/

theorem ofNat_leValue_leBytes_toU128 (amount : U64) :
    Fin.ofNat (2 ^ 128) (leValue (leBytes 8 amount.val)) = U64.toU128 amount := by
  rw [@leValue_leBytes 8 _ amount.isLt]
  exact Fin.ext (Nat.mod_eq_of_lt (U64.lt_two_pow_128 amount))

/-- The mock aborts if the caller has too little in the view, and otherwise writes both balances. -/
theorem MoveCall.IsCoinTransfer.execute_u64 {call : MoveCall} {dst : MoveAddress} {amount : U64}
    (h : call.IsCoinTransfer dst (leBytes 8 amount.val)) {view : MoveBalanceView}
    (hfits : (view.coinValue dst).val + amount.val < 2 ^ 128) (modules : InMemoryModuleStore) :
    ((view.coinValue call.caller).val < amount.val ∧
      ∃ e, mockMoveExecutor call modules view = some (.error e)) ∨
    ∃ callerNew recipientNew : U128,
      callerNew.val + amount.val = (view.coinValue call.caller).val ∧
      recipientNew.val = (view.coinValue dst).val + amount.val ∧
      mockMoveExecutor call modules view = some (.ok { resourceWrites :=
        [⟨call.caller, callerNew, (view.nonce call.caller).next⟩,
         ⟨dst, recipientNew, view.nonce dst⟩] }) := by
  have hcases := h.execute modules view
  rw [ofNat_leValue_leBytes_toU128] at hcases
  rcases hcases with ⟨hpoor, herror⟩ | ⟨hnone, -⟩ | hok
  · exact .inl ⟨hpoor (length_leBytes 8 _), herror⟩
  · have hadd : checkedAdd (view.coinValue dst) (U64.toU128 amount) =
        some ⟨(view.coinValue dst).val + amount.val, hfits⟩ := checkedAdd_eq_some.2 rfl
    cases hnone.symm.trans hadd
  · exact .inr hok

/-! ## The mock against the module -/

/-- What the module leaves: an account has the value of the store that was written for it, and what
it had if none was. -/
def LeavesStores (s s' : State) (written : Globals) : Prop :=
  (∀ m store, written.get? m = some store →
    s'.balanceOf (moveAddrToEvm m) = U64.toU128 store.value) ∧
  ∀ a, (∀ m, moveAddrToEvm m = a → written.get? m = none) → s'.balanceOf a = s.balanceOf a

/-- The mock does what the module does. -/
structure MockMatches (modules : InMemoryModuleStore) (view : MoveBalanceView) (s : State)
    (call : MoveCall) (dst : MoveAddress) (amount : U64) : Prop where
  returns : ∃ ran, mockMoveExecutor call modules view = some ran
  aborts : (∃ e, mockMoveExecutor call modules view = some (.error e)) ↔
    ∃ e, Coin.transfer (balanceViewResolver view) call.caller dst amount = .error e
  balances : ∀ outcome written, mockMoveExecutor call modules view = some (.ok outcome) →
    Coin.transfer (balanceViewResolver view) call.caller dst amount = .ok written →
    LeavesStores s (BundleExecutor.applyResourceWrites s outcome.resourceWrites) written
  supply : ∀ outcome, mockMoveExecutor call modules view = some (.ok outcome) →
    view.coinValue call.caller = s.balanceOf (moveAddrToEvm call.caller) →
    view.coinValue dst = s.balanceOf (moveAddrToEvm dst) →
    (BundleExecutor.applyResourceWrites s outcome.resourceWrites).supply = s.supply

/-- Where the mock and the module agree. Both abort; or neither sum leaves 64 bits, nothing is moved
to oneself, and two addresses of one account are left with one balance. -/
def CoinsAgree (view : MoveBalanceView) (caller dst : MoveAddress) (amount : U64) : Prop :=
  (view.coinValue caller).val < amount.val ∨
  ((view.nonce caller).value.val + 1 < 2 ^ 64 ∧ (dst = caller → amount.val = 0) ∧
    (dst ≠ caller → (view.coinValue dst).val + amount.val < 2 ^ 64 ∧
      (moveAddrToEvm dst = moveAddrToEvm caller →
        (view.coinValue dst).val + amount.val + amount.val = (view.coinValue caller).val)))

instance (view : MoveBalanceView) (caller dst : MoveAddress) (amount : U64) :
    Decidable (CoinsAgree view caller dst amount) :=
  inferInstanceAs (Decidable (_ ∨ _))

section Writes

variable {s : State} {src dst : MoveAddress} {x y : U128} {nonce nonce' : AccountNonce}

theorem leavesStores_iff {fromStore toStore : CoinStore} :
    LeavesStores s (BundleExecutor.applyResourceWrites s [⟨src, x, nonce⟩, ⟨dst, y, nonce'⟩])
        (((∅ : Globals).insert src fromStore).insert dst toStore) ↔
      y = U64.toU128 toStore.value ∧
      (dst ≠ src → (if moveAddrToEvm src = moveAddrToEvm dst then y else x) =
        U64.toU128 fromStore.value) := by
  simp only [LeavesStores, balanceOf_two_writes, OrdMap.get?_insert, OrdMap.get?_empty]
  constructor
  · intro h
    refine ⟨?_, fun hne => ?_⟩
    · simpa using h.1 dst toStore (if_pos rfl)
    · simpa [Ne.symm hne] using h.1 src fromStore
  · intro h
    refine ⟨fun m store hstore => ?_, fun a hnone => ?_⟩
    · split_ifs at hstore with hdst hsrc
      · cases hstore
        rw [hdst, if_pos rfl, h.1]
      · cases hstore
        rw [hsrc, if_pos rfl]
        exact h.2 fun heq => hdst (hsrc.trans heq.symm)
    · have hdst : a ≠ moveAddrToEvm dst := by
        intro heq
        simpa using hnone dst heq.symm
      have hsrc : a ≠ moveAddrToEvm src := by
        intro heq
        have hget := hnone src heq.symm
        rw [if_pos (rfl : src = src)] at hget
        split_ifs at hget
      rw [if_neg hdst, if_neg hsrc]

/-- Two writes that move an amount are those of the module's stores, unless one of them hides the
other. -/
theorem leavesStores_transfer_iff {b : MoveAddress → Nat} {amount : Nat}
    {fromStore toStore : CoinStore} (hx : x.val + amount = b src)
    (hy : y.val = b dst + amount) (hfrom : fromStore.value.val = b src - amount)
    (hto : toStore.value.val = (if dst = src then b src - amount else b dst) + amount) :
    LeavesStores s (BundleExecutor.applyResourceWrites s [⟨src, x, nonce⟩, ⟨dst, y, nonce'⟩])
        (((∅ : Globals).insert src fromStore).insert dst toStore) ↔
      (dst = src → amount = 0) ∧ (dst ≠ src → moveAddrToEvm dst = moveAddrToEvm src →
        b dst + amount + amount = b src) := by
  rw [leavesStores_iff, Fin.ext_iff, Fin.ext_iff, U64.toU128, U64.toU128, hy, hto, hfrom]
  by_cases heq : dst = src
  · subst heq
    simp only [if_true, ne_eq, not_true_eq_false, false_implies, and_true, true_implies]
    omega
  · rw [if_neg heq]
    by_cases hmeet : moveAddrToEvm dst = moveAddrToEvm src
    · rw [if_pos hmeet.symm, hy]
      simp only [heq, hmeet, ne_eq, not_false_eq_true, true_implies, false_implies, true_and]
      omega
    · rw [if_neg (Ne.symm hmeet)]
      simp only [heq, hmeet, ne_eq, not_false_eq_true, true_implies, false_implies, true_and,
        iff_true]
      exact Nat.eq_sub_of_add_eq hx

/-- Two writes that move an amount keep the supply. -/
theorem supply_two_writes {amount : Nat}
    (hx : x.val + amount = (s.balanceOf (moveAddrToEvm src)).val)
    (hy : y.val = (s.balanceOf (moveAddrToEvm dst)).val + amount)
    (hself : moveAddrToEvm dst = moveAddrToEvm src → amount = 0) :
    (BundleExecutor.applyResourceWrites s [⟨src, x, nonce⟩, ⟨dst, y, nonce'⟩]).supply =
      s.supply := by
  apply supply_eq_of_transfersTo
  have hledger : (BundleExecutor.applyResourceWrites s
      [⟨src, x, nonce⟩, ⟨dst, y, nonce'⟩]).ledger =
        Ledger.transfer CAP (moveAddrToEvm src) (moveAddrToEvm dst) amount s.ledger := by
    funext a
    rw [State.ledger, balanceOf_two_writes]
    by_cases hne : moveAddrToEvm dst = moveAddrToEvm src
    · rw [Ledger.transfer_eq_self (.inr (.inl hne.symm))]
      have hzero := hself hne
      split_ifs with hdst hsrc
      · rw [hdst, hy, hzero]
        rfl
      · exact absurd (hsrc.trans hne.symm) hdst
      · rfl
    · have henough : amount ≤ s.ledger (moveAddrToEvm src) :=
        (Nat.le_add_left _ _).trans_eq hx
      have hcap : s.ledger (moveAddrToEvm dst) + amount < CAP := hy.symm.trans_lt y.isLt
      rw [Ledger.transfer_apply henough (Ne.symm hne) hcap]
      split_ifs with hdst hsrc
      · exact hy
      · exact Nat.eq_sub_of_add_eq hx
      · rfl
  rw [hledger]
  exact .one CAP amount _ _ _

end Writes

/-- Over a view of balances below `2 ^ 64` the stores of a transfer are the view's balances, less
and more the amount. -/
theorem Coin.transfer_small {view : MoveBalanceView} (hsmall : ∀ m, (view.coinValue m).val < 2 ^ 64)
    {src dst : MoveAddress} {amount : U64} {written : Globals}
    (h : Coin.transfer (balanceViewResolver view) src dst amount = .ok written) :
    ∃ fromStore toStore : CoinStore,
      fromStore.value.val = (view.coinValue src).val - amount.val ∧
      toStore.value.val = (if dst = src then (view.coinValue src).val - amount.val
        else (view.coinValue dst).val) + amount.val ∧
      written = ((∅ : Globals).insert src fromStore).insert dst toStore := by
  obtain ⟨fromStore, toStore, -, hfrom, hto, heq⟩ := Coin.transfer_eq_ok h
  have hsrc := hsmall src
  have hdst := hsmall dst
  rw [val_u64OrMax] at hfrom
  refine ⟨fromStore, toStore, by omega, ?_, heq⟩
  rw [hto]
  split_ifs
  · omega
  · rw [val_u64OrMax]
    omega

section Cases

variable {modules : InMemoryModuleStore} {view : MoveBalanceView} {s : State} {call : MoveCall}
  {dst : MoveAddress} {amount : U64}

theorem MockMatches.of_abort {e : MoveExecutionError} {e' : VmError}
    (hmock : mockMoveExecutor call modules view = some (.error e))
    (hcoin : Coin.transfer (balanceViewResolver view) call.caller dst amount = .error e') :
    MockMatches modules view s call dst amount where
  returns := ⟨_, hmock⟩
  aborts := iff_of_true ⟨e, hmock⟩ ⟨e', hcoin⟩
  balances := by
    intro outcome written hran
    cases hmock.symm.trans hran
  supply := by
    intro outcome hran
    cases hmock.symm.trans hran

theorem not_mockMatches {outcome : MoveOutcome} {e : VmError}
    (hmock : mockMoveExecutor call modules view = some (.ok outcome))
    (hcoin : Coin.transfer (balanceViewResolver view) call.caller dst amount = .error e) :
    ¬ MockMatches modules view s call dst amount := by
  intro h
  obtain ⟨e', hran⟩ := h.aborts.2 ⟨e, hcoin⟩
  cases hmock.symm.trans hran

theorem mockMatches_iff {outcome : MoveOutcome} {written : Globals}
    (hmock : mockMoveExecutor call modules view = some (.ok outcome))
    (hcoin : Coin.transfer (balanceViewResolver view) call.caller dst amount = .ok written) :
    MockMatches modules view s call dst amount ↔
      LeavesStores s (BundleExecutor.applyResourceWrites s outcome.resourceWrites) written ∧
      (view.coinValue call.caller = s.balanceOf (moveAddrToEvm call.caller) →
        view.coinValue dst = s.balanceOf (moveAddrToEvm dst) →
        (BundleExecutor.applyResourceWrites s outcome.resourceWrites).supply = s.supply) := by
  constructor
  · intro h
    exact ⟨h.balances outcome written hmock hcoin, h.supply outcome hmock⟩
  · intro h
    refine ⟨⟨_, hmock⟩, by simp [hmock, hcoin], ?_, ?_⟩
    · intro outcome' written' hmock' hcoin'
      cases hmock.symm.trans hmock'
      cases hcoin.symm.trans hcoin'
      exact h.1
    · intro outcome' hmock'
      cases hmock.symm.trans hmock'
      exact h.2

/-- Where both succeed they agree, unless one of the mock's writes hides the other. -/
theorem mockMatches_transfer_iff (hsmall : ∀ m, (view.coinValue m).val < 2 ^ 64)
    {callerNew recipientNew : U128} {nonce nonce' : AccountNonce} {written : Globals}
    (hmock : mockMoveExecutor call modules view = some (.ok { resourceWrites :=
      [⟨call.caller, callerNew, nonce⟩, ⟨dst, recipientNew, nonce'⟩] }))
    (hcallerNew : callerNew.val + amount.val = (view.coinValue call.caller).val)
    (hrecipientNew : recipientNew.val = (view.coinValue dst).val + amount.val)
    (hcoin : Coin.transfer (balanceViewResolver view) call.caller dst amount = .ok written) :
    MockMatches modules view s call dst amount ↔
      (dst = call.caller → amount.val = 0) ∧
      (dst ≠ call.caller → moveAddrToEvm dst = moveAddrToEvm call.caller →
        (view.coinValue dst).val + amount.val + amount.val = (view.coinValue call.caller).val) := by
  obtain ⟨fromStore, toStore, hfromStore, htoStore, rfl⟩ := Coin.transfer_small hsmall hcoin
  rw [mockMatches_iff hmock hcoin, leavesStores_transfer_iff
    (b := fun m => (view.coinValue m).val) hcallerNew hrecipientNew hfromStore htoStore]
  refine and_iff_left_of_imp fun hagree hshown hshown' => ?_
  refine supply_two_writes (hshown ▸ hcallerNew) (hshown' ▸ hrecipientNew) fun hmeet => ?_
  by_cases heq : dst = call.caller
  · exact hagree.1 heq
  · have hsum := hagree.2 heq hmeet
    rw [hshown, hshown', hmeet] at hsum
    omega

end Cases

/-- Over a view of balances below `2 ^ 64`, when a canonical transfer of the mock, of any amount
between any two addresses, does what the module does. -/
theorem mock_matches_coin_iff {view : MoveBalanceView}
    (hsmall : ∀ m, (view.coinValue m).val < 2 ^ 64) {call : MoveCall} {dst : MoveAddress}
    {amount : U64} (hcall : call.IsCoinTransfer dst (leBytes 8 amount.val))
    (modules : InMemoryModuleStore) (s : State) :
    MockMatches modules view s call dst amount ↔ CoinsAgree view call.caller dst amount := by
  have hcaller := hsmall call.caller
  have hdst := hsmall dst
  have hamount := amount.isLt
  have hfits : (view.coinValue dst).val + amount.val < 2 ^ 128 := by omega
  have hok := Coin.exists_transfer_iff view call.caller dst amount
  rw [val_u64OrMax, val_u64OrMax] at hok
  rcases hcall.execute_u64 hfits modules with
    ⟨hpoor, e, hmock⟩ | ⟨callerNew, recipientNew, hcallerNew, hrecipientNew, hmock⟩
  · cases hcoin : Coin.transfer (balanceViewResolver view) call.caller dst amount with
    | error e' => exact iff_of_true (.of_abort hmock hcoin) (.inl hpoor)
    | ok written =>
        have hle := (hok.1 ⟨written, hcoin⟩).1
        omega
  · cases hcoin : Coin.transfer (balanceViewResolver view) call.caller dst amount with
    | error e =>
        refine iff_of_false (not_mockMatches hmock hcoin) fun hagree => ?_
        rw [hcoin] at hok
        rcases hagree with hpoor | ⟨hsequence, -, hto⟩
        · omega
        · have hnone := hok.2 ⟨by omega, hsequence, fun hne => by have := (hto hne).1; omega⟩
          simp at hnone
    | ok written =>
        obtain ⟨-, hsequence, hto⟩ := hok.1 ⟨written, hcoin⟩
        rw [mockMatches_transfer_iff hsmall hmock hcallerNew hrecipientNew hcoin]
        constructor
        · intro h
          exact .inr ⟨hsequence, h.1, fun hne => ⟨by have := hto hne; omega, h.2 hne⟩⟩
        · intro hagree
          rcases hagree with hpoor | ⟨-, hself, hother⟩
          · omega
          · exact ⟨hself, fun hne => (hother hne).2⟩

theorem smallView_small (m : MoveAddress) : (smallView.coinValue m).val < 2 ^ 64 := by
  show (smallState.balanceOf m.toEvm).val < 2 ^ 64
  rw [smallState, State.balanceOf_setBalance]
  split_ifs
  · decide
  · exact Nat.two_pow_pos 64

theorem coinTransfer_isCoinTransfer :
    coinTransfer.IsCoinTransfer (MoveAddress.fromEvm (smallAddress 2)) (leBytes 8 40) :=
  ⟨⟨rfl, rfl, rfl⟩, rfl⟩

/-- Address 1 pays 40 of its 100 to address 2. -/
theorem mock_matches_coin_small :
    (∀ m, (smallView.coinValue m).val < 2 ^ 64) ∧
    coinTransfer.IsCoinTransfer (MoveAddress.fromEvm (smallAddress 2)) (leBytes 8 40) ∧
    CoinsAgree smallView coinTransfer.caller (MoveAddress.fromEvm (smallAddress 2)) 40 ∧
    MockMatches {} smallView smallState coinTransfer (MoveAddress.fromEvm (smallAddress 2)) 40 := by
  have hagree : CoinsAgree smallView coinTransfer.caller
      (MoveAddress.fromEvm (smallAddress 2)) 40 := by decide +kernel
  exact ⟨smallView_small, coinTransfer_isCoinTransfer, hagree,
    (mock_matches_coin_iff smallView_small coinTransfer_isCoinTransfer {} smallState).2 hagree⟩

/-- The same call with its caller for the recipient. -/
def selfTransfer : MoveCall :=
  { coinTransfer with
    arguments := [(MoveAddress.fromEvm (smallAddress 1)).val, leBytes 8 40] }

/-- Address 1 pays 40 of its 100 to itself. The module leaves it 100, and the mock 140. -/
theorem mock_self_transfer_mints :
    (∀ m, (smallView.coinValue m).val < 2 ^ 64) ∧
    selfTransfer.IsCoinTransfer (MoveAddress.fromEvm (smallAddress 1)) (leBytes 8 40) ∧
    (Coin.transfer (balanceViewResolver smallView) selfTransfer.caller
      (MoveAddress.fromEvm (smallAddress 1)) 40).toOption.map (fun written =>
        (written.get? (MoveAddress.fromEvm (smallAddress 1))).map CoinStore.value) =
      some (some 100) ∧
    (∃ outcome, mockMoveExecutor selfTransfer {} smallView = some (.ok outcome) ∧
      (BundleExecutor.applyResourceWrites smallState outcome.resourceWrites).balanceOf
        (smallAddress 1) = 140 ∧
      (BundleExecutor.applyResourceWrites smallState outcome.resourceWrites).supply =
        smallState.supply + 40) ∧
    ¬ MockMatches {} smallView smallState selfTransfer
      (MoveAddress.fromEvm (smallAddress 1)) 40 := by
  have hran : ((mockMoveExecutor selfTransfer {} smallView).bind Except.toOption).map (fun o =>
      ((BundleExecutor.applyResourceWrites smallState o.resourceWrites).balanceOf (smallAddress 1),
        (BundleExecutor.applyResourceWrites smallState o.resourceWrites).supply)) =
      some (140, smallState.supply + 40) := by decide +kernel
  obtain ⟨outcome, hmock, heq⟩ := Option.map_eq_some_iff.1 hran
  obtain ⟨ran, hmock, hok⟩ := Option.bind_eq_some_iff.1 hmock
  obtain ⟨hbalance, hsupply⟩ := Prod.mk.inj heq
  cases ran with
  | error e => cases hok
  | ok outcome' =>
      cases hok
      refine ⟨smallView_small, ⟨⟨rfl, rfl, rfl⟩, rfl⟩, by decide +kernel,
        ⟨outcome, hmock, hbalance, hsupply⟩, fun h => ?_⟩
      have hsame := h.supply outcome hmock rfl rfl
      omega

/-! ## Coins that a store does not show -/

/-- A transfer that moves exactly its amount between two accounts. -/
def MovesExactly (s s' : State) (src dst : Address) (amount : Nat) : Prop :=
  (s'.balanceOf src).val + amount = (s.balanceOf src).val ∧
  (s'.balanceOf dst).val = (s.balanceOf dst).val + amount ∧
  ∀ a, a ≠ src → a ≠ dst → s'.balanceOf a = s.balanceOf a

section Transfer

variable {s : State} {view : MoveBalanceView} {src dst : MoveAddress} {amount : U64}
  {written : Globals} (hsrc : view.coinValue src = s.balanceOf (moveAddrToEvm src))
  (hdst : view.coinValue dst = s.balanceOf (moveAddrToEvm dst)) (hne : src ≠ dst)
  (h : Coin.transfer (balanceViewResolver view) src dst amount = .ok written)

include hsrc hdst hne h

theorem transfer_exact_iff :
    MovesExactly s (BundleExecutor.applyResourceWrites s (written.entries.map fun p =>
        ⟨p.1, U64.toU128 p.2.value, ⟨p.2.sequence⟩⟩)) (moveAddrToEvm src) (moveAddrToEvm dst)
        amount.val ↔
      (s.balanceOf (moveAddrToEvm src)).val < 2 ^ 64 ∧
      (s.balanceOf (moveAddrToEvm dst)).val < 2 ^ 64 ∧
      (moveAddrToEvm src = moveAddrToEvm dst → amount.val = 0) := by
  obtain ⟨fromStore, toStore, hle, hfrom, hto, rfl⟩ := Coin.transfer_eq_ok h
  have hfits := toStore.value.isLt
  rw [Fin.le_def, val_u64OrMax, hsrc] at hle
  rw [val_u64OrMax, hsrc] at hfrom
  rw [if_neg (Ne.symm hne), val_u64OrMax, hdst] at hto
  rw [hto] at hfits
  simp only [MovesExactly, balanceOf_transferWrites]
  by_cases hmeet : moveAddrToEvm src = moveAddrToEvm dst
  · -- One balance cannot both fall and rise, and with nothing to move both writes are the same.
    have hzero : amount.val = 0 → U64.toU128 toStore.value = U64.toU128 fromStore.value := by
      intro hzero
      rw [← hmeet] at hto
      exact Fin.ext (show toStore.value.val = fromStore.value.val by omega)
    have hval : (U64.toU128 fromStore.value).val = fromStore.value.val := rfl
    simp only [hmeet, if_true]
    rw [hmeet] at hfrom hle
    constructor
    · intro hexact
      obtain ⟨hfalls, hrises, -⟩ := hexact
      have hnone : amount.val = 0 := by omega
      rw [hzero hnone, ite_self] at hrises
      omega
    · intro hshown
      obtain ⟨hsmall, -, hmoved⟩ := hshown
      have hnone : amount.val = 0 := hmoved trivial
      rw [hzero hnone, ite_self]
      exact ⟨by omega, by omega, fun a ha _ => by simp [ha]⟩
  · have hfromVal : (U64.toU128 fromStore.value).val = fromStore.value.val := rfl
    have htoVal : (U64.toU128 toStore.value).val = toStore.value.val := rfl
    simp only [hmeet, Ne.symm hmeet, if_true, if_false, ite_self, false_implies, and_true]
    constructor
    · intro hexact
      obtain ⟨hfalls, hrises, -⟩ := hexact
      omega
    · intro hshown
      exact ⟨by omega, by omega, fun a ha ha' => by simp [ha, ha']⟩

end Transfer

/-- A committed transfer of the coin between two Move addresses, over a view that shows their
balances, moves exactly its amount if and only if the stores show all that the two accounts hold.
Where the two are addresses of one account, nothing may be moved. -/
theorem coin_transfer_exact_iff {Compiled Function DataCache : Type}
    {vm : MoveVM Compiled Function DataCache} {bytecode : List Byte} (hvm : vm.RunsCoin bytecode)
    {modules modules' : InMemoryModuleStore} {call : MoveCall}
    (hmodule : ∀ cm, modules.get call.module = some cm →
      call.module = canonicalCoinModuleId ∧ cm.bytes = bytecode)
    {src dst : MoveAddress} {amount : U64} (hasked : call.coinTransfer = some (src, dst, amount))
    (hne : src ≠ dst) {s s' : State} {view : MoveBalanceView}
    (hview : ∀ addr : MoveAddress, addr.val ∈ call.arguments →
      view.coinValue addr = s.balanceOf (moveAddrToEvm addr))
    {order : IterOrder} {result : BundleResult}
    (hrun : BundleExecutor.executeWithMoveRuntime (aptosMoveExecutor vm) modules view order s
      ⟨[.moveCall call]⟩ = some (s', modules', result))
    (hcommit : result.outcome = .committed) :
    MovesExactly s s' (moveAddrToEvm src) (moveAddrToEvm dst) amount.val ↔
      (s.balanceOf (moveAddrToEvm src)).val < 2 ^ 64 ∧
      (s.balanceOf (moveAddrToEvm dst)).val < 2 ^ 64 ∧
      (moveAddrToEvm src = moveAddrToEvm dst → amount.val = 0) := by
  obtain ⟨hsrc, hdst⟩ := MoveCall.mem_arguments_of_coinTransfer hasked
  obtain ⟨written, rfl, ⟨src', dst', amount', hasked', htransfer⟩ | ⟨hasked', -⟩⟩ :=
    committed_coinCall hvm hmodule hrun hcommit
  · cases hasked.symm.trans hasked'
    exact transfer_exact_iff (hview src hsrc) (hview dst hdst) hne htransfer
  · cases hasked.symm.trans hasked'

/-- Address 1 pays 60 of its 100 to address 2. -/
theorem coin_transfer_exact_small :
    coinVm.RunsCoin coinBytes ∧
    ∃ s' modules' result,
      BundleExecutor.executeWithMoveRuntime (aptosMoveExecutor coinVm) coinModules
        (balanceView smallState) default smallState ⟨[.moveCall (coinCall 1 1 2 60)]⟩ =
          some (s', modules', result) ∧
      result.outcome = .committed ∧
      MovesExactly smallState s' (smallAddress 1) (smallAddress 2) 60 := by
  have hran : (BundleExecutor.executeWithMoveRuntime (aptosMoveExecutor coinVm) coinModules
      (balanceView smallState) default smallState ⟨[.moveCall (coinCall 1 1 2 60)]⟩).map
        (fun r => r.2.2.outcome) = some .committed := by
    decide +kernel
  obtain ⟨⟨s', modules', result⟩, hrun, hcommit⟩ := Option.map_eq_some_iff.1 hran
  have hasked : (coinCall 1 1 2 60).coinTransfer = some (MoveAddress.fromEvm (smallAddress 1),
      MoveAddress.fromEvm (smallAddress 2), 60) := by decide +kernel
  have hne : MoveAddress.fromEvm (smallAddress 1) ≠ MoveAddress.fromEvm (smallAddress 2) := by
    decide
  exact ⟨coinVm_runsCoin, s', modules', result, hrun, hcommit,
    (coin_transfer_exact_iff coinVm_runsCoin (fun cm => coinModules_get) hasked hne
      (fun addr _ => rfl) hrun hcommit).2 (by decide +kernel)⟩

/-- Address 1 holds `2 ^ 64 + 100`. -/
def richState : State := ({} : State).apply (.setBalance (smallAddress 1) 18446744073709551716)

/-- It pays 60 to address 2, and loses 161: the store shows `2 ^ 64 - 1` of its coins. -/
theorem rich_transfer_loses :
    (coinCall 1 1 2 60).coinTransfer = some (MoveAddress.fromEvm (smallAddress 1),
      MoveAddress.fromEvm (smallAddress 2), 60) ∧
    ∃ s' modules' result,
      BundleExecutor.executeWithMoveRuntime (aptosMoveExecutor coinVm) coinModules
        (balanceView richState) default richState ⟨[.moveCall (coinCall 1 1 2 60)]⟩ =
          some (s', modules', result) ∧
      result.outcome = .committed ∧
      (s'.balanceOf (smallAddress 1)).val + 161 = (richState.balanceOf (smallAddress 1)).val ∧
      (s'.balanceOf (smallAddress 2)).val = (richState.balanceOf (smallAddress 2)).val + 60 ∧
      ¬ MovesExactly richState s' (smallAddress 1) (smallAddress 2) 60 := by
  have hran : (BundleExecutor.executeWithMoveRuntime (aptosMoveExecutor coinVm) coinModules
      (balanceView richState) default richState ⟨[.moveCall (coinCall 1 1 2 60)]⟩).map
        (fun r => (r.2.2.outcome, (r.1.balanceOf (smallAddress 1)).val + 161,
          (r.1.balanceOf (smallAddress 2)).val)) =
      some (.committed, (richState.balanceOf (smallAddress 1)).val,
        (richState.balanceOf (smallAddress 2)).val + 60) := by
    decide +kernel
  obtain ⟨⟨s', modules', result⟩, hrun, heq⟩ := Option.map_eq_some_iff.1 hran
  simp only [Prod.mk.injEq] at heq
  obtain ⟨hcommit, hloses, hgains⟩ := heq
  refine ⟨by decide +kernel, s', modules', result, hrun, hcommit, hloses, hgains, fun h => ?_⟩
  have hexact := h.1
  omega

end SuwappuDb
