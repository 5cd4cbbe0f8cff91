import Yeeroot.Runtime.Dispatch.Lemmas

namespace Yeeroot

open Scale

variable {σ : Type} (env : Substrate σ)
variable {origin : Origin} {outcome : Outcome σ}

theorem toNat_of_checkedAdd {a b sum : Balance} (h : checkedAdd a b = some sum) :
    sum.toNat = a.toNat + b.toNat := by
  unfold checkedAdd at h
  split_ifs at h with hfits
  rw [← Option.some.inj h, BitVec.toNat_add, Nat.mod_eq_of_lt hfits]

theorem toNat_of_checkedSub {a b rest : Balance} (h : checkedSub a b = some rest) :
    a.toNat = rest.toNat + b.toNat := by
  unfold checkedSub at h
  split_ifs at h with hle
  have hle' : b.toNat ≤ a.toNat := hle
  rw [← Option.some.inj h, BitVec.toNat_sub_of_le hle]
  omega

theorem toNat_saturatingSub (a b : Balance) : (saturatingSub a b).toNat = a.toNat - b.toNat := by
  unfold saturatingSub
  cases h : checkedSub a b with
  | some rest =>
    have hsub := toNat_of_checkedSub h
    simp only [Option.getD_some]
    omega
  | none =>
    unfold checkedSub at h
    split_ifs at h with hle
    have hlt : a.toNat < b.toNat := Nat.lt_of_not_le hle
    simp only [Option.getD_none]
    rw [Nat.sub_eq_zero_of_le hlt.le]
    rfl

theorem toNat_saturatingAdd {a b : Balance} (h : a.toNat + b.toNat < 2 ^ 128) :
    (saturatingAdd a b).toNat = a.toNat + b.toNat := by
  have hadd : checkedAdd a b = some (a + b) := if_pos h
  rw [saturatingAdd, hadd]
  exact toNat_of_checkedAdd hadd

theorem saturatingSub_zero (a : Balance) : saturatingSub a 0#128 = a := by
  apply BitVec.eq_of_toNat_eq
  rw [toNat_saturatingSub]
  rfl

namespace Balances

variable (who : AccountId) (balance : Balance) (st : State σ)

theorem setFreeBalance_balances :
    (setFreeBalance who balance st).balances =
      if balance < st.balances.existentialDeposit then { st.balances with
        freeBalance := Function.update st.balances.freeBalance who none
        locks := Function.update st.balances.locks who []
        totalIssuance := saturatingSub st.balances.totalIssuance balance }
      else { st.balances with
        freeBalance := Function.update st.balances.freeBalance who (some balance) } := by
  simp only [setFreeBalance, onFreeTooLow]
  split_ifs <;> simp_all [update, reapAccount, dropNegative, freeBalance, saturatingSub_zero]

theorem setFreeBalance_accountNonce :
    (setFreeBalance who balance st).system.accountNonce =
      if balance < st.balances.existentialDeposit ∧ st.balances.reservedBalance who = 0 then
        Function.update st.system.accountNonce who 0
      else st.system.accountNonce := by
  simp only [setFreeBalance, onFreeTooLow]
  split_ifs <;> simp_all [update, reapAccount, dropNegative]

theorem setFreeBalance_existentialDeposit :
    (setFreeBalance who balance st).balances.existentialDeposit =
      st.balances.existentialDeposit := by
  rw [setFreeBalance_balances]
  split_ifs <;> rfl

theorem setFreeBalance_pow : (setFreeBalance who balance st).pow = st.pow := by
  simp only [setFreeBalance, onFreeTooLow]
  split_ifs <;> rfl

theorem setReservedBalance_pow : (setReservedBalance who balance st).pow = st.pow := by
  simp only [setReservedBalance, onReservedTooLow]
  split_ifs <;> rfl

theorem freeBalance_setFreeBalance (account : AccountId) :
    freeBalance (setFreeBalance who balance st) account =
      if account = who then (if balance < st.balances.existentialDeposit then 0 else balance)
      else freeBalance st account := by
  unfold freeBalance
  rw [setFreeBalance_balances]
  by_cases haccount : account = who
  · subst haccount
    rw [if_pos rfl]
    split_ifs <;> simp
  · split_ifs <;> simp [haccount]

theorem setReservedBalance_balances :
    (setReservedBalance who balance st).balances =
      if balance < st.balances.existentialDeposit then { st.balances with
        reservedBalance := Function.update st.balances.reservedBalance who 0
        totalIssuance := saturatingSub st.balances.totalIssuance balance }
      else { st.balances with
        reservedBalance := Function.update st.balances.reservedBalance who balance } := by
  simp only [setReservedBalance, onReservedTooLow]
  split_ifs <;> simp_all [update, reapAccount, dropNegative, saturatingSub_zero]

theorem setReservedBalance_accountNonce :
    (setReservedBalance who balance st).system.accountNonce =
      if balance < st.balances.existentialDeposit ∧ freeBalance st who = 0 then
        Function.update st.system.accountNonce who 0
      else st.system.accountNonce := by
  simp only [setReservedBalance, onReservedTooLow]
  split_ifs <;> simp_all [update, reapAccount, dropNegative, freeBalance]

-- A coin transfer that passes its checks leaves the sender with this free balance.
def Debits (st : State σ) (transactor dest : AccountId) (value newFromBalance : Balance) : Prop :=
  ∃ liability info dn,
    checkedAdd value st.balances.transferFee = some liability ∧
    checkedSub (freeBalance st transactor) liability = some newFromBalance ∧
    ensureCanWithdraw st transactor .transfer newFromBalance = .ok () ∧
    st.sharding.currentShardInfo = some info ∧ Sharding.shardNumFor dest info.count = some dn ∧
    (info.num = dn → transactor ≠ dest ∧ (checkedAdd (freeBalance st dest) value).isSome)

theorem Debits.toNat {st : State σ} {transactor dest : AccountId} {value newFromBalance : Balance}
    (h : Debits st transactor dest value newFromBalance) :
    (freeBalance st transactor).toNat =
      newFromBalance.toNat + value.toNat + st.balances.transferFee.toNat := by
  obtain ⟨liability, _, _, hadd, hsub, _⟩ := h
  have hliability := toNat_of_checkedAdd hadd
  have hrest := toNat_of_checkedSub hsub
  omega

theorem makePayment_ok {transactor : AccountId} {encodedLen : Nat} {st paid : State σ}
    (h : makePayment transactor encodedLen st = (paid, .ok ())) :
    ∃ fee newBalance, paid = payTransferFee fee (setFreeBalance transactor newBalance st) ∧
      (freeBalance st transactor).toNat = newBalance.toNat + fee.toNat ∧
      st.balances.existentialDeposit ≤ newBalance := by
  simp only [makePayment, withdraw] at h
  generalize st.balances.transactionBaseFee + st.balances.transactionByteFee *
    balanceOfNumber (UInt64.ofNat encodedLen) = fee at h
  cases hsub : checkedSub (freeBalance st transactor) fee with
  | none => simp [hsub] at h
  | some newBalance =>
    simp only [hsub] at h
    by_cases hlow : newBalance < st.balances.existentialDeposit
    · simp [hlow] at h
    · cases hcan : ensureCanWithdraw st transactor .transactionPayment newBalance with
      | error error => simp [hlow, hcan] at h
      | ok =>
        simp only [hlow, if_false, hcan, Prod.mk.injEq, and_true] at h
        exact ⟨fee, newBalance, h.symm, toNat_of_checkedSub hsub, BitVec.not_lt.mp hlow⟩

-- A deposit is nothing, or it sets the free balance of an announced account and squares up
-- the issuance.
theorem depositCreating_cases (who : AccountId) (value : Balance) (st : State σ) :
    (depositCreating env who value st = st ∧ freeBalance st who = 0 ∧
      freeBalance st who + value < st.balances.existentialDeposit) ∨
    ∃ base, State.SameAccounts st base ∧
      ¬ (freeBalance st who + value < st.balances.existentialDeposit ∧ freeBalance st who = 0) ∧
      let updated := setFreeBalance who (freeBalance st who + value) base
      depositCreating env who value st =
        if freeBalance st who ≤ freeBalance st who + value then
          dropPositive (freeBalance st who + value - freeBalance st who) updated
        else dropNegative (freeBalance st who - (freeBalance st who + value)) updated := by
  unfold depositCreating
  dsimp only
  by_cases hnone : freeBalance st who + value < st.balances.existentialDeposit ∧
      freeBalance st who = 0
  · exact .inl ⟨if_pos hnone, hnone.2, hnone.1⟩
  · rw [if_neg hnone]
    by_cases hlow : freeBalance st who + value < st.balances.existentialDeposit
    · refine .inr ⟨st, .refl st, hnone, ?_⟩
      rw [if_pos hlow]
    · refine .inr ⟨_, ensureAccount_sameAccounts env who (st.balances.freeBalance who).isSome st,
        hnone, ?_⟩
      rw [if_neg hlow]

end Balances

theorem Assets.transfer_sameAccounts {shardCode : ByteVec} {id : UInt32} {target : Address}
    {amount : Balance} {st : State σ}
    (h : transfer env origin shardCode id target amount st = .ok outcome) :
    State.SameAccounts st outcome.state := by
  cases transfers_of_transfer env h <;> exact ⟨rfl, rfl⟩

-- Everything a call can do to the accounts.
inductive AccountWrite (st : State σ) : Call → Origin → State σ → Prop where
  | none {call : Call} {origin : Origin} {st' : State σ} (same : State.SameAccounts st st') :
      AccountWrite st call origin st'
  | send {dest : Address} {value : Balance} {sender account : AccountId}
      {newFromBalance : Balance} (lookup : st.lookup env dest = .ok account)
      (debits : Balances.Debits st sender account value newFromBalance)
      (leaves : ∃ info, st.sharding.currentShardInfo = some info ∧
        Sharding.shardNumFor account info.count ≠ some info.num) :
      AccountWrite st (.balancesTransfer dest value) (.signed sender)
        (Balances.payTransferFee st.balances.transferFee
          (Balances.setFreeBalance sender newFromBalance st))
  | move {dest : Address} {value : Balance} {sender account : AccountId}
      {newFromBalance newToBalance : Balance} (lookup : st.lookup env dest = .ok account)
      (debits : Balances.Debits st sender account value newFromBalance) (other : sender ≠ account)
      (stays : ∃ info, st.sharding.currentShardInfo = some info ∧
        Sharding.shardNumFor account info.count = some info.num)
      (credits : checkedAdd (Balances.freeBalance st account) value = some newToBalance) :
      AccountWrite st (.balancesTransfer dest value) (.signed sender)
        (Balances.transferLocal env sender account newFromBalance newToBalance
          st.balances.transferFee st)
  | credit {call : Call} {origin : Origin} {relay : RelayCall} {source : OriginExtrinsic}
      {toBalance : Balance} {announced : State σ} (relayed : call.relay? = some relay)
      (coins : relay.relayType = .balance)
      (decoded : OriginExtrinsic.decode .balance relay.tx.bytes = some source)
      (same : State.SameAccounts st announced)
      (credits : checkedAdd (Balances.freeBalance st source.dest) source.amount = some toBalance) :
      AccountWrite st call origin (Balances.setFreeBalance source.dest toBalance announced)
  | set {call : Call} {origin : Origin} {who : Address} {account : AccountId}
      {free reserved : Balance} (privileged : origin.Privileged st)
      (asked : call.setBalance? = some (who, free, reserved))
      (lookup : st.lookup env who = .ok account) :
      AccountWrite st call origin
        (Balances.setReservedBalance account reserved (Balances.setFreeBalance account free st))

theorem Balances.transfer_writes {dest : Address} {value : Balance} {st : State σ}
    (h : transfer env origin dest value st = .ok outcome) :
    outcome.state = st ∨
    ∃ sender account newFromBalance, origin = .signed sender ∧ st.lookup env dest = .ok account ∧
      Debits st sender account value newFromBalance ∧
      (((∃ info, st.sharding.currentShardInfo = some info ∧
          Sharding.shardNumFor account info.count ≠ some info.num) ∧
        outcome.state = payTransferFee st.balances.transferFee
          (setFreeBalance sender newFromBalance st)) ∨
      (sender ≠ account ∧ (∃ info, st.sharding.currentShardInfo = some info ∧
          Sharding.shardNumFor account info.count = some info.num) ∧
        ∃ newToBalance, checkedAdd (freeBalance st account) value = some newToBalance ∧
          outcome.state = transferLocal env sender account newFromBalance newToBalance
            st.balances.transferFee st)) := by
  rcases transfer_cases env h with ⟨_, rfl⟩ | ⟨sender, account, rfl, hlook, h⟩
  · exact .inl rfl
  · rcases transferFunds_cases env h with ⟨_, rfl⟩ |
      ⟨liability, newFromBalance, info, dn, hadd, hsub, hcan, hinfo, hdn, hcase⟩
    · exact .inl rfl
    · rcases hcase with ⟨hleaves, rfl⟩ | ⟨hlocal, newToBalance, hto, ⟨hother, rfl⟩ | ⟨_, rfl⟩⟩
      · refine .inr ⟨sender, account, newFromBalance, rfl, hlook, ⟨liability, info, dn, hadd, hsub,
          hcan, hinfo, hdn, fun hsame => absurd hsame hleaves⟩, .inl ⟨⟨info, hinfo, ?_⟩, rfl⟩⟩
        rw [hdn]
        exact fun hsame => hleaves (Option.some.inj hsame).symm
      · exact .inr ⟨sender, account, newFromBalance, rfl, hlook, ⟨liability, info, dn, hadd, hsub,
          hcan, hinfo, hdn, fun _ => ⟨hother, by rw [hto]; rfl⟩⟩, .inr ⟨hother,
          ⟨info, hinfo, hlocal ▸ hdn⟩, newToBalance, hto, rfl⟩⟩
      · exact .inl rfl

theorem transfer_accountWrite {dest : Address} {value : Balance} {st : State σ}
    (h : Balances.transfer env origin dest value st = .ok outcome) :
    AccountWrite env st (.balancesTransfer dest value) origin outcome.state := by
  rcases Balances.transfer_writes env h with hsame | ⟨sender, account, newFromBalance, rfl, hlook,
    hdebits, ⟨hleaves, hstate⟩ | ⟨hother, hstays, newToBalance, hto, hstate⟩⟩
  · exact .none (hsame ▸ .refl st)
  · exact hstate ▸ .send hlook hdebits hleaves
  · exact hstate ▸ .move hlook hdebits hother hstays hto

theorem relay_accountWrite {relay : RelayCall} {st : State σ}
    (h : Relay.transfer env relay st = .ok outcome) {call : Call} (hcall : call.relay? = some relay)
    (origin : Origin) : AccountWrite env st call origin outcome.state := by
  unfold Relay.transfer at h
  cases htype : relay.relayType with
  | assets =>
    rw [htype] at h
    rcases Assets.relayTransfer_cases h with ⟨_, rfl⟩ | ⟨_, _, _, _, rfl⟩
    · exact .none (.refl st)
    · exact .none ⟨rfl, rfl⟩
  | balance =>
    rw [htype] at h
    obtain ⟨source, announced, hdecode, _, hsame, h⟩ := Balances.relayTransfer_cases env h
    rcases h with ⟨_, rfl⟩ | ⟨toBalance, hadd, rfl⟩
    · exact .none hsame
    · exact .credit hcall htype hdecode hsame hadd

theorem dispatch_accountWrite {call : Call} {st : State σ}
    (h : dispatch env call origin st = .ok outcome) (hraw : call.rawWrite origin = false) :
    AccountWrite env st call origin outcome.state := by
  cases dispatch_cases env h with
  | minor same _ => exact .none same.sameAccounts
  | raw root _ => cases root.symm.trans hraw
  | transfer done => exact transfer_accountWrite env done
  | assetsTransfer done => exact .none (Assets.transfer_sameAccounts env done)
  | issue =>
    simp only [Assets.issue]
    split_ifs <;> exact .none ⟨rfl, rfl⟩
  | relay _ _ relayed _ done => exact relay_accountWrite env done relayed origin
  | setBalance _ privileged asked =>
    simp only [Balances.setBalance]
    split
    · next account hlook => exact .set privileged asked hlook
    · exact .none (.refl st)
  | powInfo => exact .none ⟨rfl, rfl⟩
  | shardInfo => exact .none ⟨rfl, rfl⟩

end Yeeroot
