import Mathlib.Algebra.Order.BigOperators.Group.Finset
import Mathlib.Data.FinEnum
import Mathlib.Data.Finite.Vector
import Yeeroot.Executive.Accounts

namespace Yeeroot

open Scale Transition

variable {σ : Type} (env : Substrate σ)
variable {st st' : State σ} {value : Balance}

theorem finite_accounts : (Set.univ : Set AccountId).Finite :=
  Set.toFinite (α := List.Vector UInt8 32) Set.univ

noncomputable def accounts : Finset AccountId := finite_accounts.toFinset

theorem mem_accounts (who : AccountId) : who ∈ accounts := by
  simp [accounts]

def accountValue (st : State σ) (who : AccountId) : Nat :=
  (Balances.freeBalance st who).toNat + (st.balances.reservedBalance who).toNat

-- All coins that accounts of the shard hold.
noncomputable def totalValue (st : State σ) : Nat := ∑ who ∈ accounts, accountValue st who

def Accounted (st : State σ) : Prop := st.balances.totalIssuance.toNat = totalValue st

theorem accountValue_le_totalValue (st : State σ) (who : AccountId) :
    accountValue st who ≤ totalValue st :=
  Finset.single_le_sum (fun _ _ => Nat.zero_le _) (mem_accounts who)

theorem totalValue_of_write {who : AccountId}
    (h : ∀ other, other ≠ who → accountValue st' other = accountValue st other) :
    totalValue st' + accountValue st who = totalValue st + accountValue st' who := by
  have hrest : ∑ other ∈ accounts.erase who, accountValue st' other =
      ∑ other ∈ accounts.erase who, accountValue st other :=
    Finset.sum_congr rfl fun other hother => h other (Finset.ne_of_mem_erase hother)
  have hbefore := Finset.add_sum_erase accounts (accountValue st) (mem_accounts who)
  have hafter := Finset.add_sum_erase accounts (accountValue st') (mem_accounts who)
  unfold totalValue
  omega

-- By how much the issuance exceeds what the accounts hold.
noncomputable def gap (st : State σ) : Int :=
  st.balances.totalIssuance.toNat - totalValue st

theorem accounted_iff (st : State σ) : Accounted st ↔ gap st = 0 := by
  unfold Accounted gap
  omega

theorem gap_of_same (h : State.SameAccounts st st') : gap st' = gap st := by
  unfold gap totalValue accountValue Balances.freeBalance
  rw [h.balances]

theorem setFreeBalance_gap (who : AccountId) (balance : Balance) (st : State σ)
    (hdust : balance < st.balances.existentialDeposit →
      balance.toNat ≤ st.balances.totalIssuance.toNat) :
    gap (Balances.setFreeBalance who balance st) =
      gap st + (Balances.freeBalance st who).toNat - balance.toNat := by
  have hreserved : (Balances.setFreeBalance who balance st).balances.reservedBalance =
      st.balances.reservedBalance := by
    rw [Balances.setFreeBalance_balances]
    split_ifs <;> rfl
  have hvalue : totalValue (Balances.setFreeBalance who balance st) + accountValue st who =
      totalValue st + accountValue (Balances.setFreeBalance who balance st) who := by
    refine totalValue_of_write fun other hother => ?_
    rw [accountValue, accountValue, Balances.freeBalance_setFreeBalance, if_neg hother, hreserved]
  rw [accountValue, accountValue, Balances.freeBalance_setFreeBalance, if_pos rfl, hreserved]
    at hvalue
  unfold gap
  by_cases hlow : balance < st.balances.existentialDeposit
  · have hle := hdust hlow
    rw [Balances.setFreeBalance_balances, if_pos hlow]
    rw [if_pos hlow] at hvalue
    simp only [toNat_saturatingSub]
    simp at hvalue
    omega
  · rw [Balances.setFreeBalance_balances, if_neg hlow]
    rw [if_neg hlow] at hvalue
    dsimp only
    omega

theorem dropNegative_gap {amount : Balance} (h : amount.toNat ≤ st.balances.totalIssuance.toNat) :
    gap (Balances.dropNegative amount st) = gap st - amount.toNat := by
  have hissuance : (Balances.dropNegative amount st).balances.totalIssuance.toNat =
      st.balances.totalIssuance.toNat - amount.toNat := toNat_saturatingSub _ _
  have hvalue : totalValue (Balances.dropNegative amount st) = totalValue st := rfl
  unfold gap
  omega

theorem dropPositive_gap {amount : Balance}
    (h : st.balances.totalIssuance.toNat + amount.toNat < 2 ^ 128) :
    gap (Balances.dropPositive amount st) = gap st + amount.toNat := by
  have hissuance : (Balances.dropPositive amount st).balances.totalIssuance.toNat =
      st.balances.totalIssuance.toNat + amount.toNat := toNat_saturatingAdd h
  have hvalue : totalValue (Balances.dropPositive amount st) = totalValue st := rfl
  unfold gap
  omega

theorem payTransferFee_gap (fee : Balance) (st : State σ) (h : (fee.toNat : Int) ≤ gap st) :
    gap (Balances.payTransferFee fee st) = gap st - fee.toNat := by
  have hfee : fee.toNat ≤ st.balances.totalIssuance.toNat := by
    unfold gap at h
    omega
  rw [← dropNegative_gap hfee]
  exact gap_of_same ⟨rfl, rfl⟩

theorem freeBalance_le_issuance (st : State σ) (who : AccountId) :
    gap st + (Balances.freeBalance st who).toNat ≤ st.balances.totalIssuance.toNat := by
  have hvalue := accountValue_le_totalValue st who
  unfold accountValue at hvalue
  unfold gap
  omega

theorem debit_gap (sender : AccountId) (balance : Balance) (h : gap st = 0)
    (hle : balance.toNat ≤ (Balances.freeBalance st sender).toNat) :
    gap (Balances.setFreeBalance sender balance st) =
      (Balances.freeBalance st sender).toNat - balance.toNat := by
  have hissued := freeBalance_le_issuance st sender
  rw [setFreeBalance_gap _ _ _ fun _ => by omega, h]
  omega

theorem send_gap {sender account : AccountId} {value newFromBalance : Balance} (h : gap st = 0)
    (hdebits : Balances.Debits st sender account value newFromBalance) :
    gap (Balances.payTransferFee st.balances.transferFee
      (Balances.setFreeBalance sender newFromBalance st)) = value.toNat := by
  have hfrom := hdebits.toNat
  have hdebited := debit_gap sender newFromBalance h (by omega)
  rw [payTransferFee_gap _ _ (by omega)]
  omega

theorem credit_gap {st announced : State σ} {source : OriginExtrinsic} {toBalance : Balance}
    (h : gap st = 0) (hsame : State.SameAccounts st announced)
    (hcredits : checkedAdd (Balances.freeBalance st source.dest) source.amount = some toBalance)
    (hzero : source.amount = 0) :
    gap (Balances.setFreeBalance source.dest toBalance announced) = 0 := by
  have hto := toNat_of_checkedAdd hcredits
  have hfree : Balances.freeBalance announced source.dest =
      Balances.freeBalance st source.dest := by
    rw [Balances.freeBalance, Balances.freeBalance, hsame.balances]
  have hgap := (gap_of_same hsame).trans h
  rw [hzero] at hto
  simp at hto
  rw [debit_gap _ _ hgap (by rw [hfree]; omega), hfree]
  omega

theorem move_gap {sender account : AccountId} {value newFromBalance newToBalance : Balance}
    (h : gap st = 0) (hdebits : Balances.Debits st sender account value newFromBalance)
    (hother : sender ≠ account)
    (hcredits : checkedAdd (Balances.freeBalance st account) value = some newToBalance) :
    gap (Balances.transferLocal env sender account newFromBalance newToBalance
      st.balances.transferFee st) = 0 := by
  have hfrom := hdebits.toNat
  have hto := toNat_of_checkedAdd hcredits
  have hdebited := debit_gap sender newFromBalance h (by omega)
  let debited := Balances.setFreeBalance sender newFromBalance st
  let announced := if (debited.balances.freeBalance account).isSome then debited
    else Balances.newAccount env account debited
  have hsame : State.SameAccounts debited announced :=
    Balances.ensureAccount_sameAccounts env account _ debited
  have hgap : gap announced = value.toNat + st.balances.transferFee.toNat := by
    rw [gap_of_same hsame, hdebited]
    omega
  have hfree : Balances.freeBalance announced account = Balances.freeBalance st account := by
    rw [Balances.freeBalance_ensureAccount, Balances.freeBalance_setFreeBalance,
      if_neg hother.symm]
  have hissued := freeBalance_le_issuance announced account
  have hcredited := setFreeBalance_gap account newToBalance announced fun _ => by
    rw [hfree] at hissued
    omega
  rw [hfree] at hcredited
  have hpaid := payTransferFee_gap st.balances.transferFee
    (Balances.setFreeBalance account newToBalance announced) (by omega)
  refine hpaid.trans ?_
  omega

-- A call that moves no coins between shards and does not set a balance.
structure Call.StaysLocal (st : State σ) (call : Call) : Prop where
  notSet : call.setBalance? = none
  noCredit : ∀ relay source, call.relay? = some relay → relay.relayType = .balance →
    OriginExtrinsic.decode .balance relay.tx.bytes = some source → source.amount = 0
  noSend : ∀ dest value account info, call = .balancesTransfer dest value →
    st.lookup env dest = .ok account → st.sharding.currentShardInfo = some info →
    Sharding.shardNumFor account info.count ≠ some info.num → value = 0

theorem AccountWrite.gap {call : Call} {origin : Origin} (h : AccountWrite env st call origin st')
    (hlocal : call.StaysLocal env st) (hgap : gap st = 0) : gap st' = 0 := by
  cases h with
  | none same => exact (gap_of_same same).trans hgap
  | send lookup debits leaves =>
    obtain ⟨info, hinfo, hleaves⟩ := leaves
    rw [send_gap hgap debits, hlocal.noSend _ _ _ info rfl lookup hinfo hleaves]
    rfl
  | move lookup debits other stays credits => exact move_gap env hgap debits other credits
  | credit relayed coins decoded same credits =>
    exact credit_gap hgap same credits (hlocal.noCredit _ _ relayed coins decoded)
  | set privileged asked lookup => simp [hlocal.notSet] at asked

theorem makePayment_gap {transactor : AccountId} {encodedLen : Nat} {st paid : State σ}
    (h : Balances.makePayment transactor encodedLen st = (paid, .ok ())) (hgap : gap st = 0) :
    gap paid = 0 := by
  obtain ⟨fee, newBalance, rfl, hfree, _⟩ := Balances.makePayment_ok h
  have hdebited := debit_gap transactor newBalance hgap (by omega)
  rw [payTransferFee_gap _ _ (by omega)]
  omega

-- No free balance is below the existential deposit.
def NoDust (st : State σ) : Prop :=
  ∀ who, Balances.freeBalance st who = 0 ∨
    st.balances.existentialDeposit ≤ Balances.freeBalance st who

def AccountedWithRoom (room : Nat) (st : State σ) : Prop :=
  gap st = 0 ∧ NoDust st ∧ totalValue st + room < 2 ^ 128

theorem deposit_accounted {room : Nat} {st base : State σ} {target : AccountId} (hgap : gap st = 0)
    (hdust : NoDust st) (hroom : totalValue st + (value.toNat + room) < 2 ^ 128)
    (hbase : State.SameAccounts st base) (hsum : (Balances.freeBalance st target + value).toNat =
      (Balances.freeBalance st target).toNat + value.toNat)
    (hnot : ¬ (Balances.freeBalance st target + value < st.balances.existentialDeposit ∧
      Balances.freeBalance st target = 0)) :
    let updated := Balances.setFreeBalance target (Balances.freeBalance st target + value) base
    AccountedWithRoom room
      (if Balances.freeBalance st target ≤ Balances.freeBalance st target + value then
        Balances.dropPositive (Balances.freeBalance st target + value -
          Balances.freeBalance st target) updated
      else Balances.dropNegative (Balances.freeBalance st target -
        (Balances.freeBalance st target + value)) updated) := by
  intro updated
  have hfree : ∀ who, Balances.freeBalance base who = Balances.freeBalance st who := by
    intro who
    rw [Balances.freeBalance, Balances.freeBalance, hbase.balances]
  have hgrows : Balances.freeBalance st target ≤ Balances.freeBalance st target + value := by
    rw [BitVec.le_def, hsum]
    omega
  have hvalue : Balances.freeBalance st target + value - Balances.freeBalance st target = value := by
    rw [BitVec.add_comm, BitVec.add_sub_cancel]
  -- The account is not killed: it had nothing or at least the deposit.
  have hlive : ¬ Balances.freeBalance st target + value < base.balances.existentialDeposit := by
    rw [hbase.balances]
    intro hlow
    rcases hdust target with hzero | henough
    · exact hnot ⟨hlow, hzero⟩
    · exact BitVec.not_le.mpr hlow (BitVec.le_trans henough hgrows)
  have hupdated : gap updated = - value.toNat := by
    rw [setFreeBalance_gap _ _ _ fun hlow => absurd hlow hlive, gap_of_same hbase, hgap, hfree, hsum]
    omega
  have hissuance : updated.balances.totalIssuance = st.balances.totalIssuance := by
    rw [Balances.setFreeBalance_balances, if_neg hlive, hbase.balances]
  have hissued : (st.balances.totalIssuance.toNat : Int) = totalValue st := by
    unfold gap at hgap
    omega
  rw [if_pos hgrows, hvalue]
  refine ⟨?_, ?_, ?_⟩
  · rw [dropPositive_gap (by rw [hissuance]; omega), hupdated]
    omega
  · intro who
    have hset := Balances.freeBalance_setFreeBalance target
      (Balances.freeBalance st target + value) base who
    have hdeposit := Balances.setFreeBalance_existentialDeposit target
      (Balances.freeBalance st target + value) base
    change Balances.freeBalance updated who = 0 ∨
      updated.balances.existentialDeposit ≤ Balances.freeBalance updated who
    rw [hset, hdeposit]
    by_cases hwho : who = target
    · rw [if_pos hwho, if_neg hlive]
      exact .inr (BitVec.not_lt.mp hlive)
    · rw [if_neg hwho, hfree, hbase.balances]
      exact hdust who
  · have hsame : totalValue (Balances.dropPositive value updated) = totalValue updated := rfl
    unfold gap at hupdated
    rw [hissuance] at hupdated
    omega

theorem accountedWithRoom_payable : Payable env (AccountedWithRoom (σ := σ)) where
  same hsame h := by
    refine ⟨(gap_of_same hsame).trans h.1, ?_, ?_⟩
    · simpa only [NoDust, Balances.freeBalance, hsame.balances] using h.2.1
    · simpa only [totalValue, accountValue, Balances.freeBalance, hsame.balances] using h.2.2
  less hle h := ⟨h.1, h.2.1, by have := h.2.2; omega⟩
  pay {room st} target value h := by
    obtain ⟨hgap, hdust, hroom⟩ := h
    rcases Balances.depositCreating_cases env target value st with ⟨hnothing, _⟩ |
      ⟨base, hbase, hnot, hdeposit⟩
    · rw [hnothing]
      exact ⟨hgap, hdust, by omega⟩
    · have hheld := accountValue_le_totalValue st target
      unfold accountValue at hheld
      have hsum : (Balances.freeBalance st target + value).toNat =
          (Balances.freeBalance st target).toNat + value.toNat := by
        rw [BitVec.toNat_add, Nat.mod_eq_of_lt (by omega)]
      rw [hdeposit]
      exact deposit_accounted hgap hdust hroom hbase hsum hnot

theorem applyExtrinsic_gap {uxt : UncheckedExtrinsic} {applied : Applied σ}
    (h : applyExtrinsic env uxt st = .ok applied)
    (hraw : ∀ sender, uxt.function.rawWrite (.signed sender) = false)
    (hlocal : uxt.function.StaysLocal env st) (hgap : gap st = 0) : gap applied.state = 0 := by
  rcases applyExtrinsic_cases env h with ⟨error, rfl⟩ |
    ⟨info, sender, paid, outcome, _, _, hpaid, hdispatch, rfl⟩ |
    ⟨rtx, outcome, _, _, _, hdispatch, rfl⟩ | ⟨outcome, _, _, hdispatch, rfl⟩
  · exact hgap
  · have hframe := Balances.makePayment_coinsOnly sender uxt.encode.length st
    have hsubstrate := Balances.makePayment_substrate sender uxt.encode.length st
    rw [hpaid] at hframe hsubstrate
    dsimp only at hsubstrate
    have hpaidLocal : uxt.function.StaysLocal env (incAccountNonce sender paid) := by
      refine ⟨hlocal.notSet, hlocal.noCredit, fun dest value account info hcall hlook hinfo => ?_⟩
      have hsame : paid.lookup env dest = st.lookup env dest := by
        cases dest <;> simp [State.lookup, hsubstrate]
      exact hlocal.noSend dest value account info hcall (hsame.symm.trans hlook)
        (hframe.sharding ▸ hinfo)
    have hcounted : gap (incAccountNonce sender paid) = 0 := by
      have hpaidGap := makePayment_gap hpaid hgap
      exact hpaidGap
    exact (dispatch_accountWrite env hdispatch (hraw sender)).gap env hpaidLocal hcounted
  · have hflagged : gap (setRelayExtrinsicExist rtx.hash st) = 0 := hgap
    have hflaggedLocal : uxt.function.StaysLocal env (setRelayExtrinsicExist rtx.hash st) :=
      ⟨hlocal.notSet, hlocal.noCredit, hlocal.noSend⟩
    exact (dispatch_accountWrite env hdispatch (Call.rawWrite_inherent _)).gap env hflaggedLocal
      hflagged
  · exact (dispatch_accountWrite env hdispatch (Call.rawWrite_inherent _)).gap env hlocal hgap

-- The step moves no coins between shards, writes no balance directly, and pays rewards only
-- where there is room for them and no account is below the deposit.
def ChainStep.KeepsIssuance (st : State σ) : ChainStep → Prop
  | .start _ => True
  | .apply uxt => (∀ sender, uxt.function.rawWrite (.signed sender) = false) ∧
      uxt.function.StaysLocal env st
  | .finish number => NoDust st ∧ totalValue st + Pow.dueRewards number st < 2 ^ 128

theorem chainStep_gap {step : ChainStep} {movements : List Movement}
    (h : chainStep env st step st' movements) (hkeeps : step.KeepsIssuance env st)
    (hgap : gap st = 0) : gap st' = 0 := by
  cases step with
  | start number => exact (gap_of_same (initializeBlock_sameAccounts env h.1)).trans hgap
  | apply uxt =>
    obtain ⟨applied, happly, rfl, _⟩ := h
    exact applyExtrinsic_gap env happly hkeeps.1 hkeeps.2 hgap
  | finish number =>
    exact ((accountedWithRoom_payable env).finishBlock h.1 ⟨hgap, hkeeps.1, hkeeps.2⟩).1

-- The issuance stays what the accounts hold while no coins change shards.
theorem issuance_accounted {st st' : State σ} {movements : List Movement} (hgenesis : Accounted st)
    (hrun : Reaches (chainStep env) (fun st step => step.KeepsIssuance env st) st movements st') :
    Accounted st' := by
  rw [accounted_iff] at hgenesis ⊢
  exact hrun.invariant (fun _ st => gap st = 0) hgenesis
    fun _ _ _ _ _ hgap hkeeps hstep => chainStep_gap env hstep hkeeps hgap

theorem dispatch_sent_gap {call : Call} {origin : Origin} {outcome : Outcome σ} {dest : AccountId}
    (h : dispatch env call origin st = .ok outcome)
    (hsent : outcome.movements = [.outbound ⟨.coin, dest, value⟩]) (hgap : gap st = 0) :
    gap outcome.state = value.toNat := by
  have hmem : Movement.outbound ⟨.coin, dest, value⟩ ∈ outcome.movements := by
    rw [hsent]
    exact List.mem_singleton_self _
  obtain ⟨hsends, _⟩ := dispatch_outbound env h hmem
  cases call with
  | balancesTransfer target amount =>
    rcases Balances.transfer_cases env h with ⟨_, rfl⟩ | ⟨sender, account, _, hlook, h⟩
    · simp [Outcome.fail] at hsent
    · rcases Balances.transferFunds_cases env h with ⟨_, rfl⟩ |
        ⟨liability, newFromBalance, info, dn, hadd, hsub, hcan, hinfo, hdn, hcase⟩
      · simp [Outcome.fail] at hsent
      · rcases hcase with ⟨hleaves, rfl⟩ | ⟨_, _, _, ⟨_, rfl⟩ | ⟨_, rfl⟩⟩
        · simp only [List.cons.injEq, Movement.outbound.injEq, Transfer.mk.injEq, and_true,
            true_and] at hsent
          rw [← hsent.2]
          exact send_gap hgap ⟨liability, info, dn, hadd, hsub, hcan, hinfo, hdn,
            fun hsame => absurd hsame hleaves⟩
        · simp [Outcome.done] at hsent
        · simp [Outcome.done] at hsent
  | assetsTransfer shardCode id target amount => simp [Call.Sends] at hsends
  | _ => simp [Call.Sends] at hsends

theorem applyExtrinsic_sent_gap {uxt : UncheckedExtrinsic} {applied : Applied σ} {dest : AccountId}
    (h : applyExtrinsic env uxt st = .ok applied)
    (hsent : applied.movements = [.outbound ⟨.coin, dest, value⟩]) (hgap : gap st = 0) :
    gap applied.state = value.toNat := by
  rcases applyExtrinsic_cases env h with ⟨error, rfl⟩ |
    ⟨info, sender, paid, outcome, _, _, hpaid, hdispatch, rfl⟩ |
    ⟨rtx, outcome, _, _, _, hdispatch, rfl⟩ | ⟨outcome, _, _, hdispatch, rfl⟩
  · simp [Applied.reject] at hsent
  · have hpaidGap := makePayment_gap hpaid hgap
    exact dispatch_sent_gap env hdispatch hsent hpaidGap
  · exact dispatch_sent_gap env hdispatch hsent hgap
  · exact dispatch_sent_gap env hdispatch hsent hgap

-- All 100 coins of the shard belong to one account.
def loneState (info : ShardInfo) : State Unit :=
  { plainState (some info) with
    balances := { (plainState none).balances with
      totalIssuance := 100
      freeBalance := fun who => if who = filled 32 1 then some 100 else none } }

theorem loneState_accounted (info : ShardInfo) : Accounted (loneState info) := by
  have htotal : totalValue (loneState info) = accountValue (loneState info) (filled 32 1) := by
    refine Finset.sum_eq_single _ (fun who _ hwho => ?_) fun hnot => absurd (mem_accounts _) hnot
    simp [accountValue, Balances.freeBalance, loneState, plainState, hwho]
  unfold Accounted
  rw [htotal]
  rfl

theorem issuance_accounted_local : ∃ applied : Applied Unit,
    applyExtrinsic plainSubstrate plainTransfer (loneState ⟨0, 1, none⟩) = .ok applied ∧
    applied.result = .ok .success ∧ Accounted applied.state := by
  have hrun : ((applyExtrinsic plainSubstrate plainTransfer (loneState ⟨0, 1, none⟩)).toOption.bind
      fun applied => some applied.result) = some (.ok .success) := by
    decide +kernel
  obtain ⟨applied, happly, hresult⟩ := Run.exists_of_toOption hrun
  have hlocal : plainTransfer.function.StaysLocal plainSubstrate (loneState ⟨0, 1, none⟩) := by
    refine ⟨rfl, fun _ _ hrelay => by simp [plainTransfer, Call.relay?] at hrelay,
      fun dest value account info hcall hlook hinfo hleaves => ?_⟩
    obtain ⟨rfl, rfl⟩ := Call.balancesTransfer.inj hcall
    obtain rfl := Except.ok.inj hlook
    obtain rfl := Option.some.inj hinfo
    exact absurd (by decide +kernel) hleaves
  have hkeeps : (ChainStep.apply plainTransfer).KeepsIssuance plainSubstrate
      (loneState ⟨0, 1, none⟩) := ⟨fun _ => rfl, hlocal⟩
  have hreach : Reaches (chainStep plainSubstrate)
      (fun st step => step.KeepsIssuance plainSubstrate st) (loneState ⟨0, 1, none⟩)
      ([] ++ applied.movements) applied.state :=
    .tail (.refl _) hkeeps (chainStep_apply _ happly)
  exact ⟨applied, happly, Option.some.inj hresult,
    issuance_accounted plainSubstrate (loneState_accounted _) hreach⟩

-- Five coins leave the shard and stay in its issuance.
theorem sent_coins_stay_issued : ∃ applied : Applied Unit,
    Accounted (loneState ⟨1, 2, none⟩) ∧
    applyExtrinsic plainSubstrate plainTransfer (loneState ⟨1, 2, none⟩) = .ok applied ∧
    applied.result = .ok .success ∧ ¬ Accounted applied.state := by
  have hrun : ((applyExtrinsic plainSubstrate plainTransfer (loneState ⟨1, 2, none⟩)).toOption.bind
      fun applied => some (applied.result, applied.movements)) =
      some (.ok .success, [.outbound ⟨.coin, filled 32 2, 5⟩]) := by
    decide +kernel
  obtain ⟨applied, happly, hrun⟩ := Run.exists_of_toOption hrun
  simp only [Option.some.injEq, Prod.mk.injEq] at hrun
  refine ⟨applied, loneState_accounted _, happly, hrun.1, ?_⟩
  have hgap := applyExtrinsic_sent_gap plainSubstrate happly hrun.2
    ((accounted_iff _).mp (loneState_accounted _))
  rw [accounted_iff, hgap]
  decide

end Yeeroot
