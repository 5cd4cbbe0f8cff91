import Yeeroot.Runtime.Accounts

namespace Yeeroot

open Scale

variable {σ : Type} (env : Substrate σ)

namespace Balances

theorem transferLocal_pow (transactor dest : AccountId)
    (newFromBalance newToBalance fee : Balance) (st : State σ) :
    (transferLocal env transactor dest newFromBalance newToBalance fee st).pow =
      { st.pow with totalFee := st.pow.totalFee + fee } := by
  simp only [transferLocal, payTransferFee, onFeeWithdrawn, dropNegative, update,
    setFreeBalance_pow]
  split_ifs <;> simp only [newAccount, setFreeBalance_pow]

theorem relayTransfer_pow {tx : Bytes} {st : State σ} {outcome : Outcome σ}
    (h : relayTransfer env tx st = .ok outcome) : outcome.state.pow = st.pow := by
  simp only [relayTransfer, Run.bind_eq_ok, Run.expect_eq_ok] at h
  obtain ⟨origin, _, h⟩ := h
  have hannounced : ∀ exist : Bool,
      (if exist then st else newAccount env origin.dest st).pow = st.pow := by
    intro exist
    split_ifs <;> rfl
  split at h
  · obtain rfl := Except.ok.inj h
    exact hannounced _
  · obtain rfl := Except.ok.inj h
    exact (setFreeBalance_pow ..).trans (hannounced _)

end Balances

variable {origin : Origin} {st : State σ} {outcome : Outcome σ}

theorem Assets.transfer_pow {shardCode : ByteVec} {id : UInt32} {target : Address}
    {amount : Balance} (h : transfer env origin shardCode id target amount st = .ok outcome) :
    outcome.state.pow = st.pow := by
  cases transfers_of_transfer env h <;> rfl

theorem Relay.transfer_pow {relay : RelayCall} (h : transfer env relay st = .ok outcome) :
    outcome.state.pow = st.pow := by
  unfold transfer at h
  cases htype : relay.relayType with
  | balance =>
    rw [htype] at h
    exact Balances.relayTransfer_pow env h
  | assets =>
    rw [htype] at h
    rcases Assets.relayTransfer_cases h with ⟨_, rfl⟩ | ⟨_, _, _, _, rfl⟩ <;> rfl

-- Everything a call can do to the storage of the proof-of-work module.
inductive PowWrite (st : State σ) : Call → Origin → State σ → Prop where
  | none {call : Call} {origin : Origin} {st' : State σ} (same : st'.pow = st.pow) :
      PowWrite st call origin st'
  | info {info : PowInfo} {st' : State σ}
      (stored : st'.pow = { st.pow with currentPowInfo := some info }) :
      PowWrite st (.powSetPowInfo info) .inherent st'
  | fee {dest : Address} {value : Balance} {sender account : AccountId} {newFromBalance : Balance}
      {st' : State σ} (lookup : st.lookup env dest = .ok account)
      (debits : Balances.Debits st sender account value newFromBalance)
      (recorded : st'.pow = { st.pow with
        totalFee := st.pow.totalFee + st.balances.transferFee }) :
      PowWrite st (.balancesTransfer dest value) (.signed sender) st'

theorem transfer_powWrite {dest : Address} {value : Balance}
    (h : Balances.transfer env origin dest value st = .ok outcome) :
    PowWrite env st (.balancesTransfer dest value) origin outcome.state := by
  rcases Balances.transfer_writes env h with hsame | ⟨sender, account, newFromBalance, rfl, hlook,
    hdebits, ⟨_, hstate⟩ | ⟨_, _, newToBalance, _, hstate⟩⟩
  · exact .none (congrArg State.pow hsame)
  · refine .fee hlook hdebits ?_
    rw [hstate]
    simp only [Balances.payTransferFee, Balances.onFeeWithdrawn, Balances.dropNegative,
      Balances.update, Balances.setFreeBalance_pow]
  · refine .fee hlook hdebits ?_
    rw [hstate, Balances.transferLocal_pow]

theorem dispatch_powWrite {call : Call} (h : dispatch env call origin st = .ok outcome)
    (hraw : call.rawWrite origin = false) :
    PowWrite env st call origin outcome.state := by
  cases dispatch_cases env h with
  | minor same _ => exact .none same.pow
  | raw root _ => cases root.symm.trans hraw
  | transfer done => exact transfer_powWrite env done
  | assetsTransfer done => exact .none (Assets.transfer_pow env done)
  | issue =>
    refine .none ?_
    simp only [Assets.issue]
    split_ifs <;> rfl
  | @relay _ _ relay inner _ _ _ done =>
    have hpow : inner.state.pow = st.pow := Relay.transfer_pow env done
    exact .none hpow
  | setBalance =>
    refine .none ?_
    simp only [Balances.setBalance]
    split
    · exact (Balances.setReservedBalance_pow ..).trans (Balances.setFreeBalance_pow ..)
    · rfl
  | powInfo => exact .info rfl
  | shardInfo => exact .none rfl

end Yeeroot
