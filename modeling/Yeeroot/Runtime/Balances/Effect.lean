import Yeeroot.Executive
import Yeeroot.Runtime.Accounts

namespace Yeeroot.Balances

open Scale

variable {σ : Type} {env : Substrate σ}

-- What an account keeps of an amount: below the existential deposit it is killed.
def kept (st : State σ) (amount : Nat) : Nat :=
  if amount < st.balances.existentialDeposit.toNat then 0 else amount

theorem toNat_freeBalance_setFreeBalance (who : AccountId) (balance : Balance) (st : State σ) :
    (freeBalance (setFreeBalance who balance st) who).toNat = kept st balance.toNat := by
  rw [freeBalance_setFreeBalance, if_pos rfl, kept]
  by_cases hlow : balance < st.balances.existentialDeposit
  · have hlow' : balance.toNat < st.balances.existentialDeposit.toNat := hlow
    rw [if_pos hlow, if_pos hlow']
    rfl
  · have hlow' : ¬ balance.toNat < st.balances.existentialDeposit.toNat := hlow
    rw [if_neg hlow, if_neg hlow']

theorem setFreeBalance_reservedBalance (who : AccountId) (balance : Balance) (st : State σ) :
    (setFreeBalance who balance st).balances.reservedBalance = st.balances.reservedBalance := by
  rw [setFreeBalance_balances]
  split_ifs <;> rfl

theorem setFreeBalance_freeBalance_of_ne {who account : AccountId} (hne : account ≠ who)
    (balance : Balance) (st : State σ) :
    (setFreeBalance who balance st).balances.freeBalance account =
      st.balances.freeBalance account := by
  rw [setFreeBalance_balances]
  split_ifs <;> exact Function.update_of_ne hne _ _

structure Debited (st st' : State σ) (transactor : AccountId) (value : Balance) : Prop where
  funded : value.toNat + st.balances.transferFee.toNat ≤ (freeBalance st transactor).toNat
  left : (freeBalance st' transactor).toNat = kept st
    ((freeBalance st transactor).toNat - (value.toNat + st.balances.transferFee.toNat))

theorem debited_of_checked {st st' : State σ} {transactor : AccountId}
    {value liability newFromBalance : Balance}
    (hadd : checkedAdd value st.balances.transferFee = some liability)
    (hsub : checkedSub (freeBalance st transactor) liability = some newFromBalance)
    (hleft : (freeBalance st' transactor).toNat = kept st newFromBalance.toNat) :
    Debited st st' transactor value := by
  have hliability := toNat_of_checkedAdd hadd
  have hrest := toNat_of_checkedSub hsub
  refine ⟨by omega, ?_⟩
  rw [hleft]
  congr 1
  omega

theorem transferLocal_balances (transactor dest : AccountId)
    (newFromBalance newToBalance fee : Balance) (st : State σ) :
    (transferLocal env transactor dest newFromBalance newToBalance fee st).balances.freeBalance =
      (setFreeBalance dest newToBalance
        (setFreeBalance transactor newFromBalance st)).balances.freeBalance ∧
    (transferLocal env transactor dest newFromBalance newToBalance fee
      st).balances.reservedBalance = st.balances.reservedBalance := by
  simp only [transferLocal]
  split_ifs
  · exact ⟨rfl, (setFreeBalance_reservedBalance ..).trans (setFreeBalance_reservedBalance ..)⟩
  · refine ⟨?_, (setFreeBalance_reservedBalance ..).trans (setFreeBalance_reservedBalance ..)⟩
    simp only [payTransferFee, onFeeWithdrawn, dropNegative, update, setFreeBalance_balances,
      newAccount]

-- Every account but the sender, and in this shard the receiver, keeps its entry; a sender
-- that is the receiver is not exempt in another shard.
theorem transfer_effect {transactor dest : AccountId} {value : Balance} {st : State σ}
    {outcome : Outcome σ} {info : ShardInfo} (hinfo : st.sharding.currentShardInfo = some info)
    (h : transferFunds env transactor dest value st = .ok outcome) :
    (∀ error, outcome.result = .error error → outcome.state = st) ∧
    (outcome.result = .ok () → Sharding.shardNumFor dest info.count = some info.num →
      (transactor ≠ dest → Debited st outcome.state transactor value ∧
        (freeBalance outcome.state dest).toNat =
          kept st ((freeBalance st dest).toNat + value.toNat)) ∧
      (transactor = dest → outcome.state = st)) ∧
    (outcome.result = .ok () → Sharding.shardNumFor dest info.count ≠ some info.num →
      Debited st outcome.state transactor value ∧ ∀ account, account ≠ transactor →
        outcome.state.balances.freeBalance account = st.balances.freeBalance account) ∧
    (∀ account, account ≠ transactor → account ≠ dest →
      outcome.state.balances.freeBalance account = st.balances.freeBalance account) ∧
    outcome.state.balances.reservedBalance = st.balances.reservedBalance := by
  rcases transferFunds_cases env h with ⟨error, rfl⟩ | ⟨liability, newFromBalance, info', dn, hadd,
    hsub, _, hinfo', hdn, hcases⟩
  · exact ⟨fun _ _ => rfl, fun hok => (by cases hok), fun hok => (by cases hok), fun _ _ _ => rfl,
      rfl⟩
  obtain rfl := Option.some.inj (hinfo.symm.trans hinfo')
  rcases hcases with ⟨hother, rfl⟩ | ⟨hsame, newToBalance, hto, ⟨hne, rfl⟩ | ⟨heq, rfl⟩⟩
  · have hkeeps : ∀ account, account ≠ transactor → (payTransferFee st.balances.transferFee
        (setFreeBalance transactor newFromBalance st)).balances.freeBalance account =
          st.balances.freeBalance account :=
      fun account hne => setFreeBalance_freeBalance_of_ne hne newFromBalance st
    refine ⟨fun _ herror => (by cases herror), fun _ hshard => ?_, fun _ _ => ⟨?_, hkeeps⟩,
      fun account hne _ => hkeeps account hne, setFreeBalance_reservedBalance ..⟩
    · exact absurd (Option.some.inj (hshard.symm.trans hdn)) hother
    · exact debited_of_checked hadd hsub (toNat_freeBalance_setFreeBalance ..)
  · obtain ⟨hfree, hreserved⟩ := transferLocal_balances transactor dest newFromBalance
      newToBalance st.balances.transferFee st
    have hdebited := setFreeBalance_freeBalance_of_ne hne newToBalance
      (setFreeBalance transactor newFromBalance st)
    refine ⟨fun _ herror => (by cases herror), fun _ _ => ⟨fun _ => ⟨?_, ?_⟩,
      fun heq => absurd heq hne⟩, fun _ hshard => absurd (hsame ▸ hdn) hshard, ?_, hreserved⟩
    · refine debited_of_checked hadd hsub ?_
      rw [← toNat_freeBalance_setFreeBalance transactor newFromBalance st]
      simp only [freeBalance, Outcome.done, hfree, hdebited]
    · have hcredited := toNat_freeBalance_setFreeBalance dest newToBalance
        (setFreeBalance transactor newFromBalance st)
      rw [kept, setFreeBalance_existentialDeposit, toNat_of_checkedAdd hto] at hcredited
      rw [kept, ← hcredited]
      simp only [freeBalance, Outcome.done, hfree]
    · intro account hnotFrom hnotTo
      simp only [Outcome.done, hfree]
      rw [setFreeBalance_freeBalance_of_ne hnotTo, setFreeBalance_freeBalance_of_ne hnotFrom]
  · exact ⟨fun _ herror => (by cases herror), fun _ _ => ⟨fun hne => absurd heq hne, fun _ => rfl⟩,
      fun _ hshard => absurd (hsame ▸ hdn) hshard, fun _ _ _ => rfl, rfl⟩

-- A shard whose only account has 100 coins, with a deposit of 10 and a fee of 1.
def oneAccount (num count : UInt16) : State Unit :=
  { plainState (some ⟨num, count, none⟩) with
    balances := { (plainState none).balances with
      existentialDeposit := 10
      transferFee := 1
      freeBalance := Function.update (fun _ => none) (filled 32 1) (some 100) } }

-- Five coins are too few to open an account.
theorem transfer_effect_dust : ∃ outcome,
    transferFunds plainSubstrate (filled 32 1) (filled 32 2) 5 (oneAccount 0 1) = .ok outcome ∧
    (freeBalance outcome.state (filled 32 1)).toNat = 94 ∧
    (freeBalance outcome.state (filled 32 2)).toNat = 0 := by
  have hrun : ∃ outcome, transferFunds plainSubstrate (filled 32 1) (filled 32 2) 5
      (oneAccount 0 1) = .ok outcome ∧ outcome.result = .ok () := ⟨_, rfl, rfl⟩
  obtain ⟨outcome, houtcome, hresult⟩ := hrun
  obtain ⟨hdebited, hcredited⟩ := ((transfer_effect rfl houtcome).2.1 hresult (by decide)).1
    (by decide)
  refine ⟨outcome, houtcome, ?_, ?_⟩
  · rw [hdebited.left]
    decide
  · rw [hcredited]
    decide

-- An account of shard 1 that sends to itself in shard 0 loses what it sends.
theorem own_transfer_debits_destination : ∃ outcome,
    transferFunds plainSubstrate (filled 32 1) (filled 32 1) 5 (oneAccount 0 2) = .ok outcome ∧
    outcome.result = .ok () ∧ Sharding.shardNumFor (filled 32 1) 2 = some 1 ∧
    (oneAccount 0 2).balances.freeBalance (filled 32 1) = some 100 ∧
    outcome.state.balances.freeBalance (filled 32 1) = some 94 :=
  ⟨_, rfl, rfl, by decide, by decide, by decide⟩

end Yeeroot.Balances
