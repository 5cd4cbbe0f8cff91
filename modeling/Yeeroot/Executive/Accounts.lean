import Yeeroot.Executive.Replay
import Yeeroot.Runtime.Accounts

namespace Yeeroot

open Scale

variable {σ : Type} (env : Substrate σ)

theorem initializeBlock_sameAccounts {number : UInt64} {st st' : State σ}
    (h : initializeBlock env number st = .ok st') : State.SameAccounts st st' :=
  have hsame := (initializeBlock_sameCore env h).sameAccounts
  ⟨hsame.balances, hsame.accountNonce⟩

namespace Pow

def rewards (rewardBlockNumber : UInt64) (plans : List RewardPlan) : Nat :=
  ((plans.filter fun plan => decide (plan.blockNumber ≤ rewardBlockNumber)).map fun plan =>
    (plan.blockReward + plan.feeReward).toNat).sum

def dueRewards (number : UInt64) (st : State σ) : Nat :=
  match st.pow.currentPowInfo, st.sharding.currentShardInfo with
  | some info, some shard =>
    rewards (if st.pow.blockRewardLatency < number then number - st.pow.blockRewardLatency else 0)
      (st.pow.rewardPlans ++ [{
        blockNumber := number
        coinbase := info.coinbase
        blockReward := st.pow.blockReward / BitVec.ofNat 128 shard.count.toNat
        feeReward := st.pow.totalFee }])
  | _, _ => 0

end Pow

-- A property of the accounts that holds with room for this much to be paid out, and that a
-- payment keeps with the room that is left.
structure Payable (inv : Nat → State σ → Prop) : Prop where
  same : ∀ {room st st'}, State.SameAccounts st st' → inv room st → inv room st'
  less : ∀ {room room' st}, room' ≤ room → inv room st → inv room' st
  pay : ∀ {room st} target (value : Balance), inv (value.toNat + room) st →
    inv room (Balances.depositCreating env target value st)

namespace Payable

variable {inv : Nat → State σ → Prop} {env}

theorem reward (h : Payable env inv) {plan : RewardPlan} {coinbase : AccountId}
    {condition : RewardCondition} {room : Nat} {st st' : State σ}
    (hreward : Pow.reward env plan coinbase condition st = .ok st')
    (hinv : inv ((plan.blockReward + plan.feeReward).toNat + room) st) : inv room st' := by
  simp only [Pow.reward, Run.bind_eq_ok] at hreward
  obtain ⟨_, _, _, _, _, _, _, _, hreward⟩ := hreward
  split_ifs at hreward
  · rw [(Run.pure_eq_ok _ _).mp hreward]
    exact h.pay _ _ hinv
  · rw [(Run.pure_eq_ok _ _).mp hreward]
    exact h.less (Nat.le_add_left _ _) hinv

theorem settlePlans (h : Payable env inv) {coinbase : AccountId} {condition : RewardCondition}
    {rewardBlockNumber : UInt64} (plans : List RewardPlan) {st : State σ}
    {settled : State σ × List RewardPlan}
    (hsettle : Pow.settlePlans env coinbase condition rewardBlockNumber plans st = .ok settled)
    (hinv : inv (Pow.rewards rewardBlockNumber plans) st) : inv 0 settled.1 := by
  induction plans generalizing st settled with
  | nil => exact (Except.ok.inj hsettle) ▸ hinv
  | cons plan plans ih =>
    simp only [Pow.settlePlans] at hsettle
    split_ifs at hsettle with hdue
    · simp only [Run.bind_eq_ok] at hsettle
      obtain ⟨paid, hpaid, hsettle⟩ := hsettle
      refine ih hsettle (h.reward hpaid ?_)
      simpa [Pow.rewards, hdue] using hinv
    · simp only [Run.bind_eq_ok, Run.pure_eq_ok] at hsettle
      obtain ⟨rest, hrest, rfl⟩ := hsettle
      have hrewards : Pow.rewards rewardBlockNumber (plan :: plans) =
          Pow.rewards rewardBlockNumber plans := by
        simp [Pow.rewards, hdue]
      have hsettled := ih hrest (hrewards ▸ hinv)
      exact hsettled

theorem onFinalize (h : Payable env inv) {number : UInt64} {st st' : State σ}
    (hfinalize : Pow.onFinalize env number st = .ok st') (hinv : inv (Pow.dueRewards number st) st) :
    inv 0 st' := by
  unfold Pow.onFinalize at hfinalize
  cases hinfo : st.pow.currentPowInfo with
  | none =>
    simp only [hinfo, Except.ok.injEq] at hfinalize
    exact hfinalize ▸ h.less (Nat.zero_le _) hinv
  | some info =>
    simp only [hinfo, Run.bind_eq_ok, Sharding.getShardCount_eq_ok] at hfinalize
    obtain ⟨_, ⟨shard, hshard, rfl⟩, hfinalize⟩ := hfinalize
    by_cases hzero : shard.count = 0
    · simp [hzero] at hfinalize
    · simp only [if_neg hzero, Run.bind_eq_ok, Run.pure_eq_ok] at hfinalize
      obtain ⟨settled, hsettled, rfl⟩ := hfinalize
      simp only [Pow.dueRewards, hinfo, hshard] at hinv
      refine h.same ?_ (h.settlePlans _ hsettled hinv)
      exact ⟨rfl, rfl⟩

theorem finishBlock (h : Payable env inv) {number : UInt64} {st st' : State σ}
    (hfinish : Yeeroot.finishBlock env number st = .ok st')
    (hinv : inv (Pow.dueRewards number st) st) : inv 0 st' := by
  obtain ⟨started, _, hstart, hpaid, hlogs⟩ := finishBlock_cases env hfinish
  have hdue : Pow.dueRewards number started = Pow.dueRewards number st := by
    simp only [Pow.dueRewards, hstart.pow, hstart.sharding]
  exact h.same hlogs.sameAccounts (h.onFinalize hpaid (hdue ▸ h.same hstart.sameAccounts hinv))

end Payable

end Yeeroot
