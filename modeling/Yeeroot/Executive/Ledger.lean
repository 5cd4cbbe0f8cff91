import Yeeroot.Executive.Block.Lemmas
import Yeeroot.Executive.Split
import Yeeroot.Numbered
import Yeeroot.Runtime.Writes

namespace Yeeroot

open Scale

variable {σ : Type} (env : Substrate σ)

namespace Pow

def createdPlan (number : UInt64) (st : State σ) : Option RewardPlan :=
  match st.pow.currentPowInfo, st.sharding.currentShardInfo with
  | some info, some shard => some {
      blockNumber := number
      coinbase := info.coinbase
      blockReward := st.pow.blockReward / BitVec.ofNat 128 shard.count.toNat
      feeReward := st.pow.totalFee }
  | _, _ => none

def rewardBlockNumber (latency number : UInt64) : UInt64 :=
  if latency < number then number - latency else 0

def isDue (latency number : UInt64) (plan : RewardPlan) : Bool :=
  decide (plan.blockNumber ≤ rewardBlockNumber latency number)

-- What the closure of `retain` passes to `reward`, in the order of the list.
def passedPlans (number : UInt64) (st : State σ) : List RewardPlan :=
  match createdPlan number st with
  | some plan =>
    (st.pow.rewardPlans ++ [plan]).filter (isDue st.pow.blockRewardLatency number)
  | none => []

def keptPlans (number : UInt64) (st : State σ) : List RewardPlan :=
  match createdPlan number st with
  | some plan =>
    (st.pow.rewardPlans ++ [plan]).filter (!isDue st.pow.blockRewardLatency number ·)
  | none => st.pow.rewardPlans

-- Only the shard of its coinbase deposits a reward.
def deposits (st : State σ) (plan : RewardPlan) : Bool :=
  match st.sharding.currentShardInfo with
  | some shard => decide (Sharding.shardNumFor plan.coinbase shard.count = some shard.num)
  | none => false

theorem deposits_eq {st : State σ} {shard : ShardInfo}
    (h : st.sharding.currentShardInfo = some shard) (plan : RewardPlan) :
    deposits st plan = decide (Sharding.shardNumFor plan.coinbase shard.count = some shard.num) := by
  simp only [deposits, h]

def payPlan (info : PowInfo) (st : State σ) (plan : RewardPlan) : State σ :=
  if deposits st plan then
    let target := match info.rewardCondition with
      | .normal => plan.coinbase
      | .slash => info.coinbase
    Balances.depositCreating env target (plan.blockReward + plan.feeReward) st
  else st

theorem reward_eq_payPlan {plan : RewardPlan} {info : PowInfo} {st st' : State σ}
    (h : reward env plan info.coinbase info.rewardCondition st = .ok st') :
    st' = payPlan env info st plan := by
  simp only [reward, Run.bind_eq_ok, Run.expect_eq_ok, Sharding.getCurrShard_eq_ok,
    Sharding.getShardCount_eq_ok] at h
  obtain ⟨_, ⟨shard, hshard, rfl⟩, num, hnum, _, ⟨shard', hshard', rfl⟩, coinbaseNum, hcoinbase,
    h⟩ := h
  obtain rfl : shard = shard' := Option.some.inj (hshard.symm.trans hshard')
  obtain rfl := Option.some.inj hnum
  unfold payPlan
  rw [deposits_eq hshard, hcoinbase]
  by_cases hown : coinbaseNum = shard.num
  · rw [if_pos hown] at h
    rw [(Run.pure_eq_ok _ _).mp h, hown]
    cases info.rewardCondition <;> simp
  · rw [if_neg hown] at h
    rw [(Run.pure_eq_ok _ _).mp h]
    simp [hown]

theorem depositCreating_pow (who : AccountId) (value : Balance) (st : State σ) :
    (Balances.depositCreating env who value st).pow = st.pow := by
  unfold Balances.depositCreating Balances.dropPositive Balances.dropNegative Balances.update
  dsimp only
  split_ifs <;> simp only [Balances.setFreeBalance_pow] <;> rfl

theorem payPlan_pow (info : PowInfo) (st : State σ) (plan : RewardPlan) :
    (payPlan env info st plan).pow = st.pow := by
  unfold payPlan
  split_ifs
  · exact depositCreating_pow env _ _ st
  · rfl

theorem payPlan_sharding (info : PowInfo) (st : State σ) (plan : RewardPlan) :
    (payPlan env info st plan).sharding = st.sharding := by
  unfold payPlan
  split_ifs
  · exact (Balances.depositCreating_coinsOnly env _ _ st).sharding
  · rfl

end Pow

-- A call of `reward` at the end of a block.
structure RewardCall where
  block : Nat
  plan : RewardPlan
  deposited : Bool
  deriving DecidableEq

def Pow.rewardCalls (number : Nat) (st : State σ) : List RewardCall :=
  (passedPlans (UInt64.ofNat number) st).map fun plan => ⟨number, plan, deposits st plan⟩

theorem Pow.map_rewardCalls (number : Nat) (st : State σ) :
    (rewardCalls number st).map RewardCall.plan = passedPlans (UInt64.ofNat number) st := by
  rw [rewardCalls, List.map_map]
  exact List.map_id _

-- The call runs through, and deposits where it is noted to.
def RewardCall.Runs (info : PowInfo) (call : RewardCall) (st st' : State σ) : Prop :=
  Pow.reward env call.plan info.coinbase info.rewardCondition st = .ok st' ∧
    call.deposited = Pow.deposits st call.plan ∧ st' = Pow.payPlan env info st call.plan

namespace Pow

def RunsCalls (info : PowInfo) : List RewardCall → State σ → State σ → Prop
  | [], st, st' => st' = st
  | call :: calls, st, st' => ∃ paid, call.Runs env info st paid ∧ RunsCalls info calls paid st'

theorem RunsCalls.pow {info : PowInfo} {calls : List RewardCall} {st st' : State σ}
    (h : RunsCalls env info calls st st') : st'.pow = st.pow := by
  induction calls generalizing st with
  | nil => exact congrArg State.pow h
  | cons call calls ih =>
    obtain ⟨paid, ⟨_, _, rfl⟩, hrest⟩ := h
    exact (ih hrest).trans (payPlan_pow env info st call.plan)

-- The flags are those of the state before the first call: no deposit changes the shard.
theorem settlePlans_runs {info : PowInfo} {latency number : UInt64} (block : Nat) {first : State σ}
    (plans : List RewardPlan) {st : State σ} {settled : State σ × List RewardPlan}
    (hshard : st.sharding = first.sharding)
    (h : settlePlans env info.coinbase info.rewardCondition (rewardBlockNumber latency number) plans
      st = .ok settled) :
    RunsCalls env info ((plans.filter (isDue latency number)).map fun plan =>
        ⟨block, plan, deposits first plan⟩) st settled.1 ∧
      settled.2 = plans.filter (!isDue latency number ·) := by
  induction plans generalizing st settled with
  | nil =>
    obtain rfl := Except.ok.inj h
    exact ⟨rfl, rfl⟩
  | cons plan plans ih =>
    simp only [settlePlans] at h
    split_ifs at h with hdue
    · have hdue' : isDue latency number plan = true := decide_eq_true hdue
      simp only [Run.bind_eq_ok] at h
      obtain ⟨paid, hreward, h⟩ := h
      have hpaid := reward_eq_payPlan env hreward
      have hshard' : paid.sharding = first.sharding := by
        rw [hpaid, payPlan_sharding, hshard]
      obtain ⟨hruns, hkept⟩ := ih hshard' h
      refine ⟨?_, by simp [hkept, hdue']⟩
      rw [List.filter_cons_of_pos hdue']
      refine ⟨paid, ⟨hreward, ?_, hpaid⟩, hruns⟩
      simp only [deposits, hshard]
    · have hdue' : isDue latency number plan = false := decide_eq_false hdue
      simp only [Run.bind_eq_ok, Run.pure_eq_ok] at h
      obtain ⟨rest, hrest, rfl⟩ := h
      obtain ⟨hruns, hkept⟩ := ih hshard hrest
      refine ⟨?_, by simp [hkept, hdue']⟩
      rwa [List.filter_cons_of_neg (by simp [hdue'])]

-- The end of a block that knows its author: the due plans are paid one after the other.
theorem onFinalize_runs {number : Nat} {info : PowInfo} {st st' : State σ}
    (hinfo : st.pow.currentPowInfo = some info)
    (h : onFinalize env (UInt64.ofNat number) st = .ok st') :
    (createdPlan (UInt64.ofNat number) st).isSome ∧
      ∃ paid, RunsCalls env info (rewardCalls number st) st paid ∧ st' = { paid with
        pow := { st.pow with rewardPlans := keptPlans (UInt64.ofNat number) st } } := by
  unfold onFinalize at h
  simp only [hinfo, Run.bind_eq_ok, Sharding.getShardCount_eq_ok] at h
  obtain ⟨_, ⟨shard, hshard, rfl⟩, h⟩ := h
  by_cases hzero : shard.count = 0
  · simp [hzero] at h
  · simp only [if_neg hzero, Run.bind_eq_ok, Run.pure_eq_ok] at h
    obtain ⟨⟨paid, kept⟩, hsettled, rfl⟩ := h
    obtain ⟨hruns, hkept⟩ := settlePlans_runs env number _ rfl hsettled
    refine ⟨by simp [createdPlan, hinfo, hshard], paid, ?_, ?_⟩
    · simpa only [rewardCalls, passedPlans, createdPlan, hinfo, hshard] using hruns
    · obtain rfl : kept = _ := hkept
      simp only [show paid.pow = st.pow from hruns.pow, keptPlans, createdPlan, hinfo, hshard]

end Pow

-- The end of a block runs its calls of `reward`, and nothing else in it touches a balance.
def PaysRewards (number : Nat) (ended left : State σ) : Prop :=
  ∃ info started paid, ended.pow.currentPowInfo = some info ∧ started.balances = ended.balances ∧
    Pow.RunsCalls env info (Pow.rewardCalls number ended) started paid ∧
    left.balances = paid.balances

variable {info : PowInfo} {st st' ended : State σ} {extrinsics : List UncheckedExtrinsic}
  {base : Nat}

theorem finishBlock_pays {number : Nat} (hinfo : st.pow.currentPowInfo = some info)
    (h : finishBlock env (UInt64.ofNat number) st = .ok st') :
    (Pow.createdPlan (UInt64.ofNat number) st).isSome ∧
      st'.pow = { st.pow with rewardPlans := Pow.keptPlans (UInt64.ofNat number) st } ∧
      PaysRewards env number st st' := by
  obtain ⟨started, paid, hstart, hpaid, hlogs⟩ := finishBlock_cases env h
  have hcreate : Pow.createdPlan (UInt64.ofNat number) started =
      Pow.createdPlan (UInt64.ofNat number) st := by
    simp only [Pow.createdPlan, hstart.pow, hstart.sharding]
  have hkeep : Pow.keptPlans (UInt64.ofNat number) started =
      Pow.keptPlans (UInt64.ofNat number) st := by
    simp only [Pow.keptPlans, hcreate, hstart.pow]
  have hcalls : Pow.rewardCalls number started = Pow.rewardCalls number st := by
    simp only [Pow.rewardCalls, Pow.passedPlans, Pow.deposits, hcreate, hstart.pow, hstart.sharding]
  obtain ⟨hcreated, settled, hruns, rfl⟩ := Pow.onFinalize_runs env (hstart.pow ▸ hinfo) hpaid
  refine ⟨hcreate ▸ hcreated, ?_, info, started, settled, hinfo, hstart.balances, ?_,
    hlogs.balances⟩
  · rw [hlogs.pow, hkeep, hstart.pow]
  · exact hcalls ▸ hruns

theorem Balances.makePayment_pow {transactor : AccountId} {encodedLen : Nat} {st paid : State σ}
    (h : makePayment transactor encodedLen st = (paid, .ok ())) :
    freeBalance paid transactor ≤ freeBalance st transactor ∧
    paid.pow = { st.pow with totalFee := st.pow.totalFee +
      (freeBalance st transactor - freeBalance paid transactor) } := by
  obtain ⟨fee, newBalance, rfl, hfree, henough⟩ := makePayment_ok h
  have hleft : freeBalance (payTransferFee fee (setFreeBalance transactor newBalance st))
      transactor = newBalance := by
    have hset := freeBalance_setFreeBalance transactor newBalance st transactor
    rw [if_pos rfl, if_neg (BitVec.not_lt.mpr henough)] at hset
    exact hset
  have hle : newBalance ≤ freeBalance st transactor := by
    rw [BitVec.le_def]
    omega
  have hfee : freeBalance st transactor - newBalance = fee := by
    apply BitVec.eq_of_toNat_eq
    rw [BitVec.toNat_sub_of_le hle]
    omega
  rw [hleft, hfee]
  refine ⟨hle, ?_⟩
  simp only [payTransferFee, onFeeWithdrawn, dropNegative, update, setFreeBalance_pow]

-- An extrinsic by which root does not overwrite storage.
def UncheckedExtrinsic.Ordinary (uxt : UncheckedExtrinsic) : Prop :=
  ∀ sender, uxt.function.rawWrite (.signed sender) = false

structure PowState.Frame (pow pow' : PowState) : Prop where
  rewardPlans : pow'.rewardPlans = pow.rewardPlans
  blockReward : pow'.blockReward = pow.blockReward
  latency : pow'.blockRewardLatency = pow.blockRewardLatency
  info : pow.currentPowInfo.isSome → pow'.currentPowInfo.isSome

namespace PowState.Frame

variable {pow pow' pow'' : PowState}

theorem refl (pow : PowState) : Frame pow pow := ⟨rfl, rfl, rfl, id⟩

theorem trans (h : Frame pow pow') (h' : Frame pow' pow'') : Frame pow pow'' :=
  ⟨h'.rewardPlans.trans h.rewardPlans, h'.blockReward.trans h.blockReward,
    h'.latency.trans h.latency, fun hinfo => h'.info (h.info hinfo)⟩

theorem of_eq (h : pow' = pow) : Frame pow pow' := h ▸ refl pow

theorem totalFee (pow : PowState) (fee : Balance) : Frame pow { pow with totalFee := fee } :=
  ⟨rfl, rfl, rfl, id⟩

end PowState.Frame

theorem PowWrite.frame {call : Call} {origin : Origin} (h : PowWrite env st call origin st') :
    PowState.Frame st.pow st'.pow := by
  cases h with
  | none same => exact .of_eq same
  | info stored =>
    rw [stored]
    exact ⟨rfl, rfl, rfl, fun _ => rfl⟩
  | fee _ _ recorded =>
    rw [recorded]
    exact .totalFee _ _

theorem applyExtrinsic_powFrame {uxt : UncheckedExtrinsic} {applied : Applied σ}
    (h : applyExtrinsic env uxt st = .ok applied) (hordinary : uxt.Ordinary) :
    PowState.Frame st.pow applied.state.pow := by
  rcases applyExtrinsic_cases env h with ⟨_, rfl⟩ |
    ⟨_, sender, paid, outcome, _, _, hpaid, hdispatch, rfl⟩ |
    ⟨_, outcome, _, _, _, hdispatch, rfl⟩ | ⟨outcome, _, _, hdispatch, rfl⟩
  · exact .refl _
  · have hpay : PowState.Frame st.pow paid.pow := by
      rw [(Balances.makePayment_pow hpaid).2]
      exact .totalFee _ _
    exact hpay.trans (dispatch_powWrite env hdispatch (hordinary sender)).frame
  · exact (dispatch_powWrite env hdispatch (Call.rawWrite_inherent _)).frame
  · exact (dispatch_powWrite env hdispatch (Call.rawWrite_inherent _)).frame

theorem powInherent_stored {applied : Applied σ}
    (h : applyExtrinsicNoNote env ⟨none, .powSetPowInfo info⟩ st = .ok applied) :
    applied.state.pow.currentPowInfo = some info := by
  obtain ⟨happly, _, hresult⟩ := (applyExtrinsicNoNote_eq_ok env _ _ _).mp h
  rcases applyExtrinsic_cases env happly with ⟨_, rfl⟩ | ⟨_, _, _, _, haccepted, _⟩ |
    ⟨_, outcome, _, _, _, hdispatch, rfl⟩ | ⟨outcome, _, _, hdispatch, rfl⟩
  · cases hresult
  · cases haccepted.signature
  · obtain rfl := Except.ok.inj hdispatch
    rfl
  · obtain rfl := Except.ok.inj hdispatch
    rfl

theorem executeExtrinsics_powFrame {executed : List (Executed σ)}
    (h : executeExtrinsics env extrinsics st = .ok (executed, ended))
    (hordinary : ∀ uxt ∈ extrinsics, uxt.Ordinary) : PowState.Frame st.pow ended.pow := by
  induction extrinsics generalizing st executed with
  | nil =>
    obtain ⟨_, rfl⟩ := Prod.mk.inj (Except.ok.inj h)
    exact .refl _
  | cons uxt extrinsics ih =>
    simp only [executeExtrinsics, Run.bind_eq_ok, Run.pure_eq_ok, Prod.mk.injEq] at h
    obtain ⟨applied, happly, ⟨rest, final⟩, hrest, _, rfl⟩ := h
    have hfirst := applyExtrinsic_powFrame env
      ((applyExtrinsicNoNote_eq_ok env _ _ _).mp happly).1
      (hordinary uxt List.mem_cons_self)
    exact hfirst.trans (ih hrest fun other hother => hordinary other (List.mem_cons_of_mem _ hother))

theorem executeExtrinsics_currentPowInfo {executed : List (Executed σ)}
    (h : executeExtrinsics env extrinsics st = .ok (executed, ended))
    (hordinary : ∀ uxt ∈ extrinsics, uxt.Ordinary)
    (hsets : ⟨none, .powSetPowInfo info⟩ ∈ extrinsics) : ended.pow.currentPowInfo.isSome := by
  induction extrinsics generalizing st executed with
  | nil => cases hsets
  | cons uxt extrinsics ih =>
    simp only [executeExtrinsics, Run.bind_eq_ok, Run.pure_eq_ok, Prod.mk.injEq] at h
    obtain ⟨applied, happly, ⟨rest, final⟩, hrest, _, rfl⟩ := h
    have hothers : ∀ other ∈ extrinsics, other.Ordinary :=
      fun other hother => hordinary other (List.mem_cons_of_mem _ hother)
    rcases List.mem_cons.mp hsets with rfl | hlater
    · refine (executeExtrinsics_powFrame env hrest hothers).info ?_
      rw [powInherent_stored env happly]
      rfl
    · exact ih hrest hothers hlater

-- One block: the state in which its extrinsics end, and the state it leaves.
def chainBlock (number : UInt64) (extrinsics : List UncheckedExtrinsic) (st : State σ) :
    Run (State σ × State σ) := do
  let opened ← initializeBlock env number st
  let (_, ended) ← executeExtrinsics env extrinsics opened
  let st ← finishBlock env number ended
  return (ended, st)

theorem chainBlock_pays {number : Nat}
    (h : chainBlock env (UInt64.ofNat number) extrinsics st = .ok (ended, st'))
    (hordinary : ∀ uxt ∈ extrinsics, uxt.Ordinary)
    (hsets : ⟨none, .powSetPowInfo info⟩ ∈ extrinsics) :
    PowState.Frame st.pow ended.pow ∧ finishBlock env (UInt64.ofNat number) ended = .ok st' ∧
      (Pow.createdPlan (UInt64.ofNat number) ended).isSome ∧
      st'.pow = { ended.pow with rewardPlans := Pow.keptPlans (UInt64.ofNat number) ended } ∧
      PaysRewards env number ended st' := by
  simp only [chainBlock, initializeBlock, Run.bind_eq_ok, Run.pure_eq_ok, Prod.mk.injEq] at h
  obtain ⟨opened, ⟨_, _, rfl⟩, ⟨executed, _⟩, hrun, _, hclose, rfl, rfl⟩ := h
  obtain ⟨info', hinfo⟩ := Option.isSome_iff_exists.mp
    (executeExtrinsics_currentPowInfo env hrun hordinary hsets)
  have hopened := PowState.Frame.totalFee st.pow 0
  exact ⟨hopened.trans (executeExtrinsics_powFrame env hrun hordinary), hclose,
    finishBlock_pays env hinfo hclose⟩

-- The blocks that follow block number `base`, from the state it leaves. Every block sets
-- the proof-of-work info.
inductive Blocks (allowed : UncheckedExtrinsic → Prop) (base : Nat) (start : State σ) :
    List (State σ) → State σ → Prop where
  | nil : Blocks allowed base start [] start
  | concat {ends : List (State σ)} {st ended st' : State σ}
      {extrinsics : List UncheckedExtrinsic} {info : PowInfo}
      (before : Blocks allowed base start ends st) (fits : base + ends.length + 1 < 2 ^ 64)
      (sets : ⟨none, .powSetPowInfo info⟩ ∈ extrinsics)
      (permitted : ∀ uxt ∈ extrinsics, allowed uxt)
      (runs : chainBlock env (UInt64.ofNat (base + ends.length + 1)) extrinsics st =
        .ok (ended, st')) :
      Blocks allowed base start (ends ++ [ended]) st'

theorem Blocks.append {allowed : UncheckedExtrinsic → Prop} {start middle st : State σ}
    {ends ends' : List (State σ)} (h : Blocks env allowed base start ends middle)
    (h' : Blocks env allowed (base + ends.length) middle ends' st) :
    Blocks env allowed base start (ends ++ ends') st := by
  induction h' with
  | nil => exact (List.append_nil ends).symm ▸ h
  | concat _ fits sets permitted runs ih =>
    rw [Nat.add_assoc base, ← List.length_append] at fits runs
    rw [← List.append_assoc]
    exact .concat ih fits sets permitted runs

-- Every block of a run ends with its calls of `reward`.
def RewardsPaid (base : Nat) (ends : List (State σ)) : Prop :=
  ∀ i ended, ends[i]? = some ended → ∃ left,
    finishBlock env (UInt64.ofNat (base + i + 1)) ended = .ok left ∧
      PaysRewards env (base + i + 1) ended left

theorem Blocks.rewardsPaid {start st : State σ} {ends : List (State σ)}
    (h : Blocks env UncheckedExtrinsic.Ordinary base start ends st) :
    RewardsPaid env base ends := by
  induction h with
  | nil => intro i ended hget; cases hget
  | concat _ _ sets permitted runs ih =>
    obtain ⟨_, hclose, _, _, hpays⟩ := chainBlock_pays env runs permitted sets
    intro i ended hget
    rw [List.getElem?_append] at hget
    split_ifs at hget with hlt
    · exact ih i ended hget
    · rw [List.getElem?_singleton] at hget
      split_ifs at hget with hlast
      obtain rfl := Option.some.inj hget
      obtain rfl : i = _ := Nat.le_antisymm (Nat.sub_eq_zero_iff_le.mp hlast) (Nat.not_lt.mp hlt)
      exact ⟨_, hclose, hpays⟩

-- What the blocks of a run create and pass to `reward`.
def createdPlans (base : Nat) (ends : List (State σ)) : List RewardPlan :=
  (ends.zipIdx (base + 1)).flatMap fun block =>
    (Pow.createdPlan (UInt64.ofNat block.2) block.1).toList

def rewardCalls (base : Nat) (ends : List (State σ)) : List RewardCall :=
  (ends.zipIdx (base + 1)).flatMap fun block => Pow.rewardCalls block.2 block.1

theorem createdPlans_append (base : Nat) (ends ends' : List (State σ)) :
    createdPlans base (ends ++ ends') =
      createdPlans base ends ++ createdPlans (base + ends.length) ends' := by
  simp [createdPlans, List.zipIdx_append, Nat.add_right_comm]

theorem rewardCalls_append (base : Nat) (ends ends' : List (State σ)) :
    rewardCalls base (ends ++ ends') =
      rewardCalls base ends ++ rewardCalls (base + ends.length) ends' := by
  simp [rewardCalls, List.zipIdx_append, Nat.add_right_comm]

theorem mem_rewardCalls {ends : List (State σ)} {call : RewardCall}
    (h : call ∈ rewardCalls base ends) :
    base + 1 ≤ call.block ∧ ∃ ended, ends[call.block - (base + 1)]? = some ended ∧
      call.deposited = Pow.deposits ended call.plan := by
  obtain ⟨⟨ended, number⟩, hblock, hcall⟩ := List.mem_flatMap.mp h
  obtain ⟨plan, _, rfl⟩ := List.mem_map.mp hcall
  obtain ⟨hlow, hget⟩ := List.mem_zipIdx_iff_le_and_getElem?_sub.mp hblock
  exact ⟨hlow, ended, hget, rfl⟩

def authorInherent : UncheckedExtrinsic := ⟨none, .powSetPowInfo ⟨filled 32 2, .normal⟩⟩

-- The storage keys of four items, `twox_128` of their names.
def rewardPlansKey : ByteVec :=
  ⟨[238, 42, 3, 20, 132, 152, 38, 82, 236, 62, 111, 235, 4, 107, 223, 254], by decide⟩

def totalFeeKey : ByteVec :=
  ⟨[39, 114, 16, 15, 44, 134, 133, 19, 191, 107, 83, 122, 79, 153, 239, 39], by decide⟩

def nextAssetIdKey : ByteVec :=
  ⟨[238, 253, 245, 198, 240, 70, 228, 236, 125, 138, 167, 202, 85, 18, 75, 110], by decide⟩

def pendingChangeKey : ByteVec :=
  ⟨[108, 174, 243, 189, 248, 104, 241, 80, 234, 161, 185, 173, 27, 95, 13, 125], by decide⟩

-- An item without a value reads as its default.
def killKey (st : State Unit) (key : ByteVec) : State Unit :=
  if key = rewardPlansKey then { st with pow := { st.pow with rewardPlans := [] } }
  else if key = totalFeeKey then { st with pow := { st.pow with totalFee := 0 } }
  else if key = nextAssetIdKey then { st with assets := { st.assets with nextAssetId := 0 } }
  else if key = pendingChangeKey then { st with crfg := { st.crfg with pendingChange := none } }
  else st

-- The arguments of `kill_storage`, function 6 of the consensus module.
def decodeKillStorage : SubstrateModule → Bytes → Option (List ByteVec × Bytes)
  | .consensus, 6 :: input => decodeVec decodeByteVec input
  | _, _ => none

-- An environment in which root can remove items of the storage, and nothing else.
def rootSubstrate : Substrate Unit :=
  { plainSubstrate with
    args := fun owner input => do
      let (_, rest) ← decodeKillStorage owner input
      return (input.take (input.length - rest.length), rest)
    dispatchRoot := fun owner args st =>
      match decodeKillStorage owner args with
      | some (keys, []) => .ok (keys.foldl killKey st, .ok ())
      | _ => .ok (st, .ok ()) }

def rootCall (sender : AccountId) (key : ByteVec) : UncheckedExtrinsic :=
  ⟨some ⟨.id sender, filled 64 7, 0, .immortal⟩,
    .sudoSudo (.substrate .consensus (6 :: encodeVec encodeByteVec [key]))⟩

theorem decodeKillStorage_encode (key : ByteVec) :
    decodeKillStorage .consensus (6 :: encodeVec encodeByteVec [key]) = some ([key], []) := by
  have hlength : decodeCompact 4 (encodeCompact [key].length ++ [key].flatMap encodeByteVec) =
      some (1, encodeByteVec key ++ []) :=
    decodeCompact_append 4 1 _ (by decide) (by decide) (by decide)
  simp only [decodeKillStorage, decodeVec, encodeVec, hlength, Option.bind_eq_bind,
    Option.bind_some, decodeItems, decodeByteVec_append, Option.pure_def]

theorem rootCall_decodes (sender : AccountId) (key : ByteVec) :
    Call.decode rootSubstrate.args (rootCall sender key).function.encode =
      some ((rootCall sender key).function, []) := by
  have hargs : rootSubstrate.args .consensus (6 :: encodeVec encodeByteVec [key]) =
      some (6 :: encodeVec encodeByteVec [key], []) := by
    simp only [rootSubstrate, decodeKillStorage_encode, Option.bind_eq_bind, Option.bind_some,
      List.length_nil, Nat.sub_zero, List.take_length, Option.pure_def]
  unfold rootCall
  revert hargs
  generalize 6 :: encodeVec encodeByteVec [key] = args
  intro hargs
  simp only [Call.decode, Call.encode, SubstrateModule.number, List.length_cons, Call.decodeFuel,
    readByte_cons, Option.bind_eq_bind, Option.bind_some, hargs, Option.pure_def]
  rfl

end Yeeroot
