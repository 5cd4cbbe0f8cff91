import Yeeroot.Executive.Ledger

namespace Yeeroot

open Scale

variable {σ : Type} {env : Substrate σ}

namespace Pow

theorem toNat_rewardBlockNumber (latency : UInt64) {number : Nat} (h : number < 2 ^ 64) :
    (rewardBlockNumber latency (UInt64.ofNat number)).toNat = number - latency.toNat := by
  have hnumber : (UInt64.ofNat number).toNat = number := UInt64.toNat_ofNat_of_lt' h
  unfold rewardBlockNumber
  by_cases hlow : latency < UInt64.ofNat number
  · have hlow' : latency.toNat < number := hnumber ▸ UInt64.lt_iff_toNat_lt.mp hlow
    rw [if_pos hlow, UInt64.toNat_sub_of_le _ _ (UInt64.le_of_lt hlow), hnumber]
  · have hlow' : ¬ latency.toNat < number := hnumber ▸ UInt64.lt_iff_toNat_lt.not.mp hlow
    rw [if_neg hlow, UInt64.toNat_zero]
    omega

theorem isDue_eq (latency : UInt64) {number : Nat} (h : number < 2 ^ 64) (plan : RewardPlan) :
    isDue latency (UInt64.ofNat number) plan =
      decide (plan.blockNumber.toNat ≤ number - latency.toNat) := by
  simp only [isDue, UInt64.le_iff_toNat_le, toNat_rewardBlockNumber latency h]

end Pow

-- The books of a run from genesis: the plans count the blocks, those of the last blocks are
-- pending, and each of the others was passed on when it was due.
structure Ledger (start : State σ) (ends : List (State σ)) (st : State σ) : Prop where
  blockReward : st.pow.blockReward = start.pow.blockReward
  latency : st.pow.blockRewardLatency = start.pow.blockRewardLatency
  created : ∀ i ended, ends[i]? = some ended → ended.pow.blockReward = start.pow.blockReward ∧
    ∃ plan, Pow.createdPlan (UInt64.ofNat (i + 1)) ended = some plan ∧
      (createdPlans 0 ends)[i]? = some plan
  length : (createdPlans 0 ends).length = ends.length
  numbers : Numbered (fun plan => plan.blockNumber.toNat) 1 (createdPlans 0 ends)
  pending : st.pow.rewardPlans =
    (createdPlans 0 ends).drop (ends.length - start.pow.blockRewardLatency.toNat)
  passed : (rewardCalls 0 ends).map RewardCall.plan =
    (createdPlans 0 ends).take (ends.length - start.pow.blockRewardLatency.toNat)
  blocks : Numbered RewardCall.block (start.pow.blockRewardLatency.toNat + 1) (rewardCalls 0 ends)

theorem Ledger.matured_le {start st : State σ} {ends : List (State σ)} (h : Ledger start ends st) :
    ends.length - start.pow.blockRewardLatency.toNat ≤ (createdPlans 0 ends).length := by
  rw [h.length]
  omega

theorem Ledger.genesis {start : State σ} (h : start.pow.rewardPlans = []) :
    Ledger start [] start := by
  refine ⟨rfl, rfl, by simp, rfl, .nil _ _, ?_, ?_, .nil _ _⟩
  · simp [h, createdPlans]
  · simp [rewardCalls, createdPlans]

theorem createdPlan_blockNumber {number : UInt64} {st : State σ} {plan : RewardPlan}
    (h : Pow.createdPlan number st = some plan) : plan.blockNumber = number := by
  unfold Pow.createdPlan at h
  split at h
  · rw [← Option.some.inj h]
  · cases h

theorem Ledger.calls_length {start st : State σ} {ends : List (State σ)}
    (h : Ledger start ends st) :
    (rewardCalls 0 ends).length = ends.length - start.pow.blockRewardLatency.toNat := by
  have hlength := congrArg List.length h.passed
  rw [List.length_map, List.length_take, h.length] at hlength
  omega

theorem Ledger.settle {start st ended : State σ} {ends : List (State σ)} {plan : RewardPlan}
    (h : Ledger start ends st) (hframe : PowState.Frame st.pow ended.pow)
    (hfits : ends.length + 1 < 2 ^ 64)
    (hplan : Pow.createdPlan (UInt64.ofNat (ends.length + 1)) ended = some plan) :
    let latency := start.pow.blockRewardLatency.toNat
    let plans := createdPlans 0 ends ++ [plan]
    Numbered (fun plan => plan.blockNumber.toNat) 1 plans ∧
    Pow.keptPlans (UInt64.ofNat (ends.length + 1)) ended = plans.drop (ends.length + 1 - latency) ∧
    Pow.passedPlans (UInt64.ofNat (ends.length + 1)) ended =
      (plans.drop (ends.length - latency)).take
        (ends.length + 1 - latency - (ends.length - latency)) := by
  intro latency plans
  have hnumber : plan.blockNumber.toNat = 1 + (createdPlans 0 ends).length := by
    rw [createdPlan_blockNumber hplan, UInt64.toNat_ofNat_of_lt' hfits, h.length, Nat.add_comm]
  have hnumbers := h.numbers.concat hnumber
  have hlength : ends.length - latency ≤ plans.length := by
    simp only [plans, List.length_append, h.length]
    omega
  have hpending : ended.pow.rewardPlans ++ [plan] = plans.drop (ends.length - latency) := by
    rw [hframe.rewardPlans, h.pending, List.drop_append_of_le_length h.matured_le]
  have hdue : Pow.isDue ended.pow.blockRewardLatency (UInt64.ofNat (ends.length + 1)) =
      fun plan => decide (plan.blockNumber.toNat ≤ ends.length + 1 - latency) := by
    funext plan
    rw [Pow.isDue_eq _ hfits, hframe.latency, h.latency]
  have hrest := (hnumbers.take_drop hlength).2
  refine ⟨hnumbers, ?_, ?_⟩
  · simp only [Pow.keptPlans, hplan, hdue, hpending]
    rw [hrest.filter_not_le, List.drop_drop]
    congr 1
    omega
  · simp only [Pow.passedPlans, hplan, hdue, hpending]
    rw [hrest.filter_le]
    congr 1
    omega

theorem Ledger.concat {start st ended st' : State σ} {ends : List (State σ)}
    (h : Ledger start ends st) (hframe : PowState.Frame st.pow ended.pow)
    (hfits : ends.length + 1 < 2 ^ 64) {plan : RewardPlan}
    (hplan : Pow.createdPlan (UInt64.ofNat (ends.length + 1)) ended = some plan)
    (hclosed : st'.pow = { ended.pow with
      rewardPlans := Pow.keptPlans (UInt64.ofNat (ends.length + 1)) ended }) :
    Ledger start (ends ++ [ended]) st' := by
  obtain ⟨hnumbers, hkept, hpassed⟩ := h.settle hframe hfits hplan
  have hcreated : createdPlans 0 (ends ++ [ended]) = createdPlans 0 ends ++ [plan] := by
    rw [createdPlans_append, Nat.zero_add]
    simp only [createdPlans, List.zipIdx_cons, List.zipIdx_nil, List.flatMap_cons,
      List.flatMap_nil, hplan, Option.toList_some, List.append_nil]
  have hcalls : rewardCalls 0 (ends ++ [ended]) =
      rewardCalls 0 ends ++ Pow.rewardCalls (ends.length + 1) ended := by
    rw [rewardCalls_append]
    simp [rewardCalls, Nat.add_comm]
  have hreward : ended.pow.blockReward = start.pow.blockReward :=
    hframe.blockReward.trans h.blockReward
  refine ⟨?_, ?_, ?_, ?_, ?_, ?_, ?_, ?_⟩
  · rw [hclosed]
    exact hreward
  · rw [hclosed]
    exact hframe.latency.trans h.latency
  · intro i ended' hi
    rw [hcreated]
    rcases Nat.lt_or_ge i ends.length with hold | hnew
    · rw [List.getElem?_append_left hold] at hi
      obtain ⟨hreward', plan', hplan', hget⟩ := h.created i ended' hi
      refine ⟨hreward', plan', hplan', ?_⟩
      rw [List.getElem?_append_left (h.length ▸ hold), hget]
    · rw [List.getElem?_append_right hnew, List.getElem?_singleton] at hi
      split_ifs at hi with hlast
      obtain rfl : i = ends.length := by omega
      obtain rfl := Option.some.inj hi
      refine ⟨hreward, plan, hplan, ?_⟩
      rw [List.getElem?_append_right h.length.le, h.length, Nat.sub_self]
      rfl
  · rw [hcreated, List.length_append, List.length_append, h.length]
    rfl
  · exact hcreated ▸ hnumbers
  · rw [hclosed, hcreated, List.length_append]
    exact hkept
  · rw [hcreated, hcalls, List.map_append, h.passed, Pow.map_rewardCalls, hpassed,
      List.length_append, List.length_singleton, ← List.take_append_of_le_length h.matured_le,
      ← List.take_add]
    congr 1
    omega
  · rw [hcalls]
    refine Numbered.append_iff.mpr ⟨h.blocks, ?_⟩
    rw [h.calls_length]
    have hlength := congrArg List.length hpassed
    rw [List.length_take, List.length_drop, List.length_append, h.length, List.length_singleton]
      at hlength
    by_cases hmature : start.pow.blockRewardLatency.toNat ≤ ends.length
    · obtain ⟨due, hone⟩ := List.length_eq_one_iff.mp (hlength.trans (by omega))
      rw [Pow.rewardCalls, hone]
      refine Numbered.cons_iff.mpr ⟨?_, .nil _ _⟩
      dsimp only
      omega
    · have hnone := List.length_eq_zero_iff.mp (hlength.trans (by omega))
      rw [Pow.rewardCalls, hnone]
      exact .nil _ _

theorem Blocks.ledger {start st : State σ} {ends : List (State σ)}
    (h : Blocks env UncheckedExtrinsic.Ordinary 0 start ends st)
    (hgenesis : start.pow.rewardPlans = []) : Ledger start ends st := by
  induction h with
  | nil => exact .genesis hgenesis
  | concat _ fits sets permitted runs ih =>
    rw [Nat.zero_add] at fits runs
    obtain ⟨hframe, _, hcreated, hclosed, _⟩ := chainBlock_pays env runs permitted sets
    obtain ⟨plan, hplan⟩ := Option.isSome_iff_exists.mp hcreated
    exact ih.concat hframe fits hplan hclosed

namespace Ledger

variable {start st : State σ} {ends : List (State σ)}

theorem numbered_calls (h : Ledger start ends st) :
    Numbered (fun call => call.plan.blockNumber.toNat) 1 (rewardCalls 0 ends) := by
  have htake := (h.numbers.take_drop h.matured_le).1
  rw [← h.passed, Numbered, List.map_map, List.length_map] at htake
  exact htake

theorem call_at (h : Ledger start ends st) {i : Nat} {plan : RewardPlan}
    (hplan : (createdPlans 0 ends)[i]? = some plan)
    (hmature : i + 1 + start.pow.blockRewardLatency.toNat ≤ ends.length) :
    ∃ deposited, (rewardCalls 0 ends)[i]? =
      some ⟨i + 1 + start.pow.blockRewardLatency.toNat, plan, deposited⟩ := by
  have hlength := h.calls_length
  have hi : i < (rewardCalls 0 ends).length := by omega
  have hpassed := congrArg (fun plans => plans[i]?) h.passed
  have hblock := congrArg (fun blocks => blocks[i]?) h.blocks
  rw [List.getElem?_map, List.getElem?_take_of_lt (by omega), hplan, List.getElem?_eq_getElem hi,
    Option.map_some, Option.some.injEq] at hpassed
  rw [List.getElem?_map, List.getElem?_range' hi, List.getElem?_eq_getElem hi, Option.map_some,
    Option.some.injEq] at hblock
  refine ⟨((rewardCalls 0 ends)[i]).deposited, ?_⟩
  rw [List.getElem?_eq_getElem hi, ← hpassed]
  congr 1
  have hnumber : i + 1 + start.pow.blockRewardLatency.toNat = ((rewardCalls 0 ends)[i]).block := by
    omega
  rw [hnumber]

theorem filter_calls (h : Ledger start ends st) {k : Nat} (hk : 1 ≤ k) {plan : RewardPlan}
    (hplan : (createdPlans 0 ends)[k - 1]? = some plan)
    (hmature : k + start.pow.blockRewardLatency.toNat ≤ ends.length) :
    ∃ deposited, (rewardCalls 0 ends).filter
      (fun call => decide (call.plan.blockNumber.toNat = k)) =
        [⟨k + start.pow.blockRewardLatency.toNat, plan, deposited⟩] := by
  obtain ⟨deposited, hcall⟩ := h.call_at hplan (by omega)
  refine ⟨deposited, ?_⟩
  rw [h.numbered_calls.filter_eq hk, hcall, Nat.sub_add_cancel hk]
  rfl

end Ledger

-- After block `n` the plans of the last blocks are pending, and each of the others was
-- passed to `reward` once, when it was due: these are the calls that the blocks end with.
theorem reward_ledger {start st : State σ} {ends : List (State σ)}
    (hgenesis : start.pow.rewardPlans = [])
    (hrun : Blocks env UncheckedExtrinsic.Ordinary 0 start ends st) :
    let latency := start.pow.blockRewardLatency.toNat
    st.pow.rewardPlans.map (fun plan => plan.blockNumber.toNat) =
      List.range' (ends.length - latency + 1) (min latency ends.length) ∧
    (rewardCalls 0 ends).map (fun call => call.plan.blockNumber.toNat) =
      List.range' 1 (ends.length - latency) ∧
    RewardsPaid env 0 ends ∧
    ∀ k ended, 1 ≤ k → ends[k - 1]? = some ended → ∃ info shard,
      ended.pow.currentPowInfo = some info ∧ ended.sharding.currentShardInfo = some shard ∧
      let plan : RewardPlan := {
        blockNumber := UInt64.ofNat k
        coinbase := info.coinbase
        blockReward := start.pow.blockReward / BitVec.ofNat 128 shard.count.toNat
        feeReward := ended.pow.totalFee }
      (ends.length < k + latency → plan ∈ st.pow.rewardPlans) ∧
      (k + latency ≤ ends.length → ∃ deposited, (rewardCalls 0 ends).filter
        (fun call => decide (call.plan.blockNumber.toNat = k)) =
          [⟨k + latency, plan, deposited⟩]) := by
  intro latency
  have hledger := hrun.ledger hgenesis
  refine ⟨?_, ?_, hrun.rewardsPaid env, fun k ended hk hended => ?_⟩
  · have hrest := (hledger.numbers.take_drop hledger.matured_le).2
    rw [hledger.pending, hrest, List.length_drop, hledger.length]
    congr 1
    · omega
    · omega
  · rw [hledger.numbered_calls, hledger.calls_length]
  · obtain ⟨hreward, plan, hplan, hget⟩ := hledger.created (k - 1) ended hended
    rw [Nat.sub_add_cancel hk] at hplan
    unfold Pow.createdPlan at hplan
    split at hplan
    · next info shard hinfo hshard =>
      rw [hreward] at hplan
      obtain rfl := Option.some.inj hplan
      refine ⟨info, shard, hinfo, hshard, fun hpending => ?_, fun hmature => ?_⟩
      · rw [hledger.pending]
        refine List.mem_of_getElem? (i := k - 1 - (ends.length - latency)) ?_
        rw [List.getElem?_drop, ← hget]
        congr 1
        omega
      · exact hledger.filter_calls hk hget hmature
    · cases hplan

-- A shard with a latency of one block and a key that may act for root.
def genesisState : State Unit :=
  { plainState (some ⟨0, 1, none⟩) with
    pow := ⟨10, 1, [], 0, none⟩
    sudoKeys := [filled 32 2] }

theorem authorInherent_ordinary : ∀ uxt ∈ [authorInherent], uxt.Ordinary := by
  intro uxt hmem sender
  rw [List.mem_singleton.mp hmem]
  rfl

theorem reward_ledger_two_blocks : ∃ ends st,
    Blocks plainSubstrate UncheckedExtrinsic.Ordinary 0 genesisState ends st ∧ ends.length = 2 ∧
    st.pow.rewardPlans.map (fun plan => plan.blockNumber.toNat) = [2] ∧
    (rewardCalls 0 ends).map (fun call => call.plan.blockNumber.toNat) = [1] ∧
    RewardsPaid plainSubstrate 0 ends := by
  have hrun : ((chainBlock plainSubstrate (UInt64.ofNat 1) [authorInherent]
        genesisState).toOption.bind fun first =>
      (chainBlock plainSubstrate (UInt64.ofNat 2) [authorInherent] first.2).toOption.bind
        fun second => some second.2.pow.rewardPlans.length) = some 1 := by
    decide +kernel
  obtain ⟨first, hfirst, hrun⟩ := Run.exists_of_toOption hrun
  obtain ⟨second, hsecond, _⟩ := Run.exists_of_toOption hrun
  have hblocks : Blocks plainSubstrate UncheckedExtrinsic.Ordinary 0 genesisState
      (([] ++ [first.1]) ++ [second.1]) second.2 :=
    .concat (.concat .nil (by decide) List.mem_cons_self authorInherent_ordinary hfirst)
      (by simp) List.mem_cons_self authorInherent_ordinary hsecond
  obtain ⟨hpending, hpassed, hpaid, _⟩ := reward_ledger rfl hblocks
  exact ⟨_, _, hblocks, rfl, hpending, hpassed, hpaid⟩

def clearPlans : UncheckedExtrinsic := rootCall (filled 32 2) rewardPlansKey

-- Root clears the plans in the second block, and the first author is never rewarded.
theorem cleared_plan_never_passed : ∃ ends st,
    Blocks rootSubstrate (fun _ => True) 0 genesisState ends st ∧
    genesisState.pow.rewardPlans = [] ∧ ends.length = 2 ∧
    genesisState.pow.blockRewardLatency = 1 ∧ rewardCalls 0 ends = [] ∧
    st.pow.rewardPlans.map (fun plan => plan.blockNumber.toNat) = [2] := by
  have hrun : ((chainBlock rootSubstrate (UInt64.ofNat 1) [authorInherent]
        genesisState).toOption.bind fun first =>
      (chainBlock rootSubstrate (UInt64.ofNat 2) [authorInherent, clearPlans]
        first.2).toOption.bind fun second => some (rewardCalls 0 [first.1, second.1],
          second.2.pow.rewardPlans.map fun plan => plan.blockNumber.toNat)) = some ([], [2]) := by
    decide +kernel
  obtain ⟨first, hfirst, hrun⟩ := Run.exists_of_toOption hrun
  obtain ⟨second, hsecond, hrun⟩ := Run.exists_of_toOption hrun
  obtain ⟨hcalls, hplans⟩ := Prod.mk.inj (Option.some.inj hrun)
  have hblocks : Blocks rootSubstrate (fun _ => True) 0 genesisState
      (([] ++ [first.1]) ++ [second.1]) second.2 :=
    .concat (.concat .nil (by decide) List.mem_cons_self (fun _ _ => trivial) hfirst)
      (by simp) List.mem_cons_self (fun _ _ => trivial) hsecond
  exact ⟨_, _, hblocks, rfl, rfl, rfl, hcalls, hplans⟩

namespace Ledger

variable {start split st : State σ} {ends ends' : List (State σ)} {plan : RewardPlan}

theorem number_of_pending (h : Ledger start ends split) (hpending : plan ∈ split.pow.rewardPlans) :
    ends.length - start.pow.blockRewardLatency.toNat < plan.blockNumber.toNat ∧
      (createdPlans 0 ends)[plan.blockNumber.toNat - 1]? = some plan := by
  have hrest := (h.numbers.take_drop h.matured_le).2
  rw [h.pending] at hpending
  have hnumber := (hrest.le_key hpending).1
  refine ⟨by omega, ?_⟩
  have hsame := h.numbers.filter_eq (show 1 ≤ plan.blockNumber.toNat by omega)
  have hmem : plan ∈ (createdPlans 0 ends)[plan.blockNumber.toNat - 1]?.toList := by
    rw [← hsame]
    simp [List.mem_of_mem_drop hpending]
  exact Option.mem_toList.mp hmem

theorem pending_matures (h : Ledger start ends split) (hfull : Ledger start (ends ++ ends') st)
    (hpending : plan ∈ split.pow.rewardPlans)
    (hlong : plan.blockNumber.toNat + start.pow.blockRewardLatency.toNat ≤
      ends.length + ends'.length) :
    plan ∉ st.pow.rewardPlans ∧ ∃ deposited, (rewardCalls ends.length ends').filter
      (fun call => decide (call.plan.blockNumber.toNat = plan.blockNumber.toNat)) =
        [⟨plan.blockNumber.toNat + start.pow.blockRewardLatency.toNat, plan, deposited⟩] := by
  obtain ⟨hlow, hplan⟩ := h.number_of_pending hpending
  refine ⟨fun hstill => ?_, ?_⟩
  · have hlate := (hfull.number_of_pending hstill).1
    rw [List.length_append] at hlate
    omega
  · have hfirst : 1 ≤ plan.blockNumber.toNat := by omega
    have hplan' : (createdPlans 0 (ends ++ ends'))[plan.blockNumber.toNat - 1]? = some plan := by
      have hlt := (List.getElem?_eq_some_iff.mp hplan).1
      rw [createdPlans_append, List.getElem?_append_left hlt, hplan]
    obtain ⟨deposited, hcalls⟩ := hfull.filter_calls hfirst hplan'
      (by rw [List.length_append]; exact hlong)
    refine ⟨deposited, ?_⟩
    have hearly : (rewardCalls 0 ends).filter
        (fun call => decide (call.plan.blockNumber.toNat = plan.blockNumber.toNat)) = [] := by
      have hlength := h.calls_length
      rw [h.numbered_calls.filter_eq hfirst, List.getElem?_eq_none (by omega)]
      rfl
    rw [rewardCalls_append, List.filter_append, hearly, List.nil_append, Nat.zero_add] at hcalls
    exact hcalls

end Ledger

theorem Blocks.ledger_append {start split st : State σ} {ends ends' : List (State σ)}
    (h : Blocks env UncheckedExtrinsic.Ordinary 0 start ends split)
    (h' : Blocks env UncheckedExtrinsic.Ordinary ends.length split ends' st)
    (hgenesis : start.pow.rewardPlans = []) : Ledger start (ends ++ ends') st := by
  rw [← Nat.zero_add ends.length] at h'
  exact (h.append env h').ledger hgenesis

theorem Sharding.shardNumFor_split {account : AccountId} {num count : UInt16} {j : Nat}
    (hcount : count.toNat = 2 ^ j) (hj : j ≤ 14) (h : shardNumFor account count = some num) :
    decide (shardNumFor account (count + count) = some (num + count)) =
      !decide (shardNumFor account (count + count) = some num) := by
  have hsmall : 2 ^ j ≤ 2 ^ 14 := Nat.pow_le_pow_right (by decide) hj
  have hdouble : (count + count).toNat = 2 * count.toNat := by
    rw [UInt16.toNat_add]
    omega
  obtain ⟨num', hnum', hmod⟩ := shardNumForBytes_double hdouble h
  have hlt := UInt16.lt_iff_toNat_lt.mp (shardNumForBytes_lt _ _ _ h)
  have hlt' := UInt16.lt_iff_toNat_lt.mp (shardNumForBytes_lt _ _ _ hnum')
  have hsum : (num + count).toNat = num.toNat + count.toNat := by
    rw [UInt16.toNat_add]
    omega
  have hcases : num'.toNat = num.toNat ∨ num'.toNat = num.toNat + count.toNat := by
    rcases Nat.lt_or_ge num'.toNat count.toNat with hlow | hhigh
    · rw [Nat.mod_eq_of_lt hlow] at hmod
      exact .inl hmod
    · rw [Nat.mod_eq_sub_mod hhigh, Nat.mod_eq_of_lt (by omega)] at hmod
      omega
  have hnum'' : shardNumFor account (count + count) = some num' := hnum'
  simp only [hnum'', Option.some.injEq, ← UInt16.toNat_inj, hsum]
  rcases hcases with hcase | hcase
  · simp only [hcase]
    simp
    omega
  · simp only [hcase]
    simp
    omega

-- The blocks of a child that start before the given block all belong to this shard.
def OfShardUntil (num count : UInt16) (base last : Nat) (ends : List (State σ)) : Prop :=
  ∀ i ended, ends[i]? = some ended → base + i + 1 ≤ last →
    ∃ info, ended.sharding.currentShardInfo = some info ∧ info.num = num ∧ info.count = count

theorem deposited_eq {num count : UInt16} {base last : Nat} {ends : List (State σ)}
    {plan : RewardPlan} {deposited : Bool} (hshard : OfShardUntil num count base last ends)
    (hmem : ⟨last, plan, deposited⟩ ∈ rewardCalls base ends) :
    deposited = decide (Sharding.shardNumFor plan.coinbase count = some num) := by
  obtain ⟨hlow, ended, hget, hdeposited⟩ := mem_rewardCalls hmem
  dsimp only at hlow hget hdeposited
  obtain ⟨info, hinfo, rfl, rfl⟩ := hshard _ _ hget (by omega)
  rw [hdeposited, Pow.deposits_eq hinfo]

-- A plan that is pending when its shard splits is passed on by both children, and only the
-- one that its coinbase belongs to deposits it.
theorem reward_survives_split {start split left right : State σ}
    {ends endsLeft endsRight : List (State σ)} {num count : UInt16} {j : Nat} {plan : RewardPlan}
    (hgenesis : start.pow.rewardPlans = [])
    (hparent : Blocks env UncheckedExtrinsic.Ordinary 0 start ends split)
    (hleft : Blocks env UncheckedExtrinsic.Ordinary ends.length split endsLeft left)
    (hright : Blocks env UncheckedExtrinsic.Ordinary ends.length split endsRight right)
    (hpending : plan ∈ split.pow.rewardPlans) (hcount : count.toNat = 2 ^ j) (hj : j ≤ 14)
    (hcoinbase : Sharding.shardNumFor plan.coinbase count = some num) :
    let matures := plan.blockNumber.toNat + start.pow.blockRewardLatency.toNat
    OfShardUntil num (count + count) ends.length matures endsLeft →
    OfShardUntil (num + count) (count + count) ends.length matures endsRight →
    matures ≤ ends.length + endsLeft.length → matures ≤ ends.length + endsRight.length →
    plan ∉ left.pow.rewardPlans ∧ plan ∉ right.pow.rewardPlans ∧
    RewardsPaid env ends.length endsLeft ∧ RewardsPaid env ends.length endsRight ∧ ∃ deposited,
      (rewardCalls ends.length endsLeft).filter
        (fun call => decide (call.plan.blockNumber.toNat = plan.blockNumber.toNat)) =
          [⟨matures, plan, deposited⟩] ∧
      (rewardCalls ends.length endsRight).filter
        (fun call => decide (call.plan.blockNumber.toNat = plan.blockNumber.toNat)) =
          [⟨matures, plan, !deposited⟩] := by
  intro matures hownLeft hownRight hlongLeft hlongRight
  have hledger := hparent.ledger hgenesis
  have hfullLeft := hparent.ledger_append hleft hgenesis
  have hfullRight := hparent.ledger_append hright hgenesis
  obtain ⟨hgoneLeft, paidLeft, hcallsLeft⟩ := hledger.pending_matures hfullLeft hpending hlongLeft
  obtain ⟨hgoneRight, paidRight, hcallsRight⟩ :=
    hledger.pending_matures hfullRight hpending hlongRight
  have hpaidLeft := deposited_eq hownLeft
    (List.mem_of_mem_filter (hcallsLeft ▸ List.mem_singleton_self _))
  have hpaidRight := deposited_eq hownRight
    (List.mem_of_mem_filter (hcallsRight ▸ List.mem_singleton_self _))
  have hother : paidRight = !paidLeft := by
    rw [hpaidLeft, hpaidRight, Sharding.shardNumFor_split hcount hj hcoinbase]
  exact ⟨hgoneLeft, hgoneRight, hleft.rewardsPaid env, hright.rewardsPaid env, paidLeft, hcallsLeft,
    hother ▸ hcallsRight⟩

-- The two children of the shard, each with its own info in every block.
def childInherent (num : UInt16) : UncheckedExtrinsic := ⟨none, .shardingSetShardInfo ⟨num, 2, none⟩⟩

theorem childInherent_ordinary (num : UInt16) :
    ∀ uxt ∈ [childInherent num, authorInherent], uxt.Ordinary := by
  intro uxt hmem sender
  rcases List.mem_cons.mp hmem with rfl | hmem
  · rfl
  · exact authorInherent_ordinary uxt hmem sender

theorem ofShardUntil_singleton {num count : UInt16} {base last : Nat} {ended : State Unit}
    (h : ended.sharding.currentShardInfo = some ⟨num, count, none⟩) :
    OfShardUntil num count base last [ended] := by
  intro i ended' hget _
  have hmem := List.mem_of_getElem? hget
  obtain rfl := List.mem_singleton.mp hmem
  exact ⟨_, h, rfl, rfl⟩

theorem reward_survives_split_first_block : ∃ ends split endsLeft left endsRight right plan,
    Blocks plainSubstrate UncheckedExtrinsic.Ordinary 0 genesisState ends split ∧
    Blocks plainSubstrate UncheckedExtrinsic.Ordinary 1 split endsLeft left ∧
    Blocks plainSubstrate UncheckedExtrinsic.Ordinary 1 split endsRight right ∧
    plan ∈ split.pow.rewardPlans ∧
    plan ∉ left.pow.rewardPlans ∧ plan ∉ right.pow.rewardPlans ∧
    RewardsPaid plainSubstrate 1 endsLeft ∧ RewardsPaid plainSubstrate 1 endsRight ∧ ∃ deposited,
      (rewardCalls 1 endsLeft).filter
        (fun call => decide (call.plan.blockNumber.toNat = plan.blockNumber.toNat)) =
          [⟨2, plan, deposited⟩] ∧
      (rewardCalls 1 endsRight).filter
        (fun call => decide (call.plan.blockNumber.toNat = plan.blockNumber.toNat)) =
          [⟨2, plan, !deposited⟩] := by
  have hrun : ((chainBlock plainSubstrate (UInt64.ofNat 1) [authorInherent]
        genesisState).toOption.bind fun parent =>
      (chainBlock plainSubstrate (UInt64.ofNat 2) [childInherent 0, authorInherent]
        parent.2).toOption.bind fun left =>
      (chainBlock plainSubstrate (UInt64.ofNat 2) [childInherent 1, authorInherent]
        parent.2).toOption.bind fun right =>
      some (parent.2.pow.rewardPlans, left.1.sharding.currentShardInfo,
        right.1.sharding.currentShardInfo)) =
      some ([⟨1, filled 32 2, 10, 0⟩], some ⟨0, 2, none⟩, some ⟨1, 2, none⟩) := by
    decide +kernel
  obtain ⟨parent, hparent, hrun⟩ := Run.exists_of_toOption hrun
  obtain ⟨left, hleft, hrun⟩ := Run.exists_of_toOption hrun
  obtain ⟨right, hright, hrun⟩ := Run.exists_of_toOption hrun
  simp only [Option.some.injEq, Prod.mk.injEq] at hrun
  obtain ⟨hplans, hinfoLeft, hinfoRight⟩ := hrun
  have hpending : (⟨1, filled 32 2, 10, 0⟩ : RewardPlan) ∈ parent.2.pow.rewardPlans := by
    rw [hplans]
    exact List.mem_cons_self
  have hblocks : Blocks plainSubstrate UncheckedExtrinsic.Ordinary 0 genesisState
      ([] ++ [parent.1]) parent.2 :=
    .concat .nil (by decide) List.mem_cons_self authorInherent_ordinary hparent
  have hblocksLeft : Blocks plainSubstrate UncheckedExtrinsic.Ordinary 1 parent.2
      ([] ++ [left.1]) left.2 :=
    .concat .nil (by decide) (List.mem_cons_of_mem _ List.mem_cons_self)
      (childInherent_ordinary 0) hleft
  have hblocksRight : Blocks plainSubstrate UncheckedExtrinsic.Ordinary 1 parent.2
      ([] ++ [right.1]) right.2 :=
    .concat .nil (by decide) (List.mem_cons_of_mem _ List.mem_cons_self)
      (childInherent_ordinary 1) hright
  have hcount : (1 : UInt16).toNat = 2 ^ 0 := rfl
  obtain ⟨hgoneLeft, hgoneRight, hpaidLeft, hpaidRight, hdeposited⟩ :=
    reward_survives_split rfl hblocks hblocksLeft hblocksRight hpending hcount (Nat.zero_le _)
      (by decide) (ofShardUntil_singleton hinfoLeft) (ofShardUntil_singleton hinfoRight)
      (Nat.le_refl 2) (Nat.le_refl 2)
  exact ⟨_, _, _, _, _, _, _, hblocks, hblocksLeft, hblocksRight, hpending, hgoneLeft, hgoneRight,
    hpaidLeft, hpaidRight, hdeposited⟩

-- Root clears the plans of the child that owns the coinbase: neither child deposits.
theorem cleared_plan_deposited_by_neither : ∃ ends split endsLeft left endsRight right plan,
    Blocks rootSubstrate (fun _ => True) 0 genesisState ends split ∧
    Blocks rootSubstrate (fun _ => True) 1 split endsLeft left ∧
    Blocks rootSubstrate (fun _ => True) 1 split endsRight right ∧
    ends.length = 1 ∧ plan ∈ split.pow.rewardPlans ∧ plan.blockNumber = 1 ∧
    Sharding.shardNumFor plan.coinbase 1 = some 0 ∧
    OfShardUntil 0 2 1 2 endsLeft ∧ OfShardUntil 1 2 1 2 endsRight ∧
    genesisState.pow.blockRewardLatency = 1 ∧ endsLeft.length = 1 ∧ endsRight.length = 1 ∧
    rewardCalls 1 endsLeft = [] ∧ rewardCalls 1 endsRight = [⟨2, plan, false⟩] := by
  have hrun : ((chainBlock rootSubstrate (UInt64.ofNat 1) [authorInherent]
        genesisState).toOption.bind fun parent =>
      (chainBlock rootSubstrate (UInt64.ofNat 2)
        [childInherent 0, authorInherent, clearPlans] parent.2).toOption.bind fun left =>
      (chainBlock rootSubstrate (UInt64.ofNat 2) [childInherent 1, authorInherent]
        parent.2).toOption.bind fun right =>
      some (parent.2.pow.rewardPlans, left.1.sharding.currentShardInfo,
        right.1.sharding.currentShardInfo, rewardCalls 1 [left.1], rewardCalls 1 [right.1])) =
      some ([⟨1, filled 32 2, 10, 0⟩], some ⟨0, 2, none⟩, some ⟨1, 2, none⟩, [],
        [⟨2, ⟨1, filled 32 2, 10, 0⟩, false⟩]) := by
    decide +kernel
  obtain ⟨parent, hparent, hrun⟩ := Run.exists_of_toOption hrun
  obtain ⟨left, hleft, hrun⟩ := Run.exists_of_toOption hrun
  obtain ⟨right, hright, hrun⟩ := Run.exists_of_toOption hrun
  simp only [Option.some.injEq, Prod.mk.injEq] at hrun
  obtain ⟨hplans, hinfoLeft, hinfoRight, hcallsLeft, hcallsRight⟩ := hrun
  have hpending : (⟨1, filled 32 2, 10, 0⟩ : RewardPlan) ∈ parent.2.pow.rewardPlans := by
    rw [hplans]
    exact List.mem_cons_self
  refine ⟨[parent.1], parent.2, [left.1], left.2, [right.1], right.2, _, ?_, ?_, ?_, rfl, hpending,
    rfl, by decide, ofShardUntil_singleton hinfoLeft, ofShardUntil_singleton hinfoRight, rfl, rfl,
    rfl, hcallsLeft, hcallsRight⟩
  · exact .concat .nil (by decide) List.mem_cons_self (fun _ _ => trivial) hparent
  · exact .concat .nil (by decide) (List.mem_cons_of_mem _ List.mem_cons_self)
      (fun _ _ => trivial) hleft
  · exact .concat .nil (by decide) (List.mem_cons_of_mem _ List.mem_cons_self)
      (fun _ _ => trivial) hright

end Yeeroot
