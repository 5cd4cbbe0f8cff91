import Yeeroot.Executive.Ledger
import Yeeroot.Runtime.Balances.Effect

namespace Yeeroot

open Scale

variable {σ : Type} (env : Substrate σ)
variable {sender : AccountId} {st : State σ} {outcome : Outcome σ}

def Call.isCoinTransfer : Call → Bool
  | .balancesTransfer _ _ => true
  | _ => false

-- What a call takes from its sender besides the value it sends: the transfer fee, once a
-- coin transfer has touched the sender's balance.
def Call.transferFee (call : Call) (sender : AccountId) (st st' : State σ) : Balance :=
  if call.isCoinTransfer ∧ Balances.freeBalance st' sender ≠ Balances.freeBalance st sender then
    st.balances.transferFee
  else 0

-- What an extrinsic of a block takes from its sender's balance: the payment before its call,
-- and the transfer fee.
def Executed.fees (executed : Executed σ) : Nat :=
  match acceptedSender env executed.before executed.uxt with
  | none => 0
  | some sender =>
    let paid := (Balances.makePayment sender executed.uxt.encode.length executed.before).1
    (Balances.freeBalance executed.before sender).toNat -
        (Balances.freeBalance paid sender).toNat +
      (executed.uxt.function.transferFee sender paid executed.applied.state).toNat

theorem Balances.transfer_debited {dest : Address} {value : Balance}
    (h : transfer env (.signed sender) dest value st = .ok outcome) :
    outcome.state = st ∨ (Debited st outcome.state sender value ∧
      outcome.state.pow = { st.pow with totalFee := st.pow.totalFee + st.balances.transferFee }) := by
  rcases transfer_writes env h with hsame | ⟨_, account, newFromBalance, horigin, _, hdebits, hcases⟩
  · exact .inl hsame
  obtain rfl := Origin.signed.inj horigin
  obtain ⟨liability, _, _, hadd, hsub, _⟩ := hdebits
  have hleft := toNat_freeBalance_setFreeBalance sender newFromBalance st
  rcases hcases with ⟨_, hstate⟩ | ⟨hother, _, newToBalance, _, hstate⟩
  · refine .inr ⟨debited_of_checked hadd hsub ?_, ?_⟩
    · rw [hstate]
      exact hleft
    · rw [hstate]
      simp only [payTransferFee, onFeeWithdrawn, dropNegative, update, setFreeBalance_pow]
  · have hfree : (transferLocal env sender account newFromBalance newToBalance
        st.balances.transferFee st).balances.freeBalance = (setFreeBalance account newToBalance
          (setFreeBalance sender newFromBalance st)).balances.freeBalance :=
      (transferLocal_balances ..).1
    refine .inr ⟨debited_of_checked hadd hsub ?_, ?_⟩
    · rw [← hleft, hstate]
      simp only [freeBalance, hfree, setFreeBalance_freeBalance_of_ne hother]
    · rw [hstate, transferLocal_pow]

theorem Balances.Debited.transferFee_eq_zero {st st' : State σ} {value : Balance}
    (h : Debited st st' sender value) (hsame : freeBalance st' sender = freeBalance st sender) :
    st.balances.transferFee = 0 := by
  have hleft := h.left
  have hfunded := h.funded
  rw [hsame, kept] at hleft
  apply BitVec.eq_of_toNat_eq
  have hzero : (0 : Balance).toNat = 0 := rfl
  rw [hzero]
  split_ifs at hleft <;> omega

theorem dispatch_totalFee {call : Call} (h : dispatch env call (.signed sender) st = .ok outcome)
    (hraw : call.rawWrite (.signed sender) = false) :
    outcome.state.pow.totalFee =
      st.pow.totalFee + call.transferFee sender st outcome.state := by
  by_cases hcoin : call.isCoinTransfer = true
  · cases call with
    | balancesTransfer dest value =>
      rcases Balances.transfer_debited env h with hsame | ⟨hdebited, hpow⟩
      · rw [hsame, Call.transferFee, if_neg fun htouched => htouched.2 rfl]
        exact (BitVec.add_zero _).symm
      · rw [hpow, Call.transferFee]
        split_ifs with htouched
        · rfl
        · have hsame := not_not.mp fun hne => htouched ⟨rfl, hne⟩
          rw [hdebited.transferFee_eq_zero hsame]
    | _ => cases hcoin
  · rw [Call.transferFee, if_neg fun htouched => hcoin htouched.1]
    cases dispatch_powWrite env h hraw with
    | none same => rw [same]; exact (BitVec.add_zero _).symm
    | fee => exact absurd rfl hcoin

theorem Pow.info_of_createdPlan {number : UInt64} {plan : RewardPlan}
    (h : createdPlan number st = some plan) : ∃ info, st.pow.currentPowInfo = some info := by
  unfold createdPlan at h
  split at h
  · exact ⟨_, by assumption⟩
  · cases h

theorem Pow.kept_or_passed {number : UInt64} {plan : RewardPlan}
    (h : createdPlan number st = some plan) :
    plan ∈ keptPlans number st ∨ plan ∈ passedPlans number st := by
  simp only [keptPlans, passedPlans, h, List.mem_filter, List.mem_append, List.mem_singleton]
  cases isDue st.pow.blockRewardLatency number plan <;> simp

theorem dispatch_inherent_totalFee {call : Call}
    (h : dispatch env call .inherent st = .ok outcome) :
    outcome.state.pow.totalFee = st.pow.totalFee := by
  cases dispatch_powWrite env h (Call.rawWrite_inherent _) with
  | none same => rw [same]
  | info stored => rw [stored]

theorem applyExtrinsic_totalFee {uxt : UncheckedExtrinsic} {applied : Applied σ}
    (h : applyExtrinsicNoNote env uxt st = .ok applied) (hordinary : uxt.Ordinary) :
    applied.state.pow.totalFee.toNat =
      (st.pow.totalFee.toNat + Executed.fees env ⟨st, uxt, applied⟩) % 2 ^ 128 := by
  obtain ⟨happly, _, hresult⟩ := (applyExtrinsicNoNote_eq_ok env _ _ _).mp h
  have hunsigned : ∀ outcome : Outcome σ, uxt.signature = none →
      outcome.state.pow.totalFee = st.pow.totalFee →
      (outcome.applied uxt.encode.length).state.pow.totalFee.toNat =
        (st.pow.totalFee.toNat +
          Executed.fees env ⟨st, uxt, outcome.applied uxt.encode.length⟩) % 2 ^ 128 := by
    intro outcome hnone hkeeps
    simp only [Executed.fees, acceptedSender_unsigned env st hnone, Nat.add_zero]
    rw [Nat.mod_eq_of_lt (BitVec.isLt _), ← hkeeps]
    rfl
  rcases applyExtrinsic_cases env happly with ⟨_, rfl⟩ |
    ⟨info, sender, paid, outcome, haccepted, _, hpaid, hdispatch, rfl⟩ |
    ⟨rtx, outcome, hnone, _, _, hdispatch, rfl⟩ | ⟨outcome, hnone, _, hdispatch, rfl⟩
  · cases hresult
  · obtain ⟨hle, hpow⟩ := Balances.makePayment_pow hpaid
    have hcall := dispatch_totalFee env hdispatch (hordinary sender)
    have htotal : outcome.state.pow.totalFee = st.pow.totalFee +
        (Balances.freeBalance st sender - Balances.freeBalance paid sender) +
        uxt.function.transferFee sender paid outcome.state := by
      refine hcall.trans ?_
      congr 1
      exact congrArg PowState.totalFee hpow
    simp only [Executed.fees, acceptedSender_of_accepted env haccepted, hpaid]
    have happlied : (outcome.applied uxt.encode.length).state.pow.totalFee =
        outcome.state.pow.totalFee := rfl
    rw [happlied, htotal, BitVec.toNat_add, BitVec.toNat_add, BitVec.toNat_sub_of_le hle,
      Nat.mod_add_mod, Nat.add_assoc]
    rfl
  · have hkeeps := dispatch_inherent_totalFee env hdispatch
    exact hunsigned outcome hnone hkeeps
  · exact hunsigned outcome hnone (dispatch_inherent_totalFee env hdispatch)

theorem executeExtrinsics_totalFee {extrinsics : List UncheckedExtrinsic} {st ended : State σ}
    {executed : List (Executed σ)} (h : executeExtrinsics env extrinsics st = .ok (executed, ended))
    (hordinary : ∀ uxt ∈ extrinsics, uxt.Ordinary) :
    ended.pow.totalFee.toNat =
      (st.pow.totalFee.toNat + (executed.map (Executed.fees env)).sum) % 2 ^ 128 := by
  induction extrinsics generalizing st executed with
  | nil =>
    obtain ⟨rfl, rfl⟩ := Prod.mk.inj (Except.ok.inj h)
    exact (Nat.mod_eq_of_lt (BitVec.isLt _)).symm
  | cons uxt extrinsics ih =>
    simp only [executeExtrinsics, Run.bind_eq_ok, Run.pure_eq_ok, Prod.mk.injEq] at h
    obtain ⟨applied, happly, ⟨rest, final⟩, hrest, rfl, rfl⟩ := h
    have hfirst := applyExtrinsic_totalFee env happly (hordinary uxt List.mem_cons_self)
    have hothers := ih hrest fun other hother => hordinary other (List.mem_cons_of_mem _ hother)
    rw [hothers, hfirst, List.map_cons, List.sum_cons, Nat.mod_add_mod, Nat.add_assoc]

-- The plan of a block gives its author all that its extrinsics took as fees. The end of the
-- block stores it, or passes it to `reward` at once.
theorem fees_go_to_author {number : UInt64} {st opened ended : State σ}
    {extrinsics : List UncheckedExtrinsic} {executed : List (Executed σ)} {plan : RewardPlan}
    (hopen : initializeBlock env number st = .ok opened)
    (hrun : executeExtrinsics env extrinsics opened = .ok (executed, ended))
    (hordinary : ∀ uxt ∈ extrinsics, uxt.Ordinary)
    (hplan : Pow.createdPlan number ended = some plan)
    (hsum : (executed.map (Executed.fees env)).sum < 2 ^ 128) :
    plan.feeReward.toNat = (executed.map (Executed.fees env)).sum ∧
    ∀ left, finishBlock env number ended = .ok left →
      PaysRewards env number.toNat ended left ∧ (plan ∈ left.pow.rewardPlans ∨
        plan ∈ (Pow.rewardCalls number.toNat ended).map RewardCall.plan) := by
  have hopened : opened.pow.totalFee = 0 := by
    simp only [initializeBlock, Run.bind_eq_ok, Run.pure_eq_ok] at hopen
    obtain ⟨_, _, rfl⟩ := hopen
    rfl
  have hfee : plan.feeReward = ended.pow.totalFee := by
    unfold Pow.createdPlan at hplan
    split at hplan
    · rw [← Option.some.inj hplan]
    · cases hplan
  have htotal := executeExtrinsics_totalFee env hrun hordinary
  have hzero : (0 : Balance).toNat = 0 := rfl
  rw [hopened, hzero, Nat.zero_add, Nat.mod_eq_of_lt hsum] at htotal
  refine ⟨by rw [hfee, htotal], fun left hclose => ?_⟩
  rw [← UInt64.ofNat_toNat (x := number)] at hclose hplan
  obtain ⟨info, hinfo⟩ := Pow.info_of_createdPlan hplan
  obtain ⟨_, hkept, hpays⟩ := finishBlock_pays env hinfo hclose
  refine ⟨hpays, ?_⟩
  rw [hkept, Pow.map_rewardCalls]
  exact Pow.kept_or_passed hplan

-- Two accounts with 100 coins, where an extrinsic costs 2 coins and a transfer 1 more.
def feeState : State Unit :=
  { plainState (some ⟨0, 1, none⟩) with
    balances := { (plainState none).balances with
      transferFee := 1
      transactionBaseFee := 2
      freeBalance := Function.update (Function.update (fun _ => none) (filled 32 1) (some 100))
        (filled 32 2) (some 100) }
    sudoKeys := [filled 32 2] }

def transferOf (value : Balance) (nonce : UInt64) : UncheckedExtrinsic :=
  ⟨some ⟨.id (filled 32 1), filled 64 7, nonce, .immortal⟩,
    .balancesTransfer (.id (filled 32 2)) value⟩

-- The second transfer fails and still pays for its place in the block. Without a latency the
-- plan is passed on in the block itself.
theorem fees_go_to_author_failing : ∃ opened executed ended left plan,
    initializeBlock plainSubstrate 1 feeState = .ok opened ∧
    executeExtrinsics plainSubstrate [authorInherent, transferOf 5 0, transferOf 500 1] opened =
      .ok (executed, ended) ∧
    finishBlock plainSubstrate 1 ended = .ok left ∧
    Pow.createdPlan 1 ended = some plan ∧
    (executed.map (Executed.fees plainSubstrate)) = [0, 3, 2] ∧
    plan.feeReward.toNat = (executed.map (Executed.fees plainSubstrate)).sum ∧
    PaysRewards plainSubstrate 1 ended left ∧ (plan ∈ left.pow.rewardPlans ∨
      plan ∈ (Pow.rewardCalls 1 ended).map RewardCall.plan) := by
  have hrun : ((initializeBlock plainSubstrate 1 feeState).toOption.bind fun opened =>
      (executeExtrinsics plainSubstrate [authorInherent, transferOf 5 0, transferOf 500 1]
        opened).toOption.bind fun done =>
      (finishBlock plainSubstrate 1 done.2).toOption.bind fun _ =>
      some ((Pow.createdPlan 1 done.2).isSome, done.1.map (Executed.fees plainSubstrate))) =
      some (true, [0, 3, 2]) := by
    decide +kernel
  obtain ⟨opened, hopen, hrun⟩ := Run.exists_of_toOption hrun
  obtain ⟨⟨executed, ended⟩, hexecute, hrun⟩ := Run.exists_of_toOption hrun
  obtain ⟨left, hclose, hrun⟩ := Run.exists_of_toOption hrun
  simp only [Option.some.injEq, Prod.mk.injEq] at hrun
  obtain ⟨hsome, hfees⟩ := hrun
  obtain ⟨plan, hplan⟩ := Option.isSome_iff_exists.mp hsome
  have hordinary : ∀ uxt ∈ [authorInherent, transferOf 5 0, transferOf 500 1], uxt.Ordinary := by
    intro uxt hmem sender
    simp only [List.mem_cons, List.not_mem_nil, or_false] at hmem
    rcases hmem with rfl | rfl | rfl <;> rfl
  have hsmall : (executed.map (Executed.fees plainSubstrate)).sum < 2 ^ 128 := by
    rw [hfees]
    decide
  obtain ⟨hsum, hends⟩ := fees_go_to_author plainSubstrate hopen hexecute hordinary hplan hsmall
  exact ⟨opened, executed, ended, left, plan, hopen, hexecute, hclose, hplan, hfees, hsum,
    hends left hclose⟩

-- Root overwrites the fees that the block has recorded.
theorem overwritten_fees_lost : ∃ opened executed ended plan,
    initializeBlock rootSubstrate 1 feeState = .ok opened ∧
    executeExtrinsics rootSubstrate
      [authorInherent, transferOf 5 0, rootCall (filled 32 2) totalFeeKey] opened =
        .ok (executed, ended) ∧
    Pow.createdPlan 1 ended = some plan ∧
    (executed.map (Executed.fees rootSubstrate)).sum = 5 ∧ plan.feeReward = 0 := by
  have hrun : ((initializeBlock rootSubstrate 1 feeState).toOption.bind fun opened =>
      (executeExtrinsics rootSubstrate
        [authorInherent, transferOf 5 0, rootCall (filled 32 2) totalFeeKey] opened).toOption.bind
        fun done => some ((Pow.createdPlan 1 done.2).map RewardPlan.feeReward,
          (done.1.map (Executed.fees rootSubstrate)).sum)) = some (some 0, 5) := by
    decide +kernel
  obtain ⟨opened, hopen, hrun⟩ := Run.exists_of_toOption hrun
  obtain ⟨⟨executed, ended⟩, hexecute, hrun⟩ := Run.exists_of_toOption hrun
  simp only [Option.some.injEq, Prod.mk.injEq, Option.map_eq_some_iff] at hrun
  obtain ⟨⟨plan, hplan, hreward⟩, hfees⟩ := hrun
  exact ⟨opened, executed, ended, plan, hopen, hexecute, hplan, hfees, hreward⟩

end Yeeroot
