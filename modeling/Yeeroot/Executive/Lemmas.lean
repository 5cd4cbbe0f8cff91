import Yeeroot.Executive
import Yeeroot.Runtime.Dispatch.Lemmas

namespace Yeeroot

open Scale

variable {σ : Type} (env : Substrate σ)
variable {st st' : State σ}

theorem checkSender_eq_ok (st : State σ) (sender : AccountId) (accepted : Bool) :
    checkSender st sender = .ok accepted ↔
      ∃ info, st.sharding.currentShardInfo = some info ∧
        accepted = decide (Sharding.shardNumFor sender info.count = some info.num) := by
  simp only [checkSender, Run.bind_eq_ok, Run.pure_eq_ok, Sharding.getCurrShard_eq_ok,
    Sharding.getShardCount_eq_ok]
  constructor
  · intro h
    obtain ⟨_, ⟨info, hinfo, rfl⟩, _, ⟨info', hinfo', rfl⟩, rfl⟩ := h
    obtain rfl : info = info' := Option.some.inj (hinfo.symm.trans hinfo')
    refine ⟨info, hinfo, ?_⟩
    cases Sharding.shardNumFor sender info.count <;> simp
  · intro h
    obtain ⟨info, hinfo, rfl⟩ := h
    refine ⟨_, ⟨info, hinfo, rfl⟩, _, ⟨info, hinfo, rfl⟩, ?_⟩
    cases Sharding.shardNumFor sender info.count <;> simp

-- The sender a signed extrinsic is accepted from.
structure AcceptedSender (st : State σ) (uxt : UncheckedExtrinsic) (info : SignatureInfo)
    (sender : AccountId) : Prop where
  signature : uxt.signature = some info
  lookup : st.lookup env info.signed = .ok sender
  valid : env.signatureValid st info uxt.function sender = true
  inShard : ∃ shard, st.sharding.currentShardInfo = some shard ∧
    Sharding.shardNumFor sender shard.count = some shard.num

theorem check_cases {uxt : UncheckedExtrinsic} {checked : Except String CheckedExtrinsic}
    (h : uxt.check env st = .ok checked) :
    (∃ error, checked = .error error) ∨
    (uxt.signature = none ∧ checked = .ok ⟨none, uxt.function⟩) ∨
    ∃ info sender, AcceptedSender env st uxt info sender ∧
      checked = .ok ⟨some (sender, info.index), uxt.function⟩ := by
  unfold UncheckedExtrinsic.check at h
  split at h
  · next hnone => exact .inr (.inl ⟨hnone, (Except.ok.inj h).symm⟩)
  · next info hsome =>
    split at h
    · exact .inl ⟨_, (Except.ok.inj h).symm⟩
    · next sender hlook =>
      split_ifs at h with hvalid
      · simp only [Run.bind_eq_ok, checkSender_eq_ok] at h
        obtain ⟨accepted, ⟨shard, hshard, rfl⟩, h⟩ := h
        split_ifs at h with hin
        · exact .inr (.inr ⟨info, sender, ⟨hsome, hlook, hvalid, shard, hshard, by simpa using hin⟩,
            (Run.pure_eq_ok _ _).mp h⟩)
        · exact .inl ⟨_, (Run.pure_eq_ok _ _).mp h⟩
      · exact .inl ⟨_, (Except.ok.inj h).symm⟩

theorem makePayment_error {transactor : AccountId} {encodedLen : Nat} {error : String}
    (h : Balances.makePayment transactor encodedLen st = (st', .error error)) :
    st' = st := by
  simp only [Balances.makePayment, Balances.withdraw] at h
  split at h
  · next hw =>
    split at hw
    · simp_all
    · split_ifs at hw
      · simp_all
      · split at hw <;> simp_all
  · simp at h

def Outcome.applied (outcome : Outcome σ) (encodedLen : Nat) : Applied σ :=
  ⟨noteAppliedExtrinsic encodedLen outcome.state, applyResult outcome.result, outcome.movements⟩

theorem applyChecked_eq_ok (xt : CheckedExtrinsic) (encodedLen : Nat) (st : State σ)
    (applied : Applied σ) :
    applyChecked env xt encodedLen st = .ok applied ↔
      ∃ outcome, dispatch env xt.function (Origin.ofSender (xt.signed.map Prod.fst)) st =
        .ok outcome ∧ applied = outcome.applied encodedLen := by
  simp only [applyChecked, Run.bind_eq_ok, Run.pure_eq_ok, Outcome.applied]

-- Everything that applying an extrinsic can do: it is rejected and changes nothing,
-- or its call is dispatched for its sender, for a fresh relay, or for an inherent.
theorem applyExtrinsic_cases {uxt : UncheckedExtrinsic} {applied : Applied σ}
    (h : applyExtrinsic env uxt st = .ok applied) :
    (∃ error, applied = .reject st error) ∨
    (∃ info sender paid outcome, AcceptedSender env st uxt info sender ∧
      info.index = st.system.accountNonce sender ∧
      Balances.makePayment sender uxt.encode.length st = (paid, .ok ()) ∧
      dispatch env uxt.function (.signed sender) (incAccountNonce sender paid) = .ok outcome ∧
      applied = outcome.applied uxt.encode.length) ∨
    (∃ rtx outcome, uxt.signature = none ∧ RelayParams.decode env.blake2 uxt.encode = some rtx ∧
      st.system.relayExtrinsic rtx.hash ≠ 1 ∧
      dispatch env uxt.function .inherent (setRelayExtrinsicExist rtx.hash st) = .ok outcome ∧
      applied = outcome.applied uxt.encode.length) ∨
    (∃ outcome, uxt.signature = none ∧ RelayParams.decode env.blake2 uxt.encode = none ∧
      dispatch env uxt.function .inherent st = .ok outcome ∧
      applied = outcome.applied uxt.encode.length) := by
  simp only [applyExtrinsic, applyExtrinsicWithLen, Run.bind_eq_ok] at h
  obtain ⟨checked, hcheck, h⟩ := h
  rcases check_cases env hcheck with ⟨error, rfl⟩ | ⟨hnone, rfl⟩ | ⟨info, sender, haccepted, rfl⟩
  · exact .inl ⟨_, (Run.pure_eq_ok _ _).mp h⟩
  · simp only at h
    split_ifs at h with hfull
    · exact .inl ⟨_, (Run.pure_eq_ok _ _).mp h⟩
    · unfold applyUnsigned at h
      split at h
      · next rtx hrtx =>
        split_ifs at h with hused
        · exact .inl ⟨_, (Except.ok.inj h).symm⟩
        · obtain ⟨outcome, hdispatch, rfl⟩ := (applyChecked_eq_ok env _ _ _ _).mp h
          exact .inr (.inr (.inl ⟨rtx, outcome, hnone, hrtx, hused, hdispatch, rfl⟩))
      · next hrtx =>
        obtain ⟨outcome, hdispatch, rfl⟩ := (applyChecked_eq_ok env _ _ _ _).mp h
        exact .inr (.inr (.inr ⟨outcome, hnone, hrtx, hdispatch, rfl⟩))
  · simp only at h
    split_ifs at h with hfull
    · exact .inl ⟨_, (Run.pure_eq_ok _ _).mp h⟩
    · simp only [applySigned] at h
      by_cases hindex : info.index ≠ st.system.accountNonce sender
      · rw [if_pos hindex] at h
        exact .inl ⟨_, (Except.ok.inj h).symm⟩
      · rw [if_neg hindex] at h
        split at h
        · next st' _ hpay =>
          obtain rfl := makePayment_error hpay
          exact .inl ⟨_, (Except.ok.inj h).symm⟩
        · next paid hpay =>
          obtain ⟨outcome, hdispatch, rfl⟩ := (applyChecked_eq_ok env _ _ _ _).mp h
          exact .inr (.inl ⟨info, sender, paid, outcome, haccepted, not_not.mp hindex, hpay,
            hdispatch, rfl⟩)

theorem Sharding.onFinalize_sameCore (st : State σ) : State.SameCore st (onFinalize st) := by
  unfold onFinalize
  cases hinfo : st.sharding.currentShardInfo <;> cases hphase : st.sharding.currentScaleOutPhase <;>
    simp only [hphase, State.depositLog] <;> exact ⟨rfl, rfl, rfl, rfl, rfl, rfl⟩

theorem Crfg.onFinalize_sameCore (number : UInt64) (st : State σ) :
    State.SameCore st (onFinalize number st) := by
  unfold onFinalize
  split
  · exact .refl st
  · next change _ =>
    cases change.forced <;> dsimp only <;> split_ifs <;> exact ⟨rfl, rfl, rfl, rfl, rfl, rfl⟩

theorem FinalityTracker.onFinalize_sameCore (st : State σ) :
    State.SameCore st (onFinalize st) := by
  unfold onFinalize
  split <;> exact ⟨rfl, rfl, rfl, rfl, rfl, rfl⟩

-- Of what ends a block only the rewards touch the modelled storage beyond logs and sessions.
theorem finishBlock_cases {number : UInt64} (h : finishBlock env number st = .ok st') :
    ∃ started paid, State.SameCore st started ∧ Pow.onFinalize env number started = .ok paid ∧
      State.SameCore paid st' := by
  simp only [finishBlock, Run.bind_eq_ok, Run.pure_eq_ok] at h
  obtain ⟨_, _, paid, hpaid, rfl⟩ := h
  refine ⟨_, paid, ?_, hpaid, ?_⟩
  · exact ⟨rfl, rfl, rfl, rfl, rfl, rfl⟩
  · exact (Sharding.onFinalize_sameCore paid).trans
      ((Crfg.onFinalize_sameCore number _).trans (FinalityTracker.onFinalize_sameCore _))

theorem initializeBlock_sameCore {number : UInt64} (h : initializeBlock env number st = .ok st') :
    State.SameCore (Pow.onInitialize st) st' := by
  simp only [initializeBlock, Run.bind_eq_ok, Run.pure_eq_ok] at h
  obtain ⟨_, _, rfl⟩ := h
  exact ⟨rfl, rfl, rfl, rfl, rfl, rfl⟩

end Yeeroot
