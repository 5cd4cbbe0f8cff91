import Yeeroot.Executive.Lemmas
import Yeeroot.Transition

namespace Yeeroot

open Scale Transition

variable {σ : Type} (env : Substrate σ)
variable {st st' : State σ} {uxt : UncheckedExtrinsic}

theorem initializeBlock_frame {number : UInt64} (h : initializeBlock env number st = .ok st') :
    State.Frame st st' :=
  have hsame := (initializeBlock_sameCore env h).frame
  ⟨hsame.relayExtrinsic, hsame.sharding⟩

namespace Pow

section Preserves

variable {α : Type} (view : State σ → α)
variable (hdeposit : ∀ who value st, view (Balances.depositCreating env who value st) = view st)
include hdeposit

theorem reward_preserves {plan : RewardPlan} {coinbase : AccountId} {condition : RewardCondition}
    {st st' : State σ} (h : reward env plan coinbase condition st = .ok st') :
    view st' = view st := by
  simp only [reward, Run.bind_eq_ok] at h
  obtain ⟨_, _, _, _, _, _, _, _, h⟩ := h
  split_ifs at h
  · exact (Run.pure_eq_ok _ _).mp h ▸ hdeposit _ _ st
  · exact (Run.pure_eq_ok _ _).mp h ▸ rfl

theorem settlePlans_preserves {coinbase : AccountId} {condition : RewardCondition}
    {rewardBlockNumber : UInt64} (plans : List RewardPlan) {st : State σ}
    {settled : State σ × List RewardPlan}
    (h : settlePlans env coinbase condition rewardBlockNumber plans st = .ok settled) :
    view settled.1 = view st := by
  induction plans generalizing st settled with
  | nil => exact (Except.ok.inj h) ▸ rfl
  | cons plan plans ih =>
    simp only [settlePlans] at h
    split_ifs at h
    · simp only [Run.bind_eq_ok] at h
      obtain ⟨paid, hpaid, h⟩ := h
      exact (ih h).trans (reward_preserves env view hdeposit hpaid)
    · simp only [Run.bind_eq_ok, Run.pure_eq_ok] at h
      obtain ⟨rest, hrest, rfl⟩ := h
      have hview := ih hrest
      exact hview

theorem onFinalize_preserves
    (hplans : ∀ st plans, view { st with pow := { st.pow with rewardPlans := plans } } = view st)
    {number : UInt64} {st st' : State σ} (h : onFinalize env number st = .ok st') :
    view st' = view st := by
  unfold onFinalize at h
  split at h
  · exact (Except.ok.inj h) ▸ rfl
  · simp only [Run.bind_eq_ok] at h
    obtain ⟨shardCount, _, h⟩ := h
    by_cases hzero : shardCount = 0
    · simp [hzero] at h
    · simp only [if_neg hzero, Run.bind_eq_ok, Run.pure_eq_ok] at h
      obtain ⟨settled, hsettled, rfl⟩ := h
      exact (hplans _ _).trans (settlePlans_preserves env view hdeposit _ hsettled)

end Preserves

theorem onFinalize_coinsOnly {number : UInt64} {st st' : State σ}
    (h : onFinalize env number st = .ok st') : State.CoinsOnly st st' where
  relayExtrinsic := onFinalize_preserves env (fun st => st.system.relayExtrinsic)
    (fun who value st => (Balances.depositCreating_coinsOnly env who value st).relayExtrinsic)
    (fun _ _ => rfl) h
  sharding := onFinalize_preserves env State.sharding
    (fun who value st => (Balances.depositCreating_coinsOnly env who value st).sharding)
    (fun _ _ => rfl) h
  assets := onFinalize_preserves env State.assets
    (fun who value st => (Balances.depositCreating_coinsOnly env who value st).assets)
    (fun _ _ => rfl) h
  sudoKeys := onFinalize_preserves env State.sudoKeys
    (fun who value st => (Balances.depositCreating_coinsOnly env who value st).sudoKeys)
    (fun _ _ => rfl) h

end Pow

theorem finishBlock_frame {number : UInt64} (h : finishBlock env number st = .ok st') :
    State.Frame st st' := by
  obtain ⟨_, _, hstart, hpaid, hlogs⟩ := finishBlock_cases env h
  exact hstart.frame.trans ((Pow.onFinalize_coinsOnly env hpaid).toFrame.trans hlogs.frame)

theorem Call.rawWrite_inherent (call : Call) : call.rawWrite .inherent = false := by
  cases call <;> rfl

theorem inbound_of_unsigned {outcome : Outcome σ} (hunsigned : uxt.signature = none)
    (h : dispatch env uxt.function .inherent st = .ok outcome) {bytes : Bytes} {transfer : Transfer}
    (hm : .inbound bytes transfer ∈ outcome.movements) :
    ∃ rtx, RelayParams.decode env.blake2 uxt.encode = some rtx ∧ rtx.hash = env.blake2 bytes ∧
      outcome.movements = [.inbound bytes transfer] := by
  obtain ⟨relay, origin, _, hcall, rfl, hdecode, _, hmoves⟩ := dispatch_inbound env h hm
  have huxt : uxt = relay.unsigned := by
    cases uxt
    simp_all [RelayCall.unsigned]
  have hlong := OriginExtrinsic.le_length_of_decode _ _ _ hdecode
  exact ⟨relay.params env.blake2, huxt ▸ RelayParams.decode_unsigned env.blake2 hlong, rfl,
    hmoves⟩

theorem creditedOrigins_eq_nil {movements : List Movement}
    (h : ∀ bytes transfer, .inbound bytes transfer ∉ movements) : creditedOrigins movements = [] := by
  rw [creditedOrigins, List.filterMap_eq_nil_iff]
  intro movement hmem
  cases movement with
  | outbound transfer => rfl
  | inbound bytes transfer => exact absurd hmem (h bytes transfer)

theorem applyExtrinsic_unsigned {applied : Applied σ} (h : applyExtrinsic env uxt st = .ok applied)
    (hunsigned : uxt.signature = none) :
    (∀ hash, st.system.relayExtrinsic hash = 1 → applied.state.system.relayExtrinsic hash = 1) ∧
      (creditedOrigins applied.movements = [] ∨
        ∃ origin, creditedOrigins applied.movements = [origin] ∧
          st.system.relayExtrinsic (env.blake2 origin) ≠ 1 ∧
          applied.state.system.relayExtrinsic (env.blake2 origin) = 1) := by
  rcases applyExtrinsic_cases env h with ⟨_, rfl⟩ | ⟨_, _, _, _, haccepted, _⟩ |
    ⟨rtx, outcome, _, hrtx, hfresh, hdispatch, rfl⟩ | ⟨outcome, _, hrtx, hdispatch, rfl⟩
  · exact ⟨fun _ hused => hused, .inl rfl⟩
  · exact absurd (haccepted.signature.symm.trans hunsigned) (by simp)
  · have hflags := dispatch_relayExtrinsic env hdispatch (Call.rawWrite_inherent _)
    have hset : ∀ hash, (outcome.applied uxt.encode.length).state.system.relayExtrinsic hash =
        Function.update st.system.relayExtrinsic rtx.hash 1 hash := fun hash =>
      congrFun hflags hash
    refine ⟨fun hash hused => ?_, ?_⟩
    · rw [hset, Function.update_apply]
      split_ifs
      · rfl
      · exact hused
    · by_cases hin : ∃ bytes transfer, .inbound bytes transfer ∈ outcome.movements
      · obtain ⟨bytes, transfer, hm⟩ := hin
        obtain ⟨rtx', hrtx', hhash, hmoves⟩ := inbound_of_unsigned env hunsigned hdispatch hm
        obtain rfl := Option.some.inj (hrtx.symm.trans hrtx')
        refine .inr ⟨bytes, ?_, hhash ▸ hfresh, ?_⟩
        · simp [Outcome.applied, hmoves, creditedOrigins]
        · rw [hset, ← hhash, Function.update_self]
      · exact .inl (creditedOrigins_eq_nil fun bytes transfer hm => hin ⟨bytes, transfer, hm⟩)
  · refine ⟨fun hash hused => ?_, .inl (creditedOrigins_eq_nil fun bytes transfer hm => ?_)⟩
    · exact (congrFun (dispatch_relayExtrinsic env hdispatch (Call.rawWrite_inherent _)) hash).trans
        hused
    · obtain ⟨_, hrtx', _, _⟩ := inbound_of_unsigned env hunsigned hdispatch hm
      exact absurd (hrtx.symm.trans hrtx') (by simp)

def ChainStep.Unsigned : ChainStep → Prop
  | .apply uxt => uxt.signature = none
  | _ => True

-- The credits so far are to different origins, and the flag of each is set.
def FlaggedOnce (movements : List Movement) (st : State σ) : Prop :=
  (creditedOrigins movements).Nodup ∧
    ∀ origin ∈ creditedOrigins movements, st.system.relayExtrinsic (env.blake2 origin) = 1

theorem creditedOrigins_append (before after : List Movement) :
    creditedOrigins (before ++ after) = creditedOrigins before ++ creditedOrigins after :=
  List.filterMap_append

theorem flaggedOnce_of_frame {movements : List Movement} (hframe : State.Frame st st')
    (h : FlaggedOnce env movements st) :
    FlaggedOnce env (movements ++ []) st' := by
  rw [List.append_nil]
  exact ⟨h.1, fun origin hmem => hframe.relayExtrinsic ▸ h.2 origin hmem⟩

theorem chainStep_apply {applied : Applied σ} (h : applyExtrinsic env uxt st = .ok applied) :
    chainStep env st (.apply uxt) applied.state applied.movements := ⟨applied, h, rfl, rfl⟩

theorem flaggedOnce_step {movements out : List Movement} {step : ChainStep}
    (h : FlaggedOnce env movements st) (hunsigned : step.Unsigned)
    (hstep : chainStep env st step st' out) : FlaggedOnce env (movements ++ out) st' := by
  cases step with
  | start number =>
    obtain ⟨hinit, rfl⟩ := hstep
    exact flaggedOnce_of_frame env (initializeBlock_frame env hinit) h
  | finish number =>
    obtain ⟨hfinish, rfl⟩ := hstep
    exact flaggedOnce_of_frame env (finishBlock_frame env hfinish) h
  | apply uxt =>
    obtain ⟨applied, happly, rfl, rfl⟩ := hstep
    obtain ⟨hkeep, hcredit⟩ := applyExtrinsic_unsigned env happly hunsigned
    unfold FlaggedOnce
    rw [creditedOrigins_append]
    rcases hcredit with hnone | ⟨origin, hone, hfresh, hset⟩
    · rw [hnone, List.append_nil]
      exact ⟨h.1, fun origin hmem => hkeep _ (h.2 origin hmem)⟩
    · rw [hone]
      have hnew : origin ∉ creditedOrigins movements := fun hmem => hfresh (h.2 origin hmem)
      refine ⟨List.nodup_append.mpr ⟨h.1, by simp, ?_⟩, ?_⟩
      · rintro x hx _ hy rfl
        exact hnew (List.mem_singleton.mp hy ▸ hx)
      · intro x hx
        rcases List.mem_append.mp hx with hold | hlast
        · exact hkeep _ (h.2 x hold)
        · exact List.mem_singleton.mp hlast ▸ hset

theorem relay_credited_at_most_once {st st' : State σ} {movements : List Movement}
    (h : Reaches (chainStep env) (fun _ step => step.Unsigned) st movements st') :
    (creditedOrigins movements).Nodup :=
  (h.invariant (FlaggedOnce env) ⟨by simp [creditedOrigins], by simp [creditedOrigins]⟩
    fun _ _ _ _ _ hinv hunsigned hstep => flaggedOnce_step env hinv hunsigned hstep).1

-- Two relays of one transfer that differ in the block number they name.
theorem relay_credited_at_most_once_twice_relayed : ∃ st' movements,
    Reaches (chainStep plainSubstrate) (fun _ step => step.Unsigned) (plainState none) movements
      st' ∧
    creditedOrigins movements = [plainTransfer.encode] ∧ (creditedOrigins movements).Nodup := by
  have hrun : ((applyExtrinsic plainSubstrate (plainRelay .balance 0).unsigned
        (plainState none)).toOption.bind fun first =>
      (applyExtrinsic plainSubstrate (plainRelay .balance 1).unsigned first.state).toOption.bind
        fun second => some (first.movements, second.movements)) =
      some ([.inbound plainTransfer.encode ⟨.coin, filled 32 2, 5⟩], []) := by
    decide +kernel
  obtain ⟨first, hfirst, hrun⟩ := Run.exists_of_toOption hrun
  obtain ⟨second, hsecond, hrun⟩ := Run.exists_of_toOption hrun
  simp only [Option.some.injEq, Prod.mk.injEq] at hrun
  have hunsigned : ∀ number,
      (ChainStep.apply (plainRelay .balance number).unsigned).Unsigned := fun _ => rfl
  have hreach : Reaches (chainStep plainSubstrate) (fun _ step => step.Unsigned) (plainState none)
      (([] ++ first.movements) ++ second.movements) second.state :=
    .tail (.tail (.refl _) (hunsigned 0) (chainStep_apply _ hfirst)) (hunsigned 1)
      (chainStep_apply _ hsecond)
  refine ⟨_, _, hreach, ?_, relay_credited_at_most_once plainSubstrate hreach⟩
  rw [hrun.1, hrun.2]
  rfl

section Lossless

-- A step whose relay flag is earned: an unsigned extrinsic that the relay decoder
-- reads is a relay call whose origin decodes under its type and whose destination
-- has room, and a signed one makes no raw write.
def ChainStep.EarnsFlag (st : State σ) : ChainStep → Prop
  | .apply uxt =>
    match uxt.signature with
    | some _ => ∀ sender, uxt.function.rawWrite (.signed sender) = false
    | none => RelayParams.decode env.blake2 uxt.encode = none ∨
        ∃ relay origin, uxt.function = .relayTransfer relay ∧
          OriginExtrinsic.decode relay.relayType relay.tx.bytes = some origin ∧
          (relay.relayType = .balance →
            checkedAdd (Balances.freeBalance st origin.dest) origin.amount ≠ none)
  | _ => True

def FlagsEarned (start : State σ) (movements : List Movement) (st : State σ) : Prop :=
  ∀ hash, st.system.relayExtrinsic hash = 1 → start.system.relayExtrinsic hash = 1 ∨
    ∃ origin ∈ creditedOrigins movements, env.blake2 origin = hash

theorem flagsEarned_of_same {start st st' : State σ} {movements : List Movement}
    (out : List Movement) (hsame : st'.system.relayExtrinsic = st.system.relayExtrinsic)
    (h : FlagsEarned env start movements st) : FlagsEarned env start (movements ++ out) st' := by
  intro hash hset
  rw [hsame] at hset
  rcases h hash hset with hstart | ⟨origin, hmem, hhash⟩
  · exact .inl hstart
  · exact .inr ⟨origin, by rw [creditedOrigins_append]; exact List.mem_append_left _ hmem, hhash⟩

theorem flagsEarned_apply {start st : State σ} {movements : List Movement}
    {uxt : UncheckedExtrinsic} {applied : Applied σ} (h : FlagsEarned env start movements st)
    (hearns : (ChainStep.apply uxt).EarnsFlag env st)
    (happly : applyExtrinsic env uxt st = .ok applied) :
    FlagsEarned env start (movements ++ applied.movements) applied.state := by
  simp only [ChainStep.EarnsFlag] at hearns
  rcases applyExtrinsic_cases env happly with ⟨_, rfl⟩ |
    ⟨info, sender, paid, outcome, haccepted, _, hpaid, hdispatch, rfl⟩ |
    ⟨rtx, outcome, hunsigned, hrtx, _, hdispatch, rfl⟩ | ⟨outcome, _, _, hdispatch, rfl⟩
  · exact flagsEarned_of_same env _ rfl h
  · rw [haccepted.signature] at hearns
    have hpay := Balances.makePayment_coinsOnly sender uxt.encode.length st
    rw [hpaid] at hpay
    exact flagsEarned_of_same env _
      ((dispatch_relayExtrinsic env hdispatch (hearns sender)).trans hpay.relayExtrinsic) h
  · -- The flag is set before the dispatch, so the dispatch has to credit.
    rw [hunsigned] at hearns
    obtain ⟨relay, origin, hcall, hdecode, hroom⟩ := hearns.resolve_left (by simp [hrtx])
    have huxt : uxt = relay.unsigned := by
      cases uxt
      simp_all [RelayCall.unsigned]
    have hlong := OriginExtrinsic.le_length_of_decode _ _ _ hdecode
    have hparams := RelayParams.decode_unsigned env.blake2 hlong
    rw [← huxt, hrtx, Option.some.injEq] at hparams
    obtain ⟨outcome', hdispatch', _, hmoves⟩ := Relay.transfer_credits env
      (setRelayExtrinsicExist rtx.hash st) hdecode hroom
    rw [hcall] at hdispatch
    obtain rfl := Except.ok.inj (hdispatch'.symm.trans hdispatch)
    have hflags := dispatch_relayExtrinsic env hdispatch (Call.rawWrite_inherent _)
    intro hash hset
    have hset' : Function.update st.system.relayExtrinsic rtx.hash 1 hash = 1 :=
      (congrFun hflags hash).symm.trans hset
    rw [creditedOrigins_append]
    by_cases hhash : hash = rtx.hash
    · refine .inr ⟨relay.tx.bytes, List.mem_append_right _ ?_, ?_⟩
      · simp [Outcome.applied, hmoves, creditedOrigins]
      · rw [hhash, hparams]
        rfl
    · rw [Function.update_of_ne hhash] at hset'
      rcases h hash hset' with hstart | ⟨origin', hmem, horigin⟩
      · exact .inl hstart
      · exact .inr ⟨origin', List.mem_append_left _ hmem, horigin⟩
  · exact flagsEarned_of_same env _
      (dispatch_relayExtrinsic env hdispatch (Call.rawWrite_inherent _)) h

theorem flagsEarned_step {start st st' : State σ} {movements out : List Movement}
    {step : ChainStep} (h : FlagsEarned env start movements st) (hearns : step.EarnsFlag env st)
    (hstep : chainStep env st step st' out) :
    FlagsEarned env start (movements ++ out) st' := by
  cases step with
  | start number =>
    obtain ⟨hinit, rfl⟩ := hstep
    exact flagsEarned_of_same env _ (initializeBlock_frame env hinit).relayExtrinsic h
  | finish number =>
    obtain ⟨hfinish, rfl⟩ := hstep
    exact flagsEarned_of_same env _ (finishBlock_frame env hfinish).relayExtrinsic h
  | apply uxt =>
    obtain ⟨applied, happly, rfl, rfl⟩ := hstep
    exact flagsEarned_apply env h hearns happly

theorem relay_flag_set_only_by_credit {st st' : State σ} {movements : List Movement}
    (h : Reaches (chainStep env) (fun st step => step.EarnsFlag env st) st movements st')
    {hash : H256} (hset : st'.system.relayExtrinsic hash = 1) :
    st.system.relayExtrinsic hash = 1 ∨
      ∃ origin ∈ creditedOrigins movements, env.blake2 origin = hash :=
  h.invariant (FlagsEarned env st) (fun _ hstart => .inl hstart)
    (fun _ _ _ _ _ hinv hearns hstep => flagsEarned_step env hinv hearns hstep) hash hset

theorem relay_flag_set_only_by_credit_relayed : ∃ st' movements,
    Reaches (chainStep plainSubstrate) (fun st step => step.EarnsFlag plainSubstrate st)
      (plainState none) movements st' ∧
    st'.system.relayExtrinsic (plainSubstrate.blake2 plainTransfer.encode) = 1 ∧
    ∃ origin ∈ creditedOrigins movements,
      plainSubstrate.blake2 origin = plainSubstrate.blake2 plainTransfer.encode := by
  have hrun : ((applyExtrinsic plainSubstrate (plainRelay .balance 0).unsigned
        (plainState none)).toOption.bind fun applied => some
      (applied.state.system.relayExtrinsic (plainSubstrate.blake2 plainTransfer.encode))) =
      some 1 := by
    decide +kernel
  obtain ⟨applied, happly, hrun⟩ := Run.exists_of_toOption hrun
  have hset := Option.some.inj hrun
  have hdecodes : (OriginExtrinsic.decode .balance (plainRelay .balance 0).tx.bytes).isSome := by
    decide +kernel
  have hearns : (ChainStep.apply (plainRelay .balance 0).unsigned).EarnsFlag plainSubstrate
      (plainState none) :=
    .inr ⟨plainRelay .balance 0, _, rfl, (Option.some_get hdecodes).symm,
      by decide +kernel +revert⟩
  have hreach := Reaches.tail (.refl _) hearns (chainStep_apply plainSubstrate happly)
  refine ⟨_, _, hreach, hset, ?_⟩
  exact (relay_flag_set_only_by_credit plainSubstrate hreach hset).resolve_left (by decide +kernel)

-- A relay of a coin transfer as an asset transfer takes the flag and fails, and the
-- genuine relay is then stale.
theorem relay_flag_lost_to_wrong_type : ∃ failed blocked : Applied Unit,
    chainStep plainSubstrate (plainState none) (.apply (plainRelay .assets 0).unsigned)
      failed.state failed.movements ∧
    failed.result = .ok (.fail "transfer is invalid.") ∧
    (plainState none).system.relayExtrinsic (plainSubstrate.blake2 plainTransfer.encode) = 0 ∧
    failed.state.system.relayExtrinsic (plainSubstrate.blake2 plainTransfer.encode) = 1 ∧
    creditedOrigins failed.movements = [] ∧
    applyExtrinsic plainSubstrate (plainRelay .balance 0).unsigned failed.state = .ok blocked ∧
    blocked.result = .error .stale := by
  have hrun : ((applyExtrinsic plainSubstrate (plainRelay .assets 0).unsigned
        (plainState none)).toOption.bind fun failed =>
      (applyExtrinsic plainSubstrate (plainRelay .balance 0).unsigned failed.state).toOption.bind
        fun blocked => some (failed.result,
          failed.state.system.relayExtrinsic (plainSubstrate.blake2 plainTransfer.encode),
          creditedOrigins failed.movements, blocked.result)) =
      some (.ok (.fail "transfer is invalid."), 1, [], .error .stale) := by
    decide +kernel
  obtain ⟨failed, hfailed, hrun⟩ := Run.exists_of_toOption hrun
  obtain ⟨blocked, hblocked, hrun⟩ := Run.exists_of_toOption hrun
  simp only [Option.some.injEq, Prod.mk.injEq] at hrun
  obtain ⟨hresult, hflag, hcredits, hstale⟩ := hrun
  exact ⟨failed, blocked, chainStep_apply _ hfailed, hresult, rfl, hflag, hcredits, hblocked,
    hstale⟩

end Lossless

end Yeeroot
