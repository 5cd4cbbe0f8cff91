import Mathlib.Data.Nat.Prime.Basic
import Yeeroot.Executive.Replay
import Yeeroot.Sharding.Utils.Lemmas

namespace Yeeroot

open Scale Transition

variable {σ : Type} (env : Substrate σ)
variable {num count : UInt16} {uxt : UncheckedExtrinsic} {st : State σ} {applied : Applied σ}
  {senders : List AccountId}

-- The account whose signed extrinsic passes its check in this state.
def acceptedSender (st : State σ) (uxt : UncheckedExtrinsic) : Option AccountId :=
  match uxt.check env st with
  | .ok (.ok xt) => xt.signed.map Prod.fst
  | _ => none

def ChainStep.accepted (st : State σ) : ChainStep → List AccountId
  | .apply uxt => (acceptedSender env st uxt).toList
  | _ => []

def acceptStep (st : State σ) (step : ChainStep) (st' : State σ) (senders : List AccountId) :
    Prop :=
  (∃ movements, chainStep env st step st' movements) ∧ senders = step.accepted env st

-- Shard info of the shard `(num, count)` or of a shard that it is split into later.
def ShardInfo.Refines (num count : UInt16) (info : ShardInfo) : Prop :=
  ∃ k, info.count.toNat = count.toNat * 2 ^ k ∧ info.num.toNat % count.toNat = num.toNat

-- The steps of one shard's chain: its inherents carry its own shard info, and no raw
-- write touches the storage.
def ChainStep.OfShard (num count : UInt16) : ChainStep → Prop
  | .apply uxt =>
    (∀ sender, uxt.function.rawWrite (.signed sender) = false) ∧
    ∀ info, uxt.signature = none → uxt.function = .shardingSetShardInfo info →
      info.Refines num count
  | _ => True

theorem shardNumFor_of_refines {account : AccountId} {info : ShardInfo}
    (hrefines : info.Refines num count)
    (h : Sharding.shardNumFor account info.count = some info.num) :
    Sharding.shardNumFor account count = some num := by
  obtain ⟨k, hcount, hnum⟩ := hrefines
  obtain ⟨hlen, m, hm, hpow, hmod⟩ := (Sharding.shardNumForBytes_eq_some _ _ _).mp h
  have hdvd : count.toNat ∣ 2 ^ m := ⟨2 ^ k, by rw [← hpow, hcount]⟩
  obtain ⟨j, hj, hcountj⟩ := (Nat.dvd_prime_pow Nat.prime_two).mp hdvd
  refine (Sharding.shardNumForBytes_eq_some _ _ _).mpr ⟨hlen, j, by omega, hcountj, ?_⟩
  rw [← hnum, hcountj, hmod, Nat.mod_mod_of_dvd _ (pow_dvd_pow 2 hj)]

theorem acceptedSender_accepted {account : AccountId}
    (h : acceptedSender env st uxt = some account) :
    ∃ info, AcceptedSender env st uxt info account := by
  unfold acceptedSender at h
  split at h
  · next xt hcheck =>
    rcases check_cases env hcheck with ⟨_, herror⟩ | ⟨_, hxt⟩ | ⟨info, sender, haccepted, hxt⟩
    · exact absurd herror (by simp)
    · obtain rfl := Except.ok.inj hxt
      simp at h
    · obtain rfl := Except.ok.inj hxt
      obtain rfl : sender = account := by simpa using h
      exact ⟨info, haccepted⟩
  · simp at h

theorem acceptedSender_of_accepted {info : SignatureInfo} {sender : AccountId}
    (h : AcceptedSender env st uxt info sender) :
    acceptedSender env st uxt = some sender := by
  obtain ⟨shard, hshard, hnum⟩ := h.inShard
  have hchecked : checkSender st sender = .ok true := by
    rw [checkSender_eq_ok]
    exact ⟨shard, hshard, (decide_eq_true hnum).symm⟩
  simp only [acceptedSender, UncheckedExtrinsic.check, h.signature, h.lookup, h.valid, if_true,
    hchecked]
  rfl

theorem acceptedSender_unsigned (st : State σ) (h : uxt.signature = none) :
    acceptedSender env st uxt = none := by
  simp [acceptedSender, UncheckedExtrinsic.check, h]

theorem applyExtrinsic_currentShardInfo (h : applyExtrinsic env uxt st = .ok applied)
    (hraw : ∀ sender, uxt.function.rawWrite (.signed sender) = false) :
    applied.state.sharding.currentShardInfo = st.sharding.currentShardInfo ∨
      ∃ info, uxt.signature = none ∧ uxt.function = .shardingSetShardInfo info ∧
        applied.state.sharding.currentShardInfo = some info := by
  rcases applyExtrinsic_cases env h with ⟨_, rfl⟩ |
    ⟨_, sender, paid, outcome, _, _, hpaid, hdispatch, rfl⟩ |
    ⟨rtx, outcome, hunsigned, _, _, hdispatch, rfl⟩ | ⟨outcome, hunsigned, _, hdispatch, rfl⟩
  · exact .inl rfl
  · have hpay := Balances.makePayment_coinsOnly sender uxt.encode.length st
    rw [hpaid] at hpay
    rcases dispatch_frame env hdispatch (hraw sender) with hframe | ⟨_, horigin, _⟩
    · exact .inl (congrArg ShardingState.currentShardInfo (hframe.sharding.trans hpay.sharding))
    · exact absurd horigin (by simp)
  · rcases dispatch_frame env hdispatch (Call.rawWrite_inherent _) with hframe |
      ⟨info, _, hcall, rfl⟩
    · exact .inl (congrArg ShardingState.currentShardInfo hframe.sharding)
    · exact .inr ⟨info, hunsigned, hcall, rfl⟩
  · rcases dispatch_frame env hdispatch (Call.rawWrite_inherent _) with hframe |
      ⟨info, _, hcall, rfl⟩
    · exact .inl (congrArg ShardingState.currentShardInfo hframe.sharding)
    · exact .inr ⟨info, hunsigned, hcall, rfl⟩

-- The shard knows its own info, and has only accepted accounts of its own.
def OwnAccounts (num count : UInt16) (senders : List AccountId) (st : State σ) : Prop :=
  (∃ info, st.sharding.currentShardInfo = some info ∧ info.Refines num count) ∧
    ∀ account ∈ senders, Sharding.shardNumFor account count = some num

theorem ownAccounts_step {senders out : List AccountId} {st st' : State σ} {step : ChainStep}
    (h : OwnAccounts num count senders st) (hstep : step.OfShard num count)
    (htaken : acceptStep env st step st' out) : OwnAccounts num count (senders ++ out) st' := by
  obtain ⟨⟨info, hinfo, hrefines⟩, hown⟩ := h
  obtain ⟨⟨movements, hchain⟩, rfl⟩ := htaken
  cases step with
  | start number =>
    have hframe := initializeBlock_frame env hchain.1
    exact ⟨⟨info, hframe.sharding ▸ hinfo, hrefines⟩, by simpa [ChainStep.accepted] using hown⟩
  | finish number =>
    have hframe := finishBlock_frame env hchain.1
    exact ⟨⟨info, hframe.sharding ▸ hinfo, hrefines⟩, by simpa [ChainStep.accepted] using hown⟩
  | apply uxt =>
    obtain ⟨applied, happly, rfl, rfl⟩ := hchain
    refine ⟨?_, fun account hmem => ?_⟩
    · rcases applyExtrinsic_currentShardInfo env happly hstep.1 with hsame |
        ⟨info', hunsigned, hcall, hset⟩
      · exact ⟨info, hsame.trans hinfo, hrefines⟩
      · exact ⟨info', hset, hstep.2 info' hunsigned hcall⟩
    · rcases List.mem_append.mp hmem with hold | hnew
      · exact hown account hold
      · obtain ⟨_, haccepted⟩ := acceptedSender_accepted env (Option.mem_toList.mp hnew)
        obtain ⟨info', hinfo', hshard⟩ := haccepted.inShard
        obtain rfl : info' = info := Option.some.inj (hinfo'.symm.trans hinfo)
        exact shardNumFor_of_refines hrefines hshard

-- The chain of a child shard from its first block on, with the senders it accepts.
-- Its first block applies the shard inherent before any signed extrinsic.
def ChildChain (num count : UInt16) (st : State σ) (senders : List AccountId) : Prop :=
  ∃ early before info inherent late after,
    Reaches (acceptStep env) (fun _ step => step.Unsigned) st early before ∧
    info.Refines num count ∧
    applyExtrinsic env ⟨none, .shardingSetShardInfo info⟩ before = .ok inherent ∧
    inherent.result = .ok .success ∧
    Reaches (acceptStep env) (fun _ step => step.OfShard num count) inherent.state late after ∧
    senders = early ++ late

theorem no_senders_of_unsigned {st st' : State σ}
    (h : Reaches (acceptStep env) (fun _ step => step.Unsigned) st senders st') : senders = [] := by
  refine h.invariant (fun senders _ => senders = []) rfl ?_
  rintro senders st step st' out rfl hunsigned ⟨_, rfl⟩
  cases step with
  | start number => rfl
  | finish number => rfl
  | apply uxt => simp [ChainStep.accepted, acceptedSender_unsigned env st hunsigned]

theorem shardInherent_success {info : ShardInfo}
    (h : applyExtrinsic env ⟨none, .shardingSetShardInfo info⟩ st = .ok applied)
    (hresult : applied.result = .ok .success) :
    applied.state.sharding.currentShardInfo = some info := by
  rcases applyExtrinsic_cases env h with ⟨_, rfl⟩ | ⟨_, _, _, _, haccepted, _⟩ |
    ⟨_, outcome, _, _, _, hdispatch, rfl⟩ | ⟨outcome, _, _, hdispatch, rfl⟩
  · simp [Applied.reject] at hresult
  · exact absurd haccepted.signature (by simp)
  · obtain rfl := Except.ok.inj hdispatch
    rfl
  · obtain rfl := Except.ok.inj hdispatch
    rfl

theorem childChain_accounts (h : ChildChain env num count st senders) (account : AccountId)
    (hmem : account ∈ senders) :
    Sharding.shardNumFor account count = some num := by
  obtain ⟨early, _, info, inherent, late, _, hearly, hrefines, happly, hresult, hrun, rfl⟩ := h
  rw [no_senders_of_unsigned env hearly, List.nil_append] at hmem
  have hstart : OwnAccounts num count [] inherent.state :=
    ⟨⟨info, shardInherent_success env happly hresult, hrefines⟩, by simp⟩
  exact (hrun.invariant (OwnAccounts num count) hstart
    fun _ _ _ _ _ hinv hstep htaken => ownAccounts_step env hinv hstep htaken).2 account hmem

theorem split_accounts_disjoint {n c : UInt16} {st : State σ} {left right : List AccountId}
    (hleft : ChildChain env n (c + c) st left) (hright : ChildChain env (n + c) (c + c) st right)
    (account : AccountId) : ¬ (account ∈ left ∧ account ∈ right) := by
  intro h
  obtain ⟨hl, hr⟩ := h
  have hn := childChain_accounts env hleft account hl
  have hnc := childChain_accounts env hright account hr
  have hzero : c = 0 := by
    have heq := Option.some.inj (hn.symm.trans hnc)
    simpa using heq.symm
  subst hzero
  obtain ⟨_, k, _, hpow, _⟩ := (Sharding.shardNumForBytes_eq_some _ _ _).mp hn
  exact absurd hpow (Nat.two_pow_pos k).ne

-- Shard 0 of 1 one block before its split is committed.
def splittingState : State Unit :=
  { plainState (some ⟨0, 1, none⟩) with
    sharding := ⟨1, some ⟨0, 1, none⟩, some (.committing 2)⟩ }

def shardInherent (num count : UInt16) : UncheckedExtrinsic :=
  ⟨none, .shardingSetShardInfo ⟨num, count, none⟩⟩

def signedStore (byte : UInt8) : UncheckedExtrinsic :=
  ⟨some ⟨.id (filled 32 byte), filled 64 7, 0, .immortal⟩, .storageStore ⟨[], by decide⟩⟩

theorem shardInherent_ofShard (num count : UInt16) (h : num.toNat % count.toNat = num.toNat) :
    (ChainStep.apply (shardInherent num count)).OfShard num count := by
  refine ⟨fun _ => rfl, fun info _ hcall => ?_⟩
  obtain rfl := Call.shardingSetShardInfo.inj hcall
  exact ⟨0, by simp, h⟩

theorem signedStore_ofShard (byte : UInt8) (num count : UInt16) :
    (ChainStep.apply (signedStore byte)).OfShard num count :=
  ⟨fun _ => rfl, fun _ hunsigned => absurd hunsigned (by simp [signedStore])⟩

theorem acceptStep_apply (h : applyExtrinsic env uxt st = .ok applied)
    (hsenders : (acceptedSender env st uxt).toList = senders) :
    acceptStep env st (.apply uxt) applied.state senders :=
  ⟨⟨_, chainStep_apply env h⟩, hsenders.symm⟩

-- Both children follow their inherent with an extrinsic of an account of their own.
theorem split_accounts_disjoint_ordered :
    ChildChain plainSubstrate 0 (1 + 1) splittingState [filled 32 2] ∧
    ChildChain plainSubstrate (0 + 1) (1 + 1) splittingState [filled 32 1] ∧
    ¬ (filled 32 1 ∈ [filled 32 2] ∧ filled 32 1 ∈ [filled 32 1]) := by
  have hchild : ∀ num byte, num.toNat % 2 = num.toNat →
      ((applyExtrinsic plainSubstrate (shardInherent num 2) splittingState).toOption.bind
        fun inherent => (applyExtrinsic plainSubstrate (signedStore byte)
          inherent.state).toOption.bind fun _ =>
            some (inherent.result, acceptedSender plainSubstrate inherent.state (signedStore byte)))
        = some (.ok .success, some (filled 32 byte)) →
      ChildChain plainSubstrate num 2 splittingState [filled 32 byte] := by
    intro num byte hnum hrun
    obtain ⟨inherent, hinherent, hrun⟩ := Run.exists_of_toOption hrun
    obtain ⟨stored, hstored, hrun⟩ := Run.exists_of_toOption hrun
    simp only [Option.some.injEq, Prod.mk.injEq] at hrun
    refine ⟨[], splittingState, _, inherent, _, stored.state, .refl _, ⟨0, by simp, hnum⟩,
      hinherent, hrun.1, .tail (.refl _) (signedStore_ofShard byte num 2)
        (acceptStep_apply plainSubstrate hstored (by rw [hrun.2]; rfl)), rfl⟩
  have hleft := hchild 0 2 rfl (by decide +kernel)
  have hright := hchild 1 1 rfl (by decide +kernel)
  exact ⟨hleft, hright,
    split_accounts_disjoint plainSubstrate (n := 0) (c := 1) hleft hright (filled 32 1)⟩

-- The left child applies an extrinsic before its inherent, under the old shard info,
-- and the right child accepts the same extrinsic after its own.
theorem both_children_accept : ∃ left right,
    Reaches (acceptStep plainSubstrate) (fun _ step => step.OfShard 0 2) splittingState
      [filled 32 1] left ∧
    left.sharding.currentShardInfo = some ⟨0, 2, none⟩ ∧
    Reaches (acceptStep plainSubstrate) (fun _ step => step.OfShard 1 2) splittingState
      [filled 32 1] right ∧
    right.sharding.currentShardInfo = some ⟨1, 2, none⟩ := by
  have hleft : ((applyExtrinsic plainSubstrate (signedStore 1) splittingState).toOption.bind
      fun stored => (applyExtrinsic plainSubstrate (shardInherent 0 2)
        stored.state).toOption.bind fun inherent =>
          some inherent.state.sharding.currentShardInfo) = some (some ⟨0, 2, none⟩) := by
    decide +kernel
  have hright : ((applyExtrinsic plainSubstrate (shardInherent 1 2) splittingState).toOption.bind
      fun inherent => (applyExtrinsic plainSubstrate (signedStore 1)
        inherent.state).toOption.bind fun stored =>
          some (acceptedSender plainSubstrate inherent.state (signedStore 1),
            stored.state.sharding.currentShardInfo)) =
      some (some (filled 32 1), some ⟨1, 2, none⟩) := by
    decide +kernel
  obtain ⟨stored, hstored, hleft⟩ := Run.exists_of_toOption hleft
  obtain ⟨inherent, hinherent, hleft⟩ := Run.exists_of_toOption hleft
  obtain ⟨inherent', hinherent', hright⟩ := Run.exists_of_toOption hright
  obtain ⟨stored', hstored', hright⟩ := Run.exists_of_toOption hright
  simp only [Option.some.injEq, Prod.mk.injEq] at hright
  have hsigned : acceptedSender plainSubstrate splittingState (signedStore 1) =
      some (filled 32 1) := by
    decide +kernel
  have hleftRun : Reaches (acceptStep plainSubstrate) (fun _ step => step.OfShard 0 2)
      splittingState (([] ++ [filled 32 1]) ++ []) inherent.state :=
    .tail (.tail (.refl _) (signedStore_ofShard 1 0 2)
      (acceptStep_apply plainSubstrate hstored (by rw [hsigned]; rfl)))
      (shardInherent_ofShard 0 2 rfl) (acceptStep_apply plainSubstrate hinherent rfl)
  have hrightRun : Reaches (acceptStep plainSubstrate) (fun _ step => step.OfShard 1 2)
      splittingState (([] ++ []) ++ [filled 32 1]) stored'.state :=
    .tail (.tail (.refl _) (shardInherent_ofShard 1 2 rfl)
      (acceptStep_apply plainSubstrate hinherent' rfl)) (signedStore_ofShard 1 1 2)
      (acceptStep_apply plainSubstrate hstored' (by rw [hright.1]; rfl))
  exact ⟨inherent.state, stored'.state, hleftRun, Option.some.inj hleft, hrightRun, hright.2⟩

end Yeeroot
