import Yeeroot.Executive.CrossShard
import Yeeroot.Runtime.Overflow

namespace Yeeroot

open Scale

variable {σ : Type} (env : Substrate σ) (build : Build)

def Build.incAccountNonce (sender : AccountId) (st : State σ) : Run (State σ) := do
  let nonce ← build.add64 (st.system.accountNonce sender) 1
  return { st with system := { st.system with
    accountNonce := Function.update st.system.accountNonce sender nonce } }

-- What is left of `apply_extrinsic_with_len` for a signed extrinsic whose fee is paid.
def Build.remainder (call : Call) (sender : AccountId) (encodedLen : Nat) (st : State σ) :
    Run (Applied σ) := do
  let st ← build.incAccountNonce sender st
  let outcome ← build.dispatch env call (.signed sender) st
  return outcome.applied encodedLen

-- In a release build it is what `applySigned` does.
theorem remainder_release (xt : CheckedExtrinsic) {sender : AccountId} {index : UInt64}
    (hsigned : xt.signed = some (sender, index)) (encodedLen : Nat) (st : State σ) :
    Build.release.remainder env xt.function sender encodedLen st =
      applyChecked env xt encodedLen (incAccountNonce sender st) := by
  simp only [Build.remainder, Build.dispatch_release, applyChecked, hsigned]
  simp [Build.incAccountNonce, Build.add64, Build.guard, Origin.ofSender, bind, Except.bind, pure,
    Except.pure]
  rfl

theorem remainder_returns {st : State σ} {info : ShardInfo} (h : ShardKnown st info) {call : Call}
    (hcall : call.ofUserModule = true) (sender : AccountId) (encodedLen : Nat) :
    Run.Returns (build.remainder env call sender encodedLen st) ↔
      ¬ call.Undecodable ∧ (build = .checked →
        (st.system.accountNonce sender).toNat + 1 < 2 ^ 64 ∧ ¬ call.Overflows env st sender) := by
  have hnonce : build.Computes (build.incAccountNonce sender st)
      ((st.system.accountNonce sender).toNat + 1 < 2 ^ 64) (incAccountNonce sender st) :=
    (Build.Computes.add64 _ 1).map _
  have hknown : ShardKnown (incAccountNonce sender st) info := ⟨h.current, h.total⟩
  have hsame : call.Overflows env (incAccountNonce sender st) sender ↔
      call.Overflows env st sender := Iff.rfl
  simp only [Build.remainder, Run.returns_bind, hnonce _, bind_pure_comp, Run.returns_map,
    and_assoc, exists_and_left, exists_eq_left', dispatch_returns env build hknown hcall, hsame]
  tauto

theorem Sharding.shardNumForBytes_total {bytes other : Bytes} {count num : UInt16}
    (h : shardNumForBytes bytes count = some num) (hlong : 2 ≤ other.length) :
    ∃ num', shardNumForBytes other count = some num' := by
  unfold shardNumForBytes at h ⊢
  split_ifs at h
  obtain ⟨digits, hdigits, _⟩ := Option.map_eq_some_iff.mp h
  rw [if_neg (Nat.not_lt.mpr hlong), hdigits]
  exact ⟨_, rfl⟩

theorem shardKnown_of_accepted {uxt : UncheckedExtrinsic} {st : State σ} {info : SignatureInfo}
    {sender : AccountId} (h : AcceptedSender env st uxt info sender) :
    ∃ shard, ShardKnown st shard := by
  obtain ⟨shard, hcurrent, hnum⟩ := h.inShard
  refine ⟨shard, hcurrent, fun account => Sharding.shardNumForBytes_total hnum ?_⟩
  rw [account.property]
  omega

-- After the fees nothing panics, but for a relay of coins that does not decode and, in a
-- checked build, for sums that do not fit.
theorem remainder_returns_iff {uxt : UncheckedExtrinsic} {st paid : State σ}
    {xt : CheckedExtrinsic} {sender : AccountId} {index : UInt64} {encodedLen : Nat}
    (hcheck : uxt.check env st = .ok (.ok xt)) (hsigned : xt.signed = some (sender, index))
    (hpaid : Balances.makePayment sender encodedLen st = (paid, .ok ()))
    (hcall : xt.function.ofUserModule = true) :
    Run.Returns (build.remainder env xt.function sender encodedLen paid) ↔
      ¬ xt.function.Undecodable ∧ (build = .checked →
        (paid.system.accountNonce sender).toNat + 1 < 2 ^ 64 ∧
        ¬ xt.function.Overflows env paid sender) := by
  rcases check_cases env hcheck with ⟨error, herror⟩ | ⟨_, hchecked⟩ | ⟨info, sender', haccepted, _⟩
  · simp at herror
  · rw [Except.ok.inj hchecked] at hsigned
    simp at hsigned
  · obtain ⟨shard, hknown⟩ := shardKnown_of_accepted env haccepted
    have hsharding : paid.sharding = st.sharding := by
      have hframe := Balances.makePayment_coinsOnly sender encodedLen st
      rw [hpaid] at hframe
      exact hframe.sharding
    have hknown' : ShardKnown paid shard := ⟨by rw [hsharding]; exact hknown.current, hknown.total⟩
    exact remainder_returns env build hknown' hcall sender encodedLen

-- A relay of coins whose bytes are no extrinsic.
def bareRelay : UncheckedExtrinsic :=
  ⟨some ⟨.id (filled 32 1), filled 64 7, 0, .immortal⟩,
    .relayTransfer ⟨.balance, ⟨[0], Nat.one_lt_two_pow (Nat.succ_ne_zero 31)⟩, 0, filled 32 3, filled 32 4⟩⟩

theorem makePayment_fundedState (encodedLen : Nat) : ∃ paid,
    Balances.makePayment (filled 32 1) encodedLen fundedState = (paid, .ok ()) ∧
    paid.system = fundedState.system ∧ paid.pow = fundedState.pow ∧
    paid.balances.transferFee = fundedState.balances.transferFee := by
  have hfree : fundedState.balances.transactionBaseFee + fundedState.balances.transactionByteFee *
      balanceOfNumber (UInt64.ofNat encodedLen) = 0 := by
    simp [fundedState, plainState]
  unfold Balances.makePayment
  rw [hfree]
  exact ⟨_, rfl, rfl, rfl, rfl⟩

theorem remainder_returns_iff_transfer : ∃ xt paid,
    plainTransfer.check plainSubstrate fundedState = .ok (.ok xt) ∧
    Balances.makePayment (filled 32 1) plainTransfer.encode.length fundedState = (paid, .ok ()) ∧
    Run.Returns (Build.checked.remainder plainSubstrate xt.function (filled 32 1)
      plainTransfer.encode.length paid) := by
  obtain ⟨paid, hpaid, hsystem, hpow, hfee⟩ := makePayment_fundedState plainTransfer.encode.length
  have hcheck : plainTransfer.check plainSubstrate fundedState =
    .ok (.ok ⟨some (filled 32 1, 0), plainTransfer.function⟩) := rfl
  refine ⟨_, paid, hcheck, hpaid, ?_⟩
  apply (remainder_returns_iff plainSubstrate .checked hcheck rfl hpaid rfl).mpr
  refine ⟨id, fun _ => ⟨?_, ?_⟩⟩
  · rw [hsystem]
    decide
  · rintro ⟨_, _, _, hfits⟩
    rw [hpow, hfee] at hfits
    exact absurd hfits (by decide)

-- It passes every check when signed, and panics after the fee.
theorem signed_relay_panics : ∃ xt paid,
    bareRelay.check plainSubstrate fundedState = .ok (.ok xt) ∧
    xt.signed = some (filled 32 1, fundedState.system.accountNonce (filled 32 1)) ∧
    Balances.makePayment (filled 32 1) bareRelay.encode.length fundedState = (paid, .ok ()) ∧
    Build.release.remainder plainSubstrate xt.function (filled 32 1) bareRelay.encode.length
      paid = .error ⟨"called `Option::unwrap()` on a `None` value"⟩ := by
  obtain ⟨paid, hpaid, _⟩ := makePayment_fundedState bareRelay.encode.length
  have hcheck : bareRelay.check plainSubstrate fundedState =
    .ok (.ok ⟨some (filled 32 1, 0), bareRelay.function⟩) := rfl
  refine ⟨_, paid, hcheck, rfl, hpaid, ?_⟩
  have hdecode : OriginExtrinsic.decode .balance [0] = none := by decide +kernel
  simp [Build.remainder, Build.incAccountNonce, Build.add64, Build.guard, bareRelay,
    Build.dispatch, Build.relayTransfer, Balances.relayTransfer, hdecode, Run.expect, bind,
    Except.bind, pure, Except.pure]

end Yeeroot
