import Yeeroot.Executive
import Yeeroot.Runtime.Lemmas

namespace Yeeroot.Assets

open Scale

variable {σ : Type} (env : Substrate σ)

theorem balances_debit_ne {st : State σ} {origin : Origin} {shardCode : ByteVec} {id : UInt32}
    {amount : Balance} {sender : AccountId} (h : Debits st origin shardCode id amount sender) :
    (debit shardCode id amount sender st).assets.balances ≠ st.assets.balances := by
  intro hsame
  have hentry := congrFun hsame (shardCode.bytes, id, sender)
  have hdebited : (debit shardCode id amount sender st).assets.balances
      (shardCode.bytes, id, sender) =
        st.assets.balances (shardCode.bytes, id, sender) - amount := by
    simp [debit, setBalance, update]
  rw [hdebited] at hentry
  apply h.nonzero
  have hvalue := congrArg BitVec.toNat hentry
  have hcovered := BitVec.le_def.mp h.covered
  rw [BitVec.toNat_sub_of_le h.covered] at hvalue
  apply BitVec.eq_of_toNat_eq
  change amount.toNat = 0
  omega

theorem transfer_lost {st : State σ} {origin : Origin} {shardCode : ByteVec} {id : UInt32}
    {target : Address} {amount : Balance} {sender : AccountId} {error : String}
    (h : Debits st origin shardCode id amount sender)
    (hlookup : st.lookup env target = .error error) :
    transfer env origin shardCode id target amount st =
      .ok (.fail (debit shardCode id amount sender st) error) := by
  have hafter : (debit shardCode id amount sender st).lookup env target = .error error := by
    cases target <;> exact hlookup
  obtain ⟨rfl, hzero, hcovered⟩ := h
  simp only [transfer, if_neg hzero, if_neg (BitVec.not_lt.mpr hcovered)]
  rw [debit] at hafter
  rw [hafter]
  rfl

-- A failed transfer leaves the balances alone exactly if its target is known whenever the
-- sender's balance is written.
theorem failed_transfer_keeps_iff (st : State σ) (origin : Origin) (shardCode : ByteVec)
    (id : UInt32) (target : Address) (amount : Balance) :
    (∀ outcome error, transfer env origin shardCode id target amount st = .ok outcome →
        outcome.result = .error error → outcome.state.assets.balances = st.assets.balances) ↔
      ∀ sender, Debits st origin shardCode id amount sender →
        ∃ account, st.lookup env target = .ok account := by
  constructor
  · intro h sender hdebits
    cases hlookup : st.lookup env target with
    | ok account => exact ⟨account, rfl⟩
    | error error =>
      have hkept := h _ error (transfer_lost env hdebits hlookup) rfl
      exact absurd hkept (balances_debit_ne hdebits)
  · intro h outcome error hdone herror
    cases transfers_of_transfer env hdone with
    | refused _ _ => rfl
    | lost debits lookup =>
      obtain ⟨account, hknown⟩ := h _ debits
      rw [lookup] at hknown
      cases hknown
    | stays _ _ _ _ => cases herror
    | leaves _ _ _ _ _ => cases herror

theorem noCode_short : ([] : Bytes).length < 2 ^ 32 := Nat.two_pow_pos 32

def noCode : ByteVec := ⟨[], noCode_short⟩

-- Account 01..01 of shard 1 of 2 holds 10 units of an asset; nobody has the index 0.
def holderState : State Unit :=
  let st := plainState (some ⟨1, 2, none⟩)
  { st with assets := { st.assets with
      balances := fun key => if key = ([], 0, filled 32 1) then 10 else 0 } }

def lostTransfer : UncheckedExtrinsic :=
  ⟨some ⟨.id (filled 32 1), filled 64 7, 0, .immortal⟩,
    .assetsTransfer noCode 0 (.index 0) 4⟩

theorem failed_transfer_debits :
    holderState.assets.balances ([], 0, filled 32 1) = 10 ∧
    ((transfer plainSubstrate (.signed (filled 32 1)) noCode 0 (.index 0) 4
        holderState).toOption.map fun outcome =>
      (outcome.result, outcome.state.assets.balances ([], 0, filled 32 1))) =
        some (.error "invalid account index", 6) ∧
    ((applyExtrinsic plainSubstrate lostTransfer holderState).toOption.map fun applied =>
      (applied.result, applied.state.assets.balances ([], 0, filled 32 1))) =
        some (.ok (.fail "invalid account index"), 6) := by
  refine ⟨by decide +kernel, by decide +kernel, by decide +kernel⟩

end Yeeroot.Assets
