import Yeeroot.Executive.Lemmas
import Yeeroot.Runtime.Balances.Effect

namespace Yeeroot

open Scale

variable {σ : Type} (env : Substrate σ)

theorem length_encode_indexSigner (i : UInt32) (signature : Signature) (index : UInt64) (era : Era) :
    (SignatureInfo.mk (.index i) signature index era).encode.length ≤ 80 := by
  have ha := Address.length_encode_index_le i
  have hn := length_encodeCompact_u64 index
  have he := era.length_encode_le
  simp only [SignatureInfo.encode, List.length_append, signature.property]
  omega

theorem Address.length_encode_le (address : Address) : address.encode.length ≤ 33 := by
  cases address with
  | id account => simp [Address.encode, account.property]
  | index i =>
    have hi := Address.length_encode_index_le i
    omega

theorem decode_balancesTransfer_cases {relayType : RelayTypes} {info : SignatureInfo}
    {dest : Address} {value : Balance} {origin : OriginExtrinsic}
    (h : OriginExtrinsic.decode relayType
      (UncheckedExtrinsic.mk (some info) (.balancesTransfer dest value)).encode = some origin) :
    ∃ account, dest = .id account ∧ origin.transfer = ⟨.coin, account, value⟩ := by
  obtain ⟨signed, signature, index, era⟩ := info
  rw [OriginExtrinsic.decode_signed] at h
  cases signed with
  | index i =>
    obtain ⟨⟨signer, rest⟩, hsigner, hcall⟩ := Option.bind_eq_some_iff.mp h
    have htaken := length_of_decodeOriginSigner _ _ _ hsigner
    have hneeded := le_length_of_decodeOriginCall _ _ _ _ hcall
    have hinfo := length_encode_indexSigner i signature index era
    have hdest := dest.length_encode_le
    have hvalue := length_encodeCompact_balance value
    simp only [List.length_append, Call.encode, List.length_cons] at htaken
    omega
  | id sender =>
    rw [decodeOriginSigner_append, Option.bind_some] at h
    dsimp only at h
    cases dest with
    | index i => simp [decodeOriginCall_balancesTransfer_index] at h
    | id account =>
      cases relayType with
      | assets => simp [decodeOriginCall_balancesTransfer_assets] at h
      | balance =>
        rw [decodeOriginCall_balancesTransfer, Option.some.injEq] at h
        subst h
        exact ⟨account, rfl, rfl⟩

-- An asset transfer read as an asset transfer is decoded faithfully exactly when
-- its sender is an account id: read through a sender's index, every field has moved.
theorem decode_assetsTransfer_cases {info : SignatureInfo} {shardCode : ByteVec} {id : UInt32}
    {target : Address} {amount : Balance} {origin : OriginExtrinsic}
    (h : OriginExtrinsic.decode .assets
      (UncheckedExtrinsic.mk (some info) (.assetsTransfer shardCode id target amount)).encode =
        some origin) :
    (∃ sender account, info.signed = .id sender ∧ target = .id account ∧
      origin.transfer = ⟨.asset shardCode.bytes id, account, amount⟩) ∨
    ((∃ i, info.signed = .index i) ∧
      ∀ account, origin.transfer ≠ ⟨.asset shardCode.bytes id, account, amount⟩) := by
  obtain ⟨signed, signature, index, era⟩ := info
  rw [OriginExtrinsic.decode_signed] at h
  cases signed with
  | id sender =>
    rw [decodeOriginSigner_append, Option.bind_some] at h
    dsimp only at h
    cases target with
    | index i => simp [decodeOriginCall_assetsTransfer_index] at h
    | id account =>
      rw [decodeOriginCall_assetsTransfer, Option.some.injEq] at h
      subst h
      exact .inl ⟨sender, account, rfl, rfl, rfl⟩
  | index i =>
    refine .inr ⟨⟨i, rfl⟩, fun account heq => ?_⟩
    obtain ⟨⟨signer, rest⟩, hsigner, hcall⟩ := Option.bind_eq_some_iff.mp h
    have htaken := length_of_decodeOriginSigner _ _ _ hsigner
    obtain ⟨vec, id', hvec, hid, hneeded⟩ := length_of_decodeOriginCall_assets _ _ _ hcall
    simp only [OriginExtrinsic.transfer, hid, hvec, Transfer.mk.injEq, Currency.asset.injEq]
      at heq
    obtain ⟨⟨hbytes, rfl⟩, _, rfl⟩ := heq
    have hinfo := length_encode_indexSigner i signature index era
    have htarget := target.length_encode_le
    simp only [encodeByteVec, hbytes, List.length_append] at hneeded
    simp only [List.length_append, Call.encode, List.length_cons, encodeByteVec] at htaken
    omega

-- The change of the ledger that a movement stands for.
def Movement.Moves (origin : Origin) (st st' : State σ) : Movement → Prop
  | .outbound ⟨.coin, _, value⟩ =>
    ∃ sender, origin = .signed sender ∧ Balances.Debited st st' sender value
  | .outbound ⟨.asset shardCode id, _, amount⟩ =>
    ∃ sender, origin = .signed sender ∧ amount ≤ st.assets.balances (shardCode, id, sender) ∧
      st'.assets.balances = Function.update st.assets.balances (shardCode, id, sender)
        (st.assets.balances (shardCode, id, sender) - amount)
  | .inbound _ ⟨.coin, dest, amount⟩ =>
    (Balances.freeBalance st' dest).toNat =
      Balances.kept st ((Balances.freeBalance st dest).toNat + amount.toNat)
  | .inbound _ ⟨.asset shardCode id, dest, amount⟩ =>
    st'.assets.balances = Function.update st.assets.balances (shardCode, id, dest)
      (st.assets.balances (shardCode, id, dest) + amount)

theorem Relay.transfer_moves {relay : RelayCall} {st : State σ} {outcome : Outcome σ}
    (h : transfer env relay st = .ok outcome) (origin : Origin) :
    ∀ movement ∈ outcome.movements, movement.Moves origin st outcome.state := by
  unfold transfer at h
  split at h
  · obtain ⟨carried, announced, _, _, hsame, ⟨_, rfl⟩ | ⟨toBalance, hadd, rfl⟩⟩ :=
      Balances.relayTransfer_cases env h
    · simp [Outcome.fail]
    · intro movement hmem
      rw [List.mem_singleton.mp hmem]
      have hset := Balances.toNat_freeBalance_setFreeBalance carried.dest toBalance announced
      rw [toNat_of_checkedAdd hadd, Balances.kept, hsame.balances] at hset
      exact hset
  · rcases Assets.relayTransfer_cases h with ⟨_, rfl⟩ | ⟨_, _, _, _, rfl⟩
    · simp [Outcome.fail]
    · intro movement hmem
      rw [List.mem_singleton.mp hmem]
      rfl

-- Every movement that a call reports comes with its change of the ledger.
theorem dispatch_moves {call : Call} {origin : Origin} {st : State σ} {outcome : Outcome σ}
    (h : dispatch env call origin st = .ok outcome) :
    ∀ movement ∈ outcome.movements, movement.Moves origin st outcome.state := by
  have hstill : outcome.movements = [] →
      ∀ movement ∈ outcome.movements, movement.Moves origin st outcome.state := by
    intro hnil
    simp [hnil]
  cases dispatch_cases env h with
  | minor _ still => exact hstill still
  | raw _ still => exact hstill still
  | @transfer dest value sender _ done =>
    rcases Balances.transfer_cases env done with ⟨_, rfl⟩ | ⟨_, _, horigin, _, done⟩
    · exact hstill rfl
    · obtain rfl := Origin.signed.inj horigin
      rcases Balances.transferFunds_cases env done with ⟨_, rfl⟩ |
        ⟨_, _, _, _, hadd, hsub, _, _, _, ⟨_, rfl⟩ | ⟨_, _, _, ⟨_, rfl⟩ | ⟨_, rfl⟩⟩⟩
      · exact hstill rfl
      · intro movement hmem
        rw [List.mem_singleton.mp hmem]
        exact ⟨sender, rfl, Balances.debited_of_checked hadd hsub
          (Balances.toNat_freeBalance_setFreeBalance sender _ st)⟩
      · exact hstill rfl
      · exact hstill rfl
  | assetsTransfer done =>
    cases Assets.transfers_of_transfer env done with
    | leaves debits _ _ _ _ =>
      intro movement hmem
      rw [List.mem_singleton.mp hmem]
      exact ⟨_, debits.signed, debits.covered, rfl⟩
    | _ => exact hstill rfl
  | issue =>
    refine hstill ?_
    simp only [Assets.issue]
    split_ifs <;> rfl
  | relay inner _ _ _ done => exact Relay.transfer_moves env done origin
  | setBalance =>
    refine hstill ?_
    unfold Balances.setBalance
    dsimp only
    split <;> rfl
  | powInfo => exact hstill rfl
  | shardInfo => exact hstill rfl

theorem applyExtrinsic_outbound {uxt : UncheckedExtrinsic} {st : State σ} {applied : Applied σ}
    (h : applyExtrinsic env uxt st = .ok applied) {transfer : Transfer}
    (hm : .outbound transfer ∈ applied.movements) :
    ∃ info st', uxt.signature = some info ∧ uxt.function.Sends env st' transfer := by
  rcases applyExtrinsic_cases env h with ⟨_, rfl⟩ |
    ⟨info, _, paid, outcome, haccepted, _, _, hdispatch, rfl⟩ |
    ⟨_, outcome, _, _, _, hdispatch, rfl⟩ | ⟨outcome, _, _, hdispatch, rfl⟩
  · simp [Applied.reject] at hm
  · exact ⟨info, _, haccepted.signature, (dispatch_outbound env hdispatch hm).1⟩
  · rcases dispatch_movements env hdispatch with hnil | ⟨_, _, horigin, _⟩ | ⟨_, _, _, _, _, hmoves⟩
    · simp [Outcome.applied, hnil] at hm
    · exact absurd horigin (by simp)
    · simp [Outcome.applied, hmoves] at hm
  · rcases dispatch_movements env hdispatch with hnil | ⟨_, _, horigin, _⟩ | ⟨_, _, _, _, _, hmoves⟩
    · simp [Outcome.applied, hnil] at hm
    · exact absurd horigin (by simp)
    · simp [Outcome.applied, hmoves] at hm

def Call.isBalancesTransfer : Call → Bool
  | .balancesTransfer _ _ => true
  | _ => false

def UncheckedExtrinsic.signedById (uxt : UncheckedExtrinsic) : Prop :=
  ∃ info account, uxt.signature = some info ∧ info.signed = .id account

def RelayCall.CreditsOnly (relay : RelayCall) (transfer : Transfer) : Prop :=
  ∀ origin st outcome, dispatch env (.relayTransfer relay) origin st = .ok outcome →
    ∀ bytes credited, .inbound bytes credited ∈ outcome.movements → credited = transfer

theorem creditsOnly_iff (relay : RelayCall) (transfer : Transfer) (st : State σ) :
    relay.CreditsOnly env transfer ↔
      ∀ origin, OriginExtrinsic.decode relay.relayType relay.tx.bytes = some origin →
        origin.transfer = transfer := by
  constructor
  · intro h origin hdecode
    -- A destination without a balance has room for any amount.
    obtain ⟨outcome, hrelay, _, hmoves⟩ := Relay.transfer_credits env
      (Balances.update st fun b => { b with freeBalance := fun _ => none }) hdecode
      fun _ => by simp [Balances.freeBalance, Balances.update, checkedAdd_zero]
    exact h .inherent _ outcome hrelay _ _ (by rw [hmoves]; exact List.mem_singleton_self _)
  · intro h origin st outcome hdispatch bytes credited hm
    obtain ⟨relay', origin', hrelay, _, rfl, hdecode, rfl, _⟩ := dispatch_inbound env hdispatch hm
    obtain rfl := Option.some.inj hrelay
    exact h origin' hdecode

-- The credit equals the debit exactly for coin transfers, for asset transfers that
-- are relayed as such and signed by account id, and for what no relay can decode.
theorem relay_credit_eq_debit_iff {uxt : UncheckedExtrinsic} {st : State σ} {applied : Applied σ}
    {transfer : Transfer} {relay : RelayCall} (happly : applyExtrinsic env uxt st = .ok applied)
    (hdebit : .outbound transfer ∈ applied.movements) (hcarries : relay.tx.bytes = uxt.encode) :
    relay.CreditsOnly env transfer ↔
      uxt.function.isBalancesTransfer ∨
      OriginExtrinsic.decode relay.relayType uxt.encode = none ∨
      (relay.relayType = .assets ∧ uxt.signedById) := by
  obtain ⟨info, st', hsigned, hsends⟩ := applyExtrinsic_outbound env happly hdebit
  obtain ⟨signature, function⟩ := uxt
  obtain ⟨currency, dest, amount⟩ := transfer
  simp only at hsigned hsends
  subst hsigned
  rw [creditsOnly_iff env relay _ st, hcarries]
  cases function with
  | balancesTransfer target value =>
    obtain ⟨rfl, hlook, rfl⟩ := hsends
    refine iff_of_true (fun origin hdecode => ?_) (.inl rfl)
    obtain ⟨account, rfl, htransfer⟩ := decode_balancesTransfer_cases hdecode
    rw [htransfer, Except.ok.inj hlook]
  | assetsTransfer shardCode id target value =>
    obtain ⟨rfl, hlook, rfl⟩ := hsends
    constructor
    · intro h
      refine .inr ?_
      cases hdecode : OriginExtrinsic.decode relay.relayType (UncheckedExtrinsic.mk (some info)
          (.assetsTransfer shardCode id target amount)).encode with
      | none => exact .inl rfl
      | some origin =>
        have htransfer := h origin hdecode
        have hid := OriginExtrinsic.id_of_decode hdecode
        cases htype : relay.relayType with
        | balance =>
          rw [htype] at hid
          have hnone : origin.id = none := by simpa using hid
          simp [OriginExtrinsic.transfer, hnone] at htransfer
        | assets =>
          rw [htype] at hdecode
          rcases decode_assetsTransfer_cases hdecode with ⟨sender, _, hsender, _⟩ | ⟨_, hne⟩
          · exact .inr ⟨rfl, info, sender, rfl, hsender⟩
          · exact absurd htransfer (hne dest)
    · rintro (h | h | ⟨htype, info', sender, hinfo, hsender⟩) origin hdecode
      · simp [Call.isBalancesTransfer] at h
      · rw [h] at hdecode
        simp at hdecode
      · obtain rfl := Option.some.inj hinfo
        rw [htype] at hdecode
        rcases decode_assetsTransfer_cases hdecode with ⟨_, account, _, rfl, htransfer⟩ |
          ⟨⟨_, hindex⟩, _⟩
        · rw [htransfer, Except.ok.inj hlook]
        · rw [hsender] at hindex
          exact absurd hindex (by simp)
  | _ => exact absurd hsends (by simp [Call.Sends])

-- Shard 1 of 2, where every account has coins and units of every asset.
def fundedState : State Unit :=
  { plainState (some ⟨1, 2, none⟩) with
    balances := { (plainState none).balances with freeBalance := fun _ => some 100 }
    assets := { (plainState none).assets with balances := fun _ => 100 } }

theorem relay_credit_eq_debit_of_coin : ∃ applied : Applied Unit,
    applyExtrinsic plainSubstrate plainTransfer fundedState = .ok applied ∧
    .outbound ⟨.coin, filled 32 2, 5⟩ ∈ applied.movements ∧
    (plainRelay .balance 0).CreditsOnly plainSubstrate ⟨.coin, filled 32 2, 5⟩ := by
  have hrun : ((applyExtrinsic plainSubstrate plainTransfer fundedState).toOption.bind
      fun applied => some applied.movements) = some [.outbound ⟨.coin, filled 32 2, 5⟩] := by
    decide +kernel
  obtain ⟨applied, happly, hrun⟩ := Run.exists_of_toOption hrun
  have hdebit : Movement.outbound ⟨.coin, filled 32 2, 5⟩ ∈ applied.movements := by
    rw [Option.some.inj hrun]
    exact List.mem_singleton_self _
  exact ⟨applied, happly, hdebit,
    (relay_credit_eq_debit_iff plainSubstrate happly hdebit (by simp only [plainRelay])).mpr
      (.inl rfl)⟩

def assetTransfer : UncheckedExtrinsic :=
  ⟨some ⟨.id (filled 32 1), filled 64 7, 0, .immortal⟩,
    .assetsTransfer ⟨[1, 1], by decide⟩ 0 (.id (filled 32 2)) 9⟩

def assetRelay (relayType : RelayTypes) : RelayCall :=
  ⟨relayType, ⟨assetTransfer.encode, by decide +kernel⟩, 0, filled 32 3, filled 32 4⟩

-- Relayed as a coin transfer, nine units of an asset become millions of coins of an
-- account whose bytes begin with the shard code and the asset id.
theorem asset_relayed_as_coin : ∃ debited credited : Applied Unit,
    applyExtrinsic plainSubstrate assetTransfer fundedState = .ok debited ∧
    debited.result = .ok .success ∧
    debited.movements = [.outbound ⟨.asset [1, 1] 0, filled 32 2, 9⟩] ∧
    (assetRelay .balance).tx.bytes = assetTransfer.encode ∧
    applyExtrinsic plainSubstrate (assetRelay .balance).unsigned
      (plainState (some ⟨0, 2, none⟩)) = .ok credited ∧
    credited.result = .ok .success ∧
    credited.movements = [.inbound assetTransfer.encode
      ⟨.coin, ⟨[1, 1, 0, 0xff] ++ List.replicate 28 2, by decide⟩, 8421504⟩] := by
  have hsource : ((applyExtrinsic plainSubstrate assetTransfer fundedState).toOption.bind
      fun debited => some (debited.result, debited.movements)) =
      some (.ok .success, [.outbound ⟨.asset [1, 1] 0, filled 32 2, 9⟩]) := by
    decide +kernel
  have hdest : ((applyExtrinsic plainSubstrate (assetRelay .balance).unsigned
      (plainState (some ⟨0, 2, none⟩))).toOption.bind
      fun credited => some (credited.result, credited.movements)) =
      some (.ok .success, [.inbound assetTransfer.encode
        ⟨.coin, ⟨[1, 1, 0, 0xff] ++ List.replicate 28 2, by decide⟩, 8421504⟩]) := by
    decide +kernel
  obtain ⟨debited, hdebited, hsource⟩ := Run.exists_of_toOption hsource
  obtain ⟨credited, hcredited, hdest⟩ := Run.exists_of_toOption hdest
  simp only [Option.some.injEq, Prod.mk.injEq] at hsource hdest
  exact ⟨debited, credited, hdebited, hsource.1, hsource.2, by simp only [assetRelay], hcredited,
    hdest.1, hdest.2⟩

end Yeeroot
