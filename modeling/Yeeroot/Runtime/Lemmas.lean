import Yeeroot.Runtime.Dispatch
import Yeeroot.SrPrimitives.Lemmas

namespace Yeeroot

open Scale

variable {σ : Type} (env : Substrate σ)

-- Two states with the same relay flags and the same sharding storage. Every call
-- but `set_shard_info` and a raw write by root relates its two states this way.
structure State.Frame (st st' : State σ) : Prop where
  relayExtrinsic : st'.system.relayExtrinsic = st.system.relayExtrinsic
  sharding : st'.sharding = st.sharding

namespace State.Frame

theorem refl (st : State σ) : State.Frame st st := ⟨rfl, rfl⟩

theorem trans {st st' st'' : State σ} (h : State.Frame st st') (h' : State.Frame st' st'') :
    State.Frame st st'' :=
  ⟨h'.relayExtrinsic.trans h.relayExtrinsic, h'.sharding.trans h.sharding⟩

end State.Frame

-- Two states with the same balances and nonces.
structure State.SameAccounts (st st' : State σ) : Prop where
  balances : st'.balances = st.balances
  accountNonce : st'.system.accountNonce = st.system.accountNonce

theorem State.SameAccounts.refl (st : State σ) : State.SameAccounts st st := ⟨rfl, rfl⟩

-- Two states that differ at most in what moving coins touches, as far as other modules go.
structure State.CoinsOnly (st st' : State σ) : Prop extends State.Frame st st' where
  assets : st'.assets = st.assets
  sudoKeys : st'.sudoKeys = st.sudoKeys

namespace State.CoinsOnly

theorem refl (st : State σ) : State.CoinsOnly st st := ⟨.refl st, rfl, rfl⟩

theorem trans {st st' st'' : State σ} (h : State.CoinsOnly st st')
    (h' : State.CoinsOnly st' st'') : State.CoinsOnly st st'' :=
  ⟨h.toFrame.trans h'.toFrame, h'.assets.trans h.assets, h'.sudoKeys.trans h.sudoKeys⟩

end State.CoinsOnly

theorem checkedAdd_zero (amount : Balance) : checkedAdd 0#128 amount = some amount := by
  have hlt := amount.isLt
  simp [checkedAdd, hlt]

namespace Balances

theorem setFreeBalance_coinsOnly (who : AccountId) (balance : Balance) (st : State σ) :
    State.CoinsOnly st (setFreeBalance who balance st) := by
  simp only [setFreeBalance, onFreeTooLow]
  split_ifs <;> exact ⟨⟨rfl, rfl⟩, rfl, rfl⟩

theorem setReservedBalance_coinsOnly (who : AccountId) (balance : Balance) (st : State σ) :
    State.CoinsOnly st (setReservedBalance who balance st) := by
  simp only [setReservedBalance, onReservedTooLow]
  split_ifs <;> exact ⟨⟨rfl, rfl⟩, rfl, rfl⟩

theorem ensureAccount_coinsOnly (who : AccountId) (exist : Bool) (st : State σ) :
    State.CoinsOnly st (if exist then st else newAccount env who st) := by
  split_ifs <;> exact ⟨⟨rfl, rfl⟩, rfl, rfl⟩

theorem ensureAccount_sameAccounts (who : AccountId) (exist : Bool) (st : State σ) :
    State.SameAccounts st (if exist then st else newAccount env who st) := by
  split_ifs <;> exact ⟨rfl, rfl⟩

theorem payTransferFee_coinsOnly (fee : Balance) (st : State σ) :
    State.CoinsOnly st (payTransferFee fee st) := ⟨⟨rfl, rfl⟩, rfl, rfl⟩

theorem transferLocal_coinsOnly (transactor dest : AccountId)
    (newFromBalance newToBalance fee : Balance) (st : State σ) :
    State.CoinsOnly st (transferLocal env transactor dest newFromBalance newToBalance fee st) :=
  (setFreeBalance_coinsOnly transactor newFromBalance st).trans
    ((ensureAccount_coinsOnly env dest _ _).trans
      ((setFreeBalance_coinsOnly dest newToBalance _).trans (payTransferFee_coinsOnly fee _)))

theorem makePayment_preserves {α : Type} (view : State σ → α)
    (hfree : ∀ who balance st, view (setFreeBalance who balance st) = view st)
    (hfee : ∀ fee st, view (onFeeWithdrawn fee (dropNegative fee st)) = view st)
    (transactor : AccountId) (encodedLen : Nat) (st : State σ) :
    view (makePayment transactor encodedLen st).1 = view st := by
  have hwithdraw : ∀ fee, view (withdraw transactor fee .transactionPayment st).1 = view st := by
    intro fee
    unfold withdraw
    split
    · rfl
    · split_ifs
      · rfl
      · split
        · rfl
        · exact hfree _ _ _
  simp only [makePayment]
  split
  · next h =>
      have hview := congrArg (view ∘ Prod.fst) h
      exact hview.symm.trans (hwithdraw _)
  · next h =>
      have hview := congrArg (view ∘ Prod.fst) h
      exact (hfee _ _).trans (hview.symm.trans (hwithdraw _))

theorem makePayment_coinsOnly (transactor : AccountId) (encodedLen : Nat) (st : State σ) :
    State.CoinsOnly st (makePayment transactor encodedLen st).1 where
  relayExtrinsic := makePayment_preserves (fun st => st.system.relayExtrinsic)
    (fun who balance st => (setFreeBalance_coinsOnly who balance st).relayExtrinsic)
    (fun _ _ => rfl) transactor encodedLen st
  sharding := makePayment_preserves (fun st => st.sharding)
    (fun who balance st => (setFreeBalance_coinsOnly who balance st).sharding)
    (fun _ _ => rfl) transactor encodedLen st
  assets := makePayment_preserves (fun st => st.assets)
    (fun who balance st => (setFreeBalance_coinsOnly who balance st).assets)
    (fun _ _ => rfl) transactor encodedLen st
  sudoKeys := makePayment_preserves (fun st => st.sudoKeys)
    (fun who balance st => (setFreeBalance_coinsOnly who balance st).sudoKeys)
    (fun _ _ => rfl) transactor encodedLen st

theorem makePayment_substrate (transactor : AccountId) (encodedLen : Nat) (st : State σ) :
    (makePayment transactor encodedLen st).1.substrate = st.substrate :=
  makePayment_preserves (fun st => st.substrate)
    (fun who balance st => by simp only [setFreeBalance, onFreeTooLow]; split_ifs <;> rfl)
    (fun _ _ => rfl) transactor encodedLen st

theorem depositCreating_coinsOnly (who : AccountId) (value : Balance) (st : State σ) :
    State.CoinsOnly st (depositCreating env who value st) := by
  have hkilled := fun balance => setFreeBalance_coinsOnly who balance st
  have hupdated := fun balance =>
    (ensureAccount_coinsOnly env who (st.balances.freeBalance who).isSome st).trans
      (setFreeBalance_coinsOnly who balance _)
  have hissuance : ∀ (st : State σ) f, State.CoinsOnly st (update st f) :=
    fun _ _ => ⟨⟨rfl, rfl⟩, rfl, rfl⟩
  unfold depositCreating dropPositive dropNegative
  dsimp only
  split
  · exact .refl st
  · split <;> split <;>
      first
        | exact (hkilled _).trans (hissuance _ _)
        | exact (hupdated _).trans (hissuance _ _)

end Balances

namespace Sharding

theorem getCurrShard_eq_ok (st : State σ) (num : Option UInt16) :
    getCurrShard st = .ok num ↔
      ∃ info, st.sharding.currentShardInfo = some info ∧ num = some info.num := by
  simp only [getCurrShard, Run.bind_eq_ok, Run.expect_eq_ok, Run.pure_eq_ok]

theorem getShardCount_eq_ok (st : State σ) (count : UInt16) :
    getShardCount st = .ok count ↔
      ∃ info, st.sharding.currentShardInfo = some info ∧ count = info.count := by
  simp only [getShardCount, Run.bind_eq_ok, Run.expect_eq_ok, Run.pure_eq_ok]

theorem destination_eq_ok {α : Type} (st : State σ) (dest : AccountId)
    (next : UInt16 → UInt16 → Run α) (result : α) :
    (do
      let cn ← Run.expect (← getCurrShard st) "can't get current shard num"
      let c ← getShardCount st
      let dn ← Run.expect (shardNumFor dest c) "can't get target shard num"
      next cn dn) = .ok result ↔
    ∃ info dn, st.sharding.currentShardInfo = some info ∧ shardNumFor dest info.count = some dn ∧
      next info.num dn = .ok result := by
  simp only [Run.bind_eq_ok, Run.expect_eq_ok, getCurrShard_eq_ok, getShardCount_eq_ok]
  constructor
  · intro hcase
    obtain ⟨_, ⟨info, hinfo, rfl⟩, cn, hnum, _, ⟨info', hinfo', rfl⟩, dn, hdn, h⟩ := hcase
    obtain rfl : info = info' := Option.some.inj (hinfo.symm.trans hinfo')
    obtain rfl := Option.some.inj hnum
    exact ⟨info, dn, hinfo, hdn, h⟩
  · intro hcase
    obtain ⟨info, dn, hinfo, hdn, h⟩ := hcase
    exact ⟨_, ⟨info, hinfo, rfl⟩, info.num, rfl, _, ⟨info, hinfo, rfl⟩, dn, hdn, h⟩

end Sharding

namespace Balances

variable {value : Balance} {st : State σ} {outcome : Outcome σ}

-- Everything a coin transfer can do, with the checks that lead there.
theorem transferFunds_cases {transactor dest : AccountId}
    (h : transferFunds env transactor dest value st = .ok outcome) :
    (∃ error, outcome = .fail st error) ∨
    ∃ liability newFromBalance info dn,
      checkedAdd value st.balances.transferFee = some liability ∧
      checkedSub (freeBalance st transactor) liability = some newFromBalance ∧
      ensureCanWithdraw st transactor .transfer newFromBalance = .ok () ∧
      st.sharding.currentShardInfo = some info ∧
      Sharding.shardNumFor dest info.count = some dn ∧
      ((info.num ≠ dn ∧ outcome =
          ⟨payTransferFee st.balances.transferFee (setFreeBalance transactor newFromBalance st),
            .ok (), [.outbound ⟨.coin, dest, value⟩]⟩) ∨
        (info.num = dn ∧ ∃ newToBalance, checkedAdd (freeBalance st dest) value = some newToBalance ∧
          ((transactor ≠ dest ∧ outcome = .done (transferLocal env transactor dest newFromBalance
              newToBalance st.balances.transferFee st)) ∨
            (transactor = dest ∧ outcome = .done st)))) := by
  simp only [transferFunds] at h
  cases hadd : checkedAdd value st.balances.transferFee with
  | none =>
    simp only [hadd, Except.ok.injEq] at h
    exact .inl ⟨_, h.symm⟩
  | some liability =>
    cases hsub : checkedSub (freeBalance st transactor) liability with
    | none =>
      simp only [hadd, hsub, Except.ok.injEq] at h
      exact .inl ⟨_, h.symm⟩
    | some newFromBalance =>
      cases hcan : ensureCanWithdraw st transactor .transfer newFromBalance with
      | error error =>
        simp only [hadd, hsub, hcan, Except.ok.injEq] at h
        exact .inl ⟨error, h.symm⟩
      | ok =>
        simp only [hadd, hsub, hcan] at h
        obtain ⟨info, dn, hinfo, hdn, h⟩ := (Sharding.destination_eq_ok st dest _ outcome).mp h
        by_cases hshard : info.num = dn
        · rw [if_neg (not_not.mpr hshard)] at h
          cases hto : checkedAdd (freeBalance st dest) value with
          | none =>
            simp only [hto, Run.pure_eq_ok] at h
            exact .inl ⟨_, h⟩
          | some newToBalance =>
            refine .inr ⟨liability, newFromBalance, info, dn, rfl, hsub, hcan, hinfo, hdn,
              .inr ⟨hshard, newToBalance, rfl, ?_⟩⟩
            simp only [hto] at h
            split_ifs at h with hne
            · exact .inl ⟨hne, (Run.pure_eq_ok _ _).mp h⟩
            · exact .inr ⟨not_not.mp hne, (Run.pure_eq_ok _ _).mp h⟩
        · rw [if_pos hshard] at h
          exact .inr ⟨liability, newFromBalance, info, dn, rfl, hsub, hcan, hinfo, hdn,
            .inl ⟨hshard, (Run.pure_eq_ok _ _).mp h⟩⟩

theorem transfer_cases {origin : Origin} {dest : Address}
    (h : transfer env origin dest value st = .ok outcome) :
    (∃ error, outcome = .fail st error) ∨
    ∃ transactor account, origin = .signed transactor ∧ st.lookup env dest = .ok account ∧
      transferFunds env transactor account value st = .ok outcome := by
  cases origin with
  | root => exact .inl ⟨_, (Except.ok.inj h).symm⟩
  | inherent => exact .inl ⟨_, (Except.ok.inj h).symm⟩
  | signed transactor =>
    simp only [transfer] at h
    split at h
    · next account hlook => exact .inr ⟨transactor, account, rfl, hlook, h⟩
    · exact .inl ⟨_, (Except.ok.inj h).symm⟩

theorem transfer_coinsOnly {origin : Origin} {dest : Address}
    (h : transfer env origin dest value st = .ok outcome) :
    State.CoinsOnly st outcome.state := by
  rcases transfer_cases env h with ⟨_, rfl⟩ | ⟨_, _, _, _, h⟩
  · exact .refl st
  · rcases transferFunds_cases env h with ⟨_, rfl⟩ |
      ⟨_, _, _, _, _, _, _, _, _, ⟨_, rfl⟩ | ⟨_, _, _, ⟨_, rfl⟩ | ⟨_, rfl⟩⟩⟩
    · exact .refl st
    · exact (setFreeBalance_coinsOnly _ _ st).trans (payTransferFee_coinsOnly _ _)
    · exact transferLocal_coinsOnly env _ _ _ _ _ st
    · exact .refl st

theorem setBalance_coinsOnly (who : Address) (free reserved : Balance) (st : State σ) :
    State.CoinsOnly st (setBalance env .root who free reserved st).state := by
  simp only [setBalance]
  split
  · exact (setFreeBalance_coinsOnly _ _ st).trans (setReservedBalance_coinsOnly _ _ _)
  · exact .refl st

theorem freeBalance_ensureAccount (who : AccountId) (exist : Bool) (st : State σ) :
    freeBalance (if exist then st else newAccount env who st) = freeBalance st := by
  split_ifs <;> rfl

theorem relayTransfer_eq_ok {tx : Scale.Bytes} {origin : OriginExtrinsic} {toBalance : Balance}
    (hdecode : OriginExtrinsic.decode .balance tx = some origin)
    (hadd : checkedAdd (freeBalance st origin.dest) origin.amount = some toBalance) :
    relayTransfer env tx st = .ok ⟨setFreeBalance origin.dest toBalance
        (if (st.balances.freeBalance origin.dest).isSome then st else newAccount env origin.dest st),
      .ok (), [.inbound tx ⟨.coin, origin.dest, origin.amount⟩]⟩ := by
  simp only [relayTransfer, hdecode, Run.expect, freeBalance_ensureAccount]
  simp only [bind, Except.bind, hadd]
  rfl

theorem relayTransfer_cases {tx : Scale.Bytes} (h : relayTransfer env tx st = .ok outcome) :
    ∃ origin announced, OriginExtrinsic.decode .balance tx = some origin ∧
      State.CoinsOnly st announced ∧ State.SameAccounts st announced ∧
      ((checkedAdd (freeBalance st origin.dest) origin.amount = none ∧ outcome = .fail announced
          "destination balance too high to receive value") ∨
        ∃ toBalance, checkedAdd (freeBalance st origin.dest) origin.amount = some toBalance ∧
          outcome = ⟨setFreeBalance origin.dest toBalance announced, .ok (),
            [.inbound tx ⟨.coin, origin.dest, origin.amount⟩]⟩) := by
  simp only [relayTransfer, Run.bind_eq_ok, Run.expect_eq_ok] at h
  obtain ⟨origin, hdecode, h⟩ := h
  generalize hannounced : (if (st.balances.freeBalance origin.dest).isSome then st
    else newAccount env origin.dest st) = announced at h
  have hcoins : State.CoinsOnly st announced := hannounced ▸ ensureAccount_coinsOnly env _ _ st
  have hsame : State.SameAccounts st announced := hannounced ▸ ensureAccount_sameAccounts env _ _ st
  have hfree : freeBalance announced = freeBalance st :=
    hannounced ▸ freeBalance_ensureAccount env _ _ st
  refine ⟨origin, announced, hdecode, hcoins, hsame, ?_⟩
  rw [hfree] at h
  split at h
  · next hadd => exact .inl ⟨hadd, (Except.ok.inj h).symm⟩
  · next toBalance hadd => exact .inr ⟨toBalance, hadd, (Except.ok.inj h).symm⟩

end Balances

namespace Assets

variable {id : UInt32} {st : State σ} {outcome : Outcome σ}

theorem setBalance_frame (key : AssetKey) (balance : Balance) (st : State σ) :
    State.Frame st (setBalance key balance st) := ⟨rfl, rfl⟩

-- A transfer that gets as far as its first write.
structure Debits (st : State σ) (origin : Origin) (shardCode : ByteVec) (id : UInt32)
    (amount : Balance) (sender : AccountId) : Prop where
  signed : origin = .signed sender
  nonzero : amount ≠ 0
  covered : amount ≤ st.assets.balances (shardCode.bytes, id, sender)

def debit (shardCode : ByteVec) (id : UInt32) (amount : Balance) (sender : AccountId)
    (st : State σ) : State σ :=
  setBalance (shardCode.bytes, id, sender)
    (st.assets.balances (shardCode.bytes, id, sender) - amount) st

-- Everything a transfer can do.
inductive Transfers (st : State σ) (origin : Origin) (shardCode : ByteVec) (id : UInt32)
    (target : Address) (amount : Balance) : Outcome σ → Prop where
  | refused (error : String) (stops : ∀ sender, ¬ Debits st origin shardCode id amount sender) :
      Transfers st origin shardCode id target amount (.fail st error)
  | lost {error : String} {sender : AccountId}
      (debits : Debits st origin shardCode id amount sender)
      (lookup : st.lookup env target = .error error) :
      Transfers st origin shardCode id target amount
        (.fail (debit shardCode id amount sender st) error)
  | stays {sender account : AccountId} {info : ShardInfo}
      (debits : Debits st origin shardCode id amount sender)
      (lookup : st.lookup env target = .ok account)
      (known : st.sharding.currentShardInfo = some info)
      (shard : Sharding.shardNumFor account info.count = some info.num) :
      Transfers st origin shardCode id target amount
        (.done (setBalance (shardCode.bytes, id, account)
          ((debit shardCode id amount sender st).assets.balances (shardCode.bytes, id, account) +
            amount) (debit shardCode id amount sender st)))
  | leaves {sender account : AccountId} {info : ShardInfo} {dn : UInt16}
      (debits : Debits st origin shardCode id amount sender)
      (lookup : st.lookup env target = .ok account)
      (known : st.sharding.currentShardInfo = some info)
      (shard : Sharding.shardNumFor account info.count = some dn) (other : info.num ≠ dn) :
      Transfers st origin shardCode id target amount
        ⟨debit shardCode id amount sender st, .ok (),
          [.outbound ⟨.asset shardCode.bytes id, account, amount⟩]⟩

theorem transfers_of_transfer {origin : Origin} {shardCode : ByteVec} {target : Address}
    {amount : Balance} (h : transfer env origin shardCode id target amount st = .ok outcome) :
    Transfers env st origin shardCode id target amount outcome := by
  cases origin with
  | root => exact (Except.ok.inj h) ▸ .refused _ fun _ debits => by cases debits.signed
  | inherent => exact (Except.ok.inj h) ▸ .refused _ fun _ debits => by cases debits.signed
  | signed sender =>
    simp only [transfer] at h
    split_ifs at h with hzero hlow
    · exact (Except.ok.inj h) ▸ .refused _ fun _ debits => debits.nonzero hzero
    · refine (Except.ok.inj h) ▸ .refused _ fun other debits => ?_
      obtain rfl := Origin.signed.inj debits.signed
      exact BitVec.not_lt.mpr debits.covered hlow
    · have hdebits : Debits st (.signed sender) shardCode id amount sender :=
        ⟨rfl, hzero, BitVec.not_lt.mp hlow⟩
      split at h
      · next error hlook => exact (Except.ok.inj h) ▸ .lost hdebits hlook
      · next account hlook =>
        obtain ⟨info, dn, hinfo, hdn, h⟩ := (Sharding.destination_eq_ok _ account _ outcome).mp h
        split_ifs at h with hshard
        · subst hshard
          exact (Except.ok.inj h) ▸ .stays hdebits hlook hinfo hdn
        · exact (Except.ok.inj h) ▸ .leaves hdebits hlook hinfo hdn hshard

theorem transfer_cases {origin : Origin} {shardCode : ByteVec} {target : Address} {amount : Balance}
    (h : transfer env origin shardCode id target amount st = .ok outcome) :
    (∃ st' error, State.Frame st st' ∧ outcome = .fail st' error) ∨
    ∃ sender account info dn, origin = .signed sender ∧ amount ≠ 0 ∧
      amount ≤ st.assets.balances (shardCode.bytes, id, sender) ∧
      st.lookup env target = .ok account ∧ st.sharding.currentShardInfo = some info ∧
      Sharding.shardNumFor account info.count = some dn ∧
      ((info.num = dn ∧ ∃ st', State.Frame st st' ∧ outcome = .done st') ∨
        (info.num ≠ dn ∧ outcome =
          ⟨setBalance (shardCode.bytes, id, sender)
              (st.assets.balances (shardCode.bytes, id, sender) - amount) st, .ok (),
            [.outbound ⟨.asset shardCode.bytes id, account, amount⟩]⟩)) := by
  cases transfers_of_transfer env h with
  | refused error _ => exact .inl ⟨st, error, .refl st, rfl⟩
  | lost _ _ => exact .inl ⟨_, _, setBalance_frame _ _ st, rfl⟩
  | stays debits lookup known shard =>
    exact .inr ⟨_, _, _, _, debits.signed, debits.nonzero, debits.covered, lookup, known, shard,
      .inl ⟨rfl, _, (setBalance_frame _ _ st).trans (setBalance_frame _ _ _), rfl⟩⟩
  | leaves debits lookup known shard other =>
    exact .inr ⟨_, _, _, _, debits.signed, debits.nonzero, debits.covered, lookup, known, shard,
      .inr ⟨other, rfl⟩⟩

theorem relayTransfer_eq_ok {tx : Scale.Bytes} (st : State σ) {origin : OriginExtrinsic}
    (hdecode : OriginExtrinsic.decode .assets tx = some origin) (hid : origin.id = some id) :
    relayTransfer tx st = .ok ⟨setBalance (origin.shard, id, origin.dest)
        (st.assets.balances (origin.shard, id, origin.dest) + origin.amount) st,
      .ok (), [.inbound tx ⟨.asset origin.shard id, origin.dest, origin.amount⟩]⟩ := by
  simp only [relayTransfer, hdecode, hid, Run.expect]
  rfl

theorem relayTransfer_cases {tx : Scale.Bytes} (h : relayTransfer tx st = .ok outcome) :
    (OriginExtrinsic.decode .assets tx = none ∧ outcome = .fail st "transfer is invalid.") ∨
    ∃ origin id, OriginExtrinsic.decode .assets tx = some origin ∧ origin.id = some id ∧
      outcome = ⟨setBalance (origin.shard, id, origin.dest)
          (st.assets.balances (origin.shard, id, origin.dest) + origin.amount) st, .ok (),
        [.inbound tx ⟨.asset origin.shard id, origin.dest, origin.amount⟩]⟩ := by
  unfold relayTransfer at h
  split at h
  · next origin hdecode =>
    simp only [Run.bind_eq_ok, Run.expect_eq_ok] at h
    obtain ⟨id, hid, h⟩ := h
    exact .inr ⟨origin, id, hdecode, hid, (Except.ok.inj h).symm⟩
  · next hdecode => exact .inl ⟨hdecode, (Except.ok.inj h).symm⟩

end Assets

end Yeeroot
