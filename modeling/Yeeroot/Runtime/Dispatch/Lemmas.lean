import Yeeroot.Runtime.Lemmas

namespace Yeeroot

open Scale

variable {σ : Type} (env : Substrate σ)
variable {origin : Origin} {outcome : Outcome σ} {call : Call}

def OriginExtrinsic.transfer (origin : OriginExtrinsic) : Transfer where
  currency := match origin.id with
    | some id => .asset origin.shard id
    | none => .coin
  dest := origin.dest
  amount := origin.amount

theorem OriginExtrinsic.id_of_decode {relayType : RelayTypes} {input : Bytes}
    {origin : OriginExtrinsic} (h : OriginExtrinsic.decode relayType input = some origin) :
    origin.id.isSome = decide (relayType = .assets) := by
  simp only [OriginExtrinsic.decode] at h
  split_ifs at h
  simp only [Option.bind_eq_bind, Option.bind_eq_some_iff, Prod.exists] at h
  obtain ⟨_, _, _, _, _, _, h⟩ := h
  split_ifs at h
  simp only [Option.bind_eq_some_iff, Prod.exists, decodeOriginCall] at h
  obtain ⟨_, _, _, h⟩ := h
  split_ifs at h
  simp only [Option.bind_eq_bind, Option.bind_eq_some_iff, Prod.exists, Option.pure_def,
    Option.some.injEq] at h
  obtain ⟨_, _, _, _, _, _, _, _, _, hasset, _, _, _, _, _, _, _, _, _, rfl⟩ := h
  cases relayType with
  | balance =>
    simp only [decodeOriginAsset, Option.some.injEq, Prod.mk.injEq] at hasset
    simp [← hasset.1.2]
  | assets =>
    simp only [decodeOriginAsset, Option.bind_eq_bind, Option.bind_eq_some_iff, Prod.exists,
      Option.pure_def, Option.some.injEq, Prod.mk.injEq] at hasset
    obtain ⟨_, _, _, _, _, _, ⟨_, hid⟩, _⟩ := hasset
    simp [← hid]

namespace Relay

-- A relay either credits what its origin decodes to, or fails and moves nothing.
theorem transfer_cases {relay : RelayCall} {st : State σ} {outcome : Outcome σ}
    (h : transfer env relay st = .ok outcome) :
    State.Frame st outcome.state ∧
      ((∃ error, outcome.result = .error error ∧ outcome.movements = []) ∨
        ∃ origin, OriginExtrinsic.decode relay.relayType relay.tx.bytes = some origin ∧
          outcome.result = .ok () ∧
          outcome.movements = [.inbound relay.tx.bytes origin.transfer]) := by
  unfold transfer at h
  cases htype : relay.relayType with
  | balance =>
    rw [htype] at h
    obtain ⟨origin, announced, hdecode, hcoins, _, h⟩ := Balances.relayTransfer_cases env h
    have hid := OriginExtrinsic.id_of_decode hdecode
    rcases h with ⟨_, rfl⟩ | ⟨toBalance, _, rfl⟩
    · exact ⟨hcoins.toFrame, .inl ⟨_, rfl, rfl⟩⟩
    · refine ⟨(hcoins.trans (Balances.setFreeBalance_coinsOnly _ _ _)).toFrame,
        .inr ⟨origin, hdecode, rfl, ?_⟩⟩
      have hnone : origin.id = none := by simpa using hid
      simp [OriginExtrinsic.transfer, hnone]
  | assets =>
    rw [htype] at h
    rcases Assets.relayTransfer_cases h with ⟨_, rfl⟩ | ⟨origin, id, hdecode, hid, rfl⟩
    · exact ⟨.refl st, .inl ⟨_, rfl, rfl⟩⟩
    · exact ⟨Assets.setBalance_frame _ _ st, .inr ⟨origin, hdecode, rfl, by
        simp [OriginExtrinsic.transfer, hid]⟩⟩

theorem transfer_credits {relay : RelayCall} (st : State σ) {origin : OriginExtrinsic}
    (hdecode : OriginExtrinsic.decode relay.relayType relay.tx.bytes = some origin)
    (hroom : relay.relayType = .balance →
      checkedAdd (Balances.freeBalance st origin.dest) origin.amount ≠ none) :
    ∃ outcome, transfer env relay st = .ok outcome ∧ outcome.result = .ok () ∧
      outcome.movements = [.inbound relay.tx.bytes origin.transfer] := by
  have hid := OriginExtrinsic.id_of_decode hdecode
  unfold transfer
  cases htype : relay.relayType with
  | balance =>
    rw [htype] at hdecode hid
    have hnone : origin.id = none := by simpa using hid
    obtain ⟨toBalance, hadd⟩ := Option.ne_none_iff_exists'.mp (hroom htype)
    exact ⟨_, Balances.relayTransfer_eq_ok env hdecode hadd, rfl, by
      simp [OriginExtrinsic.transfer, hnone]⟩
  | assets =>
    rw [htype] at hdecode hid
    obtain ⟨id, hsome⟩ := Option.isSome_iff_exists.mp (by simpa using hid)
    exact ⟨_, Assets.relayTransfer_eq_ok st hdecode hsome, rfl, by
      simp [OriginExtrinsic.transfer, hsome]⟩

end Relay

-- A root call of a Substrate module may write to any storage key.
def Call.rawWrite : Call → Origin → Bool
  | .substrate _ _, .root => true
  | .sudoSudo proposal, .signed _ => proposal.rawWrite .root
  | _, _ => false

def Call.relay? : Call → Option RelayCall
  | .relayTransfer relay => some relay
  | .sudoSudo proposal => proposal.relay?
  | _ => none

def Call.setBalance? : Call → Option (Address × Balance × Balance)
  | .balancesSetBalance who free reserved => some (who, free, reserved)
  | .sudoSudo proposal => proposal.setBalance?
  | _ => none

-- Root, or an account that may act for it.
def Origin.Privileged (st : State σ) : Origin → Prop
  | .root => True
  | .signed sender => sender ∈ st.sudoKeys
  | .inherent => False

-- Two states that agree on the accounts, the assets, the relay flags and the storage of the
-- sharding and proof-of-work modules.
structure State.SameCore (st st' : State σ) : Prop where
  balances : st'.balances = st.balances
  accountNonce : st'.system.accountNonce = st.system.accountNonce
  assets : st'.assets = st.assets
  relayExtrinsic : st'.system.relayExtrinsic = st.system.relayExtrinsic
  sharding : st'.sharding = st.sharding
  pow : st'.pow = st.pow

namespace State.SameCore

variable {st st' st'' : State σ}

theorem refl (st : State σ) : State.SameCore st st := ⟨rfl, rfl, rfl, rfl, rfl, rfl⟩

theorem trans (h : State.SameCore st st') (h' : State.SameCore st' st'') : State.SameCore st st'' :=
  ⟨h'.balances.trans h.balances, h'.accountNonce.trans h.accountNonce, h'.assets.trans h.assets,
    h'.relayExtrinsic.trans h.relayExtrinsic, h'.sharding.trans h.sharding, h'.pow.trans h.pow⟩

theorem frame (h : State.SameCore st st') : State.Frame st st' := ⟨h.relayExtrinsic, h.sharding⟩

theorem sameAccounts (h : State.SameCore st st') : State.SameAccounts st st' :=
  ⟨h.balances, h.accountNonce⟩

end State.SameCore

-- Everything a call can do, by the function that does it.
inductive Dispatched (st : State σ) : Call → Origin → Outcome σ → Prop where
  | minor {call : Call} {origin : Origin} {outcome : Outcome σ}
      (same : State.SameCore st outcome.state) (still : outcome.movements = []) :
      Dispatched st call origin outcome
  | raw {call : Call} {origin : Origin} {outcome : Outcome σ}
      (root : call.rawWrite origin = true) (still : outcome.movements = []) :
      Dispatched st call origin outcome
  | transfer {dest : Address} {value : Balance} {sender : AccountId} {outcome : Outcome σ}
      (done : Balances.transfer env (.signed sender) dest value st = .ok outcome) :
      Dispatched st (.balancesTransfer dest value) (.signed sender) outcome
  | assetsTransfer {shardCode : ByteVec} {id : UInt32} {target : Address} {amount : Balance}
      {sender : AccountId} {outcome : Outcome σ}
      (done : Assets.transfer env (.signed sender) shardCode id target amount st = .ok outcome) :
      Dispatched st (.assetsTransfer shardCode id target amount) (.signed sender) outcome
  | issue {name : ByteVec} {total : Balance} {decimals : UInt16} {sender : AccountId} :
      Dispatched st (.assetsIssue name total decimals) (.signed sender)
        (Assets.issue (.signed sender) name total decimals st)
  | relay {call : Call} {origin : Origin} {relay : RelayCall} (inner : Outcome σ)
      (result : Except String Unit) (relayed : call.relay? = some relay)
      (direct : origin = .inherent → call = .relayTransfer relay)
      (done : Relay.transfer env relay st = .ok inner) :
      Dispatched st call origin { inner with result := result }
  | setBalance {call : Call} {origin : Origin} {who : Address} {free reserved : Balance}
      (result : Except String Unit) (privileged : origin.Privileged st)
      (asked : call.setBalance? = some (who, free, reserved)) :
      Dispatched st call origin
        { Balances.setBalance env .root who free reserved st with result := result }
  | powInfo {info : PowInfo} :
      Dispatched st (.powSetPowInfo info) .inherent (Pow.setPowInfo .inherent info st)
  | shardInfo {info : ShardInfo} :
      Dispatched st (.shardingSetShardInfo info) .inherent
        (Sharding.setShardInfo .inherent info st)

theorem Dispatched.fail (st : State σ) (call : Call) (origin : Origin) (error : String) :
    Dispatched env st call origin (.fail st error) := .minor (.refl st) rfl

theorem dispatchSubstrate_dispatched {owner : SubstrateModule} {args : Bytes} {st : State σ}
    (h : dispatchSubstrate env owner args origin st = .ok outcome) :
    Dispatched env st (.substrate owner args) origin outcome := by
  cases origin with
  | root =>
    simp only [dispatchSubstrate, Run.bind_eq_ok, Run.pure_eq_ok] at h
    obtain ⟨_, _, rfl⟩ := h
    exact .raw rfl rfl
  | signed sender =>
    simp only [dispatchSubstrate, Run.bind_eq_ok, Run.pure_eq_ok] at h
    obtain ⟨_, _, rfl⟩ := h
    exact .minor ⟨rfl, rfl, rfl, rfl, rfl, rfl⟩ rfl
  | inherent =>
    simp only [dispatchSubstrate, Run.bind_eq_ok, Run.pure_eq_ok] at h
    obtain ⟨_, _, rfl⟩ := h
    exact .minor ⟨rfl, rfl, rfl, rfl, rfl, rfl⟩ rfl

theorem Dispatched.sudo {st : State σ} {proposal : Call}
    (h : Dispatched env st proposal .root outcome) {sender : AccountId}
    (hkey : sender ∈ st.sudoKeys) (result : Except String Unit) :
    Dispatched env st (.sudoSudo proposal) (.signed sender) { outcome with result := result } := by
  cases h with
  | minor same still => exact .minor same still
  | raw root still => exact .raw root still
  | relay inner _ relayed _ done =>
    exact .relay inner result relayed (fun horigin => by cases horigin) done
  | setBalance _ _ asked => exact .setBalance result hkey asked

theorem dispatch_cases {st : State σ} (h : dispatch env call origin st = .ok outcome) :
    Dispatched env st call origin outcome := by
  induction call generalizing origin st outcome with
  | substrate owner args => exact dispatchSubstrate_dispatched env h
  | relayTransfer relay => exact .relay outcome outcome.result rfl (fun _ => rfl) h
  | balancesTransfer dest value =>
    cases origin with
    | signed sender => exact .transfer h
    | root => exact (Except.ok.inj h) ▸ .fail env st _ _ _
    | inherent => exact (Except.ok.inj h) ▸ .fail env st _ _ _
  | assetsTransfer shardCode id target amount =>
    cases origin with
    | signed sender => exact .assetsTransfer h
    | root => exact (Except.ok.inj h) ▸ .fail env st _ _ _
    | inherent => exact (Except.ok.inj h) ▸ .fail env st _ _ _
  | assetsIssue name total decimals =>
    obtain rfl := Except.ok.inj h
    cases origin with
    | signed sender => exact .issue
    | root => exact .fail env st _ _ _
    | inherent => exact .fail env st _ _ _
  | balancesSetBalance who free reserved =>
    obtain rfl := Except.ok.inj h
    cases origin with
    | root => exact .setBalance _ trivial rfl
    | signed _ => exact .fail env st _ _ _
    | inherent => exact .fail env st _ _ _
  | sudoSudo proposal ih =>
    cases origin with
    | root => exact (Except.ok.inj h) ▸ .fail env st _ _ _
    | inherent => exact (Except.ok.inj h) ▸ .fail env st _ _ _
    | signed sender =>
      simp only [dispatch] at h
      split_ifs at h with hkey
      · simp only [Run.bind_eq_ok, Run.pure_eq_ok] at h
        obtain ⟨inner, hinner, rfl⟩ := h
        exact (ih hinner).sudo env hkey _
      · exact (Except.ok.inj h) ▸ .fail env st _ _ _
  | sudoSetKeys new =>
    obtain rfl := Except.ok.inj h
    cases origin with
    | signed _ =>
      simp only [Sudo.setKeys]
      split_ifs
      · split
        · exact .minor ⟨rfl, rfl, rfl, rfl, rfl, rfl⟩ rfl
        · exact .fail env st _ _ _
      · exact .fail env st _ _ _
    | root => exact .fail env st _ _ _
    | inherent => exact .fail env st _ _ _
  | storageStore data =>
    obtain rfl := Except.ok.inj h
    cases origin with
    | signed _ =>
      simp only [Storage.store]
      split_ifs
      · exact .fail env st _ _ _
      · exact .minor (.refl st) rfl
    | root => exact .fail env st _ _ _
    | inherent => exact .fail env st _ _ _
  | powSetPowInfo info =>
    obtain rfl := Except.ok.inj h
    cases origin with
    | inherent => exact .powInfo
    | root => exact .fail env st _ _ _
    | signed _ => exact .fail env st _ _ _
  | shardingSetShardInfo info =>
    obtain rfl := Except.ok.inj h
    cases origin with
    | inherent => exact .shardInfo
    | root => exact .fail env st _ _ _
    | signed _ => exact .fail env st _ _ _
  | crfgUpdateAuthorities info =>
    obtain rfl := Except.ok.inj h
    cases origin <;> exact .minor ⟨rfl, rfl, rfl, rfl, rfl, rfl⟩ rfl
  | crfgForceUpdateAuthorities authorities median =>
    obtain rfl := Except.ok.inj h
    cases origin <;> exact .minor ⟨rfl, rfl, rfl, rfl, rfl, rfl⟩ rfl
  | trackerWriteFinalizedLog hint =>
    obtain rfl := Except.ok.inj h
    cases origin <;> exact .minor ⟨rfl, rfl, rfl, rfl, rfl, rfl⟩ rfl

-- A call that is neither a raw write nor the shard inherent keeps the relay flags
-- and the sharding storage.
theorem dispatch_frame {st : State σ} (h : dispatch env call origin st = .ok outcome)
    (hraw : call.rawWrite origin = false) :
    State.Frame st outcome.state ∨
      ∃ info, origin = .inherent ∧ call = .shardingSetShardInfo info ∧
        outcome = Sharding.setShardInfo .inherent info st := by
  cases dispatch_cases env h with
  | minor same _ => exact .inl same.frame
  | raw root _ => cases root.symm.trans hraw
  | transfer done => exact .inl (Balances.transfer_coinsOnly env done).toFrame
  | assetsTransfer done =>
    refine .inl ?_
    rcases Assets.transfer_cases env done with ⟨_, _, hframe, rfl⟩ |
      ⟨_, _, _, _, _, _, _, _, _, _, ⟨_, _, hframe, rfl⟩ | ⟨_, rfl⟩⟩
    · exact hframe
    · exact hframe
    · exact Assets.setBalance_frame _ _ st
  | issue =>
    refine .inl ?_
    simp only [Assets.issue]
    split_ifs
    · exact .refl st
    · exact ⟨rfl, rfl⟩
  | relay _ _ _ _ done => exact .inl (Relay.transfer_cases env done).1
  | setBalance => exact .inl (Balances.setBalance_coinsOnly env _ _ _ st).toFrame
  | powInfo => exact .inl ⟨rfl, rfl⟩
  | shardInfo => exact .inr ⟨_, rfl, rfl, rfl⟩

-- The transfer a call asks for, once its destination is looked up.
def Call.Sends (st : State σ) : Call → Transfer → Prop
  | .balancesTransfer dest value, transfer =>
    transfer.currency = .coin ∧ st.lookup env dest = .ok transfer.dest ∧ transfer.amount = value
  | .assetsTransfer shardCode id target amount, transfer =>
    transfer.currency = .asset shardCode.bytes id ∧
      st.lookup env target = .ok transfer.dest ∧ transfer.amount = amount
  | _, _ => False

def Transfer.LeavesShard (st : State σ) (transfer : Transfer) : Prop :=
  ∃ info dn, st.sharding.currentShardInfo = some info ∧
    Sharding.shardNumFor transfer.dest info.count = some dn ∧ info.num ≠ dn

-- Value moves between shards in two ways only: a signed transfer debits it, and a
-- relay credits it.
theorem dispatch_movements {st : State σ} (h : dispatch env call origin st = .ok outcome) :
    outcome.movements = [] ∨
    (∃ sender transfer, origin = .signed sender ∧ call.Sends env st transfer ∧
      transfer.LeavesShard st ∧ outcome.movements = [.outbound transfer]) ∨
    (∃ relay origin', call.relay? = some relay ∧
      (origin = .inherent → call = .relayTransfer relay) ∧
      OriginExtrinsic.decode relay.relayType relay.tx.bytes = some origin' ∧
      outcome.movements = [.inbound relay.tx.bytes origin'.transfer]) := by
  cases dispatch_cases env h with
  | minor _ still => exact .inl still
  | raw _ still => exact .inl still
  | @transfer dest value sender _ done =>
    rcases Balances.transfer_cases env done with ⟨_, rfl⟩ | ⟨_, account, horigin, hlook, done⟩
    · exact .inl rfl
    · obtain rfl := Origin.signed.inj horigin
      rcases Balances.transferFunds_cases env done with ⟨_, rfl⟩ |
        ⟨_, _, info, dn, _, _, _, hinfo, hdn, ⟨hne, rfl⟩ | ⟨_, _, _, ⟨_, rfl⟩ | ⟨_, rfl⟩⟩⟩
      · exact .inl rfl
      · exact .inr (.inl ⟨sender, ⟨.coin, account, value⟩, rfl, ⟨rfl, hlook, rfl⟩,
          ⟨info, dn, hinfo, hdn, hne⟩, rfl⟩)
      · exact .inl rfl
      · exact .inl rfl
  | @assetsTransfer shardCode id target amount _ _ done =>
    rcases Assets.transfer_cases env done with ⟨_, _, _, rfl⟩ |
      ⟨sender, account, info, dn, horigin, _, _, hlook, hinfo, hdn, ⟨_, _, _, rfl⟩ | ⟨hne, rfl⟩⟩
    · exact .inl rfl
    · exact .inl rfl
    · exact .inr (.inl ⟨sender, ⟨.asset shardCode.bytes id, account, amount⟩, horigin,
        ⟨rfl, hlook, rfl⟩, ⟨info, dn, hinfo, hdn, hne⟩, rfl⟩)
  | issue =>
    refine .inl ?_
    simp only [Assets.issue]
    split_ifs <;> rfl
  | @relay _ _ relay _ _ relayed direct done =>
    rcases (Relay.transfer_cases env done).2 with ⟨_, _, hnil⟩ | ⟨origin', hdecode, _, hmoves⟩
    · exact .inl hnil
    · exact .inr (.inr ⟨relay, origin', relayed, direct, hdecode, hmoves⟩)
  | setBalance =>
    refine .inl ?_
    simp only [Balances.setBalance]
    split <;> rfl
  | powInfo => exact .inl rfl
  | shardInfo => exact .inl rfl

theorem dispatch_inbound {st : State σ} (h : dispatch env call origin st = .ok outcome)
    {bytes : Bytes} {transfer : Transfer} (hm : .inbound bytes transfer ∈ outcome.movements) :
    ∃ relay origin', call.relay? = some relay ∧
      (origin = .inherent → call = .relayTransfer relay) ∧ relay.tx.bytes = bytes ∧
      OriginExtrinsic.decode relay.relayType bytes = some origin' ∧
      transfer = origin'.transfer ∧ outcome.movements = [.inbound bytes transfer] := by
  rcases dispatch_movements env h with hnil | ⟨_, _, _, _, _, hmoves⟩ |
    ⟨relay, origin', hrelay, hcall, hdecode, hmoves⟩
  · simp [hnil] at hm
  · simp [hmoves] at hm
  · rw [hmoves, List.mem_singleton, Movement.inbound.injEq] at hm
    obtain ⟨rfl, rfl⟩ := hm
    exact ⟨relay, origin', hrelay, hcall, rfl, hdecode, rfl, hmoves⟩

theorem dispatch_outbound {st : State σ} (h : dispatch env call origin st = .ok outcome)
    {transfer : Transfer} (hm : .outbound transfer ∈ outcome.movements) :
    call.Sends env st transfer ∧ transfer.LeavesShard st := by
  rcases dispatch_movements env h with hnil | ⟨_, transfer', _, hsends, hleaves, hmoves⟩ |
    ⟨_, _, _, _, _, hmoves⟩
  · simp [hnil] at hm
  · rw [hmoves, List.mem_singleton, Movement.outbound.injEq] at hm
    exact hm ▸ ⟨hsends, hleaves⟩
  · simp [hmoves] at hm

theorem dispatch_relayExtrinsic {st : State σ} (h : dispatch env call origin st = .ok outcome)
    (hraw : call.rawWrite origin = false) :
    outcome.state.system.relayExtrinsic = st.system.relayExtrinsic := by
  rcases dispatch_frame env h hraw with hframe | ⟨info, _, _, rfl⟩
  · exact hframe.relayExtrinsic
  · rfl

end Yeeroot
