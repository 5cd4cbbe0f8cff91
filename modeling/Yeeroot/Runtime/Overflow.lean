import Yeeroot.Overflow
import Yeeroot.Runtime.Accounts
import Yeeroot.Sharding.Utils.Lemmas

namespace Yeeroot

open Scale

variable {σ : Type} (env : Substrate σ)

-- The calls that add without a check, as each build runs them.
namespace Build

variable (build : Build)

def onFeeWithdrawn (amount : Balance) (st : State σ) : Run (State σ) := do
  let totalFee ← build.add128 st.pow.totalFee amount
  return { st with pow := { st.pow with totalFee := totalFee } }

def payTransferFee (fee : Balance) (st : State σ) : Run (State σ) :=
  build.onFeeWithdrawn fee (Balances.dropNegative fee st)

def transferLocal (transactor dest : AccountId) (newFromBalance newToBalance fee : Balance)
    (st : State σ) : Run (State σ) :=
  let st := Balances.setFreeBalance transactor newFromBalance st
  let st := if (st.balances.freeBalance dest).isSome then st else Balances.newAccount env dest st
  build.payTransferFee fee (Balances.setFreeBalance dest newToBalance st)

def transferFunds (transactor dest : AccountId) (value : Balance) (st : State σ) :
    Run (Outcome σ) :=
  let fee := st.balances.transferFee
  match checkedAdd value fee with
  | none => .ok (.fail st "got overflow after adding a fee to value")
  | some liability =>
  match checkedSub (Balances.freeBalance st transactor) liability with
  | none => .ok (.fail st "balance too low to send value")
  | some newFromBalance =>
  match Balances.ensureCanWithdraw st transactor .transfer newFromBalance with
  | .error error => .ok (.fail st error)
  | .ok () => do
    let cn ← Run.expect (← Sharding.getCurrShard st) "can't get current shard num"
    let c ← Sharding.getShardCount st
    let dn ← Run.expect (Sharding.shardNumFor dest c) "can't get target shard num"
    if cn ≠ dn then do
      let st ← build.payTransferFee fee (Balances.setFreeBalance transactor newFromBalance st)
      return ⟨st, .ok (), [.outbound ⟨.coin, dest, value⟩]⟩
    else
      match checkedAdd (Balances.freeBalance st dest) value with
      | none => return .fail st "destination balance too high to receive value"
      | some newToBalance =>
        if transactor ≠ dest then do
          let st ← build.transferLocal env transactor dest newFromBalance newToBalance fee st
          return .done st
        else return .done st

def balancesTransfer (origin : Origin) (dest : Address) (value : Balance) (st : State σ) :
    Run (Outcome σ) :=
  match origin with
  | .signed transactor =>
    match st.lookup env dest with
    | .ok dest => build.transferFunds env transactor dest value st
    | .error error => .ok (.fail st error)
  | _ => .ok (.fail st "bad origin: expected to be a signed origin")

def issueAsset (origin : AccountId) (name : Bytes) (total : Balance) (decimals : UInt16)
    (st : State σ) : Run (State σ) := do
  let id := st.assets.nextAssetId
  let nextAssetId ← build.add32 id 1
  let shardCode := origin.val.drop (origin.val.length - SHARD_CODE_SIZE)
  let st := Assets.setBalance (shardCode, id, origin) total st
  return Assets.update st fun a => { a with
    nextAssetId := nextAssetId
    totalSupply := Function.update a.totalSupply id total
    assetsName := Function.update a.assetsName id name
    assetsDecimals := Function.update a.assetsDecimals id decimals
    assetsIssuer := Function.update a.assetsIssuer id origin }

def assetsIssue (origin : Origin) (name : ByteVec) (total : Balance) (decimals : UInt16)
    (st : State σ) : Run (Outcome σ) :=
  match origin with
  | .signed origin =>
    if Assets.MAX_NAME_SIZE < name.bytes.length then
      .ok (.fail st "Asset's name's length overflow.")
    else do
      let st ← build.issueAsset origin name.bytes total decimals st
      return .done st
  | _ => .ok (.fail st "bad origin: expected to be a signed origin")

-- `*balance += amount`.
def creditAsset (key : AssetKey) (amount : Balance) (st : State σ) : Run (State σ) := do
  let balance ← build.add128 (st.assets.balances key) amount
  return Assets.setBalance key balance st

def assetsTransfer (origin : Origin) (shardCode : ByteVec) (id : UInt32) (target : Address)
    (amount : Balance) (st : State σ) : Run (Outcome σ) :=
  match origin with
  | .signed origin =>
    let originBalance := st.assets.balances (shardCode.bytes, id, origin)
    if amount = 0 then .ok (.fail st "transfer amount should be non-zero")
    else if originBalance < amount then
      .ok (.fail st
        "origin account balance must be greater than or equal to the transfer amount")
    else
      let st := Assets.setBalance (shardCode.bytes, id, origin) (originBalance - amount) st
      match st.lookup env target with
      | .error error => .ok (.fail st error)
      | .ok target => do
        let cn ← Run.expect (← Sharding.getCurrShard st) "can't get current shard num"
        let c ← Sharding.getShardCount st
        let dn ← Run.expect (Sharding.shardNumFor target c) "can't get target shard num"
        if cn = dn then do
          let st ← build.creditAsset (shardCode.bytes, id, target) amount st
          return .done st
        else
          return ⟨st, .ok (), [.outbound ⟨.asset shardCode.bytes id, target, amount⟩]⟩
  | _ => .ok (.fail st "bad origin: expected to be a signed origin")

def assetsRelayTransfer (input : Bytes) (st : State σ) : Run (Outcome σ) :=
  match OriginExtrinsic.decode .assets input with
  | some tx => do
    let id ← Run.expect tx.id "called `Option::unwrap()` on a `None` value"
    let st ← build.creditAsset (tx.shard, id, tx.dest) tx.amount st
    return ⟨st, .ok (), [.inbound input ⟨.asset tx.shard id, tx.dest, tx.amount⟩]⟩
  | none => .ok (.fail st "transfer is invalid.")

def relayTransfer (relay : RelayCall) (st : State σ) : Run (Outcome σ) :=
  match relay.relayType with
  | .balance => Balances.relayTransfer env relay.tx.bytes st
  | .assets => build.assetsRelayTransfer relay.tx.bytes st

-- The other calls add nothing for a signed or root origin.
def dispatch : Call → Origin → State σ → Run (Outcome σ)
  | .balancesTransfer dest value, origin, st => build.balancesTransfer env origin dest value st
  | .assetsIssue name total decimals, origin, st =>
    build.assetsIssue origin name total decimals st
  | .assetsTransfer shardCode id target amount, origin, st =>
    build.assetsTransfer env origin shardCode id target amount st
  | .relayTransfer relay, _, st => build.relayTransfer env relay st
  | .sudoSudo proposal, origin, st =>
    match origin with
    | .signed sender =>
      if sender ∈ st.sudoKeys then do
        let outcome ← dispatch proposal .root st
        return { outcome with result := .ok () }
      else .ok (.fail st "only the current sudo key can sudo")
    | _ => .ok (.fail st "bad origin: expected to be a signed origin")
  | .balancesSetBalance who free reserved, origin, st =>
    Yeeroot.dispatch env (.balancesSetBalance who free reserved) origin st
  | .storageStore data, origin, st => Yeeroot.dispatch env (.storageStore data) origin st
  | .substrate owner args, origin, st => Yeeroot.dispatch env (.substrate owner args) origin st
  | .powSetPowInfo info, origin, st => Yeeroot.dispatch env (.powSetPowInfo info) origin st
  | .shardingSetShardInfo info, origin, st =>
    Yeeroot.dispatch env (.shardingSetShardInfo info) origin st
  | .crfgUpdateAuthorities info, origin, st =>
    Yeeroot.dispatch env (.crfgUpdateAuthorities info) origin st
  | .crfgForceUpdateAuthorities authorities median, origin, st =>
    Yeeroot.dispatch env (.crfgForceUpdateAuthorities authorities median) origin st
  | .trackerWriteFinalizedLog hint, origin, st =>
    Yeeroot.dispatch env (.trackerWriteFinalizedLog hint) origin st
  | .sudoSetKeys new, origin, st => Yeeroot.dispatch env (.sudoSetKeys new) origin st

end Build

-- A release build runs the calls as `dispatch` has them.
namespace Build

theorem payTransferFee_release (fee : Balance) (st : State σ) :
    Build.release.payTransferFee fee st = .ok (Balances.payTransferFee fee st) := by
  simp [payTransferFee, onFeeWithdrawn, add128, guard, Balances.payTransferFee,
    Balances.onFeeWithdrawn, bind, Except.bind, pure, Except.pure]

theorem transferFunds_release (transactor dest : AccountId) (value : Balance) (st : State σ) :
    Build.release.transferFunds env transactor dest value st =
      Balances.transferFunds env transactor dest value st := by
  simp only [transferFunds, transferLocal, payTransferFee_release]
  rfl

theorem balancesTransfer_release (origin : Origin) (dest : Address) (value : Balance)
    (st : State σ) :
    Build.release.balancesTransfer env origin dest value st =
      Balances.transfer env origin dest value st := by
  simp only [balancesTransfer, transferFunds_release]
  rfl

theorem issueAsset_release (origin : AccountId) (name : Bytes) (total : Balance)
    (decimals : UInt16) (st : State σ) :
    Build.release.issueAsset origin name total decimals st =
      .ok (Assets.issueAsset origin name total decimals st) := by
  simp [issueAsset, add32, guard, Assets.issueAsset, bind, Except.bind, pure, Except.pure]

theorem assetsIssue_release (origin : Origin) (name : ByteVec) (total : Balance)
    (decimals : UInt16) (st : State σ) :
    Build.release.assetsIssue origin name total decimals st =
      .ok (Assets.issue origin name total decimals st) := by
  cases origin with
  | signed origin =>
    simp only [assetsIssue, issueAsset_release, Assets.issue]
    split_ifs <;> rfl
  | root => rfl
  | inherent => rfl

theorem creditAsset_release (key : AssetKey) (amount : Balance) (st : State σ) :
    Build.release.creditAsset key amount st =
      .ok (Assets.setBalance key (st.assets.balances key + amount) st) := by
  simp [creditAsset, add128, guard, bind, Except.bind, pure, Except.pure]

theorem assetsTransfer_release (origin : Origin) (shardCode : ByteVec) (id : UInt32)
    (target : Address) (amount : Balance) (st : State σ) :
    Build.release.assetsTransfer env origin shardCode id target amount st =
      Assets.transfer env origin shardCode id target amount st := by
  simp only [assetsTransfer, creditAsset_release]
  rfl

theorem relayTransfer_release (relay : RelayCall) (st : State σ) :
    Build.release.relayTransfer env relay st = Relay.transfer env relay st := by
  simp only [relayTransfer, assetsRelayTransfer, creditAsset_release]
  rfl

theorem dispatch_release (call : Call) (origin : Origin) (st : State σ) :
    Build.release.dispatch env call origin st = Yeeroot.dispatch env call origin st := by
  induction call generalizing origin st with
  | balancesTransfer dest value => exact balancesTransfer_release env origin dest value st
  | assetsIssue name total decimals => exact assetsIssue_release origin name total decimals st
  | assetsTransfer shardCode id target amount =>
    exact assetsTransfer_release env origin shardCode id target amount st
  | relayTransfer relay => exact relayTransfer_release env relay st
  | sudoSudo proposal ih => cases origin <;> simp only [dispatch, Yeeroot.dispatch, ih]
  | _ => rfl

end Build

-- Where the calls add without a check.
section Fits

variable (build : Build) {st : State σ}

theorem Build.Computes.returns {α : Type} {build : Build} {run : Run α} {fits : Prop} {value : α}
    (h : build.Computes run fits value) : Run.Returns run ↔ (build = .checked → fits) := by
  simp [Run.Returns, h _]

-- The shard of the state is known and every account has one.
structure ShardKnown (st : State σ) (info : ShardInfo) : Prop where
  current : st.sharding.currentShardInfo = some info
  total : ∀ account : AccountId, ∃ num, Sharding.shardNumFor account info.count = some num

theorem ShardKnown.destination {info : ShardInfo} (h : ShardKnown st info) {α : Type}
    {dest : AccountId} {dn : UInt16} (hdn : Sharding.shardNumFor dest info.count = some dn)
    (next : UInt16 → UInt16 → Run α) :
    (do
      let cn ← Run.expect (← Sharding.getCurrShard st) "can't get current shard num"
      let c ← Sharding.getShardCount st
      let dn ← Run.expect (Sharding.shardNumFor dest c) "can't get target shard num"
      next cn dn) = next info.num dn := by
  simp only [Sharding.getCurrShard, Sharding.getShardCount, h.current, Run.expect, bind,
    Except.bind, pure, Except.pure, hdn]

-- The transfer goes through and its fee is added to the block's.
def Balances.PaysFee (st : State σ) (transactor dest : AccountId) (value : Balance) : Prop :=
  ∃ newFromBalance, Debits st transactor dest value newFromBalance

theorem payTransferFee_computes (fee : Balance) (st : State σ) :
    build.Computes (build.payTransferFee fee st)
      (st.pow.totalFee.toNat + fee.toNat < 2 ^ 128) (Balances.payTransferFee fee st) :=
  (Build.Computes.add128 _ _).map _

theorem transferLocal_computes (transactor dest : AccountId)
    (newFromBalance newToBalance fee : Balance) (st : State σ) :
    build.Computes (build.transferLocal env transactor dest newFromBalance newToBalance fee st)
      (st.pow.totalFee.toNat + fee.toNat < 2 ^ 128)
      (Balances.transferLocal env transactor dest newFromBalance newToBalance fee st) := by
  refine (payTransferFee_computes build fee _).congr ?_
  rw [Balances.setFreeBalance_pow]
  split_ifs <;> simp [Balances.newAccount, Balances.setFreeBalance_pow]

theorem transferFunds_returns {info : ShardInfo} (h : ShardKnown st info)
    (transactor dest : AccountId) (value : Balance) :
    Run.Returns (build.transferFunds env transactor dest value st) ↔
      (build = .checked → Balances.PaysFee st transactor dest value →
        st.pow.totalFee.toNat + st.balances.transferFee.toNat < 2 ^ 128) := by
  cases hadd : checkedAdd value st.balances.transferFee with
  | none => simp [Build.transferFunds, Balances.PaysFee, Balances.Debits, hadd, Run.returns_ok]
  | some liability =>
  cases hsub : checkedSub (Balances.freeBalance st transactor) liability with
  | none =>
    simp [Build.transferFunds, Balances.PaysFee, Balances.Debits, hadd, hsub, Run.returns_ok]
  | some newFromBalance =>
  cases hcan : Balances.ensureCanWithdraw st transactor .transfer newFromBalance with
  | error error =>
    simp [Build.transferFunds, Balances.PaysFee, Balances.Debits, hadd, hsub, hcan,
      Run.returns_ok]
  | ok =>
  obtain ⟨dn, hdn⟩ := h.total dest
  have hpays : Balances.PaysFee st transactor dest value ↔ (info.num = dn →
      transactor ≠ dest ∧ (checkedAdd (Balances.freeBalance st dest) value).isSome) := by
    simp [Balances.PaysFee, Balances.Debits, hadd, hsub, hcan, h.current, hdn]
  simp only [Build.transferFunds, hadd, hsub, hcan, h.destination hdn, hpays]
  by_cases hshard : info.num = dn
  · rw [if_neg (not_not.mpr hshard)]
    cases hto : checkedAdd (Balances.freeBalance st dest) value with
    | none => simp [hshard, Run.returns_pure]
    | some newToBalance =>
      by_cases hself : transactor = dest
      · simp [hself, hshard, Run.returns_pure]
      · have hlocal := transferLocal_computes env build transactor dest newFromBalance
          newToBalance st.balances.transferFee st
        simp [hself, Run.returns_map, hlocal.returns]
  · have hfee := payTransferFee_computes build st.balances.transferFee
      (Balances.setFreeBalance transactor newFromBalance st)
    rw [Balances.setFreeBalance_pow] at hfee
    simp [hshard, Run.returns_map, hfee.returns]

theorem balancesTransfer_returns {info : ShardInfo} (h : ShardKnown st info)
    (sender : AccountId) (dest : Address) (value : Balance) :
    Run.Returns (build.balancesTransfer env (.signed sender) dest value st) ↔
      (build = .checked → ∀ account, st.lookup env dest = .ok account →
        Balances.PaysFee st sender account value →
        st.pow.totalFee.toNat + st.balances.transferFee.toNat < 2 ^ 128) := by
  cases hlook : st.lookup env dest with
  | error error => simp [Build.balancesTransfer, hlook, Run.returns_ok]
  | ok account => simp [Build.balancesTransfer, hlook, transferFunds_returns env build h]

theorem assetsIssue_returns (sender : AccountId) (name : ByteVec) (total : Balance)
    (decimals : UInt16) :
    Run.Returns (build.assetsIssue (.signed sender) name total decimals st) ↔
      (build = .checked → name.bytes.length ≤ Assets.MAX_NAME_SIZE →
        st.assets.nextAssetId.toNat + 1 < 2 ^ 32) := by
  have hissue : build.Computes (build.issueAsset sender name.bytes total decimals st)
      (st.assets.nextAssetId.toNat + 1 < 2 ^ 32) _ := (Build.Computes.add32 _ 1).map _
  by_cases hlong : Assets.MAX_NAME_SIZE < name.bytes.length
  · simp [Build.assetsIssue, hlong, Run.returns_ok]
  · simp [Build.assetsIssue, hlong, Run.returns_map, hissue.returns, Nat.not_lt.mp hlong]

theorem creditAsset_returns (key : AssetKey) (amount : Balance) (st : State σ) :
    Run.Returns (build.creditAsset key amount st) ↔
      (build = .checked → (st.assets.balances key).toNat + amount.toNat < 2 ^ 128) :=
  ((Build.Computes.add128 _ _).map _).returns

theorem creditDebited_fits {shardCode : Bytes} {id : UInt32} {sender account : AccountId}
    {amount : Balance} (henough : amount ≤ st.assets.balances (shardCode, id, sender)) :
    ((Assets.setBalance (shardCode, id, sender)
          (st.assets.balances (shardCode, id, sender) - amount) st).assets.balances
        (shardCode, id, account)).toNat + amount.toNat < 2 ^ 128 ↔
      (account ≠ sender →
        (st.assets.balances (shardCode, id, account)).toNat + amount.toNat < 2 ^ 128) := by
  by_cases hself : account = sender
  · subst hself
    have hlt := (st.assets.balances (shardCode, id, account)).isLt
    have hsub := BitVec.toNat_sub_of_le henough
    have hle : amount.toNat ≤ (st.assets.balances (shardCode, id, account)).toNat := henough
    simp only [Assets.setBalance, Assets.update, Function.update_self, hsub, ne_eq,
      not_true_eq_false, false_implies, iff_true]
    omega
  · simp [Assets.setBalance, Assets.update, hself]

theorem assetsTransfer_returns {info : ShardInfo} (h : ShardKnown st info) (sender : AccountId)
    (shardCode : ByteVec) (id : UInt32) (target : Address) (amount : Balance) :
    Run.Returns (build.assetsTransfer env (.signed sender) shardCode id target amount st) ↔
      (build = .checked → ∀ account, st.lookup env target = .ok account →
        Sharding.shardNumFor account info.count = some info.num → amount ≠ 0 →
        amount ≤ st.assets.balances (shardCode.bytes, id, sender) → account ≠ sender →
        (st.assets.balances (shardCode.bytes, id, account)).toNat + amount.toNat < 2 ^ 128) := by
  by_cases hzero : amount = 0
  · simp [Build.assetsTransfer, hzero, Run.returns_ok]
  by_cases hlow : st.assets.balances (shardCode.bytes, id, sender) < amount
  · simp only [Build.assetsTransfer, if_neg hzero, if_pos hlow, Run.returns_ok, true_iff]
    intro _ _ _ _ _ henough
    exact absurd henough (BitVec.not_le.mpr hlow)
  have henough := BitVec.not_lt.mp hlow
  simp only [Build.assetsTransfer, if_neg hzero, if_neg hlow]
  generalize hdebited : Assets.setBalance (shardCode.bytes, id, sender)
    (st.assets.balances (shardCode.bytes, id, sender) - amount) st = debited
  have hlookup : debited.lookup env target = st.lookup env target := by
    rw [← hdebited]
    rfl
  have hknown : ShardKnown debited info := ⟨by rw [← hdebited]; exact h.current, h.total⟩
  rw [hlookup]
  cases hlook : st.lookup env target with
  | error error => simp [Run.returns_ok]
  | ok account =>
    obtain ⟨dn, hdn⟩ := h.total account
    simp only [hknown.destination hdn, hdn, Except.ok.injEq, forall_eq', Option.some.injEq]
    by_cases hshard : info.num = dn
    · rw [if_pos hshard, bind_pure_comp, Run.returns_map, creditAsset_returns, ← hdebited,
        creditDebited_fits henough]
      exact ⟨fun hfits hchecked _ _ _ => hfits hchecked,
        fun hfits hchecked => hfits hchecked hshard.symm hzero henough⟩
    · simp [hshard, Ne.symm hshard, Run.returns_pure]

theorem relayTransfer_returns (relay : RelayCall) :
    Run.Returns (build.relayTransfer env relay st) ↔
      (relay.relayType = .balance →
        (OriginExtrinsic.decode .balance relay.tx.bytes).isSome) ∧
      (build = .checked → relay.relayType = .assets → ∀ origin id,
        OriginExtrinsic.decode .assets relay.tx.bytes = some origin → origin.id = some id →
        (st.assets.balances (origin.shard, id, origin.dest)).toNat + origin.amount.toNat <
          2 ^ 128) := by
  cases htype : relay.relayType with
  | balance =>
    cases hdecode : OriginExtrinsic.decode .balance relay.tx.bytes with
    | none =>
      simp [Build.relayTransfer, htype, Balances.relayTransfer, hdecode, Run.expect,
        Run.Returns, bind, Except.bind]
    | some origin =>
      simp only [Build.relayTransfer, htype, Balances.relayTransfer, hdecode,
        Run.returns_bind, Run.expect_eq_ok, Option.some.injEq, exists_eq_left',
        Balances.freeBalance_ensureAccount]
      split <;> simp [Run.returns_pure]
  | assets =>
    cases hdecode : OriginExtrinsic.decode .assets relay.tx.bytes with
    | none => simp [Build.relayTransfer, htype, Build.assetsRelayTransfer, hdecode, Run.returns_ok]
    | some origin =>
      have hid := OriginExtrinsic.id_of_decode hdecode
      obtain ⟨id, hsome⟩ := Option.isSome_iff_exists.mp (by simpa using hid)
      simp only [Build.relayTransfer, htype, Build.assetsRelayTransfer, hdecode, hsome,
        Run.returns_bind, Run.expect_eq_ok, Option.some.injEq, exists_eq_left', bind_pure_comp,
        Run.returns_map, creditAsset_returns]
      constructor
      · rintro hfits
        refine ⟨by simp, fun hchecked _ _ id' horigin hid' => ?_⟩
        obtain rfl := horigin
        obtain rfl := Option.some.inj (hsome.symm.trans hid')
        exact hfits hchecked
      · rintro ⟨_, hfits⟩ hchecked
        exact hfits hchecked trivial origin id rfl hsome

end Fits

-- A call of the modules for balances, assets, relays and storage.
def Call.ofUserModule : Call → Bool
  | .balancesTransfer .. | .balancesSetBalance .. | .assetsIssue .. | .assetsTransfer ..
  | .relayTransfer .. | .storageStore .. => true
  | _ => false

-- A relay of coins whose origin is not an extrinsic.
def Call.Undecodable : Call → Prop
  | .relayTransfer relay => relay.relayType = .balance ∧
      OriginExtrinsic.decode .balance relay.tx.bytes = none
  | _ => False

-- A sum that the call stores does not fit its type.
def Call.Overflows (st : State σ) (sender : AccountId) : Call → Prop
  | .balancesTransfer dest value => ∃ account, st.lookup env dest = .ok account ∧
      Balances.PaysFee st sender account value ∧
      2 ^ 128 ≤ st.pow.totalFee.toNat + st.balances.transferFee.toNat
  | .assetsIssue name _ _ => name.bytes.length ≤ Assets.MAX_NAME_SIZE ∧
      2 ^ 32 ≤ st.assets.nextAssetId.toNat + 1
  | .assetsTransfer shardCode id target amount => ∃ account info,
      st.lookup env target = .ok account ∧ st.sharding.currentShardInfo = some info ∧
      Sharding.shardNumFor account info.count = some info.num ∧ amount ≠ 0 ∧
      amount ≤ st.assets.balances (shardCode.bytes, id, sender) ∧ account ≠ sender ∧
      2 ^ 128 ≤ (st.assets.balances (shardCode.bytes, id, account)).toNat + amount.toNat
  | .relayTransfer relay => relay.relayType = .assets ∧ ∃ origin id,
      OriginExtrinsic.decode .assets relay.tx.bytes = some origin ∧ origin.id = some id ∧
      2 ^ 128 ≤ (st.assets.balances (origin.shard, id, origin.dest)).toNat + origin.amount.toNat
  | _ => False

theorem dispatch_returns (build : Build) {st : State σ} {info : ShardInfo}
    (h : ShardKnown st info) {call : Call} (hcall : call.ofUserModule = true)
    (sender : AccountId) :
    Run.Returns (build.dispatch env call (.signed sender) st) ↔
      ¬ call.Undecodable ∧ (build = .checked → ¬ call.Overflows env st sender) := by
  cases call
  case balancesTransfer dest value =>
    simp only [Build.dispatch, balancesTransfer_returns env build h, Call.Undecodable,
      Call.Overflows, not_false_eq_true, true_and, not_exists, not_and, Nat.not_le]
  case assetsIssue name total decimals =>
    simp only [Build.dispatch, assetsIssue_returns, Call.Undecodable, Call.Overflows,
      not_false_eq_true, true_and, not_and, Nat.not_le]
  case assetsTransfer shardCode id target amount =>
    simp only [Build.dispatch, assetsTransfer_returns env build h, Call.Undecodable,
      Call.Overflows, not_false_eq_true, true_and, not_exists, not_and, Nat.not_le, h.current,
      Option.some.injEq]
    exact ⟨fun hfits hchecked account _ hlook hinfo => hinfo ▸ hfits hchecked account hlook,
      fun hfits hchecked account hlook => hfits hchecked account info hlook rfl⟩
  case relayTransfer relay =>
    simp only [Build.dispatch, relayTransfer_returns, Call.Undecodable, Call.Overflows, not_exists,
      not_and, Nat.not_le, ← ne_eq, Option.isSome_iff_ne_none]
  case balancesSetBalance => simp [Build.dispatch, dispatch, Run.returns_ok, Call.Undecodable,
    Call.Overflows]
  case storageStore => simp [Build.dispatch, dispatch, Run.returns_ok, Call.Undecodable,
    Call.Overflows]
  all_goals simp [Call.ofUserModule] at hcall

end Yeeroot
