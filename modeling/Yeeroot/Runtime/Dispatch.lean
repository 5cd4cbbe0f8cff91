import Yeeroot.Runtime.Assets

namespace Yeeroot

open Scale

variable {σ : Type} (env : Substrate σ)

namespace Pow

def setPowInfo (origin : Origin) (info : PowInfo) (st : State σ) : Outcome σ :=
  match origin with
  | .inherent => .done { st with pow := { st.pow with currentPowInfo := some info } }
  | _ => .fail st "bad origin: expected to be an inherent origin"

def onInitialize (st : State σ) : State σ := { st with pow := { st.pow with totalFee := 0 } }

-- When scaling out, only the child shard that owns the coinbase pays the reward.
def reward (plan : RewardPlan) (currentCoinbase : AccountId) (condition : RewardCondition)
    (st : State σ) : Run (State σ) := do
  let shardNum ← Run.expect (← Sharding.getCurrShard st) "qed"
  let shardCount ← Sharding.getShardCount st
  let coinbaseShardNum ← Run.expect (Sharding.shardNumFor plan.coinbase shardCount) "qed"
  if coinbaseShardNum = shardNum then
    let rewardTarget := match condition with
      | .normal => plan.coinbase
      | .slash => currentCoinbase
    return Balances.depositCreating env rewardTarget (plan.blockReward + plan.feeReward) st
  else return st

-- `RewardPlans::retain`: matured plans are paid in order and removed.
def settlePlans (currentCoinbase : AccountId) (condition : RewardCondition)
    (rewardBlockNumber : UInt64) : List RewardPlan → State σ → Run (State σ × List RewardPlan)
  | [], st => .ok (st, [])
  | plan :: plans, st =>
    if plan.blockNumber ≤ rewardBlockNumber then do
      let st ← reward env plan currentCoinbase condition st
      settlePlans currentCoinbase condition rewardBlockNumber plans st
    else do
      let (st, kept) ← settlePlans currentCoinbase condition rewardBlockNumber plans st
      return (st, plan :: kept)

def onFinalize (blockNumber : UInt64) (st : State σ) : Run (State σ) :=
  match st.pow.currentPowInfo with
  | none => .ok st
  | some info => do
    let shardCount ← Sharding.getShardCount st
    if shardCount = 0 then .error ⟨"attempt to divide by zero"⟩
    else
      let plan : RewardPlan := {
        blockNumber := blockNumber
        coinbase := info.coinbase
        blockReward := st.pow.blockReward / BitVec.ofNat 128 shardCount.toNat
        feeReward := st.pow.totalFee }
      let latency := st.pow.blockRewardLatency
      let rewardBlockNumber := if latency < blockNumber then blockNumber - latency else 0
      let (st, kept) ← settlePlans env info.coinbase info.rewardCondition rewardBlockNumber
        (st.pow.rewardPlans ++ [plan]) st
      return { st with pow := { st.pow with rewardPlans := kept } }

end Pow

namespace Crfg

def MAX_AUTHORITIES_SIZE : Nat := 13

-- `while authorities.len() >= MAX_AUTHORITIES_SIZE { authorities.remove(0) }`.
def trimAuthorities : List (SessionKey × UInt64) → List (SessionKey × UInt64)
  | [] => []
  | authority :: authorities =>
    if MAX_AUTHORITIES_SIZE ≤ authorities.length + 1 then trimAuthorities authorities
    else authority :: authorities

def updateAuthorities (origin : Origin) (info : SessionKey) (st : State σ) : Outcome σ :=
  match origin with
  | .inherent =>
    .done { st with crfg := { st.crfg with
      pendingChange := some {
        scheduledAt := st.system.blockNumber
        delay := 0
        nextAuthorities := trimAuthorities st.crfg.authorities ++ [(info, 1)]
        forced := none } } }
  | _ => .fail st "bad origin: expected to be an inherent origin"

def forceUpdateAuthorities (origin : Origin) (authorities : List (SessionKey × UInt64))
    (median : UInt64) (st : State σ) : Outcome σ :=
  match origin with
  | .root => .done (st.depositLog (.forcedAuthoritiesChangeSignal median 0 authorities))
  | _ => .fail st "bad origin: expected to be a root origin"

def onFinalize (blockNumber : UInt64) (st : State σ) : State σ :=
  match st.crfg.pendingChange with
  | none => st
  | some change =>
    let st :=
      if blockNumber = change.scheduledAt then
        match change.forced with
        | some median => st.depositLog
            (.forcedAuthoritiesChangeSignal median change.delay change.nextAuthorities)
        | none => st.depositLog (.authoritiesChangeSignal change.delay change.nextAuthorities)
      else st
    if blockNumber = change.scheduledAt + change.delay then
      { st with crfg := ⟨change.nextAuthorities, none⟩ }
    else st

end Crfg

namespace FinalityTracker

def writeFinalizedLog (origin : Origin) (hint : UInt64) (st : State σ) : Outcome σ :=
  match origin with
  | .inherent => .done { st with finalizedNumber := some hint }
  | _ => .fail st "bad origin: expected to be an inherent origin"

def onFinalize (st : State σ) : State σ :=
  match st.finalizedNumber with
  | some number => st.depositLog (.finalizedBlockNumber number)
  | none => st

end FinalityTracker

namespace Storage

def store (origin : Origin) (data : ByteVec) (st : State σ) : Outcome σ :=
  match origin with
  | .signed _ =>
    if MAX_STORAGE_SIZE < data.bytes.length then
      .fail st "storage size is larger than max size."
    else .done st
  | _ => .fail st "bad origin: expected to be a signed origin"

end Storage

namespace Relay

-- The origin of the call, the block number and the two hashes are not looked at.
def transfer (relay : RelayCall) (st : State σ) : Run (Outcome σ) :=
  match relay.relayType with
  | .balance => Balances.relayTransfer env relay.tx.bytes st
  | .assets => Assets.relayTransfer relay.tx.bytes st

end Relay

def lookupAll (st : State σ) : List Address → Except String (List AccountId)
  | [] => .ok []
  | address :: addresses => do
    let account ← st.lookup env address
    let accounts ← lookupAll st addresses
    return account :: accounts

namespace Sudo

def setKeys (origin : Origin) (new : List Address) (st : State σ) : Outcome σ :=
  match origin with
  | .signed sender =>
    if sender ∈ st.sudoKeys then
      match lookupAll env st new with
      | .ok keys => .done { st with sudoKeys := keys }
      | .error error => .fail st error
    else .fail st "only the current sudo key can change the sudo key"
  | _ => .fail st "bad origin: expected to be a signed origin"

end Sudo

def dispatchSubstrate (owner : SubstrateModule) (args : Bytes) (origin : Origin) (st : State σ) :
    Run (Outcome σ) :=
  let sandboxed := fun sender => do
    let (substrate, result) ← env.dispatch owner args sender st
    return (⟨{ st with substrate := substrate }, result, []⟩ : Outcome σ)
  match origin with
  | .root => do
    let (st, result) ← env.dispatchRoot owner args st
    return ⟨st, result, []⟩
  | .signed sender => sandboxed (some sender)
  | .inherent => sandboxed none

def dispatch : Call → Origin → State σ → Run (Outcome σ)
  | .substrate owner args, origin, st => dispatchSubstrate env owner args origin st
  | .powSetPowInfo info, origin, st => .ok (Pow.setPowInfo origin info st)
  | .balancesTransfer dest value, origin, st => Balances.transfer env origin dest value st
  | .balancesSetBalance who free reserved, origin, st =>
    .ok (Balances.setBalance env origin who free reserved st)
  | .shardingSetShardInfo info, origin, st => .ok (Sharding.setShardInfo origin info st)
  | .crfgUpdateAuthorities info, origin, st => .ok (Crfg.updateAuthorities origin info st)
  | .crfgForceUpdateAuthorities authorities median, origin, st =>
    .ok (Crfg.forceUpdateAuthorities origin authorities median st)
  | .trackerWriteFinalizedLog hint, origin, st =>
    .ok (FinalityTracker.writeFinalizedLog origin hint st)
  | .assetsIssue name total decimals, origin, st =>
    .ok (Assets.issue origin name total decimals st)
  | .assetsTransfer shardCode id target amount, origin, st =>
    Assets.transfer env origin shardCode id target amount st
  | .relayTransfer relay, _, st => Relay.transfer env relay st
  | .storageStore data, origin, st => .ok (Storage.store origin data st)
  | .sudoSudo proposal, origin, st =>
    match origin with
    | .signed sender =>
      if sender ∈ st.sudoKeys then do
        -- The proposal's own result only goes into the event.
        let outcome ← dispatch proposal .root st
        return { outcome with result := .ok () }
      else .ok (.fail st "only the current sudo key can sudo")
    | _ => .ok (.fail st "bad origin: expected to be a signed origin")
  | .sudoSetKeys new, origin, st => .ok (Sudo.setKeys env origin new st)

end Yeeroot
