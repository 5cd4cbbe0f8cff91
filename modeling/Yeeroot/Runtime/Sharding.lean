import Yeeroot.Runtime.State

namespace Yeeroot.Sharding

variable {σ : Type}

def getCurrShard (st : State σ) : Run (Option UInt16) := do
  let info ← Run.expect st.sharding.currentShardInfo "shard info must be ready for runtime modules"
  return some info.num

def getShardCount (st : State σ) : Run UInt16 := do
  let info ← Run.expect st.sharding.currentShardInfo "shard info must be ready for runtime modules"
  return info.count

def targetShardNum (info : ShardInfo) : UInt16 :=
  match info.scaleOut with
  | some scaleOut => scaleOut.shardNum
  | none => info.num

-- The scale-out phase after a block with this number and inherent.
def nextPhase (phase : Option ScaleOutPhase) (info : ShardInfo) (blockNumber observe : UInt64) :
    Option ScaleOutPhase :=
  match phase with
  | none =>
    match info.scaleOut with
    | some _ => some (.started (blockNumber + observe) (targetShardNum info))
    | none => none
  | some (.started observeUtil shardNum) =>
    if observeUtil = blockNumber then
      some (.nativeReady (blockNumber + observe) (targetShardNum info))
    else some (.started observeUtil shardNum)
  | some (.nativeReady observeUtil shardNum) =>
    if observeUtil = blockNumber then
      some (.ready (blockNumber + observe) (targetShardNum info))
    else some (.nativeReady observeUtil shardNum)
  | some (.ready observeUtil shardNum) =>
    if observeUtil = blockNumber then some (.committing (info.count + info.count))
    else some (.ready observeUtil shardNum)
  | some (.committing shardCount) => some (.committed (targetShardNum info) shardCount)
  | some (.committed _ _) => none

def setShardInfo (origin : Origin) (info : ShardInfo) (st : State σ) : Outcome σ :=
  match origin with
  | .inherent =>
    .done { st with
      sharding := { st.sharding with
        currentShardInfo := some info
        currentScaleOutPhase := nextPhase st.sharding.currentScaleOutPhase info
          st.system.blockNumber st.sharding.scaleOutObserveBlocks } }
  | _ => .fail st "bad origin: expected to be an inherent origin"

def onFinalize (st : State σ) : State σ :=
  let st := match st.sharding.currentShardInfo with
    | some info => st.depositLog (.shardMarker info.num info.count)
    | none => st
  match st.sharding.currentScaleOutPhase with
  | some phase => st.depositLog (.scaleOutPhase phase)
  | none => st

end Yeeroot.Sharding
