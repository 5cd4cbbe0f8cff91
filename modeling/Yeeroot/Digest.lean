import Yeeroot.Runtime.State

namespace Yeeroot

open Scale

-- The payloads that nothing here reads are kept as bytes.
inductive DigestItem where
  | other (data : Bytes)
  | authoritiesChange (data : Bytes)
  | changesTrieRoot (data : Bytes)
  | seal (data : Bytes)
  | consensus (engine : FixedBytes 4) (data : Bytes)
  deriving DecidableEq

structure Header where
  parentHash : H256
  number : UInt64
  logs : List DigestItem
  deriving DecidableEq

def GENERATED_MODULE_LOG_PREFIX : UInt8 := 2

def GENERATED_SHARDING_PREFIX : UInt8 := 0

def GENERATED_SCALE_OUT_PHASE_PREFIX : UInt8 := 1

def ScaleOutPhase.encode : ScaleOutPhase → Bytes
  | .started observeUtil shardNum => 0 :: (encodeLE 8 observeUtil.toNat ++ encodeLE 2 shardNum.toNat)
  | .nativeReady observeUtil shardNum =>
    1 :: (encodeLE 8 observeUtil.toNat ++ encodeLE 2 shardNum.toNat)
  | .ready observeUtil shardNum => 2 :: (encodeLE 8 observeUtil.toNat ++ encodeLE 2 shardNum.toNat)
  | .committing shardCount => 3 :: encodeLE 2 shardCount.toNat
  | .committed shardNum shardCount =>
    4 :: (encodeLE 2 shardNum.toNat ++ encodeLE 2 shardCount.toNat)

def ScaleOutPhase.decode (input : Bytes) : Option (ScaleOutPhase × Bytes) := do
  let (variant, input) ← readByte input
  if variant = 3 then do
    let (shardCount, input) ← decodeU16 input
    return (.committing shardCount, input)
  else if variant = 4 then do
    let (shardNum, input) ← decodeU16 input
    let (shardCount, input) ← decodeU16 input
    return (.committed shardNum shardCount, input)
  else do
    let (observeUtil, input) ← decodeU64 input
    let (shardNum, input) ← decodeU16 input
    if variant = 0 then return (.started observeUtil shardNum, input)
    else if variant = 1 then return (.nativeReady observeUtil shardNum, input)
    else if variant = 2 then return (.ready observeUtil shardNum, input)
    else none

def DigestItem.shardingInfo (num count : UInt16) : DigestItem :=
  .other ([GENERATED_MODULE_LOG_PREFIX, GENERATED_SHARDING_PREFIX] ++ encodeLE 2 num.toNat ++
    encodeLE 2 count.toNat)

def DigestItem.shardingPayload (tag : UInt8) : DigestItem → Option Bytes
  | .other data =>
    if 4 ≤ data.length ∧ data[0]? = some GENERATED_MODULE_LOG_PREFIX ∧ data[1]? = some tag then
      some (data.drop 2)
    else none
  | _ => none

def DigestItem.asShardingInfo (item : DigestItem) : Option (UInt16 × UInt16) := do
  let input ← item.shardingPayload GENERATED_SHARDING_PREFIX
  let (num, input) ← decodeU16 input
  let (count, _) ← decodeU16 input
  return (num, count)

def DigestItem.scaleOutPhase (phase : ScaleOutPhase) : DigestItem :=
  .other ([GENERATED_MODULE_LOG_PREFIX, GENERATED_SCALE_OUT_PHASE_PREFIX] ++ phase.encode)

def DigestItem.asScaleOutPhase (item : DigestItem) : Option ScaleOutPhase := do
  let input ← item.shardingPayload GENERATED_SCALE_OUT_PHASE_PREFIX
  let (phase, _) ← ScaleOutPhase.decode input
  return phase

-- The outer log entry: the position of the module among those with logs, the
-- variant, and its fields.
def GENERATED_CRFG_LOG_PREFIX : UInt8 := 3

def FINALITY_TRACKER_MODULE_LOG_PREFIX : UInt8 := 4

def Log.digestItem : Log → DigestItem
  | .shardMarker num count => .shardingInfo num count
  | .scaleOutPhase phase => .scaleOutPhase phase
  | .authoritiesChangeSignal delay authorities =>
    .other ([GENERATED_CRFG_LOG_PREFIX, 0] ++ encodeLE 8 delay.toNat ++
      encodeVec encodeAuthority authorities)
  | .forcedAuthoritiesChangeSignal median delay authorities =>
    .other ([GENERATED_CRFG_LOG_PREFIX, 1] ++ encodeLE 8 median.toNat ++
      encodeLE 8 delay.toNat ++ encodeVec encodeAuthority authorities)
  | .finalizedBlockNumber number =>
    .other ([FINALITY_TRACKER_MODULE_LOG_PREFIX, 0] ++ encodeLE 8 number.toNat)

-- `logs.iter().rev().filter_map(..).next()`.
def lastLog {α : Type} (logs : List DigestItem) (read : DigestItem → Option α) : Option α :=
  logs.reverse.findSome? read

def Header.shardInfo (header : Header) : Option (UInt16 × UInt16) :=
  lastLog header.logs DigestItem.asShardingInfo

def Header.phase (header : Header) : Option ScaleOutPhase :=
  lastLog header.logs DigestItem.asScaleOutPhase

end Yeeroot
