import Yeeroot.Digest
import Yeeroot.Overflow

namespace Yeeroot.Verifier

-- The node's own configuration.
structure ShardExtra where
  coinbase : AccountId
  shardNum : UInt16
  shardCount : UInt16
  scaleOut : Option ScaleOut

inductive Trigger where
  | stop
  | restart
  deriving DecidableEq

-- A failed check, with the exit signal it raised on the way.
structure Rejection where
  message : String
  trigger : Option Trigger
  deriving DecidableEq

def reject {α : Type} (message : String) : Run (Except Rejection α) := .ok (.error ⟨message, none⟩)

section Phases

variable (build : Build)

-- `a && b` with an operand that can overflow.
def andThen (a : Bool) (b : Run Bool) : Run Bool := if a then b else .ok false

-- `shard_num == digest_shard_num || shard_num == digest_shard_num + digest_shard_count`.
def isTargetNum (shardNum digestShardNum digestShardCount : UInt16) : Run Bool :=
  if shardNum = digestShardNum then .ok true
  else do
    let sum ← build.add16 digestShardNum digestShardCount
    return shardNum = sum

-- A later block of a waiting phase.
def stillWaiting (number : UInt64) (digestShardNum digestShardCount : UInt16)
    (parentUtil observeUtil : UInt64) (shardNum : UInt16) : Run Bool :=
  andThen (parentUtil = observeUtil) do
    let target ← isTargetNum build shardNum digestShardNum digestShardCount
    return target && decide (number < observeUtil)

-- The block that ends a waiting phase and starts the next one.
def nextWaiting (observeBlocks number : UInt64) (digestShardNum digestShardCount : UInt16)
    (parentUtil observeUtil : UInt64) (shardNum : UInt16) : Run Bool :=
  andThen (parentUtil = number) do
    let target ← isTargetNum build shardNum digestShardNum digestShardCount
    andThen target do
      let util ← build.add64 number observeBlocks
      return util = observeUtil

-- The block that starts a scale-out.
def firstWaiting (observeBlocks number : UInt64) (digestShardNum digestShardCount : UInt16)
    (observeUtil : UInt64) (shardNum : UInt16) : Run Bool := do
  let util ← build.add64 number observeBlocks
  andThen (util = observeUtil) (isTargetNum build shardNum digestShardNum digestShardCount)

-- The block that doubles the count.
def commits (number : UInt64) (digestShardCount : UInt16) (parentUtil : UInt64)
    (shardCount : UInt16) : Run Bool :=
  andThen (parentUtil = number) do
    let double ← build.mul16 digestShardCount 2
    return shardCount = double

-- The nested match of `check_shard_info` over the phases of the parent and the header.
def phaseOk (observeBlocks number : UInt64) (digestShardNum digestShardCount : UInt16)
    (parentPhase phase : Option ScaleOutPhase) : Run Bool :=
  match parentPhase, phase with
  | some (.started parentUtil _), some (.started observeUtil shardNum)
  | some (.nativeReady parentUtil _), some (.nativeReady observeUtil shardNum)
  | some (.ready parentUtil _), some (.ready observeUtil shardNum) =>
    stillWaiting build number digestShardNum digestShardCount parentUtil observeUtil shardNum
  | some (.started parentUtil _), some (.nativeReady observeUtil shardNum)
  | some (.nativeReady parentUtil _), some (.ready observeUtil shardNum) =>
    nextWaiting build observeBlocks number digestShardNum digestShardCount parentUtil observeUtil
      shardNum
  | some (.ready parentUtil _), some (.committing shardCount) =>
    commits build number digestShardCount parentUtil shardCount
  | some (.committing parentCount), some (.committed shardNum shardCount) =>
    .ok (shardNum = digestShardNum && shardCount = parentCount &&
      digestShardCount = shardCount)
  | some (.committed _ _), some (.started observeUtil shardNum)
  | none, some (.started observeUtil shardNum) =>
    firstWaiting build observeBlocks number digestShardNum digestShardCount observeUtil shardNum
  | some (.started _ _), none | some (.nativeReady _ _), none | some (.committed _ _), none
  | none, none => .ok true
  | _, _ => .ok false

end Phases

def checkScale (header : Header) (extra : ShardExtra) : Run (Except Rejection Unit) :=
  match header.phase with
  | some (.committed _ scaleShardCount) =>
    let targetShardNum := match extra.scaleOut with
      | some scaleOut => scaleOut.shardNum
      | none => extra.shardNum
    if extra.shardCount ≠ scaleShardCount then do
      let coinbaseShardNum ← Run.expect (Sharding.shardNumFor extra.coinbase scaleShardCount) "qed"
      if targetShardNum ≠ coinbaseShardNum then
        return .error ⟨"Invalid arg coinbase", some .stop⟩
      else return .error ⟨"Invalid arg shard info", some .restart⟩
    else .ok (.ok ())
  | _ => .ok (.ok ())

-- `while shard_count > original_shard_count`. A u16 is halved at most 16 times.
def halve (originalShardCount : UInt16) : Nat → UInt16 → UInt16 → UInt16 × UInt16
  | 0, shardNum, shardCount => (shardNum, shardCount)
  | fuel + 1, shardNum, shardCount =>
    if originalShardCount < shardCount then
      let shardCount := shardCount / 2
      let shardNum := if shardCount ≤ shardNum then shardNum - shardCount else shardNum
      halve originalShardCount fuel shardNum shardCount
    else (shardNum, shardCount)

def getOriginalShardNum (shardNum shardCount originalShardCount : UInt16) : Except String UInt16 :=
  let (shardNum, shardCount) := halve originalShardCount 16 shardNum shardCount
  if shardCount ≠ originalShardCount then .error "Invalid header shard info"
  else .ok shardNum

-- `chain` is the client's header lookup.
def checkShardInfo (build : Build) (chain : H256 → Option Header) (observeBlocks : UInt64)
    (extra : ShardExtra) (header : Header) : Run (Except Rejection Unit) := do
  let (digestShardNum, digestShardCount) ← Run.expect header.shardInfo "shard info must exist"
  let parent ← Run.expect (chain header.parentHash) "parent header must exist."
  if ← phaseOk build observeBlocks header.number digestShardNum digestShardCount parent.phase
      header.phase then do
    match ← checkScale header extra with
    | .error rejection => return .error rejection
    | .ok () =>
      let (headerShardNum, headerShardCount) ←
        Run.expect header.shardInfo "non-genesis block always has shard info"
      match getOriginalShardNum extra.shardNum extra.shardCount headerShardCount with
      | .error message => reject message
      | .ok originalShardNum =>
        if headerShardNum ≠ originalShardNum then reject "Invalid header shard info"
        else return .ok ()
  else reject "ScaleOutPhase checked failed."

end Yeeroot.Verifier
