import Yeeroot.Digest
import Yeeroot.Overflow
import Yeeroot.Sharding.Utils

namespace Yeeroot.Cli

-- The result is the shard number, the shard count and the scale-out of the node.
def getShardInfoFromClient (genesisShardCount argShardNum : UInt16) (lastBlockHeader : Header) :
    Run (Except String ShardInfo) :=
  let shardInfo := lastBlockHeader.shardInfo
  -- The genesis header counts as one that is committing.
  let scaleOutPhase := match shardInfo with
    | some _ => lastBlockHeader.phase
    | none => some (.committing genesisShardCount)
  match scaleOutPhase with
  | some (.committing shardCount) =>
    match shardInfo with
    | some (oriShardNum, oriShardCount) =>
      if argShardNum = oriShardNum ∨ argShardNum = oriShardNum + oriShardCount then
        .ok (.ok ⟨argShardNum, shardCount, none⟩)
      else
        .ok (.error "Invalid shard num on non-genesis block scale out phase commiting")
    | none =>
      if shardCount < argShardNum then
        .ok (.error "Invalid shard num on genesis block scale out phase commiting")
      else .ok (.ok ⟨argShardNum, shardCount, none⟩)
  | _ => do
    let (oriShardNum, oriShardCount) ← Run.expect shardInfo "qed"
    if argShardNum = oriShardNum then
      return .ok ⟨oriShardNum, oriShardCount, none⟩
    else if argShardNum = oriShardNum + oriShardCount then
      return .ok ⟨oriShardNum, oriShardCount, some ⟨argShardNum⟩⟩
    else return .error "Invalid shard num"

def getHrp (chainSpecId : String) : Hrp := if chainSpecId = "mainnet" then .mainnet else .testnet

-- What the configuration says about the node's shard.
structure NodeConfig where
  hrp : Hrp
  shardNum : UInt16
  shardCount : UInt16
  scaleOut : Option ScaleOut
  coinbase : AccountId
  deriving DecidableEq

-- `initial` is what `get_initial_info` has found, and `parseCoinbase` reads an address.
def processCustomArgs (build : Build) (parseCoinbase : String → Except String (AccountId × Hrp))
    (chainSpecId : String) (authority : Bool) (initial : ShardInfo) (coinbase : Option String) :
    Run (Except String NodeConfig) :=
  let config : NodeConfig :=
    ⟨getHrp chainSpecId, initial.num, initial.count, initial.scaleOut, zero256⟩
  if authority then
    match coinbase with
    | none => .ok (.error "Coinbase not found")
    | some address =>
      match parseCoinbase address with
      | .error error => .ok (.error s!"Invalid coinbase: {error}")
      | .ok (coinbase, hrp) =>
        if config.hrp ≠ hrp then .ok (.error "Invalid coinbase hrp")
        else do
          let coinbaseShardNum ← Run.expect (Sharding.shardNumFor coinbase initial.count) "qed"
          if coinbaseShardNum ≠ initial.num then
            return .error "Invalid coinbase: shard num is not accordant"
          else
            match initial.scaleOut with
            | none => return .ok { config with coinbase := coinbase }
            | some scaleOut =>
              let scaleOutShardCount ← build.mul16 initial.count 2
              let coinbaseShardNum ←
                Run.expect (Sharding.shardNumFor coinbase scaleOutShardCount) "qed"
              if coinbaseShardNum ≠ scaleOut.shardNum then
                return .error
                  "Invalid coinbase: shard num is not accordant after scaling out"
              else return .ok { config with coinbase := coinbase }
  else .ok (.ok config)

end Yeeroot.Cli
