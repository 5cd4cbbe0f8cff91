import Yeeroot.Digest
import Yeeroot.Executive.Block

namespace Yeeroot.Miner

open Scale

variable (args : SubstrateArgs) (blake2 : Bytes → H256)

-- The destination as the call has it: an account id or an index.
def transferDest : Call → Option Address
  | .balancesTransfer dest _ => some dest
  | .assetsTransfer _ _ target _ => some target
  | _ => none

-- The other shard that a signed extrinsic is for, by the bytes of its destination.
def minerShard (shardNum shardCount : UInt16) (tx : OpaqueExtrinsic) : Option UInt16 := do
  let (ex, _) ← UncheckedExtrinsic.decode args tx.encode
  if ex.isSigned then do
    let dest ← transferDest ex.function
    let num ← Sharding.shardNumForBytes dest.encode shardCount
    if num ≠ shardNum then some num else none
  else none

-- The loop of `gen_extrinsic_proof`; `exeResult` is the rest of the results. A result is
-- looked up only for an extrinsic that leaves the shard.
def noteRelays (shardNum shardCount : UInt16) :
    List OpaqueExtrinsic → List Bool → ExtrinsicShard H256 → Run (ExtrinsicShard H256)
  | [], _, shards => .ok shards
  | tx :: body, exeResult, shards =>
    match minerShard args shardNum shardCount tx with
    | none => noteRelays shardNum shardCount body exeResult.tail shards
    | some num => do
      let success ← Run.expect exeResult.head? "index out of bounds"
      noteRelays shardNum shardCount body exeResult.tail
        (shards.note (if success then some (num, blake2 tx.encode) else none))

def genExtrinsicProof (ml : MerkleLight H256) (header : Header) (body : List OpaqueExtrinsic)
    (exeResult : List Bool) : Run (H256 × Bytes) := do
  let (shardNum, shardCount) ← Run.expect header.shardInfo "must exist"
  let shards ← noteRelays args blake2 shardNum shardCount body exeResult (fun _ => [])
  let layer1 := layer1Merkles ml shardCount shards
  let root ← layer2Root ml shardCount shards
  let proof : MultiLayerProof H256 :=
    ⟨ml.build (layer2Leaves ml layer1), none, layer1⟩
  return (root, proof.encode ml)

end Yeeroot.Miner
