import Yeeroot.Digest
import Yeeroot.SrPrimitives

namespace Yeeroot.Foreign

open Scale

-- What the handlers read of the shard's own chain. `none` stands for a failed read as well:
-- both are unwrapped.
structure LocalClient where
  header : H256 → Option Header
  blockBody : H256 → Option (List OpaqueExtrinsic)
  shardCount : H256 → Option UInt16
  currShard : H256 → Option UInt16

-- `on_relay_extrinsics`: one relay for one shard.
structure Broadcast where
  shard : UInt16
  relayHash : H256
  relay : OpaqueExtrinsic
  deriving DecidableEq

def unwrap {α : Type} (value : Option α) : Run α :=
  Run.expect value "called `Option::unwrap()` on a `None` value"

section Process

variable (args : SubstrateArgs) (blake2 : Bytes → H256)

-- The relay of an extrinsic, as it goes over the wire. A vector with too many elements is
-- refused by its encoder.
def broadcastRelay (relayType : RelayTypes) (ec : Bytes) (header : Header) (hash : H256)
    (ds : UInt16) : Run Broadcast :=
  if h : ec.length < 2 ^ 32 then do
    let buf := UncheckedExtrinsic.encode
      ⟨none, .relayTransfer ⟨relayType, ⟨ec, h⟩, header.number, hash, header.parentHash⟩⟩
    let (relay, _) ← unwrap (decodeByteVec buf)
    return ⟨ds, blake2 buf, ⟨relay.bytes⟩⟩
  else .error ⟨"Attempted to serialize a collection with too many elements."⟩

-- The shard is that of the encoded address, not of an account that is looked up.
def relayTo (relayType : RelayTypes) (dest : Address) (ec : Bytes) (header : Header)
    (hash : H256) (tc cs : UInt16) : Run (List Broadcast) :=
  match Sharding.shardNumForBytes dest.encode tc with
  | none => .ok []
  | some ds =>
    if cs = ds then .ok []
    else do
      let broadcast ← broadcastRelay blake2 relayType ec header hash ds
      return [broadcast]

def processRelayExtrinsic (ec : Bytes) (header : Header) (hash : H256) (tc cs : UInt16) :
    Run (List Broadcast) := do
  let (ex, _) ← unwrap (UncheckedExtrinsic.decode args ec)
  match ex.signature, ex.function with
  | none, _ => return []
  | some _, .balancesTransfer dest _ => relayTo blake2 .balance dest ec header hash tc cs
  | some _, .assetsTransfer _ _ dest _ => relayTo blake2 .assets dest ec header hash tc cs
  | some _, _ => return []

def importEvent (client : LocalClient) (hash : H256) : Run (List (List Broadcast)) := do
  let header ← unwrap (client.header hash)
  let body ← unwrap (client.blockBody hash)
  let tc ← unwrap (client.shardCount hash)
  let cs ← unwrap (client.currShard hash)
  body.mapM fun tx => processRelayExtrinsic args blake2 tx.encode header hash tc cs

structure RecommitRelay where
  hash : H256
  index : UInt64

-- `usize` is eight bytes wide.
def RecommitRelay.encode (request : RecommitRelay) : Bytes :=
  request.hash.val ++ encodeLE 8 request.index.toNat

-- The request itself is encoded and processed; the body is not read.
def recommitRelay (client : LocalClient) (request : RecommitRelay) : Run (List Broadcast) :=
  match client.header request.hash with
  | none => .ok []
  | some header => do
    let tc ← unwrap (client.shardCount request.hash)
    let cs ← unwrap (client.currShard request.hash)
    processRelayExtrinsic args blake2 request.encode header request.hash tc cs

end Process

def asFinalityTracker : DigestItem → Option UInt64
  | .other data =>
    if 2 ≤ data.length ∧ data[0]? = some FINALITY_TRACKER_MODULE_LOG_PREFIX ∧
        data[1]? = some 0 then
      (decodeU64 (data.drop 2)).map Prod.fst
    else none
  | _ => none

-- A header of another shard's chain with its hash, as the light client of that shard has it.
structure ForeignHeader where
  hash : H256
  header : Header

-- `BestBlockInfoChanged` with the light client at that time, if the shard has one. `none`
-- stands for a failed read as well.
structure BestBlockInfoChanged where
  shardNum : UInt16
  bestNumber : UInt64
  component : Option (UInt64 → Option ForeignHeader)

-- The tag of a block that has become final.
def crfgTag (shardNum : UInt16) (finalityNum : UInt64) (crfgHeader : ForeignHeader) : Bytes :=
  encodeCompact shardNum.toNat ++ encodeCompact finalityNum.toNat ++
    encodeByteVec (hashVec crfgHeader.hash) ++ encodeByteVec (hashVec crfgHeader.header.parentHash)

-- The tags that go to the pool; `enforce_spv` gives none.
def bestBlockInfoChanged (info : BestBlockInfoChanged) : Run (List Bytes) :=
  match info.component with
  | none => .ok []
  | some header => do
    let spvHeader ← unwrap (header info.bestNumber)
    match lastLog spvHeader.header.logs asFinalityTracker with
    | none => return []
    | some finalityNum => do
      let crfgHeader ← unwrap (header finalityNum)
      return [crfgTag info.shardNum finalityNum crfgHeader]

def foreignEvents : List BestBlockInfoChanged → Run (List Bytes)
  | [] => .ok []
  | info :: infos => do
    let tags ← bestBlockInfoChanged info
    let rest ← foreignEvents infos
    return tags ++ rest

end Yeeroot.Foreign
