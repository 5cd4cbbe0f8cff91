import Yeeroot.MultiLayerProof
import Yeeroot.Verifier.ShardInfo

namespace Yeeroot.Verifier

open Scale

-- What the relay checks of `PowVerifier` use. `foreignProof num hash` is the proof that
-- the light client of shard `num` has stored for a block; `none` also stands for a
-- shard without a client.
structure RelayVerifier where
  ml : MerkleLight H256
  extra : ShardExtra
  foreignProof : UInt16 → H256 → Option Bytes

variable (blake2 : Bytes → H256) (v : RelayVerifier)

-- The stored proof of the block that a relay names lists the origin for this shard.
def RelayVerifier.inProof (sourceShard : UInt16) (rt : RelayParams) : Bool :=
  match v.foreignProof sourceShard rt.blockHash with
  | some bytes =>
    match MultiLayerProof.fromBytes v.ml bytes with
    | some proof => proof.contains v.extra.shardNum rt.hash
    | none => false
  | none => false

-- The body of the loop. An extrinsic that is not read as a relay passes.
def checkRelay (tx : OpaqueExtrinsic) : Run (Except String Unit) :=
  match RelayParams.decode blake2 tx.encode with
  | none => .ok (.ok ())
  | some rt =>
    match OriginExtrinsic.decode rt.relayType rt.origin.bytes with
    | none => .ok (.error "Decode origin extrinsic failed")
    | some origin => do
      let sourceShard ← Run.expect (Sharding.shardNumFor origin.sender v.extra.shardCount)
        "Internal error. Get shard num failed."
      if v.inProof sourceShard rt then return .ok ()
      else return .error "relay extrinsic not in proof"

def checkRelays : List OpaqueExtrinsic → Run (Except String Unit)
  | [] => .ok (.ok ())
  | tx :: exs => do
    match ← checkRelay blake2 v tx with
    | .error error => return .error error
    | .ok () => checkRelays exs

-- The shard info of the header only has to exist: the loop uses the node's own.
def checkRelayTransfer (logs : List DigestItem) (exs : List OpaqueExtrinsic) :
    Run (Except String Unit) :=
  match lastLog logs DigestItem.asShardingInfo with
  | none => .ok (.error "Can't get shard info in header")
  | some _ => checkRelays blake2 v exs

section MerkleProof

variable {H : Type} [DecidableEq H] (ml : MerkleLight H)

-- Only the path from one leaf of layer 2 to its root is validated.
def validatesLayer2 (bytes : Bytes) : Run Bool :=
  match ml.proofFromBytes bytes with
  | some path => Run.expect (ml.validate path) "index out of bounds"
  | none => .ok false

def checkRelayMerkleProof (proof : Option Bytes) (root : H) : Run (Except String Unit) :=
  match proof with
  | none => .ok (.ok ())
  | some bytes =>
    match MultiLayerProof.fromBytes ml bytes with
    | none => .ok (.error "Proof validate failed.")
    | some mlp => do
      let layer2Root ← mlp.layer2Root ml
      if layer2Root = some root then do
        let path ← Run.expect mlp.layer2Proof "called `Option::unwrap()` on a `None` value"
        if ← validatesLayer2 ml path then return .ok ()
        else return .error "Proof validate failed."
      else return .error "Proof is invalid."

end MerkleProof

end Yeeroot.Verifier
