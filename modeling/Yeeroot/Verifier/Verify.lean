import Yeeroot.Pow.Target
import Yeeroot.Verifier.Relay

namespace Yeeroot.Verifier

open Scale
open Yeeroot.Pow

-- The verifier of a node, with the hashes and the light clients it uses.
structure PowVerifier where
  hashing : Hashing H256
  client : Client H256
  context : Context
  relay : RelayVerifier

structure ImportBlock where
  header : BlockHeader H256
  postDigest : DigestItem
  proof : Option Bytes
  body : Option (List OpaqueExtrinsic)
  deriving DecidableEq

def shardHeader (header : BlockHeader H256) : Header :=
  ⟨header.parentHash, header.number, header.logs⟩

variable (build : Build) (v : PowVerifier)

def PowVerifier.chain (hash : H256) : Option Header := (v.client.header hash).map shardHeader

-- A check that fails with a message alone.
def Rejection.lift {α : Type} (checked : Except String α) : Except Rejection α :=
  match checked with
  | .error message => .error ⟨message, none⟩
  | .ok value => .ok value

def checkPowTarget (header : BlockHeader H256) (sealed : PowSeal H256) :
    Run (Except Rejection Unit) := do
  let powTarget ← calcPowTarget build v.hashing.codec v.client header sealed.timestamp v.context
  if sealed.powTarget ≠ powTarget then reject "check_pow_target failed, pow target not match."
  else return .ok ()

-- `check_other_logs` accepts every header.
def checkSealed (header : BlockHeader H256) (sealed : PowSeal H256) : Run (Except Rejection Unit) := do
  match ← checkPowTarget build v header sealed with
  | .error rejection => return .error rejection
  | .ok () =>
    match ← checkShardInfo build v.chain v.context.genesisScaleOutObserveBlocks v.relay.extra
      (shardHeader header) with
    | .error rejection => return .error rejection
    | .ok () =>
      match ← checkWorkProof build v.hashing header sealed with
      | .error message => reject message
      | .ok _ => return .ok ()

-- The header without its last digest item, and that item.
def checkHeader (header : BlockHeader H256) :
    Run (Except Rejection (BlockHeader H256 × DigestItem × PowSeal H256)) :=
  match header.logs.getLast? with
  | none => reject " get digest item failed."
  | some item =>
    match asPowSeal v.hashing.codec item with
    | none => reject s!"Header {v.hashing.debug (v.hashing.header header)} not sealed"
    | some sealed => do
      let preHeader := { header with logs := header.logs.dropLast }
      match ← checkSealed build v preHeader sealed with
      | .error rejection => return .error rejection
      | .ok () => return .ok (preHeader, item, sealed)

def checkBody (preHeader : BlockHeader H256) (body : Option (List OpaqueExtrinsic)) :
    Run (Except Rejection Unit) :=
  match body with
  | some exs => do
    return Rejection.lift (← checkRelayTransfer v.hashing.blake2 v.relay preHeader.logs exs)
  | none => .ok (.ok ())

def verify (header : BlockHeader H256) (proof : Option Bytes)
    (body : Option (List OpaqueExtrinsic)) : Run (Except Rejection ImportBlock) := do
  match ← checkHeader build v header with
  | .error rejection => return .error rejection
  | .ok (preHeader, item, sealed) =>
    match ← checkRelayMerkleProof v.relay.ml proof sealed.relayProof with
    | .error message => reject message
    | .ok () =>
      match ← checkBody v preHeader body with
      | .error rejection => return .error rejection
      | .ok () => return .ok ⟨preHeader, item, proof, body⟩

end Yeeroot.Verifier
