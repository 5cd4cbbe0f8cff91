import Yeeroot.Pow.Job

namespace Yeeroot

open Scale

-- The variant's index and its payload. The codec asserts that a length fits 32 bits.
def DigestItem.encode : DigestItem → Run Bytes
  | .other data => do
    let data ← encodeLengthPrefixed data
    return 0 :: data
  | .authoritiesChange data => .ok (1 :: data)
  | .changesTrieRoot data => .ok (2 :: data)
  | .seal data => .ok (3 :: data)
  | .consensus engine data => do
    let data ← encodeLengthPrefixed data
    return 4 :: (engine.val ++ data)
where
  encodeLengthPrefixed (data : Bytes) : Run Bytes :=
    if h : data.length < 2 ^ 32 then .ok (encodeByteVec ⟨data, h⟩)
    else .error ⟨"Attempted to serialize a collection with too many elements."⟩

namespace Rpc

open Yeeroot.Pow

variable {H : Type}

structure Header (H : Type) where
  parentHash : H
  number : UInt64
  stateRoot : H
  extrinsicsRoot : H
  logs : List Bytes

-- `DigestItem` of the RPC: the seal without its relay proof.
structure SealItem (H : Type) where
  authorityId : AuthorityId
  powTarget : PowTarget
  timestamp : UInt64
  workProof : WorkProof H

structure Job (H : Type) where
  hash : H
  header : Header H
  digestItem : SealItem H

structure JobResult (H : Type) where
  hash : H
  workProof : WorkProof H
  deriving DecidableEq

def Header.ofHeader (header : BlockHeader H) : Run (Header H) := do
  let logs ← header.logs.mapM DigestItem.encode
  return ⟨header.parentHash, header.number, header.stateRoot, header.extrinsicsRoot, logs⟩

def SealItem.ofSeal (sealed : PowSeal H) : SealItem H :=
  ⟨sealed.authorityId, sealed.powTarget, sealed.timestamp, sealed.workProof⟩

-- `From<DefaultJob>`: what `mining_getJob` answers.
def Job.ofDefault (job : DefaultJob H) : Run (Job H) := do
  let header ← Header.ofHeader job.header
  return ⟨job.hash, header, .ofSeal job.digestItem⟩

-- `mining_submitJob` puts the work proof into the job that it kept under the hash.
def JobResult.into (result : JobResult H) (job : DefaultJob H) : DefaultJob H :=
  { job with digestItem := { job.digestItem with workProof := result.workProof } }

end Rpc

end Yeeroot
