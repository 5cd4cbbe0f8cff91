import Yeeroot.Executive.Block
import Yeeroot.Pow.Seal
import Yeeroot.Rpc.Mining

namespace Yeeroot

open Scale Yeeroot.Pow

def SHARD_MODULE_PREFIX : UInt8 := 2

def SHARD_SHARDING_PREFIX : UInt8 := 0

structure ShardDigestItem where
  shardNum : UInt16
  shardCount : UInt16
  deriving DecidableEq

structure PowSealItem where
  relayProof : H256
  deriving DecidableEq

-- The executor's own copy of the digest item. Three of its variants have lost their payload.
inductive DigestItemEnum where
  | other (data : ByteVec)
  | authoritiesChange
  | changesTrieRoot
  | seal
  | consensus (engine : FixedBytes 4) (data : ByteVec)
  deriving DecidableEq

def DigestItemEnum.decode (input : Bytes) : Option (DigestItemEnum × Bytes) := do
  let (variant, input) ← readByte input
  if variant = 0 then do
    let (data, input) ← decodeByteVec input
    return (.other data, input)
  else if variant = 1 then return (.authoritiesChange, input)
  else if variant = 2 then return (.changesTrieRoot, input)
  else if variant = 3 then return (.seal, input)
  else if variant = 4 then do
    let (engine, input) ← readFixed 4 input
    let (data, input) ← decodeByteVec input
    return (.consensus engine data, input)
  else none

def DigestItemEnum.shard? : DigestItemEnum → Option ShardDigestItem
  | .other data =>
    if data.bytes.length = 6 ∧ data.bytes[0]? = some SHARD_MODULE_PREFIX ∧
        data.bytes[1]? = some SHARD_SHARDING_PREFIX then do
      let (shardNum, input) ← decodeU16 (data.bytes.drop 2)
      let (shardCount, _) ← decodeU16 input
      return ⟨shardNum, shardCount⟩
    else none
  | _ => none

-- The engine is not looked at, and the relay root is taken from the end.
def DigestItemEnum.powSeal? : DigestItemEnum → Option PowSealItem
  | .consensus _ data =>
    if 32 ≤ data.bytes.length then do
      let (relayProof, _) ← readFixed 32 (data.bytes.drop (data.bytes.length - 32))
      return ⟨relayProof⟩
    else none
  | _ => none

abbrev DigestItems := Option ShardDigestItem × Option PowSealItem

-- The body of the loop: a log that is read replaces what an earlier one gave.
def DigestItemEnum.note (found : DigestItems) (log : DigestItemEnum) : DigestItems :=
  (log.shard?.or found.1, log.powSeal?.or found.2)

def digestItems (logs : Bytes) : Run DigestItems := do
  let (logs, _) ← Run.expect (decodeVec DigestItemEnum.decode logs)
    "called `Option::unwrap()` on a `None` value"
  return logs.foldl DigestItemEnum.note (none, none)

-- The logs of a header as one `Vec`, which is what the node passes as `extra`.
def encodeLogs (logs : List DigestItem) : Run Bytes := do
  let encoded ← logs.mapM DigestItem.encode
  if logs.length < 2 ^ 32 then return encodeCompact logs.length ++ encoded.flatten
  else .error ⟨"Attempted to serialize a collection with too many elements."⟩

-- `execute_block` between its initial and its final checks.
def executeWithExtra {σ : Type} (env : Substrate σ) (ml : MerkleLight H256)
    (extrinsics : List UncheckedExtrinsic) (number : UInt64) (extra : Option Bytes)
    (st : State σ) : Run (State σ) := do
  let found ← match extra with
    | some extra => digestItems extra
    | none => .ok (none, none)
  match found with
  | (some shard, some powSeal) =>
    executeExtrinsicsWithBookKeepingWithProof env ml extrinsics number powSeal.relayProof
      shard.shardNum shard.shardCount st
  | _ => executeExtrinsicsWithBookKeeping env extrinsics number st

section Node

variable {H : Type} (codec : Codec H)

def ShardDigestItem.ofInfo (info : UInt16 × UInt16) : ShardDigestItem := ⟨info.1, info.2⟩

def PowSealItem.ofSeal (sealed : PowSeal H) : PowSealItem := ⟨sealed.relayProof⟩

def nodeDigestItems (logs : List DigestItem) : DigestItems :=
  ((lastLog logs DigestItem.asShardingInfo).map .ofInfo,
    (lastLog logs (asPowSeal codec)).map .ofSeal)

end Node

end Yeeroot
