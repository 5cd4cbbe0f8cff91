import Yeeroot.Digest
import Yeeroot.Scale.Codec

namespace Yeeroot.Pow

open Scale

-- `U256`.
abbrev PowTarget := BitVec 256

abbrev AuthorityId := FixedBytes 32

abbrev ExtraData := FixedBytes 40

structure ProofNonce where
  extraData : ByteVec
  nonce : UInt64
  deriving DecidableEq

-- `H` is the block's hash type.
structure ProofMulti (H : Type) where
  extraData : ExtraData
  merkleRoot : H
  nonce : UInt64
  merkleProof : List H
  deriving DecidableEq

inductive WorkProof (H : Type) where
  | unknown
  | nonce (proof : ProofNonce)
  | multi (proof : ProofMulti H)
  deriving DecidableEq

structure PowSeal (H : Type) where
  authorityId : AuthorityId
  powTarget : PowTarget
  timestamp : UInt64
  workProof : WorkProof H
  relayProof : H256
  deriving DecidableEq

variable {H : Type} (codec : Codec H)

def WorkProof.encode : WorkProof H → Bytes
  | .unknown => [0]
  | .nonce proof => 1 :: (encodeByteVec proof.extraData ++ encodeLE 8 proof.nonce.toNat)
  | .multi proof =>
    2 :: (proof.extraData.val ++ codec.encode proof.merkleRoot ++ encodeLE 8 proof.nonce.toNat ++
      encodeVec codec.encode proof.merkleProof)

def WorkProof.decode (input : Bytes) : Option (WorkProof H × Bytes) := do
  let (variant, input) ← readByte input
  if variant = 0 then return (.unknown, input)
  else if variant = 1 then do
    let (extraData, input) ← decodeByteVec input
    let (value, input) ← decodeU64 input
    return (.nonce ⟨extraData, value⟩, input)
  else if variant = 2 then do
    let (extraData, input) ← readFixed 40 input
    let (merkleRoot, input) ← codec.decode input
    let (value, input) ← decodeU64 input
    let (merkleProof, input) ← decodeVec codec.decode input
    return (.multi ⟨extraData, merkleRoot, value, merkleProof⟩, input)
  else none

def PowSeal.encode (sealed : PowSeal H) : Bytes :=
  sealed.authorityId.val ++ encodeLE 32 sealed.powTarget.toNat ++ encodeLE 8 sealed.timestamp.toNat ++
    sealed.workProof.encode codec ++ sealed.relayProof.val

def PowSeal.decode (input : Bytes) : Option (PowSeal H × Bytes) := do
  let (authorityId, input) ← readFixed 32 input
  let (powTarget, input) ← decodeLE 32 input
  let (timestamp, input) ← decodeU64 input
  let (workProof, input) ← WorkProof.decode codec input
  let (relayProof, input) ← readFixed 32 input
  return (⟨authorityId, BitVec.ofNat 256 powTarget, timestamp, workProof, relayProof⟩, input)

-- `Yee!`.
def YEE_POW_ENGINE_ID : FixedBytes 4 := ⟨[0x59, 0x65, 0x65, 0x21], rfl⟩

def powSeal (sealed : PowSeal H) : DigestItem := .consensus YEE_POW_ENGINE_ID (sealed.encode codec)

-- Bytes after the seal are ignored.
def asPowSeal (item : DigestItem) : Option (PowSeal H) :=
  match item with
  | .consensus engine data =>
    if engine = YEE_POW_ENGINE_ID then (PowSeal.decode codec data).map Prod.fst else none
  | _ => none

-- The header of a block, with the parts that only its hash reads.
structure BlockHeader (H : Type) where
  parentHash : H
  number : UInt64
  stateRoot : H
  extrinsicsRoot : H
  logs : List DigestItem
  deriving DecidableEq

def BlockHeader.shardInfo (header : BlockHeader H) : Option (UInt16 × UInt16) :=
  lastLog header.logs DigestItem.asShardingInfo

def BlockHeader.lastSeal (header : BlockHeader H) : Option (PowSeal H) :=
  lastLog header.logs (asPowSeal codec)

-- `header.digest_mut().push(pow_seal(seal))`.
def BlockHeader.push (header : BlockHeader H) (sealed : PowSeal H) : BlockHeader H :=
  { header with logs := header.logs ++ [powSeal codec sealed] }

end Yeeroot.Pow
