import Yeeroot.Extrinsic

namespace Yeeroot

open Scale

def SHARD_CODE_SIZE : Nat := 2

def MAX_STORAGE_SIZE : Nat := 1 * 1024 * 1024

def MIN_RELAY_SIZE : Nat := 2 + 32 + 32 + 64

structure RelayParams where
  number : UInt64
  hash : H256
  blockHash : H256
  parentHash : H256
  relayType : RelayTypes
  origin : ByteVec
  deriving DecidableEq

-- The module and function bytes are read and not compared.
def RelayParams.decode (blake2 : Bytes → H256) (input : Bytes) : Option RelayParams :=
  if input.length ≤ MIN_RELAY_SIZE then none
  else do
    let (_, input) ← decodeUnitVec input
    let (version, input) ← readByte input
    if version &&& 0x80 ≠ 0 ∨ version &&& 0x7f ≠ 1 then none
    else do
      let (_, input) ← readByte input
      let (_, input) ← readByte input
      let (relayType, input) ← RelayTypes.decode input
      let (origin, input) ← decodeByteVec input
      let (number, input) ← decodeCompact 8 input
      let (blockHash, input) ← readFixed 32 input
      let (parentHash, _) ← readFixed 32 input
      return {
        number := UInt64.ofNat number
        hash := blake2 origin.bytes
        blockHash := blockHash
        parentHash := parentHash
        relayType := relayType
        origin := origin }

structure OriginExtrinsic where
  shard : Bytes
  id : Option UInt32
  sender : AccountId
  signature : Bytes
  index : UInt64
  era : Era
  dest : AccountId
  amount : Balance
  deriving DecidableEq

structure OriginSigner where
  sender : AccountId
  signature : Bytes
  index : UInt64
  era : Era
  deriving DecidableEq

def decodeOriginEra (input : Bytes) : Option (Era × Bytes) :=
  match input with
  | [] => none
  | first :: rest => if first ≠ 0 then Era.decode input else some (.immortal, rest)

-- The sender's address type byte is skipped and an account id is read after it.
def decodeOriginSigner (isSigned : Bool) (input : Bytes) : Option (OriginSigner × Bytes) :=
  if isSigned then do
    let (_, input) ← readByte input
    let (sender, input) ← readFixed 32 input
    let (signature, input) ← readBytes 64 input
    let (index, input) ← decodeCompact 8 input
    let (era, input) ← decodeOriginEra input
    return (⟨sender, signature, UInt64.ofNat index, era⟩, input)
  else some (⟨zero256, [], 0, .immortal⟩, input)

-- The asset's shard code and id precede the destination in an asset transfer only.
def decodeOriginAsset (relayType : RelayTypes) (input : Bytes) :
    Option ((Bytes × Option UInt32) × Bytes) :=
  match relayType with
  | .assets => do
    let (shard, input) ← decodeByteVec input
    let (id, input) ← decodeCompact 4 input
    return ((shard.bytes, some (UInt32.ofNat id)), input)
  | .balance => some (([], none), input)

def decodeOriginCall (relayType : RelayTypes) (signer : OriginSigner) (input : Bytes) :
    Option OriginExtrinsic :=
  if input.length < 2 + 32 + 1 then none
  else do
    let (_, input) ← readByte input
    let (_, input) ← readByte input
    let ((shard, id), input) ← decodeOriginAsset relayType input
    let (_, input) ← readByte input
    let (dest, input) ← readFixed 32 input
    let (amount, _) ← decodeBalance input
    return ⟨shard, id, signer.sender, signer.signature, signer.index, signer.era, dest, amount⟩

-- The relay type comes from the relay, not from the module byte.
def OriginExtrinsic.decode (relayType : RelayTypes) (input : Bytes) : Option OriginExtrinsic :=
  if input.length < 64 + 1 + 1 then none
  else do
    let (_, input) ← decodeUnitVec input
    let (version, input) ← readByte input
    if version &&& 0x7f ≠ 1 then none
    else do
      let (signer, input) ← decodeOriginSigner (version &&& 0x80 ≠ 0) input
      decodeOriginCall relayType signer input

-- `?` on a decoder that may fail, inside a function that may also panic.
def orNone {α β : Type} (value : Option α) (next : α → Run (Option β)) : Run (Option β) :=
  match value with
  | some value => next value
  | none => .ok none

def moduleRelayType (input : Bytes) : Run (Option RelayTypes) :=
  orNone (readByte input) fun (moduleByte, _) =>
    .ok (if moduleByte = 4 then some .balance else if moduleByte = 8 then some .assets else none)

-- Unlike `decode` this slices and indexes without a length check, and ignores the version.
def OriginExtrinsic.decodeType (input : Bytes) : Run (Option RelayTypes) :=
  orNone (decodeUnitVec input) fun (_, input) =>
  orNone (readByte input) fun (version, input) =>
  if version &&& 0x80 ≠ 0 then
    orNone (readByte input) fun (_, input) =>
    orNone (readFixed 32 input) fun (_, input) =>
    if input.length < 64 then .error ⟨"index 64 out of range for slice"⟩
    else
      orNone (decodeCompact 8 (input.drop 64)) fun (_, input) =>
      match input with
      | [] => .error ⟨"index out of bounds: the len is 0 but the index is 0"⟩
      | first :: rest =>
        if first ≠ 0 then orNone (Era.decode input) fun (_, input) => moduleRelayType input
        else moduleRelayType rest
  else moduleRelayType input

end Yeeroot
