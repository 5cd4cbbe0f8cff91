import Yeeroot.Primitives

namespace Yeeroot

open Scale

structure ScaleOut where
  shardNum : UInt16
  deriving DecidableEq

structure ShardInfo where
  num : UInt16
  count : UInt16
  scaleOut : Option ScaleOut
  deriving DecidableEq

inductive RewardCondition where
  | normal
  | slash
  deriving DecidableEq

structure PowInfo where
  coinbase : AccountId
  rewardCondition : RewardCondition
  deriving DecidableEq

-- The arguments of `Relay::transfer`.
structure RelayCall where
  relayType : RelayTypes
  tx : ByteVec
  number : UInt64
  hash : H256
  parent : H256
  deriving DecidableEq

-- The modules of the runtime that Substrate itself provides.
inductive SubstrateModule where
  | timestamp
  | consensus
  | indices
  deriving DecidableEq

-- One constructor for each dispatchable of `construct_runtime!`. The calls of
-- Substrate's own modules keep their arguments as bytes.
inductive Call where
  | substrate (owner : SubstrateModule) (args : Bytes)
  | powSetPowInfo (info : PowInfo)
  | balancesTransfer (dest : Address) (value : Balance)
  | balancesSetBalance (who : Address) (free reserved : Balance)
  | shardingSetShardInfo (info : ShardInfo)
  | crfgUpdateAuthorities (info : SessionKey)
  | crfgForceUpdateAuthorities (authorities : List (SessionKey × UInt64)) (median : UInt64)
  | trackerWriteFinalizedLog (hint : UInt64)
  | assetsIssue (name : ByteVec) (total : Balance) (decimals : UInt16)
  | assetsTransfer (shardCode : ByteVec) (id : UInt32) (target : Address) (amount : Balance)
  | relayTransfer (relay : RelayCall)
  | storageStore (data : ByteVec)
  | sudoSudo (proposal : Call)
  | sudoSetKeys (new : List Address)
  deriving DecidableEq

def decodeBalance (input : Bytes) : Option (Balance × Bytes) := do
  let (value, input) ← decodeCompact 16 input
  return (BitVec.ofNat 128 value, input)

def ShardInfo.encode (info : ShardInfo) : Bytes :=
  encodeLE 2 info.num.toNat ++ encodeLE 2 info.count.toNat ++
    encodeOption (fun scaleOut : ScaleOut => encodeLE 2 scaleOut.shardNum.toNat) info.scaleOut

def decodeScaleOut (input : Bytes) : Option (ScaleOut × Bytes) := do
  let (shardNum, input) ← decodeU16 input
  return (⟨shardNum⟩, input)

def ShardInfo.decode (input : Bytes) : Option (ShardInfo × Bytes) := do
  let (num, input) ← decodeU16 input
  let (count, input) ← decodeU16 input
  let (scaleOut, input) ← decodeOption decodeScaleOut input
  return (⟨num, count, scaleOut⟩, input)

def PowInfo.encode (info : PowInfo) : Bytes :=
  info.coinbase.val ++ match info.rewardCondition with
    | .normal => [0]
    | .slash => [1]

def PowInfo.decode (input : Bytes) : Option (PowInfo × Bytes) := do
  let (coinbase, input) ← readFixed 32 input
  let (condition, input) ← readByte input
  if condition = 0 then return (⟨coinbase, .normal⟩, input)
  else if condition = 1 then return (⟨coinbase, .slash⟩, input)
  else none

def RelayCall.encode (relay : RelayCall) : Bytes :=
  relay.relayType.encode ++ encodeByteVec relay.tx ++ encodeCompact relay.number.toNat ++
    relay.hash.val ++ relay.parent.val

def RelayCall.decode (input : Bytes) : Option (RelayCall × Bytes) := do
  let (relayType, input) ← RelayTypes.decode input
  let (tx, input) ← decodeByteVec input
  let (number, input) ← decodeCompact 8 input
  let (hash, input) ← readFixed 32 input
  let (parent, input) ← readFixed 32 input
  return (⟨relayType, tx, UInt64.ofNat number, hash, parent⟩, input)

def encodeAuthority (authority : SessionKey × UInt64) : Bytes :=
  authority.1.val ++ encodeLE 8 authority.2.toNat

def decodeAuthority (input : Bytes) : Option ((SessionKey × UInt64) × Bytes) := do
  let (key, input) ← readFixed 32 input
  let (weight, input) ← decodeU64 input
  return ((key, weight), input)

def SubstrateModule.number : SubstrateModule → UInt8
  | .timestamp => 0
  | .consensus => 1
  | .indices => 3

-- Module and function numbers follow the order of `construct_runtime!` and of
-- each module's functions.
def Call.encode : Call → Bytes
  | .substrate owner args => owner.number :: args
  | .powSetPowInfo info => 2 :: 0 :: info.encode
  | .balancesTransfer dest value => 4 :: 0 :: (dest.encode ++ encodeCompact value.toNat)
  | .balancesSetBalance who free reserved =>
    4 :: 1 :: (who.encode ++ encodeCompact free.toNat ++ encodeCompact reserved.toNat)
  | .shardingSetShardInfo info => 5 :: 0 :: info.encode
  | .crfgUpdateAuthorities info => 6 :: 0 :: info.val
  | .crfgForceUpdateAuthorities authorities median =>
    6 :: 1 :: (encodeVec encodeAuthority authorities ++ encodeLE 8 median.toNat)
  | .trackerWriteFinalizedLog hint => 7 :: 0 :: encodeLE 8 hint.toNat
  | .assetsIssue name total decimals =>
    8 :: 0 :: (encodeByteVec name ++ encodeCompact total.toNat ++ encodeCompact decimals.toNat)
  | .assetsTransfer shardCode id target amount =>
    8 :: 1 :: (encodeByteVec shardCode ++ encodeCompact id.toNat ++ target.encode ++
      encodeCompact amount.toNat)
  | .relayTransfer relay => 9 :: 0 :: relay.encode
  | .storageStore data => 10 :: 0 :: encodeByteVec data
  | .sudoSudo proposal => 11 :: 0 :: proposal.encode
  | .sudoSetKeys new => 11 :: 1 :: encodeVec Address.encode new

-- `args` reads the arguments of one call of a Substrate module.
abbrev SubstrateArgs := SubstrateModule → Bytes → Option (Bytes × Bytes)

-- A boxed proposal is decoded recursively; every level consumes its two
-- selector bytes, so the input's length is enough fuel.
def Call.decodeFuel (args : SubstrateArgs) : Nat → Bytes → Option (Call × Bytes)
  | 0, _ => none
  | fuel + 1, input => do
    let (moduleByte, input) ← readByte input
    if moduleByte = 0 then do
      let (bytes, input) ← args .timestamp input
      return (.substrate .timestamp bytes, input)
    else if moduleByte = 1 then do
      let (bytes, input) ← args .consensus input
      return (.substrate .consensus bytes, input)
    else if moduleByte = 3 then do
      let (bytes, input) ← args .indices input
      return (.substrate .indices bytes, input)
    else do
      let (function, input) ← readByte input
      match moduleByte, function with
      | 2, 0 => do
        let (info, input) ← PowInfo.decode input
        return (.powSetPowInfo info, input)
      | 4, 0 => do
        let (dest, input) ← Address.decode input
        let (value, input) ← decodeBalance input
        return (.balancesTransfer dest value, input)
      | 4, 1 => do
        let (who, input) ← Address.decode input
        let (free, input) ← decodeBalance input
        let (reserved, input) ← decodeBalance input
        return (.balancesSetBalance who free reserved, input)
      | 5, 0 => do
        let (info, input) ← ShardInfo.decode input
        return (.shardingSetShardInfo info, input)
      | 6, 0 => do
        let (info, input) ← readFixed 32 input
        return (.crfgUpdateAuthorities info, input)
      | 6, 1 => do
        let (authorities, input) ← decodeVec decodeAuthority input
        let (median, input) ← decodeU64 input
        return (.crfgForceUpdateAuthorities authorities median, input)
      | 7, 0 => do
        let (hint, input) ← decodeU64 input
        return (.trackerWriteFinalizedLog hint, input)
      | 8, 0 => do
        let (name, input) ← decodeByteVec input
        let (total, input) ← decodeBalance input
        let (decimals, input) ← decodeCompact 2 input
        return (.assetsIssue name total (UInt16.ofNat decimals), input)
      | 8, 1 => do
        let (shardCode, input) ← decodeByteVec input
        let (id, input) ← decodeCompact 4 input
        let (target, input) ← Address.decode input
        let (amount, input) ← decodeBalance input
        return (.assetsTransfer shardCode (UInt32.ofNat id) target amount, input)
      | 9, 0 => do
        let (relay, input) ← RelayCall.decode input
        return (.relayTransfer relay, input)
      | 10, 0 => do
        let (data, input) ← decodeByteVec input
        return (.storageStore data, input)
      | 11, 0 => do
        let (proposal, input) ← Call.decodeFuel args fuel input
        return (.sudoSudo proposal, input)
      | 11, 1 => do
        let (new, input) ← decodeVec Address.decode input
        return (.sudoSetKeys new, input)
      | _, _ => none

def Call.decode (args : SubstrateArgs) (input : Bytes) : Option (Call × Bytes) :=
  Call.decodeFuel args (input.length + 1) input

structure SignatureInfo where
  signed : Address
  signature : Signature
  index : UInt64
  era : Era
  deriving DecidableEq

def SignatureInfo.encode (info : SignatureInfo) : Bytes :=
  info.signed.encode ++ info.signature.val ++ encodeCompact info.index.toNat ++ info.era.encode

def SignatureInfo.decode (input : Bytes) : Option (SignatureInfo × Bytes) := do
  let (signed, input) ← Address.decode input
  let (signature, input) ← readFixed 64 input
  let (index, input) ← decodeCompact 8 input
  let (era, input) ← Era.decode input
  return (⟨signed, signature, UInt64.ofNat index, era⟩, input)

-- `UncheckedMortalCompactExtrinsic`.
structure UncheckedExtrinsic where
  signature : Option SignatureInfo
  function : Call
  deriving DecidableEq

def UncheckedExtrinsic.isSigned (uxt : UncheckedExtrinsic) : Bool := uxt.signature.isSome

def UncheckedExtrinsic.payload (uxt : UncheckedExtrinsic) : Bytes :=
  match uxt.signature with
  | some info => 0x81 :: (info.encode ++ uxt.function.encode)
  | none => 0x01 :: uxt.function.encode

-- The payload as a `Vec<u8>`. The cast to u32 is the encoder's own.
def withVecPrefix (payload : Bytes) : Bytes :=
  encodeCompact (payload.length % 2 ^ 32) ++ payload

def UncheckedExtrinsic.encode (uxt : UncheckedExtrinsic) : Bytes := withVecPrefix uxt.payload

-- The length prefix is read and not used: the extrinsic ends where its call ends.
def UncheckedExtrinsic.decode (args : SubstrateArgs) (input : Bytes) :
    Option (UncheckedExtrinsic × Bytes) := do
  let (_, input) ← decodeUnitVec input
  let (version, input) ← readByte input
  if version &&& 0x7f ≠ 1 then none
  else if version &&& 0x80 ≠ 0 then do
    let (info, input) ← SignatureInfo.decode input
    let (function, input) ← Call.decode args input
    return (⟨some info, function⟩, input)
  else do
    let (function, input) ← Call.decode args input
    return (⟨none, function⟩, input)

-- `opaque::UncheckedExtrinsic`: the node side keeps an extrinsic as its bytes.
structure OpaqueExtrinsic where
  bytes : Bytes
  deriving DecidableEq

def OpaqueExtrinsic.encode (tx : OpaqueExtrinsic) : Bytes := withVecPrefix tx.bytes

def UncheckedExtrinsic.toOpaque (uxt : UncheckedExtrinsic) : OpaqueExtrinsic := ⟨uxt.payload⟩

-- The runtime reads a body as one stream. An item that is longer or shorter than its
-- call moves the start of the next one.
def decodeBody (args : SubstrateArgs) (body : List OpaqueExtrinsic) :
    Option (List UncheckedExtrinsic) :=
  (decodeItems (UncheckedExtrinsic.decode args) body.length
    (body.flatMap OpaqueExtrinsic.encode)).map Prod.fst

end Yeeroot
