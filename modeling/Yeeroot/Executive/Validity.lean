import Yeeroot.Executive

namespace Yeeroot

open Scale

variable {σ : Type} (env : Substrate σ)

structure ValidTransaction where
  priority : UInt64
  requires : List Bytes
  provides : List Bytes
  longevity : UInt64
  deriving DecidableEq

-- Error codes are `i8`.
inductive TransactionValidity where
  | invalid (error : Int)
  | valid (transaction : ValidTransaction)
  | unknown (error : Int)
  deriving DecidableEq

-- The errors of `ApplyError` as `i8`.
def BAD_SIGNATURE_ERROR : Int := 0

def STALE : Int := 1

def FUTURE : Int := 2

def CANT_PAY : Int := 3

def INVALID_ORIGIN : Int := 127

-- The tag of the source block that a relay names.
def requiredTag (shardNum : UInt16) (number : UInt64) (blockHash parentHash : H256) : Bytes :=
  encodeCompact shardNum.toNat ++ encodeCompact number.toNat ++
    encodeByteVec (hashVec blockHash) ++ encodeByteVec (hashVec parentHash)

def relayCheck (rtx : RelayParams) (shardCount : UInt16) (st : State σ) :
    Run TransactionValidity :=
  if st.system.relayExtrinsic rtx.hash = 1 then .ok (.invalid STALE)
  else
    match OriginExtrinsic.decode rtx.relayType rtx.origin.bytes with
    | none => .ok (.invalid INVALID_ORIGIN)
    | some origin => do
      let shardNum ← Run.expect (Sharding.shardNumFor origin.sender shardCount)
        "called `Option::unwrap()` on a `None` value"
      return .valid {
        priority := 0
        requires := [requiredTag shardNum rtx.number rtx.blockHash rtx.parentHash]
        provides := []
        longevity := 0xffffffffffffffff }

def UNKNOWN_ERROR : Int := -127

def MISSING_SENDER : Int := -20

def INVALID_INDEX : Int := -10

-- `(sender, index).encode()`.
def nonceTag (sender : AccountId) (index : UInt64) : Bytes :=
  sender.val ++ encodeLE 8 index.toNat

-- `while expected_index < *index`, for which the check before leaves at most 256 rounds.
def dependencies (sender : AccountId) : Nat → UInt64 → UInt64 → List Bytes
  | 0, _, _ => []
  | fuel + 1, expectedIndex, index =>
    if expectedIndex < index then
      nonceTag sender expectedIndex :: dependencies sender fuel (expectedIndex + 1) index
    else []

-- The fee is paid before the nonce is read.
def validateSigned (sender : AccountId) (index : UInt64) (encodedLen : Nat) (st : State σ) :
    TransactionValidity :=
  match Balances.makePayment sender encodedLen st with
  | (_, .error _) => .invalid CANT_PAY
  | (st, .ok ()) =>
    let expectedIndex := st.system.accountNonce sender
    if index < expectedIndex then .invalid STALE
    else if expectedIndex + 256 < index then .unknown FUTURE
    else .valid {
      priority := UInt64.ofNat encodedLen
      requires := dependencies sender 256 expectedIndex index
      provides := [nonceTag sender index]
      longevity := 0xffffffffffffffff }

-- `unacceptableSender` is `ApplyError::UnacceptableSender as i8`.
def validateTransaction (unacceptableSender : Int) (uxt : UncheckedExtrinsic)
    (shardCount : UInt16) (st : State σ) : Run TransactionValidity := do
  let originData := uxt.encode
  match ← uxt.check env st with
  | .error error =>
    if error = "invalid account index" then return .unknown INVALID_INDEX
    else if error = BAD_SIGNATURE then return .invalid BAD_SIGNATURE_ERROR
    else if error = UNACCEPTABLE_SENDER then return .invalid unacceptableSender
    else return .invalid UNKNOWN_ERROR
  | .ok xt =>
    match xt.signed with
    | some (sender, index) => return validateSigned sender index originData.length st
    | none =>
      match RelayParams.decode env.blake2 originData with
      | some rtx => relayCheck rtx shardCount st
      | none => return .invalid MISSING_SENDER

end Yeeroot
