import Yeeroot.Scale

namespace Yeeroot

open Scale

-- A Rust panic with its message, kept apart from the `Result` errors of the
-- functions that can raise it.
structure Panic where
  message : String
  deriving DecidableEq

abbrev Run (α : Type) := Except Panic α

def Run.expect {α : Type} (value : Option α) (message : String) : Run α :=
  match value with
  | some value => .ok value
  | none => .error ⟨message⟩

inductive Hrp where
  | mainnet
  | testnet
  deriving DecidableEq

abbrev AccountId := FixedBytes 32

instance : LawfulBEq AccountId := inferInstance

abbrev H256 := FixedBytes 32

abbrev Signature := FixedBytes 64

abbrev SessionKey := FixedBytes 32

abbrev Balance := BitVec 128

-- Accounts and hashes to run the model on.
def filled (n : Nat) (byte : UInt8) : FixedBytes n := ⟨List.replicate n byte, by simp⟩

-- `H256::default()` and `AccountId::default()`.
def zero256 : FixedBytes 32 := ⟨List.replicate 32 0, by simp⟩

-- `hash.as_ref().to_vec()`.
def hashVec (hash : H256) : ByteVec := ⟨hash.val, hash.property.trans_lt Nat.lt_two_pow_self⟩

inductive Address where
  | id (account : AccountId)
  | index (index : UInt32)
  deriving DecidableEq

def Address.encode : Address → Bytes
  | .id account => 0xff :: account.val
  | .index i =>
    if 0xffff < i then 0xfd :: encodeLE 4 i.toNat
    else if 0xf0 ≤ i then 0xfc :: encodeLE 2 i.toNat
    else [i.toUInt8]

-- Every index has one accepted form.
def Address.decode (input : Bytes) : Option (Address × Bytes) := do
  let (first, input) ← readByte input
  if first ≤ 0xef then return (.index first.toUInt32, input)
  else if first = 0xfc then do
    let (value, input) ← decodeLE 2 input
    if 0xef < value then return (.index (UInt32.ofNat value), input) else none
  else if first = 0xfd then do
    let (value, input) ← decodeLE 4 input
    if 0xffff < value then return (.index (UInt32.ofNat value), input) else none
  else if first = 0xff then do
    let (account, input) ← readFixed 32 input
    return (.id account, input)
  else none

-- The period and phase a mortal era's two bytes stand for.
def eraPeriod (encoded : UInt16) : Nat := 2 <<< (encoded.toNat % 16)

def eraPhase (encoded : UInt16) : Nat :=
  (encoded.toNat / 16) * max (eraPeriod encoded >>> 12) 1

structure MortalEra where
  encoded : UInt16
  valid : 4 ≤ eraPeriod encoded ∧ eraPhase encoded < eraPeriod encoded
  deriving DecidableEq

inductive Era where
  | immortal
  | mortal (era : MortalEra)
  deriving DecidableEq

def Era.encode : Era → Bytes
  | .immortal => [0]
  | .mortal era => encodeLE 2 era.encoded.toNat

def Era.decode (input : Bytes) : Option (Era × Bytes) := do
  let (first, rest) ← readByte input
  if first = 0 then return (.immortal, rest)
  else do
    let (encoded, rest) ← decodeU16 input
    if h : 4 ≤ eraPeriod encoded ∧ eraPhase encoded < eraPeriod encoded then
      return (.mortal ⟨encoded, h⟩, rest)
    else none

inductive RelayTypes where
  | balance
  | assets
  deriving DecidableEq

def RelayTypes.encode : RelayTypes → Bytes
  | .balance => [0]
  | .assets => [1]

def RelayTypes.decode (input : Bytes) : Option (RelayTypes × Bytes) := do
  let (first, input) ← readByte input
  if first = 0 then return (.balance, input)
  else if first = 1 then return (.assets, input)
  else none

end Yeeroot
