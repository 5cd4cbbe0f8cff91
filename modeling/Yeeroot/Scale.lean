import Mathlib.Algebra.Ring.Nat
import Mathlib.Data.Nat.Log
import Mathlib.Tactic.SplitIfs

namespace Yeeroot.Scale

-- The SCALE format as the parity-codec crate documents it. A decoder takes the
-- input slice and returns the value with the unread part; `none` is a failed
-- `Decode::decode`.
abbrev Bytes := List UInt8

abbrev FixedBytes (n : Nat) := {bytes : Bytes // bytes.length = n}

-- A `Vec<u8>`. The encoder refuses more than `u32::MAX` elements.
structure ByteVec where
  bytes : Bytes
  fits : bytes.length < 2 ^ 32
  deriving DecidableEq

def readByte : Bytes → Option (UInt8 × Bytes)
  | [] => none
  | byte :: rest => some (byte, rest)

def readBytes (n : Nat) (input : Bytes) : Option (Bytes × Bytes) :=
  if n ≤ input.length then some (input.take n, input.drop n) else none

def readFixed (n : Nat) (input : Bytes) : Option (FixedBytes n × Bytes) :=
  if h : n ≤ input.length then some (⟨input.take n, by simp [h]⟩, input.drop n) else none

-- Fixed-width integers are little endian.
def encodeLE : Nat → Nat → Bytes
  | 0, _ => []
  | n + 1, value => UInt8.ofNat (value % 256) :: encodeLE n (value / 256)

def valueLE : Bytes → Nat
  | [] => 0
  | byte :: rest => byte.toNat + 256 * valueLE rest

def decodeLE (n : Nat) (input : Bytes) : Option (Nat × Bytes) := do
  let (bytes, input) ← readBytes n input
  return (valueLE bytes, input)

def decodeU16 (input : Bytes) : Option (UInt16 × Bytes) := do
  let (value, input) ← decodeLE 2 input
  return (UInt16.ofNat value, input)

def decodeU64 (input : Bytes) : Option (UInt64 × Bytes) := do
  let (value, input) ← decodeLE 8 input
  return (UInt64.ofNat value, input)

-- The payload width of the big-integer mode.
def bytesNeeded (value : Nat) : Nat := Nat.log2 value / 8 + 1

-- The low two bits of the first byte select the mode.
def encodeCompact (value : Nat) : Bytes :=
  if value < 2 ^ 6 then [UInt8.ofNat (value * 4)]
  else if value < 2 ^ 14 then encodeLE 2 (value * 4 + 1)
  else if value < 2 ^ 30 then encodeLE 4 (value * 4 + 2)
  else UInt8.ofNat ((bytesNeeded value - 4) * 4 + 3) :: encodeLE (bytesNeeded value) value

-- `Compact<uN>` for N = 8 * width with width 2, 4, 8 or 16. The decoder does not
-- ask for the shortest mode; only values too large for the type are rejected.
def decodeCompact (width : Nat) (input : Bytes) : Option (Nat × Bytes) := do
  let (first, rest) ← readByte input
  match first.toNat % 4 with
  | 0 => return (first.toNat / 4, rest)
  | 1 => do
    let (value, rest) ← decodeLE 2 input
    return (value / 4, rest)
  | 2 => do
    let (value, rest) ← decodeLE 4 input
    if value / 4 < 2 ^ (8 * width) then return (value / 4, rest) else none
  | _ => if first.toNat / 4 + 4 ≤ width then decodeLE (first.toNat / 4 + 4) rest else none

def encodeByteVec (vec : ByteVec) : Bytes :=
  encodeCompact vec.bytes.length ++ vec.bytes

-- The bound on the length always holds: it is decoded as a `Compact<u32>`.
def decodeByteVec (input : Bytes) : Option (ByteVec × Bytes) := do
  let (length, input) ← decodeCompact 4 input
  if h : length ≤ input.length ∧ length < 2 ^ 32 then
    return (⟨input.take length, by simp only [List.length_take]; omega⟩, input.drop length)
  else none

-- `Vec<()>` has no payload. Extrinsics use it to skip their length prefix.
def decodeUnitVec (input : Bytes) : Option (Nat × Bytes) := decodeCompact 4 input

def encodeOption {α : Type} (encode : α → Bytes) : Option α → Bytes
  | none => [0]
  | some value => 1 :: encode value

def decodeOption {α : Type} (decode : Bytes → Option (α × Bytes)) (input : Bytes) :
    Option (Option α × Bytes) := do
  let (first, input) ← readByte input
  if first = 0 then return (none, input)
  else if first = 1 then do
    let (value, input) ← decode input
    return (some value, input)
  else none

def encodeVec {α : Type} (encode : α → Bytes) (items : List α) : Bytes :=
  encodeCompact items.length ++ items.flatMap encode

def decodeItems {α : Type} (decode : Bytes → Option (α × Bytes)) :
    Nat → Bytes → Option (List α × Bytes)
  | 0, input => some ([], input)
  | n + 1, input => do
    let (item, input) ← decode input
    let (items, input) ← decodeItems decode n input
    return (item :: items, input)

def decodeVec {α : Type} (decode : Bytes → Option (α × Bytes)) (input : Bytes) :
    Option (List α × Bytes) := do
  let (length, input) ← decodeCompact 4 input
  decodeItems decode length input

-- A wire format for a type whose own layout does not matter.
structure Codec (α : Type) where
  encode : α → Bytes
  decode : Bytes → Option (α × Bytes)
  decode_append : ∀ value rest, decode (encode value ++ rest) = some (value, rest)

end Yeeroot.Scale
