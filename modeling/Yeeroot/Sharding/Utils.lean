import Yeeroot.Scale

namespace Yeeroot.Sharding

open Scale

-- `while s > 0 { s >>= 1; i += 1 }`. Sixteen rounds empty a u16.
def log2Loop : Nat → UInt16 → UInt16 → UInt16
  | 0, _, i => i
  | fuel + 1, s, i => if 0 < s then log2Loop fuel (s >>> 1) (i + 1) else i

def log2 (n : UInt16) : UInt16 := log2Loop 16 n 0 - 1

def pow2 (n : UInt16) : UInt16 := 1 <<< n

def getDigits (shardCount : UInt16) : Option UInt16 :=
  if shardCount = 0 then none
  else if pow2 (log2 shardCount) = shardCount then some (log2 shardCount)
  else none

def fromBeBytes (high low : UInt8) : UInt16 := UInt16.ofNat (256 * high.toNat + low.toNat)

def shardNumForBytes (bytes : Bytes) (shardCount : UInt16) : Option UInt16 :=
  if bytes.length < 2 then none
  else
    (getDigits shardCount).map fun digits =>
      let a := fromBeBytes (bytes.getD (bytes.length - 2) 0) (bytes.getD (bytes.length - 1) 0)
      let mask := ~~~((~~~0 : UInt16) <<< digits)
      a &&& mask

def shardNumFor {n : Nat} (account : FixedBytes n) (shardCount : UInt16) : Option UInt16 :=
  shardNumForBytes account.val shardCount

end Yeeroot.Sharding
