import Yeeroot.Overflow
import Yeeroot.Pow.WorkProof

namespace Yeeroot.Pow

open Scale

structure Context where
  genesisPowTarget : PowTarget
  genesisPowTargetAdj : UInt64
  genesisTargetBlockTime : UInt64
  genesisShardCount : UInt16
  genesisScaleOutObserveBlocks : UInt64

-- The header lookups of a node. A number is looked up on the best chain only.
structure Client (H : Type) where
  header : H → Option (BlockHeader H)
  headerByNumber : UInt64 → Option (BlockHeader H)

variable {H : Type} (build : Build)

-- `target_block_time * 1000 * block_gap`.
def expectedGap (context : Context) : Run UInt64 := do
  let millis ← build.mul64 context.genesisTargetBlockTime 1000
  build.mul64 millis context.genesisPowTargetAdj

-- `overflowing_mul`, with the genesis target in place of an overflow.
def scaleTarget (context : Context) (target : PowTarget) (gap timeGap : UInt64) : PowTarget :=
  let product := (target / BitVec.ofNat 256 gap.toNat).toNat * timeGap.toNat
  if 2 ^ 256 ≤ product then context.genesisPowTarget else BitVec.ofNat 256 product

def adjustTarget (context : Context) (target : PowTarget) (timestamp lastTime : UInt64) :
    Run PowTarget :=
  if timestamp < lastTime then .error ⟨s!"timestamp:{timestamp} < last_time: {lastTime}"⟩
  else do
    let gap ← expectedGap build context
    if gap = 0 then .error ⟨"division by zero"⟩
    else return scaleTarget context target gap (timestamp - lastTime)

-- The branch for the first block of a period. The ancestor is looked up by number.
def calcAdjusted (codec : Codec H) (client : Client H) (currHeader header : BlockHeader H)
    (timestamp : UInt64) (context : Context) : Run PowTarget := do
  let currSeal ← Run.expect (currHeader.lastSeal codec)
    "Seal must exist when adjustment comes; qed"
  let number ← build.sub64 header.number context.genesisPowTargetAdj
  let ancestorHeader ← Run.expect (client.headerByNumber number)
    "parent block must exist for sealer; qed"
  let ancestorSeal ← Run.expect (ancestorHeader.lastSeal codec)
    "can't get PowSeal in pre-block's header"
  adjustTarget build context currSeal.powTarget timestamp ancestorSeal.timestamp

def calcPowTarget (codec : Codec H) (client : Client H) (header : BlockHeader H)
    (timestamp : UInt64) (context : Context) : Run PowTarget := do
  let currHeader ← Run.expect (client.header header.parentHash)
    "parent block must exist for sealer; qed"
  if header.number = 1 then return context.genesisPowTarget
  else do
    let below ← build.sub64 header.number 1
    let position ← rem64 below context.genesisPowTargetAdj
    if position ≠ 0 then
      match currHeader.lastSeal codec with
      | some currSeal => return currSeal.powTarget
      | none => return context.genesisPowTarget
    else calcAdjusted build codec client currHeader header timestamp context

end Yeeroot.Pow
