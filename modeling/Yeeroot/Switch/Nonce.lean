import Yeeroot.Switch.WorkManager

namespace Yeeroot.Switch

open Scale Yeeroot.Pow

variable {H : Type} (hashing : Hashing H)

def NONCE_STEPS : Nat := 100000

-- One round of the worker of the switch, over the nonces that are left.
def searchNonce (work : Work H) : List UInt64 → Option (Work H)
  | [] => none
  | candidate :: candidates =>
    let sourcePowTarget :=
      hashing.target (hashing.source work.merkleRoot candidate work.extraData)
    if sourcePowTarget ≤ work.target then
      some { work with nonce := some candidate, nonceTarget := some sourcePowTarget }
    else searchNonce work candidates

def mineWork (work : Work H) (nonceStart : UInt64) : Option (Work H) :=
  searchNonce hashing work
    ((List.range NONCE_STEPS).map fun step => nonceStart + UInt64.ofNat step)

structure SubmitJob (H : Type) where
  merkleRoot : H
  extraData : ExtraData
  nonce : UInt64
  nonceTarget : PowTarget

-- The root, the nonce with its low byte first, and 36 bytes of extra data without
-- their checksum.
def decodeSubmitWork (input : Bytes) : Option (SubmitJob H) :=
  if input.length < 76 then none
  else do
    let (merkleRoot, _) ← hashing.codec.decode (input.take 32)
    let (value, _) ← decodeU64 (input.drop 32)
    let (extra, _) ← readFixed 36 (input.drop 40)
    let extraData := extraDataOf hashing extra
    return ⟨merkleRoot, extraData, value,
      hashing.target (hashing.source merkleRoot value extraData)⟩

-- `submit_work` after the text was decoded: the work that is handed to the manager.
def submittedWork (now : Nat) (cache : WorkCache H) (input : Bytes) : Option (Work H) := do
  let job ← decodeSubmitWork hashing input
  let rawWork ← getCache now cache job.merkleRoot
  return { rawWork.work with
    extraData := job.extraData
    nonce := some job.nonce
    nonceTarget := some job.nonceTarget }

end Yeeroot.Switch
