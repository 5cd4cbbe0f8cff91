import Yeeroot.Crfg.Authorities

namespace Yeeroot.Crfg

structure ChainInfo where
  bestNumber : UInt64
  finalizedHash : H256
  finalizedNumber : UInt64

-- What the voter reads from the client's blockchain: the hash of a number on the canonical
-- chain, and the number in the header of a hash.
structure Blockchain where
  info : Except ClientError ChainInfo
  hash : UInt64 → Except ClientError (Option H256)
  headerNumber : H256 → Except ClientError (Option UInt64)

def BLOCK_FINAL_LATENCY : UInt64 := 6

-- `unwrap_or(None)`.
def orNone {α : Type} : Except ClientError (Option α) → Option α
  | .ok value => value
  | .error _ => none

-- The block itself is not looked at.
def bestChainContaining (chain : Blockchain) (setId currentSetId : UInt64) (_block : H256) :
    Run (Option (H256 × UInt64)) :=
  if setId ≠ currentSetId then .ok none
  else
    match chain.info with
    | .error _ => .error ⟨"afg, Failed to get blockchain info."⟩
    | .ok info =>
      if BLOCK_FINAL_LATENCY < info.bestNumber - info.finalizedNumber then
        match orNone (chain.hash (info.finalizedNumber + 1)) with
        | some hash =>
          match orNone (chain.headerNumber hash) with
          | some number => .ok (some (hash, number))
          | none => .ok (some (info.finalizedHash, info.finalizedNumber))
        | none => .ok (some (info.finalizedHash, info.finalizedNumber))
      else .ok (some (info.finalizedHash, info.finalizedNumber))

end Yeeroot.Crfg
