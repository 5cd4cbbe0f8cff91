import Yeeroot.Pow.WorkProof

namespace Yeeroot.Pow

variable {H : Type}

-- A block to be sealed. The body and its proof are not needed to seal it.
structure DefaultJob (H : Type) where
  hash : H
  header : BlockHeader H
  digestItem : PowSeal H
  deriving DecidableEq

-- `build_job`. The target is `calc_pow_target` of the header, the relay proof the root
-- that `gen_extrinsic_proof` computes for the body.
def buildJob (hashing : Hashing H) (header : BlockHeader H) (authorityId : AuthorityId)
    (powTarget : PowTarget) (timestamp : UInt64) (relayProof : H256) : DefaultJob H :=
  let powSeal := ⟨authorityId, powTarget, timestamp, .unknown, relayProof⟩
  ⟨hashing.header (header.push hashing.codec powSeal), header, powSeal⟩

end Yeeroot.Pow
