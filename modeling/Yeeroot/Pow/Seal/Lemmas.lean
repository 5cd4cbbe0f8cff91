import Yeeroot.Pow.Seal

namespace Yeeroot.Pow

open Scale

variable {H : Type} (codec : Codec H)

theorem WorkProof.decode_append (proof : WorkProof H) (rest : Bytes)
    (hfits : ∀ multi, proof = .multi multi → multi.merkleProof.length < 2 ^ 32) :
    WorkProof.decode codec (proof.encode codec ++ rest) = some (proof, rest) := by
  cases proof with
  | unknown => simp [WorkProof.decode, WorkProof.encode]
  | nonce proof => simp [WorkProof.decode, WorkProof.encode]
  | multi multi =>
    have hvec := codec.decodeVec_append multi.merkleProof rest (hfits multi rfl)
    simp [WorkProof.decode, WorkProof.encode, codec.decode_append, hvec]

theorem PowSeal.decode_append (sealed : PowSeal H) (rest : Bytes)
    (hfits : ∀ multi, sealed.workProof = .multi multi → multi.merkleProof.length < 2 ^ 32) :
    PowSeal.decode codec (sealed.encode codec ++ rest) = some (sealed, rest) := by
  have htarget := decodeLE_append 32 sealed.powTarget.toNat
    (encodeLE 8 sealed.timestamp.toNat ++ (sealed.workProof.encode codec ++
      (sealed.relayProof.val ++ rest))) sealed.powTarget.isLt
  have hproof := WorkProof.decode_append codec sealed.workProof (sealed.relayProof.val ++ rest) hfits
  simp [PowSeal.decode, PowSeal.encode, htarget, hproof]

theorem asPowSeal_powSeal (sealed : PowSeal H)
    (hfits : ∀ multi, sealed.workProof = .multi multi → multi.merkleProof.length < 2 ^ 32) :
    asPowSeal codec (powSeal codec sealed) = some sealed := by
  have hdecode := PowSeal.decode_append codec sealed [] hfits
  rw [List.append_nil] at hdecode
  simp [asPowSeal, powSeal, hdecode]

end Yeeroot.Pow
