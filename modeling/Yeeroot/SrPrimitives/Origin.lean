import Yeeroot.SrPrimitives.Lemmas

namespace Yeeroot

open Scale

theorem Address.eq_of_decode_id {input rest : Bytes} {account : AccountId}
    (h : Address.decode input = some (.id account, rest)) :
    input = 0xff :: (account.val ++ rest) := by
  simp only [Address.decode, Option.bind_eq_bind, Option.bind_eq_some_iff, Prod.exists,
    readByte_eq_some] at h
  obtain ⟨first, tail, rfl, h⟩ := h
  -- Every other first byte is that of an index.
  split_ifs at h with hbyte hshort hlong hid <;> simp only [Option.bind_eq_some_iff, Prod.exists,
    Option.pure_def, Option.some.injEq, Prod.mk.injEq, reduceCtorEq, false_and] at h
  · obtain ⟨_, _, _, h⟩ := h
    split_ifs at h
    simp at h
  · obtain ⟨_, _, _, h⟩ := h
    split_ifs at h
    simp at h
  · obtain ⟨account', rest', hread, haccount, rfl⟩ := h
    obtain rfl := Address.id.inj haccount
    rw [hid, (readFixed_eq_some _ _ _).mp hread]

theorem decodeOriginEra_eq (input : Bytes) : decodeOriginEra input = Era.decode input := by
  cases input with
  | nil => rfl
  | cons first rest =>
    by_cases hzero : first = 0
    · simp [decodeOriginEra, Era.decode, hzero]
    · simp [decodeOriginEra, hzero]

theorem decodeOriginSigner_of_decode {input rest : Bytes} {sender : AccountId}
    {signature : Signature} {index : UInt64} {era : Era}
    (h : SignatureInfo.decode input = some (⟨.id sender, signature, index, era⟩, rest)) :
    decodeOriginSigner true input = some (⟨sender, signature.val, index, era⟩, rest) := by
  simp only [SignatureInfo.decode, Option.bind_eq_bind, Option.bind_eq_some_iff, Prod.exists,
    Option.pure_def, Option.some.injEq, Prod.mk.injEq, SignatureInfo.mk.injEq,
    readFixed_eq_some] at h
  obtain ⟨_, _, haddress, signature', afterSignature, rfl, number, afterIndex, hindex, era',
    afterEra, hera, ⟨rfl, rfl, rfl, rfl⟩, rfl⟩ := h
  obtain rfl := Address.eq_of_decode_id haddress
  have hsignature := readBytes_append signature'.val afterSignature
  rw [signature'.property] at hsignature
  simp [decodeOriginSigner, hsignature, hindex, decodeOriginEra_eq, hera]

section Call

variable {args : SubstrateArgs} {input rest : Bytes} (signer : OriginSigner)

theorem decodeOriginCall_of_balancesTransfer {dest : AccountId} {value : Balance}
    (h : Call.decode args input = some (.balancesTransfer (.id dest) value, rest)) :
    decodeOriginCall .balance signer input = some (signer.origin [] none dest value) := by
  obtain ⟨tail, afterDest, rfl, hdest, hvalue⟩ := Call.decode_transfers.2.1 _ _ h
  obtain rfl := Address.eq_of_decode_id hdest
  have hpos := length_encodeCompact_pos value.toNat
  have hlen := decodeBalance_consumed _ _ _ hvalue
  unfold decodeOriginCall
  rw [if_neg (by simp only [List.length_cons, List.length_append, dest.property]; omega)]
  simp [decodeOriginAsset, hvalue, OriginSigner.origin]

theorem decodeOriginCall_of_assetsTransfer {shardCode : ByteVec} {id : UInt32} {dest : AccountId}
    {amount : Balance}
    (h : Call.decode args input = some (.assetsTransfer shardCode id (.id dest) amount, rest)) :
    decodeOriginCall .assets signer input =
      some (signer.origin shardCode.bytes (some id) dest amount) := by
  obtain ⟨tail, afterCode, number, afterId, afterTarget, rfl, hcode, hid, rfl, htarget, hamount⟩ :=
    Call.decode_transfers.2.2 _ _ _ _ h
  obtain rfl := Address.eq_of_decode_id htarget
  have hpos := length_encodeCompact_pos amount.toNat
  have hlen := decodeBalance_consumed _ _ _ hamount
  have hcodeLen := length_of_decodeCompact (by decide) ((decodeByteVec_eq_some _ _ _).mp hcode)
  have hidLen := length_of_decodeCompact (by decide) hid
  simp only [List.length_append, List.length_cons, dest.property] at hcodeLen hidLen
  unfold decodeOriginCall
  rw [if_neg (by simp only [List.length_cons]; omega)]
  simp [decodeOriginAsset, hcode, hid, hamount, OriginSigner.origin]

end Call

def Call.transferType : Call → Option RelayTypes
  | .balancesTransfer _ _ => some .balance
  | .assetsTransfer _ _ _ _ => some .assets
  | _ => none

def Call.destId : Call → Option AccountId
  | .balancesTransfer (.id dest) _ => some dest
  | .assetsTransfer _ _ (.id dest) _ => some dest
  | _ => none

-- What the runtime reads as a transfer between account ids the relay's decoder reads as well,
-- whatever bytes the fields were written with and whatever follows them.
theorem OriginExtrinsic.decode_of_decode {args : SubstrateArgs} {input rest : Bytes}
    {info : SignatureInfo} {call : Call} {sender dest : AccountId} {relayType : RelayTypes}
    (h : UncheckedExtrinsic.decode args input = some (⟨some info, call⟩, rest))
    (hsender : info.signed = .id sender) (hdest : call.destId = some dest)
    (htype : call.transferType = some relayType) :
    OriginExtrinsic.decode relayType input ≠ none := by
  have hlong := UncheckedExtrinsic.le_length_of_decode h rfl
  obtain ⟨signed, signature, index, era⟩ := info
  obtain rfl : signed = .id sender := hsender
  simp only [UncheckedExtrinsic.decode, Option.bind_eq_bind, Option.bind_eq_some_iff,
    Prod.exists] at h
  obtain ⟨count, afterCount, hcount, version, afterVersion, hversion, h⟩ := h
  split_ifs at h with hnumber hsigned
  · simp only [Option.bind_eq_some_iff, Prod.exists, Option.pure_def, Option.some.injEq,
      Prod.mk.injEq, UncheckedExtrinsic.mk.injEq] at h
    obtain ⟨_, afterInfo, hinfo, _, _, hcall, ⟨rfl, rfl⟩, rfl⟩ := h
    have hsigner := decodeOriginSigner_of_decode hinfo
    unfold OriginExtrinsic.decode
    rw [if_neg (by omega)]
    simp only [Option.bind_eq_bind, hcount, Option.bind_some, hversion]
    rw [if_neg hnumber, decide_eq_true hsigned, hsigner, Option.bind_some]
    unfold Call.destId at hdest
    split at hdest
    · obtain rfl := Option.some.inj htype
      rw [decodeOriginCall_of_balancesTransfer _ hcall]
      simp
    · obtain rfl := Option.some.inj htype
      rw [decodeOriginCall_of_assetsTransfer _ hcall]
      simp
    · simp at hdest
  · simp [Option.bind_eq_some_iff] at h

end Yeeroot
