import Yeeroot.SrPrimitives.Lemmas

namespace Yeeroot

open Scale

theorem orNone_eq_error {α β : Type} (value : Option α) (next : α → Run (Option β))
    (panic : Panic) :
    orNone value next = .error panic ↔ ∃ a, value = some a ∧ next a = .error panic := by
  cases value <;> simp [orNone]

theorem moduleRelayType_ne_error (input : Bytes) (panic : Panic) :
    moduleRelayType input ≠ .error panic := by
  simp [moduleRelayType, orNone_eq_error]

theorem decodeType_panic {input : Bytes} {panic : Panic}
    (h : OriginExtrinsic.decodeType input = .error panic) :
    panic.message ≠ "index out of bounds" := by
  simp only [OriginExtrinsic.decodeType, orNone_eq_error, Prod.exists] at h
  obtain ⟨_, _, _, version, input, _, h⟩ := h
  split_ifs at h
  · simp only [orNone_eq_error, Prod.exists] at h
    obtain ⟨_, _, _, _, input, _, h⟩ := h
    split_ifs at h
    · obtain rfl := Except.error.inj h
      simp
    · simp only [orNone_eq_error, Prod.exists] at h
      obtain ⟨_, input, _, h⟩ := h
      cases input with
      | nil =>
        obtain rfl := Except.error.inj h
        simp
      | cons first rest =>
        dsimp only at h
        split_ifs at h
        · simp only [orNone_eq_error, Prod.exists] at h
          obtain ⟨_, input, _, h⟩ := h
          exact absurd h (moduleRelayType_ne_error input panic)
        · exact absurd h (moduleRelayType_ne_error rest panic)
  · exact absurd h (moduleRelayType_ne_error input panic)

@[simp] theorem orNone_some {α β : Type} (value : α) (next : α → Run (Option β)) :
    orNone (some value) next = next value := rfl

theorem returns_orNone {α β : Type} (value : Option α) (next : α → Run (Option β)) :
    (orNone value next).Returns ↔ ∀ a, value = some a → (next a).Returns := by
  cases value with
  | none => simp [orNone, Run.returns_ok]
  | some a => simp

theorem returns_moduleRelayType (input : Bytes) : (moduleRelayType input).Returns := by
  simp [moduleRelayType, returns_orNone, Run.returns_ok]

theorem moduleRelayType_cons (moduleByte : UInt8) (rest : Bytes) :
    moduleRelayType (moduleByte :: rest) = .ok (if moduleByte = 4 then some .balance
      else if moduleByte = 8 then some .assets else none) := by
  simp [moduleRelayType]

theorem OriginExtrinsic.decodeType_account (sender : AccountId) (signature : Signature)
    (index : UInt64) (era : Era) (call : Call) :
    OriginExtrinsic.decodeType
        (UncheckedExtrinsic.mk (some ⟨.id sender, signature, index, era⟩) call).encode =
      moduleRelayType call.encode := by
  have hskip :
      (signature.val ++ (encodeCompact index.toNat ++ (era.encode ++ call.encode))).drop 64 =
      encodeCompact index.toNat ++ (era.encode ++ call.encode) :=
    List.drop_left' signature.property
  have hera := Era.decode_append era call.encode
  simp only [OriginExtrinsic.decodeType, UncheckedExtrinsic.encode, UncheckedExtrinsic.payload,
    SignatureInfo.encode, Address.encode, decodeUnitVec_withVecPrefix, orNone_some,
    readByte_cons, List.cons_append, List.append_assoc, readFixed_append]
  rw [if_pos version_signed.1, if_neg (by simp [signature.property]), hskip,
    decodeCompact_append_u64]
  cases era with
  | immortal => simp [Era.encode]
  | mortal era =>
    obtain ⟨first, second, hne, he⟩ := era.encode_eq
    rw [he, List.cons_append, List.cons_append, List.nil_append] at hera
    simp [he, hne, hera]

-- Every guard of the decoder is met by the encoding of a transfer between account ids, and the
-- module byte tells the type of its relay.
theorem OriginExtrinsic.transfers_decode (sender dest : AccountId) (signature : Signature)
    (index : UInt64) (era : Era) (shardCode : ByteVec) (id : UInt32) (amount : Balance) :
    (OriginExtrinsic.decode .balance (UncheckedExtrinsic.mk
          (some ⟨.id sender, signature, index, era⟩) (.balancesTransfer (.id dest) amount)).encode =
        some ⟨[], none, sender, signature.val, index, era, dest, amount⟩ ∧
      OriginExtrinsic.decodeType (UncheckedExtrinsic.mk
          (some ⟨.id sender, signature, index, era⟩) (.balancesTransfer (.id dest) amount)).encode =
        .ok (some .balance)) ∧
    (OriginExtrinsic.decode .assets (UncheckedExtrinsic.mk
          (some ⟨.id sender, signature, index, era⟩)
          (.assetsTransfer shardCode id (.id dest) amount)).encode =
        some ⟨shardCode.bytes, some id, sender, signature.val, index, era, dest, amount⟩ ∧
      OriginExtrinsic.decodeType (UncheckedExtrinsic.mk
          (some ⟨.id sender, signature, index, era⟩)
          (.assetsTransfer shardCode id (.id dest) amount)).encode = .ok (some .assets)) := by
  refine ⟨⟨?_, ?_⟩, ?_, ?_⟩
  · exact OriginExtrinsic.decode_balancesTransfer sender dest signature index era amount
  · rw [OriginExtrinsic.decodeType_account]
    exact moduleRelayType_cons 4 _
  · exact OriginExtrinsic.decode_assetsTransfer sender dest signature index era shardCode id amount
  · rw [OriginExtrinsic.decodeType_account]
    exact moduleRelayType_cons 8 _

-- The cursor takes 33 bytes for the address and 64 for the signature, whatever is there. Behind
-- them it needs a nonce that does not decode, or a byte after it.
theorem OriginExtrinsic.returns_decodeType_signed (info : SignatureInfo) (call : Call) :
    (OriginExtrinsic.decodeType (UncheckedExtrinsic.mk (some info) call).encode).Returns ↔
      97 ≤ (info.encode ++ call.encode).length ∧
        ∀ value, decodeCompact 8 ((info.encode ++ call.encode).drop 97) ≠ some (value, []) := by
  have hlong : 65 ≤ (info.encode ++ call.encode).length := by
    have haddress := info.signed.length_encode_pos
    simp only [SignatureInfo.encode, List.length_append, info.signature.property]
    omega
  simp only [OriginExtrinsic.decodeType, UncheckedExtrinsic.encode, UncheckedExtrinsic.payload,
    decodeUnitVec_withVecPrefix, orNone_some, readByte_cons]
  rw [if_pos version_signed.1]
  generalize info.encode ++ call.encode = stream at hlong ⊢
  cases stream with
  | nil => simp at hlong
  | cons first stream =>
    have haccount : 32 ≤ stream.length := by
      simp only [List.length_cons] at hlong
      omega
    have hskip : (first :: stream).drop 97 = stream.drop (32 + 64) := rfl
    simp only [readByte_cons, orNone_some, readFixed, dif_pos haccount, List.length_drop,
      List.drop_drop, hskip, List.length_cons]
    by_cases hsignature : stream.length - 32 < 64
    · rw [if_pos hsignature]
      simp only [Run.not_returns_error, false_iff, not_and]
      omega
    · rw [if_neg hsignature]
      have henough : 97 ≤ stream.length + 1 := by omega
      cases hnonce : decodeCompact 8 (stream.drop (32 + 64)) with
      | none => simp [returns_orNone, henough]
      | some read =>
        obtain ⟨value, input⟩ := read
        cases input with
        | nil => simp [Run.not_returns_error]
        | cons byte rest =>
          simp only [orNone_some, henough, true_and]
          refine iff_of_true ?_ (by simp)
          split_ifs
          · rw [returns_orNone]
            exact fun _ _ => returns_moduleRelayType _
          · exact returns_moduleRelayType rest

end Yeeroot
