import Yeeroot.SrPrimitives
import Yeeroot.Primitives.Lemmas

namespace Yeeroot

open Scale

@[simp] theorem decodeUnitVec_withVecPrefix (payload : Bytes) :
    decodeUnitVec (withVecPrefix payload) = some (payload.length % 2 ^ 32, payload) := by
  have hlt : payload.length % 2 ^ 32 < 2 ^ 32 := Nat.mod_lt _ (by decide)
  exact decodeCompact_append 4 _ payload (by decide) (by omega) (by decide)

theorem length_withVecPrefix (payload : Bytes) :
    payload.length < (withVecPrefix payload).length := by
  have hpos := length_encodeCompact_pos (payload.length % 2 ^ 32)
  simp only [withVecPrefix, List.length_append]
  omega

-- The version bytes of unsigned and signed extrinsics.
private theorem version_unsigned : (0x01 : UInt8) &&& 0x80 = 0 ∧ (0x01 : UInt8) &&& 0x7f = 1 := by
  decide

theorem version_signed : (0x81 : UInt8) &&& 0x80 ≠ 0 ∧ (0x81 : UInt8) &&& 0x7f = 1 := by
  decide

theorem decodeCompact_append_u64 (value : UInt64) (rest : Bytes) :
    decodeCompact 8 (encodeCompact value.toNat ++ rest) = some (value.toNat, rest) :=
  decodeCompact_append 8 _ rest (by decide) (by have := value.toNat_lt; omega) (by decide)

theorem decodeCompact_append_u32 (value : UInt32) (rest : Bytes) :
    decodeCompact 4 (encodeCompact value.toNat ++ rest) = some (value.toNat, rest) :=
  decodeCompact_append 4 _ rest (by decide) (by have := value.toNat_lt; omega) (by decide)

@[simp] theorem decodeBalance_append (value : Balance) (rest : Bytes) :
    decodeBalance (encodeCompact value.toNat ++ rest) = some (value, rest) := by
  have hd := decodeCompact_append 16 value.toNat rest (by decide)
    (by have := value.isLt; omega) (by decide)
  simp [decodeBalance, hd]

theorem length_encodeCompact_u64 (value : UInt64) : (encodeCompact value.toNat).length ≤ 9 :=
  length_encodeCompact_le _ 8 (by decide) (by decide) (by have := value.toNat_lt; omega)

theorem length_encodeCompact_balance (value : Balance) :
    (encodeCompact value.toNat).length ≤ 17 :=
  length_encodeCompact_le _ 16 (by decide) (by decide) (by have := value.isLt; omega)

section Params

variable (blake2 : Bytes → H256)
variable {args : SubstrateArgs} {input rest : Bytes} {relay : RelayCall}

-- What a node reads off a relay call.
def RelayCall.params (relay : RelayCall) : RelayParams where
  number := relay.number
  hash := blake2 relay.tx.bytes
  blockHash := relay.hash
  parentHash := relay.parent
  relayType := relay.relayType
  origin := relay.tx

def RelayCall.unsigned (relay : RelayCall) : UncheckedExtrinsic := ⟨none, .relayTransfer relay⟩

theorem RelayCall.decode_encode (relay : RelayCall) :
    RelayCall.decode relay.encode = some (relay, []) := by
  have hn := decodeCompact_append_u64 relay.number (relay.hash.val ++ relay.parent.val)
  have hp := readFixed_append relay.parent []
  rw [List.append_nil] at hp
  simp [RelayCall.encode, RelayCall.decode, hn, hp]

theorem Call.decode_encode_relayTransfer (args : SubstrateArgs) (relay : RelayCall) :
    Call.decode args (Call.encode (.relayTransfer relay)) = some (.relayTransfer relay, []) := by
  simp [Call.decode, Call.decodeFuel, Call.encode, relay.decode_encode]

theorem UncheckedExtrinsic.decode_unsigned (args : SubstrateArgs) (relay : RelayCall) :
    UncheckedExtrinsic.decode args relay.unsigned.encode = some (relay.unsigned, []) := by
  simp [UncheckedExtrinsic.decode, UncheckedExtrinsic.encode, UncheckedExtrinsic.payload,
    RelayCall.unsigned, version_unsigned, Call.decode_encode_relayTransfer]

theorem UncheckedExtrinsic.le_length_of_decode {uxt : UncheckedExtrinsic}
    (h : UncheckedExtrinsic.decode args input = some (uxt, rest)) (hsigned : uxt.isSigned = true) :
    66 ≤ input.length := by
  simp only [UncheckedExtrinsic.decode, Option.bind_eq_bind, Option.bind_eq_some_iff,
    Prod.exists, readByte_eq_some] at h
  obtain ⟨_, _, hcount, version, afterVersion, rfl, h⟩ := h
  have hcountLen := length_of_decodeCompact (by decide) hcount
  split_ifs at h
  · simp only [Option.bind_eq_some_iff, Prod.exists, SignatureInfo.decode, Option.bind_eq_bind,
      readFixed_eq_some] at h
    obtain ⟨_, _, ⟨_, _, haddress, signature, _, rfl, _⟩, _⟩ := h
    have haddressLen := Address.length_of_decode haddress
    simp only [List.length_append, signature.property, List.length_cons] at haddressLen hcountLen
    omega
  · simp only [Option.bind_eq_some_iff, Prod.exists, Option.pure_def, Option.some.injEq,
      Prod.mk.injEq] at h
    obtain ⟨_, _, _, rfl, _⟩ := h
    simp [UncheckedExtrinsic.isSigned] at hsigned

theorem RelayCall.length_of_decode (h : RelayCall.decode input = some (relay, rest)) :
    relay.tx.bytes.length + 67 ≤ input.length := by
  simp only [RelayCall.decode, RelayTypes.decode, Option.bind_eq_bind, Option.bind_eq_some_iff,
    Prod.exists, readByte_eq_some, decodeByteVec_eq_some, readFixed_eq_some, Option.pure_def,
    Option.some.injEq, Prod.mk.injEq] at h
  obtain ⟨_, afterType, ⟨first, tail, rfl, htype⟩, tx, afterTx, htx, _, afterNumber, hnumber, hash,
    afterHash, rfl, parent, _, rfl, rfl, rfl⟩ := h
  have hafter : afterType = tail := by
    split_ifs at htype <;> simp_all
  have hlenTx := length_of_decodeCompact (by decide) htx
  have hlenNumber := length_of_decodeCompact (by decide) hnumber
  simp only [List.length_append, List.length_cons, hash.property, parent.property, hafter]
    at hlenTx hlenNumber ⊢
  omega

-- The bytes of the three calls that move value.
theorem Call.decode_transfers :
    (∀ relay, Call.decode args input = some (.relayTransfer relay, rest) →
      ∃ tail, input = 9 :: 0 :: tail ∧ RelayCall.decode tail = some (relay, rest)) ∧
    (∀ dest value, Call.decode args input = some (.balancesTransfer dest value, rest) →
      ∃ tail afterDest, input = 4 :: 0 :: tail ∧ Address.decode tail = some (dest, afterDest) ∧
        decodeBalance afterDest = some (value, rest)) ∧
    ∀ shardCode id target amount,
      Call.decode args input = some (.assetsTransfer shardCode id target amount, rest) →
      ∃ tail afterCode number afterId afterTarget, input = 8 :: 1 :: tail ∧
        decodeByteVec tail = some (shardCode, afterCode) ∧
        decodeCompact 4 afterCode = some (number, afterId) ∧ id = UInt32.ofNat number ∧
        Address.decode afterId = some (target, afterTarget) ∧
        decodeBalance afterTarget = some (amount, rest) := by
  refine ⟨fun relay h => ?_, fun dest value h => ?_, fun shardCode id target amount h => ?_⟩
  all_goals
    simp only [Call.decode, Call.decodeFuel, Option.bind_eq_bind, Option.bind_eq_some_iff,
      Prod.exists, readByte_eq_some] at h
    obtain ⟨moduleByte, input, rfl, h⟩ := h
    split_ifs at h <;> simp only [Option.bind_eq_some_iff, Prod.exists, Option.pure_def,
      Option.some.injEq, Prod.mk.injEq, reduceCtorEq, false_and, and_false, exists_false] at h
    obtain ⟨function, tail, htail, h⟩ := h
    obtain rfl := (readByte_eq_some _ _ _).mp htail
    split at h <;> simp only [Option.bind_eq_some_iff, Prod.exists, Option.some.injEq,
      Prod.mk.injEq, reduceCtorEq, false_and, and_false, exists_false] at h
  · obtain ⟨relay', rest', hrelay, hcall, rfl⟩ := h
    obtain rfl := Call.relayTransfer.inj hcall
    exact ⟨tail, rfl, hrelay⟩
  · obtain ⟨dest', afterDest, hdest, value', rest', hvalue, hcall, rfl⟩ := h
    obtain ⟨rfl, rfl⟩ := Call.balancesTransfer.inj hcall
    exact ⟨tail, afterDest, rfl, hdest, hvalue⟩
  · obtain ⟨code', afterCode, hcode, number, afterId, hid, target', afterTarget, htarget, amount',
      rest', hamount, hcall, rfl⟩ := h
    obtain ⟨rfl, rfl, rfl, rfl⟩ := Call.assetsTransfer.inj hcall
    exact ⟨tail, afterCode, number, afterId, afterTarget, rfl, hcode, hid, rfl, htarget, hamount⟩

-- The relay decoder reads the same fields as the runtime's decoder, whatever bytes the
-- fields were written with and whatever follows them.
theorem RelayParams.decode_of_decode
    (h : UncheckedExtrinsic.decode args input = some (relay.unsigned, rest))
    (hlong : 66 ≤ relay.tx.bytes.length) :
    RelayParams.decode blake2 input = some (relay.params blake2) := by
  simp only [UncheckedExtrinsic.decode, Option.bind_eq_bind, Option.bind_eq_some_iff,
    Prod.exists] at h
  obtain ⟨count, afterCount, hcount, version, afterVersion, hversion, h⟩ := h
  split_ifs at h with hnumber hsigned
  · simp [Option.bind_eq_some_iff, RelayCall.unsigned] at h
  · simp only [Option.bind_eq_some_iff, Prod.exists, Option.pure_def, Option.some.injEq,
      Prod.mk.injEq, RelayCall.unsigned, UncheckedExtrinsic.mk.injEq, true_and] at h
    obtain ⟨function, rest', hcall, rfl, rfl⟩ := h
    obtain ⟨tail, rfl, hrelay⟩ := Call.decode_transfers.1 _ hcall
    have hlen : MIN_RELAY_SIZE < input.length := by
      have hcountLen := length_of_decodeCompact (by decide) hcount
      have hrelayLen := RelayCall.length_of_decode hrelay
      rw [(readByte_eq_some _ _ _).mp hversion] at hcountLen
      simp only [List.length_cons] at hcountLen
      simp only [MIN_RELAY_SIZE]
      omega
    simp only [RelayCall.decode, Option.bind_eq_bind, Option.bind_eq_some_iff, Prod.exists,
      Option.pure_def, Option.some.injEq, Prod.mk.injEq] at hrelay
    obtain ⟨relayType, afterType, htype, tx, afterTx, htx, number, afterNumber, hnum, hash,
      afterHash, hhash, parent, afterParent, hparent, rfl, rfl⟩ := hrelay
    unfold RelayParams.decode
    rw [if_neg (by omega)]
    simp only [Option.bind_eq_bind, hcount, Option.bind_some, hversion]
    rw [if_neg (by simp [hsigned, hnumber])]
    simp [htype, htx, hnum, hhash, hparent, RelayCall.params]

theorem RelayParams.decode_unsigned (hlong : 66 ≤ relay.tx.bytes.length) :
    RelayParams.decode blake2 relay.unsigned.encode = some (relay.params blake2) :=
  RelayParams.decode_of_decode blake2
    (UncheckedExtrinsic.decode_unsigned (fun _ _ => none) relay) hlong

end Params

theorem OriginExtrinsic.le_length_of_decode (relayType : RelayTypes) (input : Bytes)
    (origin : OriginExtrinsic) (h : OriginExtrinsic.decode relayType input = some origin) :
    66 ≤ input.length := by
  unfold OriginExtrinsic.decode at h
  split_ifs at h with hlen
  omega

theorem decodeOriginEra_append (era : Era) (rest : Bytes) :
    decodeOriginEra (era.encode ++ rest) = some (era, rest) := by
  have hd := Era.decode_append era rest
  cases era with
  | immortal => rfl
  | mortal era =>
    obtain ⟨first, second, hne, he⟩ := era.encode_eq
    rw [he] at hd ⊢
    simpa [decodeOriginEra, hne] using hd

theorem decodeOriginSigner_append (account : AccountId) (signature : Signature) (index : UInt64)
    (era : Era) (rest : Bytes) :
    decodeOriginSigner true ((SignatureInfo.mk (.id account) signature index era).encode ++ rest) =
      some (⟨account, signature.val, index, era⟩, rest) := by
  have hs := readBytes_append signature.val (encodeCompact index.toNat ++ (era.encode ++ rest))
  rw [signature.property] at hs
  simp [decodeOriginSigner, SignatureInfo.encode, Address.encode, hs, decodeCompact_append_u64,
    decodeOriginEra_append]

theorem OriginExtrinsic.decode_signed (relayType : RelayTypes) (info : SignatureInfo)
    (call : Call) :
    OriginExtrinsic.decode relayType (UncheckedExtrinsic.mk (some info) call).encode =
      (decodeOriginSigner true (info.encode ++ call.encode)).bind
        fun (signer, input) => decodeOriginCall relayType signer input := by
  have hv := length_withVecPrefix (UncheckedExtrinsic.mk (some info) call).payload
  have ha := info.signed.length_encode_pos
  have hlen : ¬ (UncheckedExtrinsic.mk (some info) call).encode.length < 64 + 1 + 1 := by
    simp only [UncheckedExtrinsic.encode, UncheckedExtrinsic.payload, SignatureInfo.encode,
      List.length_cons, List.length_append, info.signature.property] at hv ⊢
    omega
  unfold OriginExtrinsic.decode
  rw [if_neg hlen]
  simp [UncheckedExtrinsic.encode, UncheckedExtrinsic.payload, version_signed]

section Canonical

variable (signer : OriginSigner)

def OriginSigner.origin (shard : Bytes) (id : Option UInt32) (dest : AccountId)
    (amount : Balance) : OriginExtrinsic :=
  ⟨shard, id, signer.sender, signer.signature, signer.index, signer.era, dest, amount⟩

theorem decodeOriginCall_balancesTransfer (dest : AccountId) (value : Balance) :
    decodeOriginCall .balance signer (Call.balancesTransfer (.id dest) value).encode =
      some (signer.origin [] none dest value) := by
  have hb := decodeBalance_append value []
  rw [List.append_nil] at hb
  unfold decodeOriginCall
  rw [if_neg (by simp [Call.encode, Address.encode, dest.property])]
  simp [Call.encode, Address.encode, decodeOriginAsset, hb, OriginSigner.origin]

theorem decodeOriginCall_assetsTransfer (shardCode : ByteVec) (id : UInt32) (dest : AccountId)
    (amount : Balance) :
    decodeOriginCall .assets signer (Call.assetsTransfer shardCode id (.id dest) amount).encode =
      some (signer.origin shardCode.bytes (some id) dest amount) := by
  have hb := decodeBalance_append amount []
  rw [List.append_nil] at hb
  unfold decodeOriginCall
  rw [if_neg (by simp [Call.encode, Address.encode, dest.property]; omega)]
  simp [Call.encode, Address.encode, decodeOriginAsset, hb, OriginSigner.origin,
    decodeCompact_append_u32]

theorem OriginExtrinsic.decode_balancesTransfer (sender dest : AccountId) (signature : Signature)
    (index : UInt64) (era : Era) (value : Balance) :
    OriginExtrinsic.decode .balance (UncheckedExtrinsic.mk
        (some ⟨.id sender, signature, index, era⟩) (.balancesTransfer (.id dest) value)).encode =
      some (OriginSigner.origin ⟨sender, signature.val, index, era⟩ [] none dest value) := by
  rw [OriginExtrinsic.decode_signed, decodeOriginSigner_append]
  exact decodeOriginCall_balancesTransfer _ dest value

theorem OriginExtrinsic.decode_assetsTransfer (sender dest : AccountId) (signature : Signature)
    (index : UInt64) (era : Era) (shardCode : ByteVec) (id : UInt32) (amount : Balance) :
    OriginExtrinsic.decode .assets (UncheckedExtrinsic.mk (some ⟨.id sender, signature, index, era⟩)
        (.assetsTransfer shardCode id (.id dest) amount)).encode =
      some (OriginSigner.origin ⟨sender, signature.val, index, era⟩ shardCode.bytes (some id) dest
        amount) := by
  rw [OriginExtrinsic.decode_signed, decodeOriginSigner_append]
  exact decodeOriginCall_assetsTransfer _ shardCode id dest amount

theorem decodeOriginCall_balancesTransfer_index (relayType : RelayTypes) (i : UInt32)
    (value : Balance) :
    decodeOriginCall relayType signer (Call.balancesTransfer (.index i) value).encode = none := by
  have ha := Address.length_encode_index_le i
  have hv := length_encodeCompact_balance value
  unfold decodeOriginCall
  rw [if_pos (by simp only [Call.encode, List.length_cons, List.length_append]; omega)]

theorem decodeOriginCall_assetsTransfer_index (shardCode : ByteVec) (id : UInt32) (i : UInt32)
    (amount : Balance) :
    decodeOriginCall .assets signer (Call.assetsTransfer shardCode id (.index i) amount).encode =
      none := by
  have ha := Address.length_encode_index_le i
  have hv := length_encodeCompact_balance amount
  have hshort : ∀ tail, readByte ((Address.index i).encode ++ encodeCompact amount.toNat) =
      some tail → readFixed 32 tail.2 = none := by
    rintro ⟨first, tail⟩ ht
    have hlen := congrArg List.length ((readByte_eq_some _ _ _).mp ht)
    simp only [List.length_append, List.length_cons] at hlen
    unfold readFixed
    rw [dif_neg (by simp only; omega)]
  unfold decodeOriginCall
  split_ifs with hlen
  · rfl
  · simp only [Call.encode, List.append_assoc]
    cases hr : readByte ((Address.index i).encode ++ encodeCompact amount.toNat) with
    | none => simp [decodeOriginAsset, decodeCompact_append_u32, hr]
    | some tail => simp [decodeOriginAsset, decodeCompact_append_u32, hr, hshort tail hr]

theorem decodeOriginCall_balancesTransfer_assets (dest : Address) (value : Balance) :
    decodeOriginCall .assets signer (Call.balancesTransfer dest value).encode = none := by
  cases dest with
  | index i => exact decodeOriginCall_balancesTransfer_index signer .assets i value
  | id account =>
    unfold decodeOriginCall
    split_ifs with hlen
    · rfl
    · simp [Call.encode, Address.encode, decodeOriginAsset, decodeByteVec, decodeCompact]

end Canonical

section Consumed

-- How many bytes a successful decoder has taken at least. A sender given by its
-- index is too short for what the origin decoder skips over.

theorem Era.length_of_decode (input : Bytes) (era : Era) (rest : Bytes)
    (h : Era.decode input = some (era, rest)) : rest.length + 1 ≤ input.length := by
  cases input with
  | nil => simp [Era.decode] at h
  | cons first tail =>
    by_cases hz : first = 0
    · simp [Era.decode, hz] at h
      simp [h.2]
    · simp only [Era.decode, readByte_cons, Option.bind_eq_bind, Option.bind_some, hz, if_false,
        decodeU16, Option.bind_eq_some_iff, Option.pure_def, Option.some.injEq, Prod.exists,
        Prod.mk.injEq, decodeLE_eq_some] at h
      obtain ⟨_, after, ⟨_, _, ⟨bytes, hlen, _, hin⟩, _, rfl⟩, h⟩ := h
      split_ifs at h
      simp only [Option.some.injEq, Prod.mk.injEq] at h
      obtain ⟨_, rfl⟩ := h
      rw [hin, List.length_append]
      omega

theorem length_of_decodeOriginEra (input : Bytes) (era : Era) (rest : Bytes)
    (h : decodeOriginEra input = some (era, rest)) : rest.length + 1 ≤ input.length := by
  cases input with
  | nil => simp [decodeOriginEra] at h
  | cons first tail =>
    simp only [decodeOriginEra] at h
    split_ifs at h with hz
    · exact Era.length_of_decode _ _ _ h
    · simp only [Option.some.injEq, Prod.mk.injEq] at h
      simp [h.2]

theorem length_of_decodeOriginSigner (input : Bytes) (signer : OriginSigner) (rest : Bytes)
    (h : decodeOriginSigner true input = some (signer, rest)) :
    rest.length + 99 ≤ input.length := by
  simp only [decodeOriginSigner, if_true, Option.bind_eq_bind, Option.bind_eq_some_iff,
    Option.pure_def, Option.some.injEq, Prod.exists, Prod.mk.injEq, readByte_eq_some,
    readFixed_eq_some, readBytes_eq_some] at h
  obtain ⟨_, _, rfl, sender, _, rfl, signature, _, ⟨hlen, rfl⟩, index, _, hindex, _, _, hera, _,
    rfl⟩ := h
  obtain ⟨consumed, rfl, hle, _⟩ := decodeCompact_consumed 8 _ _ _ (by decide) hindex
  have hpos := length_encodeCompact_pos index
  have he := length_of_decodeOriginEra _ _ _ hera
  simp only [List.length_cons, List.length_append, sender.property, hlen]
  omega

theorem decodeBalance_consumed (input : Bytes) (value : Balance) (rest : Bytes)
    (h : decodeBalance input = some (value, rest)) :
    (encodeCompact value.toNat).length + rest.length ≤ input.length := by
  simp only [decodeBalance, Option.bind_eq_bind, Option.bind_eq_some_iff, Option.pure_def,
    Option.some.injEq, Prod.exists, Prod.mk.injEq] at h
  obtain ⟨raw, _, hd, rfl, rfl⟩ := h
  obtain ⟨consumed, rfl, hle, hlt⟩ := decodeCompact_consumed 16 _ _ _ (by decide) hd
  rw [BitVec.toNat_ofNat, Nat.mod_eq_of_lt (by omega), List.length_append]
  omega

theorem le_length_of_decodeOriginCall (relayType : RelayTypes) (signer : OriginSigner)
    (input : Bytes) (origin : OriginExtrinsic)
    (h : decodeOriginCall relayType signer input = some origin) : 35 ≤ input.length := by
  unfold decodeOriginCall at h
  split_ifs at h with hlen
  omega

theorem length_of_decodeOriginCall_assets (signer : OriginSigner) (input : Bytes)
    (origin : OriginExtrinsic) (h : decodeOriginCall .assets signer input = some origin) :
    ∃ vec : ByteVec, ∃ id : UInt32, origin.shard = vec.bytes ∧ origin.id = some id ∧
      (encodeByteVec vec).length + (encodeCompact id.toNat).length +
        (encodeCompact origin.amount.toNat).length + 35 ≤ input.length := by
  unfold decodeOriginCall at h
  split_ifs at h
  simp only [decodeOriginAsset, Option.bind_eq_bind, Option.bind_eq_some_iff, Option.pure_def,
    Option.some.injEq, Prod.exists, Prod.mk.injEq, readByte_eq_some, readFixed_eq_some,
    decodeByteVec_eq_some] at h
  obtain ⟨_, _, rfl, _, _, rfl, _, _, afterId, ⟨vec, afterVec, hvec, id, _, hid, ⟨rfl, rfl⟩, rfl⟩,
    _, _, rfl, dest, afterDest, rfl, amount, rest, hamount, rfl⟩ := h
  obtain ⟨vecBytes, hvin, hvle, _⟩ := decodeCompact_consumed 4 _ _ _ (by decide) hvec
  obtain ⟨idBytes, rfl, hile, hilt⟩ := decodeCompact_consumed 4 _ _ _ (by decide) hid
  have ham := decodeBalance_consumed _ _ _ hamount
  refine ⟨vec, UInt32.ofNat id, rfl, rfl, ?_⟩
  subst hvin
  rw [UInt32.toNat_ofNat', Nat.mod_eq_of_lt (by omega)]
  simp only [encodeByteVec, List.length_cons, List.length_append, dest.property]
  omega

end Consumed

end Yeeroot
