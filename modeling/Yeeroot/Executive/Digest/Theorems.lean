import Mathlib.Data.List.Nodup
import Mathlib.Data.List.Perm.Subperm
import Mathlib.Data.Set.Defs
import Yeeroot.Digest.Lemmas
import Yeeroot.Executive.Digest
import Yeeroot.Pow.Seal.Lemmas

namespace Yeeroot

open Scale Yeeroot.Pow

variable {H : Type} (codec : Codec H)

-- The executor reads the item like the node does, and nothing of it is left for the
-- items after it.
def DigestItem.ReadAlike : DigestItem → Prop
  | .other data =>
    ¬ (6 < data.length ∧ data[0]? = some SHARD_MODULE_PREFIX ∧
      data[1]? = some SHARD_SHARDING_PREFIX)
  | .consensus engine data =>
    data.length < 32 ∨ ∃ sealed, asPowSeal codec (.consensus engine data) = some sealed ∧
      sealed.relayProof.val = data.drop (data.length - 32)
  | .authoritiesChange data | .changesTrieRoot data | .seal data => data = []

namespace DigestItem

theorem encode_other_eq_ok {data bytes : Bytes} (h : (other data).encode = .ok bytes) :
    ∃ vec : ByteVec, vec.bytes = data ∧ bytes = 0 :: encodeByteVec vec := by
  simp only [encode, encode.encodeLengthPrefixed, Run.bind_eq_ok] at h
  obtain ⟨encoded, hencoded, h⟩ := h
  obtain rfl := (Run.pure_eq_ok _ _).mp h
  split_ifs at hencoded with hfits
  obtain rfl := Except.ok.inj hencoded
  exact ⟨⟨data, hfits⟩, rfl, rfl⟩

theorem encode_consensus_eq_ok {engine : FixedBytes 4} {data bytes : Bytes}
    (h : (consensus engine data).encode = .ok bytes) :
    ∃ vec : ByteVec, vec.bytes = data ∧ bytes = 4 :: (engine.val ++ encodeByteVec vec) := by
  simp only [encode, encode.encodeLengthPrefixed, Run.bind_eq_ok] at h
  obtain ⟨encoded, hencoded, h⟩ := h
  obtain rfl := (Run.pure_eq_ok _ _).mp h
  split_ifs at hencoded with hfits
  obtain rfl := Except.ok.inj hencoded
  exact ⟨⟨data, hfits⟩, rfl, rfl⟩

-- The bytes that the executor takes for the items that follow.
def dropped : DigestItem → Option Bytes
  | .authoritiesChange data | .changesTrieRoot data | .seal data => some data
  | _ => none

theorem dropped_unread {item : DigestItem} {data : Bytes} (h : item.dropped = some data) :
    (item.ReadAlike codec ↔ data = []) ∧ item.asShardingInfo = none ∧
      asPowSeal codec item = none := by
  rcases item with _ | payload | payload | payload | _
  · cases h
  · obtain rfl := Option.some.inj h
    exact ⟨Iff.rfl, rfl, rfl⟩
  · obtain rfl := Option.some.inj h
    exact ⟨Iff.rfl, rfl, rfl⟩
  · obtain rfl := Option.some.inj h
    exact ⟨Iff.rfl, rfl, rfl⟩
  · cases h

end DigestItem

namespace DigestItemEnum

theorem decode_other (vec : ByteVec) (rest : Bytes) :
    decode (0 :: encodeByteVec vec ++ rest) = some (.other vec, rest) := by
  simp [decode]

theorem decode_consensus (engine : FixedBytes 4) (vec : ByteVec) (rest : Bytes) :
    decode (4 :: (engine.val ++ encodeByteVec vec) ++ rest) =
      some (.consensus engine vec, rest) := by
  simp [decode]

theorem decode_dropped {item : DigestItem} {data : Bytes} (h : item.dropped = some data) :
    ∃ variant log, item.encode = .ok (variant :: data) ∧
      (∀ rest, decode (variant :: rest) = some (log, rest)) ∧ log.shard? = none ∧
      log.powSeal? = none := by
  rcases item with _ | payload | payload | payload | _
  · cases h
  · obtain rfl := Option.some.inj h
    exact ⟨1, .authoritiesChange, rfl, fun _ => rfl, rfl, rfl⟩
  · obtain rfl := Option.some.inj h
    exact ⟨2, .changesTrieRoot, rfl, fun _ => rfl, rfl, rfl⟩
  · obtain rfl := Option.some.inj h
    exact ⟨3, .seal, rfl, fun _ => rfl, rfl, rfl⟩
  · cases h

theorem shard?_other_of_long {vec : ByteVec} (h : 6 < vec.bytes.length) :
    (other vec).shard? = none := by
  have hlen : vec.bytes.length ≠ 6 := by omega
  simp [shard?, hlen]

theorem shard?_other {vec : ByteVec} (h : (DigestItem.other vec.bytes).ReadAlike codec) :
    (other vec).shard? = (DigestItem.other vec.bytes).asShardingInfo.map .ofInfo := by
  simp only [shard?, DigestItem.asShardingInfo, DigestItem.shardingPayload]
  by_cases htags : vec.bytes[0]? = some GENERATED_MODULE_LOG_PREFIX ∧
      vec.bytes[1]? = some GENERATED_SHARDING_PREFIX
  · have hle : ¬ 6 < vec.bytes.length := fun hlong => h ⟨hlong, htags⟩
    by_cases hsix : vec.bytes.length = 6
    · have hfour : 4 ≤ vec.bytes.length := by omega
      rw [if_pos ⟨hsix, htags⟩, if_pos ⟨hfour, htags⟩]
      cases hnum : decodeU16 (vec.bytes.drop 2) with
      | none => simp [hnum]
      | some first =>
        cases hcount : decodeU16 first.2 <;> simp [hnum, hcount, ShardDigestItem.ofInfo]
    · have hnone := decode_pair_eq_none (show vec.bytes.length < 6 by omega)
      rw [if_neg fun hcase => hsix hcase.1]
      split_ifs
      · exact (congrArg (Option.map ShardDigestItem.ofInfo) hnone).symm
      · rfl
  · rw [if_neg fun hcase => htags hcase.2, if_neg fun hcase => htags hcase.2]
    rfl

theorem powSeal?_consensus_of_short {engine : FixedBytes 4} {vec : ByteVec}
    (h : vec.bytes.length < 32) : (consensus engine vec).powSeal? = none := by
  have hshort : ¬ 32 ≤ vec.bytes.length := by omega
  simp [powSeal?, hshort]

theorem powSeal?_consensus (engine : FixedBytes 4) {vec : ByteVec} (h : 32 ≤ vec.bytes.length) :
    ∃ relayProof : H256, relayProof.val = vec.bytes.drop (vec.bytes.length - 32) ∧
      (consensus engine vec).powSeal? = some ⟨relayProof⟩ := by
  have hlen : (vec.bytes.drop (vec.bytes.length - 32)).length = 32 := by
    rw [List.length_drop]
    omega
  have hread := readFixed_append ⟨vec.bytes.drop (vec.bytes.length - 32), hlen⟩ []
  rw [List.append_nil] at hread
  refine ⟨⟨_, hlen⟩, rfl, ?_⟩
  simp [powSeal?, h, hread]

end DigestItemEnum

variable {engine : FixedBytes 4} {data bytes : Bytes} {item : DigestItem} {logs : List DigestItem}
  {relayProof : H256}

-- A seal begins with an id of 32 bytes.
theorem length_of_asPowSeal {sealed : PowSeal H}
    (h : asPowSeal codec (.consensus engine data) = some sealed) : 32 ≤ data.length := by
  simp only [asPowSeal, Option.ite_none_right_eq_some, Option.map_eq_some_iff, PowSeal.decode,
    Option.bind_eq_bind, Option.bind_eq_some_iff] at h
  obtain ⟨_, _, ⟨⟨authorityId, rest⟩, hread, _⟩, _⟩ := h
  rw [(readFixed_eq_some data authorityId rest).mp hread, List.length_append, authorityId.property]
  omega

theorem DigestItemEnum.powSeal?_of_readAlike {vec : ByteVec}
    (h : (DigestItem.consensus engine vec.bytes).ReadAlike codec) :
    (consensus engine vec).powSeal? =
      (asPowSeal codec (.consensus engine vec.bytes)).map .ofSeal := by
  rcases h with hshort | ⟨sealed, hsealed, hrelay⟩
  · rw [powSeal?_consensus_of_short hshort]
    cases hsealed : asPowSeal codec (.consensus engine vec.bytes) with
    | none => rfl
    | some sealed =>
      have hlen := length_of_asPowSeal codec hsealed
      omega
  · obtain ⟨relayProof, hlast, hpow⟩ :=
      powSeal?_consensus engine (length_of_asPowSeal codec hsealed)
    rw [hpow, hsealed, Option.map_some, PowSealItem.ofSeal, Subtype.ext (hlast.trans hrelay.symm)]

theorem DigestItem.ReadAlike.reads (h : item.ReadAlike codec) (hbytes : item.encode = .ok bytes) :
    ∃ log, (∀ rest, DigestItemEnum.decode (bytes ++ rest) = some (log, rest)) ∧
      log.shard? = item.asShardingInfo.map .ofInfo ∧
      log.powSeal? = (asPowSeal codec item).map .ofSeal := by
  cases hdropped : item.dropped with
  | some data =>
    obtain ⟨variant, log, hencode, hlog, hshard, hpow⟩ := DigestItemEnum.decode_dropped hdropped
    obtain ⟨halike, hnoShard, hnoSeal⟩ := dropped_unread codec hdropped
    obtain rfl := halike.mp h
    obtain rfl := Except.ok.inj (hencode.symm.trans hbytes)
    rw [hnoShard, hnoSeal]
    exact ⟨log, hlog, hshard, hpow⟩
  | none =>
    cases item with
    | other data =>
      obtain ⟨vec, rfl, rfl⟩ := encode_other_eq_ok hbytes
      exact ⟨.other vec, DigestItemEnum.decode_other vec, DigestItemEnum.shard?_other codec h,
        rfl⟩
    | consensus engine data =>
      obtain ⟨vec, rfl, rfl⟩ := encode_consensus_eq_ok hbytes
      exact ⟨.consensus engine vec, DigestItemEnum.decode_consensus engine vec, rfl,
        DigestItemEnum.powSeal?_of_readAlike codec h⟩
    | _ => cases hdropped

theorem nodeDigestItems_cons (item : DigestItem) (logs : List DigestItem) :
    nodeDigestItems codec (item :: logs) =
      ((nodeDigestItems codec logs).1.or (item.asShardingInfo.map .ofInfo),
        (nodeDigestItems codec logs).2.or ((asPowSeal codec item).map .ofSeal)) := by
  simp only [nodeDigestItems, lastLog_cons, Option.map_or]

theorem decodeItems_readAlike {encoded : List Bytes} (h : ∀ item ∈ logs, item.ReadAlike codec)
    (hencoded : logs.mapM DigestItem.encode = .ok encoded) (found : DigestItems) (rest : Bytes) :
    ∃ read, decodeItems DigestItemEnum.decode logs.length (encoded.flatten ++ rest) =
        some (read, rest) ∧
      read.foldl DigestItemEnum.note found =
        ((nodeDigestItems codec logs).1.or found.1, (nodeDigestItems codec logs).2.or found.2) := by
  induction logs generalizing encoded found with
  | nil =>
    obtain rfl := (Run.pure_eq_ok _ _).mp hencoded
    exact ⟨[], rfl, rfl⟩
  | cons item logs ih =>
    simp only [List.mapM_cons, Run.bind_eq_ok] at hencoded
    obtain ⟨bytes, hbytes, tail, htail, hencoded⟩ := hencoded
    obtain rfl := (Run.pure_eq_ok _ _).mp hencoded
    obtain ⟨log, hlog, hshard, hpow⟩ := (h item List.mem_cons_self).reads codec hbytes
    obtain ⟨read, hread, hfold⟩ := ih (fun item hitem => h item (List.mem_cons_of_mem _ hitem))
      htail (log.note found)
    refine ⟨log :: read, ?_, ?_⟩
    · simp [decodeItems, hlog, hread]
    · rw [List.foldl_cons, hfold, nodeDigestItems_cons, DigestItemEnum.note, hshard, hpow,
        Option.or_assoc, Option.or_assoc]

theorem decodeItems_add {α : Type} (decode : Bytes → Option (α × Bytes)) {m : Nat} (n : Nat)
    {input rest : Bytes} {items : List α} (h : decodeItems decode m input = some (items, rest)) :
    decodeItems decode (m + n) input =
      (decodeItems decode n rest).map fun read => (items ++ read.1, read.2) := by
  induction m generalizing input items with
  | zero =>
    obtain ⟨rfl, rfl⟩ := Prod.mk.inj (Option.some.inj h)
    cases hdecode : decodeItems decode n input <;> simp [hdecode]
  | succ m ih =>
    simp only [decodeItems, Option.bind_eq_bind, Option.bind_eq_some_iff] at h
    obtain ⟨⟨item, input'⟩, hitem, ⟨items', rest'⟩, hitems, h⟩ := h
    obtain ⟨rfl, rfl⟩ := Prod.mk.inj (Option.some.inj h)
    rw [Nat.add_right_comm, decodeItems, hitem]
    simp only [Option.bind_eq_bind, Option.bind_some, ih hitems]
    cases hdecode : decodeItems decode n rest' <;> simp

theorem encodeLogs_eq_ok (h : encodeLogs logs = .ok bytes) :
    ∃ encoded, logs.mapM DigestItem.encode = .ok encoded ∧ logs.length < 2 ^ 32 ∧
      bytes = encodeCompact logs.length ++ encoded.flatten := by
  simp only [encodeLogs, Run.bind_eq_ok] at h
  obtain ⟨encoded, hencoded, h⟩ := h
  split_ifs at h with hlen
  exact ⟨encoded, hencoded, hlen, (Run.pure_eq_ok _ _).mp h⟩

theorem digestItems_after {logs others : List DigestItem} (h : ∀ item ∈ logs, item.ReadAlike codec)
    (hbytes : encodeLogs (logs ++ others) = .ok bytes) :
    ∃ encoded, others.mapM DigestItem.encode = .ok encoded ∧
      digestItems bytes =
        (Run.expect (decodeItems DigestItemEnum.decode others.length encoded.flatten)
          "called `Option::unwrap()` on a `None` value").map
            fun read => read.1.foldl DigestItemEnum.note (nodeDigestItems codec logs) := by
  obtain ⟨encoded, hencoded, hlen, rfl⟩ := encodeLogs_eq_ok hbytes
  rw [List.mapM_append] at hencoded
  simp only [Run.bind_eq_ok] at hencoded
  obtain ⟨encodedLogs, hlogs, encodedOthers, hothers, hencoded⟩ := hencoded
  obtain rfl := (Run.pure_eq_ok _ _).mp hencoded
  obtain ⟨read, hread, hfold⟩ := decodeItems_readAlike codec h hlogs (none, none)
    encodedOthers.flatten
  have hcompact := decodeCompact_append 4 (logs ++ others).length
    (encodedLogs ++ encodedOthers).flatten (by decide) (by omega) (by decide)
  refine ⟨encodedOthers, hothers, ?_⟩
  rw [digestItems, decodeVec, hcompact, List.length_append, List.flatten_append]
  simp only [Option.bind_eq_bind, Option.bind_some, decodeItems_add _ _ hread]
  cases hrest : decodeItems DigestItemEnum.decode others.length encodedOthers.flatten with
  | none => rfl
  | some result =>
    change Except.ok (List.foldl DigestItemEnum.note (none, none) (read ++ result.1)) = _
    rw [List.foldl_append, hfold, Option.or_none, Option.or_none]
    rfl

theorem powSeal_readAlike {sealed : PowSeal H}
    (h : asPowSeal codec (powSeal codec sealed) = some sealed) :
    (powSeal codec sealed).ReadAlike codec := by
  refine Or.inr ⟨sealed, h, ?_⟩
  have hlen : (sealed.encode codec).length - 32 = (sealed.authorityId.val ++
      encodeLE 32 sealed.powTarget.toNat ++ encodeLE 8 sealed.timestamp.toNat ++
      sealed.workProof.encode codec).length := by
    rw [PowSeal.encode, List.length_append, sealed.relayProof.property, Nat.add_sub_cancel]
  rw [hlen, PowSeal.encode, List.drop_left]

theorem shardingInfo_readAlike (num count : UInt16) :
    (DigestItem.shardingInfo num count).ReadAlike codec := by
  intro h
  have hlen := h.1
  simp at hlen

theorem digestItems_one {bytes encoded : Bytes} {log : DigestItemEnum}
    (h : ∀ item ∈ logs, item.ReadAlike codec) (hitem : item.encode = .ok encoded)
    (hlog : ∀ rest, DigestItemEnum.decode (encoded ++ rest) = some (log, rest))
    (hbytes : encodeLogs (logs ++ [item]) = .ok bytes) :
    digestItems bytes = .ok (log.note (nodeDigestItems codec logs)) := by
  obtain ⟨encodedItem, hencoded, hread⟩ := digestItems_after codec h hbytes
  have hone : [item].mapM DigestItem.encode = .ok [encoded] := by
    simp [hitem, bind, Except.bind, pure, Except.pure]
  obtain rfl := Except.ok.inj (hone.symm.trans hencoded)
  have hdecode := hlog []
  rw [List.append_nil] at hdecode
  rw [hread]
  simp [decodeItems, hdecode, Run.expect, Except.map]

theorem exists_encodeLogs (hlen : logs.length < 2 ^ 32)
    (h : ∀ item ∈ logs, ∃ bytes, item.encode = .ok bytes) :
    ∃ bytes, encodeLogs logs = .ok bytes := by
  obtain ⟨encoded, hencoded⟩ := Run.returns_mapM h
  refine ⟨encodeCompact logs.length ++ encoded.flatten, ?_⟩
  rw [encodeLogs, hencoded]
  exact if_pos hlen

-- What is left of a payload hides a marker: its bytes would have to end a length that is
-- larger than a marker.
section Shifted

def twice (byte : UInt8) : UInt16 := UInt16.ofNat (257 * byte.toNat)

theorem encodeLE_twice (byte : UInt8) : encodeLE 2 (twice byte).toNat = [byte, byte] := by
  have hlt := byte.toNat_lt
  have hnat : (twice byte).toNat = 257 * byte.toNat := by
    rw [twice, UInt16.toNat_ofNat']
    omega
  have hlow : 257 * byte.toNat % 256 = byte.toNat := by omega
  have hhigh : 257 * byte.toNat / 256 % 256 = byte.toNat := by omega
  rw [hnat, encodeLE, encodeLE, encodeLE, hlow, hhigh, UInt8.ofNat_toNat]

def markerOf (byte : UInt8) : DigestItem := .shardingInfo (twice byte) (twice byte)

theorem encode_markerOf (byte : UInt8) :
    (markerOf byte).encode = .ok [0, 24, 2, 0, byte, byte, byte, byte] := by
  rw [markerOf, DigestItem.shardingInfo, encodeLE_twice]
  rfl

theorem DigestItemEnum.bytes_of_shard? {vec : ByteVec} {item : ShardDigestItem}
    (h : (other vec).shard? = some item) :
    vec.bytes = [SHARD_MODULE_PREFIX, SHARD_SHARDING_PREFIX] ++
      encodeLE 2 item.shardNum.toNat ++ encodeLE 2 item.shardCount.toNat := by
  obtain ⟨bytes, hfits⟩ := vec
  simp only [shard?, Option.ite_none_right_eq_some, Option.bind_eq_bind,
    Option.bind_eq_some_iff] at h
  obtain ⟨⟨hlen, hmodule, hsharding⟩, ⟨num, input⟩, hnum, ⟨count, rest⟩, hcount, hitem⟩ := h
  obtain rfl := Option.some.inj hitem
  match bytes, hlen, hmodule, hsharding with
  | first :: second :: tail, hlen, hmodule, hsharding =>
    obtain rfl := Option.some.inj hmodule
    obtain rfl := Option.some.inj hsharding
    have htail := decodeU16_eq_some hnum
    rw [show input = _ from decodeU16_eq_some hcount] at htail
    have hrest : rest = [] := by
      have hcongr := congrArg List.length htail
      simp at hcongr hlen
      rw [← List.length_eq_zero_iff]
      omega
    simpa [hrest] using htail

theorem DigestItemEnum.other_of_decode {input rest : Bytes} {log : DigestItemEnum}
    {item : ShardDigestItem} (h : decode input = some (log, rest)) (hshard : log.shard? = some item) :
    ∃ vec tail, log = .other vec ∧ input = 0 :: tail ∧ decodeByteVec tail = some (vec, rest) := by
  cases input with
  | nil => cases h
  | cons variant tail =>
    simp only [decode, readByte_cons, Option.bind_eq_bind, Option.bind_some, Option.pure_def] at h
    split_ifs at h with hother
    · simp only [Option.bind_eq_some_iff] at h
      obtain ⟨⟨vec, rest'⟩, hvec, h⟩ := h
      obtain ⟨rfl, rfl⟩ := Prod.mk.inj (Option.some.inj h)
      exact ⟨vec, tail, rfl, by rw [hother], hvec⟩
    · obtain ⟨rfl, _⟩ := Prod.mk.inj (Option.some.inj h)
      cases hshard
    · obtain ⟨rfl, _⟩ := Prod.mk.inj (Option.some.inj h)
      cases hshard
    · obtain ⟨rfl, _⟩ := Prod.mk.inj (Option.some.inj h)
      cases hshard
    · simp only [Option.bind_eq_some_iff] at h
      obtain ⟨_, _, _, _, h⟩ := h
      obtain ⟨rfl, _⟩ := Prod.mk.inj (Option.some.inj h)
      cases hshard

theorem length_of_shifted {tail consumed rest : Bytes} {byte : UInt8}
    (hbyte : byte ∉ tail.take (consumed.length + 3)) (hnew : byte ∉ [0, 24, 2])
    (h : tail ++ [0, 24, 2, 0, byte, byte, byte, byte] =
      consumed ++ ([2, 0, byte, byte, byte, byte] ++ rest)) :
    consumed.length = tail.length + 2 := by
  simp only [List.mem_cons, List.not_mem_nil, or_false, not_or] at hnew
  obtain ⟨hzero, hlen, hmodule⟩ := hnew
  have hthird : (tail ++ [0, 24, 2, 0, byte, byte, byte, byte])[consumed.length + 2]? =
      some byte := by
    rw [h, List.getElem?_append_right (by omega)]
    simp
  have hlast : (tail ++ [0, 24, 2, 0, byte, byte, byte, byte])[consumed.length + 5]? =
      some byte := by
    rw [h, List.getElem?_append_right (by omega)]
    simp
  have hafter : tail.length ≤ consumed.length + 2 := by
    by_contra hlt
    rw [List.getElem?_append_left (by omega)] at hthird
    have htake : (tail.take (consumed.length + 3))[consumed.length + 2]? = some byte := by
      rw [List.getElem?_take, if_pos (by omega)]
      exact hthird
    exact hbyte (List.mem_of_getElem? htake)
  obtain ⟨k, hk⟩ := Nat.exists_eq_add_of_le hafter
  have hk' : consumed.length + 5 = tail.length + (k + 3) := by omega
  rw [hk, List.getElem?_append_right (by omega), Nat.add_sub_cancel_left] at hthird
  rw [hk', List.getElem?_append_right (by omega), Nat.add_sub_cancel_left] at hlast
  match k, hthird, hlast with
  | 4, _, _ => omega
  | 0, hthird, _ => exact absurd (Option.some.inj hthird).symm hzero
  | 1, hthird, _ => exact absurd (Option.some.inj hthird).symm hlen
  | 2, hthird, _ => exact absurd (Option.some.inj hthird).symm hmodule
  | 3, hthird, _ => exact absurd (Option.some.inj hthird).symm hzero
  | k + 5, _, hlast => simp at hlast

theorem DigestItemEnum.shard?_of_shifted {payload rest : Bytes} {byte : UInt8}
    {log : DigestItemEnum} (hpayload : payload ≠ []) (hbyte : byte ∉ payload.take 9)
    (hnew : byte ∉ [0, 24, 2])
    (h : decode (payload ++ [0, 24, 2, 0, byte, byte, byte, byte]) = some (log, rest)) :
    log.shard? ≠ some ⟨twice byte, twice byte⟩ := by
  intro hshard
  obtain ⟨first, tail, rfl⟩ := List.exists_cons_of_ne_nil hpayload
  obtain ⟨vec, _, rfl, hinput, hvec⟩ := other_of_decode h hshard
  obtain ⟨_, rfl⟩ := List.cons.inj hinput
  have hbytes : vec.bytes = [2, 0, byte, byte, byte, byte] := by
    have hmarker := bytes_of_shard? hshard
    rw [encodeLE_twice] at hmarker
    exact hmarker
  rw [decodeByteVec_eq_some, hbytes] at hvec
  obtain ⟨consumed, hin, hcompact⟩ := compactBytes_of_decodeCompact hvec
  have hmax := hcompact.length_le (by decide)
  have htail : byte ∉ tail.take (consumed.length + 3) := by
    intro hmem
    apply hbyte
    rw [List.take_succ_cons]
    exact List.mem_cons_of_mem _ (List.take_subset_take_left tail (by omega) hmem)
  have hlen := length_of_shifted htail hnew hin
  have hsplit : (tail ++ [0] ++ [24]) ++ [2, 0, byte, byte, byte, byte] =
      consumed ++ ([2, 0, byte, byte, byte, byte] ++ rest) := by simpa using hin
  rw [← List.append_inj_left hsplit (by simp [hlen])] at hcompact
  have hle := hcompact.last_le (by simp)
  simp at hle

theorem exists_notMem {bytes : Bytes} (h : bytes.length < 256) : ∃ byte, byte ∉ bytes := by
  by_contra hnone
  have hall : ∀ byte, byte ∈ bytes := fun byte => by_contra fun hbyte => hnone ⟨byte, hbyte⟩
  have hnodup : ((List.range 256).map UInt8.ofNat).Nodup := by
    apply List.Nodup.map_on ?_ List.nodup_range
    intro i hi j hj heq
    have hvalue := congrArg UInt8.toNat heq
    rw [List.mem_range] at hi hj
    rwa [UInt8.toNat_ofNat_of_lt' hi, UInt8.toNat_ofNat_of_lt' hj] at hvalue
  have hle := (List.subperm_of_subset hnodup fun byte _ => hall byte).length_le
  rw [List.length_map, List.length_range] at hle
  omega

end Shifted

-- A header carries these items, markers of its shard and seals, in any order and number.
def Carries (items : Set DigestItem) (logs : List DigestItem) : Prop :=
  ∀ item ∈ logs, item ∈ items ∨ (∃ num count, item = .shardingInfo num count) ∨
    ∃ sealed, item = powSeal codec sealed ∧ asPowSeal codec item = some sealed

def Sealed (logs : List DigestItem) : Prop := ∃ item ∈ logs, (asPowSeal codec item).isSome

def Agrees (logs : List DigestItem) : Prop :=
  ∀ bytes, encodeLogs logs = .ok bytes → digestItems bytes = .ok (nodeDigestItems codec logs)

theorem agrees_of_readAlike (h : ∀ item ∈ logs, item.ReadAlike codec) :
    Agrees codec logs := by
  intro bytes hbytes
  rw [← List.append_nil logs] at hbytes
  obtain ⟨encoded, hencoded, hread⟩ := digestItems_after codec h hbytes
  obtain rfl := (Run.pure_eq_ok _ _).mp hencoded
  rw [hread]
  rfl

theorem readAlike_of_carries {items : Set DigestItem}
    (h : ∀ item ∈ items, ∀ bytes, item.encode = .ok bytes → item.ReadAlike codec)
    (hlogs : Carries codec items logs) (hbytes : encodeLogs logs = .ok bytes) :
    ∀ item ∈ logs, item.ReadAlike codec := by
  intro item hitem
  rcases hlogs item hitem with hmem | ⟨num, count, rfl⟩ | ⟨sealed, rfl, hsealed⟩
  · obtain ⟨encoded, hencoded, _⟩ := encodeLogs_eq_ok hbytes
    obtain ⟨i, hi⟩ := List.getElem?_of_mem hitem
    rcases Run.getElem?_of_mapM hencoded i with ⟨hnone, _⟩ | ⟨item', itemBytes, hi', _, hitemBytes⟩
    · rw [hi] at hnone
      cases hnone
    · obtain rfl := Option.some.inj (hi.symm.trans hi')
      exact h item hmem itemBytes hitemBytes
  · exact shardingInfo_readAlike codec num count
  · exact powSeal_readAlike codec hsealed

def bareSeal (relayProof : H256) : PowSeal H := ⟨filled 32 0, 0, 0, .unknown, relayProof⟩

theorem asPowSeal_bareSeal (relayProof : H256) :
    asPowSeal codec (powSeal codec (bareSeal relayProof)) = some (bareSeal relayProof) :=
  asPowSeal_powSeal codec _ fun _ hproof => nomatch hproof

theorem exists_encode_bareSeal (relayProof : H256) :
    ∃ bytes, (powSeal codec (bareSeal relayProof)).encode = .ok bytes := by
  have hfits : ((bareSeal relayProof).encode codec).length < 2 ^ 32 := by
    simp [PowSeal.encode, bareSeal, WorkProof.encode, relayProof.property, (filled 32 0).property]
  refine ⟨4 :: (YEE_POW_ENGINE_ID.val ++ encodeByteVec ⟨_, hfits⟩), ?_⟩
  rw [powSeal, DigestItem.encode, DigestItem.encode.encodeLengthPrefixed, dif_pos hfits]
  rfl

theorem nodeDigestItems_bareSeal (relayProof : H256) :
    nodeDigestItems codec [powSeal codec (bareSeal relayProof)] = (none, some ⟨relayProof⟩) := by
  rw [nodeDigestItems_cons, asPowSeal_bareSeal]
  rfl

theorem bareSeal_readAlike (relayProof : H256) :
    ∀ item ∈ [powSeal codec (bareSeal relayProof)], item.ReadAlike codec := by
  intro item hitem
  obtain rfl := List.mem_singleton.mp hitem
  exact powSeal_readAlike codec (asPowSeal_bareSeal codec relayProof)

theorem agrees_one {encoded : Bytes} {log : DigestItemEnum} (hitem : item.encode = .ok encoded)
    (hlog : ∀ rest, DigestItemEnum.decode (encoded ++ rest) = some (log, rest))
    (h : Agrees codec [powSeal codec (bareSeal relayProof), item]) :
    log.shard? = item.asShardingInfo.map .ofInfo ∧
      log.powSeal?.or (some ⟨relayProof⟩) =
        ((asPowSeal codec item).map .ofSeal).or (some ⟨relayProof⟩) := by
  have hseal := asPowSeal_bareSeal codec relayProof
  obtain ⟨bytes, hbytes⟩ : ∃ bytes, encodeLogs [powSeal codec (bareSeal relayProof), item] =
      .ok bytes := by
    apply exists_encodeLogs (by simp)
    intro item' hmem
    rcases List.mem_pair.mp hmem with rfl | rfl
    · exact exists_encode_bareSeal codec relayProof
    · exact ⟨encoded, hitem⟩
  have hread := digestItems_one codec (bareSeal_readAlike codec relayProof) hitem hlog hbytes
  rw [h bytes hbytes, nodeDigestItems_bareSeal, nodeDigestItems_cons, nodeDigestItems_cons,
    hseal] at hread
  obtain ⟨hshard, hpow⟩ := Prod.mk.inj (Except.ok.inj hread)
  constructor
  · exact (Option.or_none.symm.trans hshard.symm).trans Option.or_none
  · exact hpow.symm

theorem asShardingInfo_of_long (hlong : 6 < data.length)
    (hmodule : data[0]? = some SHARD_MODULE_PREFIX)
    (hsharding : data[1]? = some SHARD_SHARDING_PREFIX) :
    ∃ info, (DigestItem.other data).asShardingInfo = some info := by
  match data, hlong, hmodule, hsharding with
  | first :: second :: b0 :: b1 :: b2 :: b3 :: tail, _, hmodule, hsharding =>
    obtain rfl := Option.some.inj hmodule
    obtain rfl := Option.some.inj hsharding
    refine ⟨(UInt16.ofNat (valueLE [b0, b1]), UInt16.ofNat (valueLE [b2, b3])), ?_⟩
    simp [DigestItem.asShardingInfo, DigestItem.shardingPayload, SHARD_MODULE_PREFIX,
      SHARD_SHARDING_PREFIX, GENERATED_MODULE_LOG_PREFIX, GENERATED_SHARDING_PREFIX, decodeU16,
      decodeLE, readBytes]

theorem readAlike_other_of_agrees (hbytes : (DigestItem.other data).encode = .ok bytes)
    (h : Agrees codec [powSeal codec (bareSeal relayProof), .other data]) :
    (DigestItem.other data).ReadAlike codec := by
  rintro ⟨hlong, hmodule, hsharding⟩
  obtain ⟨vec, rfl, rfl⟩ := DigestItem.encode_other_eq_ok hbytes
  obtain ⟨hshard, _⟩ := agrees_one codec hbytes (DigestItemEnum.decode_other vec) h
  obtain ⟨info, hinfo⟩ := asShardingInfo_of_long hlong hmodule hsharding
  rw [DigestItemEnum.shard?_other_of_long hlong, hinfo] at hshard
  cases hshard

theorem readAlike_consensus_of_agrees
    (hbytes : (DigestItem.consensus engine data).encode = .ok bytes)
    (h : ∀ relayProof, Agrees codec [powSeal codec (bareSeal relayProof), .consensus engine data]) :
    (DigestItem.consensus engine data).ReadAlike codec := by
  by_cases hshort : data.length < 32
  · exact .inl hshort
  obtain ⟨vec, rfl, rfl⟩ := DigestItem.encode_consensus_eq_ok hbytes
  obtain ⟨last, hlast, hpow⟩ := DigestItemEnum.powSeal?_consensus engine (Nat.le_of_not_lt hshort)
  have hread : ∀ relayProof : H256, some (PowSealItem.mk last) =
      ((asPowSeal codec (.consensus engine vec.bytes)).map .ofSeal).or (some ⟨relayProof⟩) := by
    intro relayProof
    have hone := agrees_one codec hbytes (DigestItemEnum.decode_consensus engine vec) (h relayProof)
    rw [hpow] at hone
    exact hone.2
  cases hsealed : asPowSeal codec (.consensus engine vec.bytes) with
  | none =>
    -- The seal before it is not the one whose root the executor takes.
    have hzero := hread zero256
    rw [hsealed] at hread hzero
    have hone : some (PowSealItem.mk (filled 32 1)) = some ⟨zero256⟩ :=
      (hread (filled 32 1)).symm.trans hzero
    exact absurd hone (by decide)
  | some sealed =>
    have hroot := hread zero256
    rw [hsealed] at hroot
    have hitem := PowSealItem.mk.inj (Option.some.inj hroot)
    exact .inr ⟨sealed, hsealed, by rw [← hitem, hlast]⟩

theorem nodeDigestItems_markerOf (logs : List DigestItem) (byte : UInt8) :
    (nodeDigestItems codec (logs ++ [markerOf byte])).1 = some ⟨twice byte, twice byte⟩ := by
  have hmarker : lastLog [markerOf byte] DigestItem.asShardingInfo =
      some (twice byte, twice byte) := by
    rw [lastLog_cons, markerOf, DigestItem.asShardingInfo_shardingInfo]
    rfl
  simp [nodeDigestItems, lastLog_append, hmarker, ShardDigestItem.ofInfo]

theorem dropped_eq_nil_of_agrees (hdropped : item.dropped = some data)
    (h : ∀ byte, Agrees codec ([powSeal codec (bareSeal relayProof)] ++ [item, markerOf byte])) :
    data = [] := by
  by_contra hne
  have hshort : (data.take 9 ++ [0, 24, 2]).length < 256 := by
    rw [List.length_append, List.length_take, List.length_cons, List.length_cons,
      List.length_singleton]
    omega
  obtain ⟨byte, hbyte⟩ := exists_notMem hshort
  rw [List.mem_append, not_or] at hbyte
  obtain ⟨variant, unit, hitem, hunit, hnoShard, _⟩ := DigestItemEnum.decode_dropped hdropped
  obtain ⟨bytes, hbytes⟩ : ∃ bytes, encodeLogs ([powSeal codec (bareSeal relayProof)] ++
      [item, markerOf byte]) = .ok bytes := by
    apply exists_encodeLogs (by simp)
    intro item' hmem
    rcases List.mem_cons.mp hmem with rfl | hmem
    · exact exists_encode_bareSeal codec relayProof
    rcases List.mem_pair.mp hmem with rfl | rfl
    · exact ⟨_, hitem⟩
    · exact ⟨_, encode_markerOf byte⟩
  obtain ⟨encoded, hencoded, hread⟩ :=
    digestItems_after codec (bareSeal_readAlike codec relayProof) hbytes
  have hpair : [item, markerOf byte].mapM DigestItem.encode =
      .ok [variant :: data, [0, 24, 2, 0, byte, byte, byte, byte]] := by
    rw [List.mapM_cons, hitem, List.mapM_cons, encode_markerOf]
    rfl
  obtain rfl := Except.ok.inj (hpair.symm.trans hencoded)
  rw [h byte bytes hbytes] at hread
  have hmarker := nodeDigestItems_markerOf codec [powSeal codec (bareSeal relayProof), item] byte
  -- The second item is decoded from what the first one left.
  cases hlog : DigestItemEnum.decode (data ++ [0, 24, 2, 0, byte, byte, byte, byte]) with
  | none => simp [decodeItems, hunit, hlog, Run.expect, Except.map] at hread
  | some read =>
    obtain ⟨log, rest⟩ := read
    apply DigestItemEnum.shard?_of_shifted hne hbyte.1 hbyte.2 hlog
    simp [decodeItems, hunit, hlog, Run.expect, Except.map] at hread
    rw [nodeDigestItems_bareSeal, DigestItemEnum.note, DigestItemEnum.note, hnoShard,
      Option.or_none, Option.or_none] at hread
    rw [← hmarker]
    exact (congrArg Prod.fst hread).symm

-- Sealed headers that carry these items are read alike, wherever the items stand, exactly
-- if each of the items is.
theorem digest_read_alike_iff (items : Set DigestItem) :
    (∀ logs bytes, Carries codec items logs → Sealed codec logs → encodeLogs logs = .ok bytes →
      digestItems bytes = .ok (nodeDigestItems codec logs)) ↔
    ∀ item ∈ items, ∀ bytes, item.encode = .ok bytes → item.ReadAlike codec := by
  constructor
  · intro h item hitem bytes hbytes
    have hsealed : ∀ relayProof others,
        Sealed codec (powSeal codec (bareSeal relayProof) :: others) := by
      intro relayProof others
      refine ⟨_, List.mem_cons_self, ?_⟩
      rw [asPowSeal_bareSeal]
      rfl
    have hseal : ∀ relayProof : H256, ∃ sealed,
        powSeal codec (bareSeal relayProof) = powSeal codec sealed ∧
          asPowSeal codec (powSeal codec (bareSeal relayProof)) = some sealed :=
      fun relayProof => ⟨_, rfl, asPowSeal_bareSeal codec relayProof⟩
    have hone : ∀ relayProof, Agrees codec [powSeal codec (bareSeal relayProof), item] := by
      intro relayProof bytes
      apply h _ bytes _ (hsealed relayProof [item])
      intro item' hmem
      rcases List.mem_pair.mp hmem with rfl | rfl
      · exact .inr (.inr (hseal relayProof))
      · exact .inl hitem
    cases hdropped : item.dropped with
    | some data =>
      refine (DigestItem.dropped_unread codec hdropped).1.mpr ?_
      apply dropped_eq_nil_of_agrees codec hdropped
      intro byte bytes
      apply h _ bytes _ (hsealed zero256 [item, markerOf byte])
      intro item' hmem
      rcases List.mem_cons.mp hmem with rfl | hmem
      · exact .inr (.inr (hseal zero256))
      rcases List.mem_pair.mp hmem with rfl | rfl
      · exact .inl hitem
      · exact .inr (.inl ⟨_, _, rfl⟩)
    | none =>
      cases item with
      | other data => exact readAlike_other_of_agrees codec hbytes (hone zero256)
      | consensus engine data => exact readAlike_consensus_of_agrees codec hbytes hone
      | _ => cases hdropped
  · intro h logs bytes hlogs _ hbytes
    exact agrees_of_readAlike codec (readAlike_of_carries codec h hlogs hbytes) bytes hbytes

-- A header with its marker, the root of a changes trie and its seal.
def trieRootLogs : List DigestItem :=
  [.shardingInfo 1 2, .changesTrieRoot (filled 32 255).val, powSeal codec (bareSeal zero256)]

-- The first byte of the root is no variant.
theorem trie_root_panics : Sealed (Codec.fixed 32) (trieRootLogs (Codec.fixed 32)) ∧
    nodeDigestItems (Codec.fixed 32) (trieRootLogs (Codec.fixed 32)) =
      (some ⟨1, 2⟩, some ⟨zero256⟩) ∧
    ∃ bytes, encodeLogs (trieRootLogs (Codec.fixed 32)) = .ok bytes ∧
      digestItems bytes = .error ⟨"called `Option::unwrap()` on a `None` value"⟩ := by
  have hseal := asPowSeal_bareSeal (Codec.fixed 32) zero256
  refine ⟨⟨_, .tail _ (.tail _ (.head _)), by rw [hseal]; rfl⟩, ?_, ?_⟩
  · rw [trieRootLogs, nodeDigestItems_cons, nodeDigestItems_cons, nodeDigestItems_bareSeal,
      DigestItem.asShardingInfo_shardingInfo]
    rfl
  obtain ⟨sealBytes, hsealBytes⟩ := exists_encode_bareSeal (Codec.fixed 32) zero256
  have hmarker : ∀ item ∈ [DigestItem.shardingInfo 1 2], item.ReadAlike (Codec.fixed 32) := by
    intro item hitem
    obtain rfl := List.mem_singleton.mp hitem
    exact shardingInfo_readAlike _ 1 2
  obtain ⟨bytes, hbytes⟩ : ∃ bytes, encodeLogs (trieRootLogs (Codec.fixed 32)) = .ok bytes := by
    apply exists_encodeLogs (by simp [trieRootLogs])
    intro item hitem
    rcases List.mem_cons.mp hitem with rfl | hitem
    · exact ⟨_, rfl⟩
    rcases List.mem_pair.mp hitem with rfl | rfl
    · exact ⟨_, rfl⟩
    · exact ⟨_, hsealBytes⟩
  refine ⟨bytes, hbytes, ?_⟩
  obtain ⟨encoded, hencoded, hread⟩ := digestItems_after (Codec.fixed 32) hmarker hbytes
  rw [List.mapM_cons, List.mapM_cons, hsealBytes] at hencoded
  obtain rfl := Except.ok.inj hencoded
  exact hread

end Yeeroot
