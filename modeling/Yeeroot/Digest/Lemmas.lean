import Yeeroot.Digest
import Yeeroot.Scale.Lemmas

namespace Yeeroot

open Scale

theorem DigestItem.shardingPayload_other (tag tag' : UInt8) (payload : Bytes)
    (h : 2 ≤ payload.length) :
    (DigestItem.other (GENERATED_MODULE_LOG_PREFIX :: tag' :: payload)).shardingPayload tag =
      if tag' = tag then some payload else none := by
  by_cases htag : tag' = tag
  · simp [shardingPayload, h, htag]
  · simp [shardingPayload, htag]

theorem DigestItem.asShardingInfo_shardingInfo (num count : UInt16) :
    (DigestItem.shardingInfo num count).asShardingInfo = some (num, count) := by
  have hpayload := shardingPayload_other GENERATED_SHARDING_PREFIX GENERATED_SHARDING_PREFIX
    (encodeLE 2 num.toNat ++ encodeLE 2 count.toNat) (by simp)
  have hcount := decodeU16_append count []
  rw [List.append_nil] at hcount
  simp only [asShardingInfo, shardingInfo, List.cons_append, List.nil_append, hpayload, if_true,
    Option.bind_eq_bind, Option.bind_some, decodeU16_append, hcount]
  rfl

theorem decode_pair_eq_none {data : Bytes} (h : data.length < 6) :
    ((decodeU16 (data.drop 2)).bind fun first => (decodeU16 first.2).bind fun second =>
      some (first.1, second.1)) = none := by
  cases hfirst : decodeU16 (data.drop 2) with
  | none => rfl
  | some first =>
    obtain ⟨shardNum, rest⟩ := first
    simp only [decodeU16, decodeLE, readBytes, Option.bind_eq_bind, Option.bind_eq_some_iff,
      Prod.exists, Option.ite_none_right_eq_some, Option.some.injEq, Prod.mk.injEq,
      Option.pure_def] at hfirst
    obtain ⟨_, _, ⟨_, _, ⟨_, _, rfl⟩, _, rfl⟩, _, rfl⟩ := hfirst
    have hrest : decodeU16 ((data.drop 2).drop 2) = none := decodeU16_eq_none (by
      simp only [List.length_drop]
      omega)
    simp only [Option.bind_some, hrest]
    rfl

theorem ScaleOutPhase.decode_encode (phase : ScaleOutPhase) (rest : Bytes) :
    ScaleOutPhase.decode (phase.encode ++ rest) = some (phase, rest) := by
  cases phase <;>
    simp [encode, decode, decodeU16_append, decodeU64_append, List.append_assoc]

theorem ScaleOutPhase.two_le_length_encode (phase : ScaleOutPhase) : 2 ≤ phase.encode.length := by
  cases phase <;> simp [encode]

theorem DigestItem.asScaleOutPhase_scaleOutPhase (phase : ScaleOutPhase) :
    (DigestItem.scaleOutPhase phase).asScaleOutPhase = some phase := by
  have hpayload := shardingPayload_other GENERATED_SCALE_OUT_PHASE_PREFIX
    GENERATED_SCALE_OUT_PHASE_PREFIX phase.encode phase.two_le_length_encode
  have hdecode := phase.decode_encode []
  rw [List.append_nil] at hdecode
  simp only [asScaleOutPhase, scaleOutPhase, List.cons_append, List.nil_append, hpayload, if_true,
    Option.bind_eq_bind, Option.bind_some, hdecode]
  rfl

def Log.marker? : Log → Option (UInt16 × UInt16)
  | .shardMarker num count => some (num, count)
  | _ => none

def Log.phase? : Log → Option ScaleOutPhase
  | .scaleOutPhase phase => some phase
  | _ => none

theorem Log.asShardingInfo_digestItem (log : Log) : log.digestItem.asShardingInfo = log.marker? := by
  cases log with
  | shardMarker num count => exact DigestItem.asShardingInfo_shardingInfo num count
  | scaleOutPhase phase =>
    have hpayload := DigestItem.shardingPayload_other GENERATED_SHARDING_PREFIX
      GENERATED_SCALE_OUT_PHASE_PREFIX phase.encode phase.two_le_length_encode
    simp only [digestItem, DigestItem.asShardingInfo, DigestItem.scaleOutPhase,
      List.cons_append, List.nil_append, hpayload]
    rfl
  | _ => rfl

theorem Log.asScaleOutPhase_digestItem (log : Log) : log.digestItem.asScaleOutPhase = log.phase? := by
  cases log with
  | shardMarker num count =>
    have hpayload := DigestItem.shardingPayload_other GENERATED_SCALE_OUT_PHASE_PREFIX
      GENERATED_SHARDING_PREFIX (encodeLE 2 num.toNat ++ encodeLE 2 count.toNat) (by simp)
    simp only [digestItem, DigestItem.asScaleOutPhase, DigestItem.shardingInfo,
      List.cons_append, List.nil_append, hpayload]
    rfl
  | scaleOutPhase phase => exact DigestItem.asScaleOutPhase_scaleOutPhase phase
  | _ => rfl

theorem lastLog_append {α : Type} (logs logs' : List DigestItem) (read : DigestItem → Option α) :
    lastLog (logs ++ logs') read = (lastLog logs' read).or (lastLog logs read) := by
  rw [lastLog, List.reverse_append, List.findSome?_append]
  rfl

theorem lastLog_cons {α : Type} (item : DigestItem) (logs : List DigestItem)
    (read : DigestItem → Option α) :
    lastLog (item :: logs) read = (lastLog logs read).or (read item) := by
  rw [← List.singleton_append, lastLog_append]
  cases hread : read item <;> simp [lastLog, hread]

theorem lastLog_eq_none {α : Type} {logs : List DigestItem} {read : DigestItem → Option α}
    (h : ∀ item ∈ logs, read item = none) : lastLog logs read = none := by
  simpa [lastLog, List.findSome?_eq_none_iff] using h

end Yeeroot
