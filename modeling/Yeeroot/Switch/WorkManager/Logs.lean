import Yeeroot.Digest.Lemmas
import Yeeroot.Runtime.Sharding.Lemmas
import Yeeroot.Switch.WorkManager

namespace Yeeroot.Switch

open Scale Yeeroot.Pow

variable {H : Type}

theorem parseLog_encode {item : DigestItem} {bytes : Bytes} (h : item.encode = .ok bytes) :
    parseLog bytes = item.asShardingInfo := by
  rcases item with data | data | data | data | ⟨engine, data⟩
  · simp only [DigestItem.encode, DigestItem.encode.encodeLengthPrefixed, Run.bind_eq_ok] at h
    obtain ⟨encoded, hencoded, h⟩ := h
    obtain rfl := (Run.pure_eq_ok _ _).mp h
    split_ifs at hencoded with hfits
    obtain rfl := Except.ok.inj hencoded
    have hdecode := decodeByteVec_append ⟨data, hfits⟩ []
    rw [List.append_nil] at hdecode
    simp only [parseLog, if_true, hdecode, Option.bind_eq_bind, Option.bind_some,
      DigestItem.asShardingInfo, DigestItem.shardingPayload]
    by_cases hlong : 6 ≤ data.length
    · have hlong' : 4 ≤ data.length := by omega
      simp only [hlong, hlong', true_and]
      split_ifs <;> rfl
    · have hnone := decode_pair_eq_none (show data.length < 6 by omega)
      simp only [hlong, false_and, if_false]
      split_ifs
      · exact hnone.symm
      · rfl
  · obtain rfl := Except.ok.inj h
    rfl
  · obtain rfl := Except.ok.inj h
    rfl
  · obtain rfl := Except.ok.inj h
    rfl
  · simp only [DigestItem.encode, Run.bind_eq_ok] at h
    obtain ⟨encoded, _, h⟩ := h
    obtain rfl := (Run.pure_eq_ok _ _).mp h
    rfl

theorem findSome?_encode {logs : List DigestItem} {encoded : List Bytes}
    (h : logs.mapM DigestItem.encode = .ok encoded) :
    encoded.findSome? parseLog = logs.findSome? DigestItem.asShardingInfo := by
  induction logs generalizing encoded with
  | nil =>
    obtain rfl := (Run.pure_eq_ok _ _).mp h
    rfl
  | cons item logs ih =>
    simp only [List.mapM_cons, Run.bind_eq_ok] at h
    obtain ⟨bytes, hbytes, rest, hrest, h⟩ := h
    obtain rfl := (Run.pure_eq_ok _ _).mp h
    rw [List.findSome?_cons, List.findSome?_cons, parseLog_encode hbytes, ih hrest]

-- The shard logs of a header agree, if it has more than one.
def LogsOneShard (header : BlockHeader H) : Prop :=
  ∀ item ∈ header.logs, ∀ item' ∈ header.logs, ∀ info info', item.asShardingInfo = some info →
    item'.asShardingInfo = some info' → info = info'

-- Then the first one, which the switch takes, is the last one, which the node takes.
theorem findSome?_eq_shardInfo {header : BlockHeader H} (h : LogsOneShard header) :
    header.logs.findSome? DigestItem.asShardingInfo = header.shardInfo := by
  cases hfirst : header.logs.findSome? DigestItem.asShardingInfo with
  | none =>
    refine (lastLog_eq_none ?_).symm
    exact List.findSome?_eq_none_iff.mp hfirst
  | some info =>
    obtain ⟨item, hitem, hinfo⟩ := List.exists_of_findSome?_eq_some hfirst
    cases hlast : header.shardInfo with
    | none =>
      have hnone := List.findSome?_eq_none_iff.mp hlast item (List.mem_reverse.mpr hitem)
      exact absurd (hinfo.symm.trans hnone) (by simp)
    | some info' =>
      obtain ⟨item', hitem', hinfo'⟩ := List.exists_of_findSome?_eq_some hlast
      rw [h item hitem item' (List.mem_reverse.mp hitem') info info' hinfo hinfo']

-- The runtime logs the shard once a block.
theorem logsOneShard_of_block {σ : Type} {number : UInt64} {shard : ShardInfo} {st st' : State σ}
    {logs : List Log} (hblock : Sharding.ShardBlock number shard st logs st')
    {header : BlockHeader H} (hlogs : header.logs = logs.map Log.digestItem) :
    LogsOneShard header := by
  have hmarker : ∀ item ∈ header.logs, ∀ info, item.asShardingInfo = some info →
      info = (shard.num, shard.count) := by
    intro item hitem info hinfo
    rw [hlogs] at hitem
    obtain ⟨log, hlog, rfl⟩ := List.mem_map.mp hitem
    rw [Log.asShardingInfo_digestItem] at hinfo
    exact Sharding.marker_of_mem_logs hblock hlog hinfo
  intro item hitem item' hitem' info info' hinfo hinfo'
  rw [hmarker item hitem info hinfo, hmarker item' hitem' info' hinfo']

end Yeeroot.Switch
