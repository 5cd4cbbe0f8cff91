import Yeeroot.Digest.Lemmas
import Yeeroot.Runtime.Sharding

namespace Yeeroot

-- The log entries of the sharding module.
def Log.ofSharding : Log → Bool
  | .shardMarker _ _ => true
  | .scaleOutPhase _ => true
  | _ => false

theorem Log.marker?_of_other (log : Log) (h : log.ofSharding = false) : log.marker? = none := by
  cases log <;> first | rfl | simp [Log.ofSharding] at h

theorem Log.phase?_of_other (log : Log) (h : log.ofSharding = false) : log.phase? = none := by
  cases log <;> first | rfl | simp [Log.ofSharding] at h

namespace Sharding

variable {σ : Type} {number : UInt64} {info : ShardInfo} {st st' : State σ} {logs : List Log}

theorem onFinalize_sharding (st : State σ) : (onFinalize st).sharding = st.sharding := by
  unfold onFinalize
  cases hinfo : st.sharding.currentShardInfo <;>
    cases hphase : st.sharding.currentScaleOutPhase <;>
    simp [State.depositLog, hphase]

theorem onFinalize_logs (hinfo : st.sharding.currentShardInfo = some info) :
    (onFinalize st).system.logs = st.system.logs ++
      .shardMarker info.num info.count ::
        (st.sharding.currentScaleOutPhase.map Log.scaleOutPhase).toList := by
  unfold onFinalize
  cases hphase : st.sharding.currentScaleOutPhase <;>
    simp [State.depositLog, hinfo, hphase]

-- A block with one inherent, as the sharding module sees it. What else the block does
-- keeps the module's storage and only deposits logs of other modules.
def ShardBlock (number : UInt64) (info : ShardInfo) (st : State σ) (logs : List Log)
    (st' : State σ) : Prop :=
  ∃ (before after : State σ) (rest : List Log),
    before.sharding = st.sharding ∧ before.system.blockNumber = number ∧
    after.sharding = (setShardInfo .inherent info before).state.sharding ∧
    (∀ log ∈ after.system.logs, log.ofSharding = false) ∧
    (∀ log ∈ rest, log.ofSharding = false) ∧
    logs = (onFinalize after).system.logs ++ rest ∧
    st'.sharding = (onFinalize after).sharding

theorem sharding_of_block (h : ShardBlock number info st logs st') :
    st'.sharding = { st.sharding with
      currentShardInfo := some info
      currentScaleOutPhase := nextPhase st.sharding.currentScaleOutPhase info number
        st.sharding.scaleOutObserveBlocks } := by
  obtain ⟨before, after, rest, hbefore, hnumber, hafter, _, _, _, hst⟩ := h
  rw [hst, onFinalize_sharding, hafter, ← hbefore, ← hnumber]
  rfl

-- The block's log holds the shard marker and the new phase, and no other entry of the module.
theorem logs_of_block (h : ShardBlock number info st logs st') :
    ∃ early rest, (∀ log ∈ early, log.ofSharding = false) ∧
      (∀ log ∈ rest, log.ofSharding = false) ∧
      logs = early ++ .shardMarker info.num info.count ::
        (st'.sharding.currentScaleOutPhase.map Log.scaleOutPhase).toList ++ rest := by
  have hsharding := sharding_of_block h
  obtain ⟨before, after, rest, _, _, hafter, hearly, hrest, rfl, hst⟩ := h
  rw [onFinalize_sharding] at hst
  have hinfo : after.sharding.currentShardInfo = some info := by rw [← hst, hsharding]
  exact ⟨after.system.logs, rest, hearly, hrest, by rw [onFinalize_logs hinfo, hst]⟩

theorem lastLog_of_other {α : Type} {read : DigestItem → Option α} {own : Log → Option α}
    (hread : ∀ log : Log, read log.digestItem = own log)
    (hown : ∀ log : Log, log.ofSharding = false → own log = none)
    (h : ∀ log ∈ logs, log.ofSharding = false) : lastLog (logs.map Log.digestItem) read = none := by
  apply lastLog_eq_none
  intro item hitem
  obtain ⟨log, hlog, rfl⟩ := List.mem_map.mp hitem
  exact (hread log).trans (hown log (h log hlog))

theorem shardInfo_of_block (h : ShardBlock number info st logs st') :
    lastLog (logs.map Log.digestItem) DigestItem.asShardingInfo = some (info.num, info.count) := by
  obtain ⟨early, rest, _, hrest, rfl⟩ := logs_of_block h
  have hlate := lastLog_of_other Log.asShardingInfo_digestItem Log.marker?_of_other hrest
  rw [List.map_append, lastLog_append, hlate, List.map_append, lastLog_append, List.map_cons,
    lastLog_cons, Log.asShardingInfo_digestItem]
  cases st'.sharding.currentScaleOutPhase with
  | none => simp [lastLog, Log.marker?]
  | some phase => simp [lastLog, Log.asShardingInfo_digestItem, Log.marker?]

theorem phase_of_block (h : ShardBlock number info st logs st') :
    lastLog (logs.map Log.digestItem) DigestItem.asScaleOutPhase =
      st'.sharding.currentScaleOutPhase := by
  obtain ⟨early, rest, hearly, hrest, rfl⟩ := logs_of_block h
  have hlate := lastLog_of_other Log.asScaleOutPhase_digestItem Log.phase?_of_other hrest
  have hfirst := lastLog_of_other Log.asScaleOutPhase_digestItem Log.phase?_of_other hearly
  rw [List.map_append, lastLog_append, hlate, List.map_append, lastLog_append, hfirst,
    List.map_cons, lastLog_cons, Log.asScaleOutPhase_digestItem]
  cases st'.sharding.currentScaleOutPhase with
  | none => simp [lastLog, Log.phase?]
  | some phase => simp [lastLog, Log.asScaleOutPhase_digestItem, Log.phase?]

-- No other entry of the log names a shard.
theorem marker_of_mem_logs (h : ShardBlock number info st logs st') {log : Log}
    {shard : UInt16 × UInt16} (hmem : log ∈ logs) (hmarker : log.marker? = some shard) :
    shard = (info.num, info.count) := by
  obtain ⟨early, rest, hearly, hrest, rfl⟩ := logs_of_block h
  have hother : log.ofSharding ≠ false := by
    intro hfalse
    exact absurd ((log.marker?_of_other hfalse).symm.trans hmarker) (by simp)
  simp only [List.mem_append, List.mem_cons, Option.mem_toList, Option.map_eq_some_iff] at hmem
  rcases hmem with (hin | rfl | ⟨phase, _, rfl⟩) | hin
  · exact absurd (hearly log hin) hother
  · exact (Option.some.inj hmarker).symm
  · exact absurd hmarker (by simp [Log.marker?])
  · exact absurd (hrest log hin) hother

-- The block that does nothing but take its inherent.
def runBlock (number : UInt64) (info : ShardInfo) (st : State σ) : State σ :=
  onFinalize (setShardInfo .inherent info
    { st with system := { st.system with blockNumber := number, logs := [] } }).state

theorem shardBlock_runBlock (number : UInt64) (info : ShardInfo) (st : State σ) :
    ShardBlock number info st (runBlock number info st).system.logs (runBlock number info st) := by
  refine ⟨{ st with system := { st.system with blockNumber := number, logs := [] } }, _, [], rfl,
    rfl, rfl, ?_, by simp, (List.append_nil _).symm, rfl⟩
  intro log hlog
  exact absurd hlog (by simp [setShardInfo, Outcome.done])

end Sharding

end Yeeroot
