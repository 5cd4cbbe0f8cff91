import Yeeroot.Executive.Block.Lemmas
import Yeeroot.Executive.Digest
import Yeeroot.Executive.Lemmas
import Yeeroot.Runtime.Sharding.Lemmas

namespace Yeeroot

open Scale

theorem lastLog_eq_getLast? {α : Type} (logs : List DigestItem) (read : DigestItem → Option α) :
    lastLog logs read = (logs.filterMap read).getLast? := by
  rw [lastLog, ← List.head?_filterMap, List.filterMap_reverse, List.head?_reverse]

theorem filterMap_marker?_of_other {logs : List Log} (h : ∀ log ∈ logs, log.ofSharding = false) :
    logs.filterMap Log.marker? = [] := by
  rw [List.filterMap_eq_nil_iff]
  intro log hmem
  exact log.marker?_of_other (h log hmem)

variable {σ : Type}

theorem Crfg.onFinalize_logs (number : UInt64) (st : State σ) :
    ∃ rest, (∀ log ∈ rest, log.ofSharding = false) ∧
      (onFinalize number st).system.logs = st.system.logs ++ rest := by
  unfold onFinalize
  split
  · exact ⟨[], by simp, (List.append_nil _).symm⟩
  · next change _ =>
    -- A signal is deposited in the block it was scheduled in.
    by_cases hscheduled : number = change.scheduledAt
    · cases hforced : change.forced with
      | none =>
        refine ⟨[.authoritiesChangeSignal change.delay change.nextAuthorities],
          by simp [Log.ofSharding], ?_⟩
        dsimp only
        split_ifs <;> rfl
      | some median =>
        refine ⟨[.forcedAuthoritiesChangeSignal median change.delay change.nextAuthorities],
          by simp [Log.ofSharding], ?_⟩
        dsimp only
        split_ifs <;> rfl
    · refine ⟨[], by simp, ?_⟩
      dsimp only
      split_ifs <;> simp

theorem FinalityTracker.onFinalize_logs (st : State σ) :
    ∃ rest, (∀ log ∈ rest, log.ofSharding = false) ∧
      (onFinalize st).system.logs = st.system.logs ++ rest := by
  unfold onFinalize
  split
  · next number _ => exact ⟨[.finalizedBlockNumber number], by simp [Log.ofSharding], rfl⟩
  · exact ⟨[], by simp, (List.append_nil _).symm⟩

-- The last shard that a block's logs name is the one in its storage.
theorem finishBlock_marker (env : Substrate σ) {number : UInt64} {st final : State σ}
    {info : ShardInfo} (h : finishBlock env number st = .ok final)
    (hinfo : final.sharding.currentShardInfo = some info) :
    (final.system.logs.filterMap Log.marker?).getLast? = some (info.num, info.count) := by
  simp only [finishBlock, Run.bind_eq_ok, Run.pure_eq_ok] at h
  obtain ⟨_, _, paid, _, rfl⟩ := h
  have hsame := (Crfg.onFinalize_sameCore number (Sharding.onFinalize paid)).trans
    (FinalityTracker.onFinalize_sameCore _)
  have hpaid : paid.sharding.currentShardInfo = some info := by
    rw [← Sharding.onFinalize_sharding paid, ← hsame.sharding]
    exact hinfo
  obtain ⟨crfg, hcrfg, hcrfgLogs⟩ := Crfg.onFinalize_logs number (Sharding.onFinalize paid)
  obtain ⟨tracker, htracker, htrackerLogs⟩ :=
    FinalityTracker.onFinalize_logs (Crfg.onFinalize number (Sharding.onFinalize paid))
  have hphase : (paid.sharding.currentScaleOutPhase.map Log.scaleOutPhase).toList.filterMap
      Log.marker? = [] := by
    cases paid.sharding.currentScaleOutPhase <;> rfl
  rw [htrackerLogs, hcrfgLogs, Sharding.onFinalize_logs hpaid]
  simp only [List.filterMap_append, filterMap_marker?_of_other hcrfg,
    filterMap_marker?_of_other htracker, List.append_nil, List.filterMap_cons, hphase, Log.marker?]
  rw [List.getLast?_append]
  rfl

variable (env : Substrate σ) {extrinsics : List UncheckedExtrinsic} {number : UInt64}
variable {st final : State σ}

theorem executeExtrinsicsWithBookKeeping_finishes
    (h : executeExtrinsicsWithBookKeeping env extrinsics number st = .ok final) :
    ∃ executed ended, executeExtrinsics env extrinsics st = .ok (executed, ended) ∧
      finishBlock env number ended = .ok final := by
  simp only [executeExtrinsicsWithBookKeeping, Run.bind_eq_ok, Prod.exists] at h
  exact h

theorem executeWithExtra_finishes {ml : MerkleLight H256} {extra : Option Bytes}
    (h : executeWithExtra env ml extrinsics number extra st = .ok final) :
    ∃ executed ended, executeExtrinsics env extrinsics st = .ok (executed, ended) ∧
      finishBlock env number ended = .ok final := by
  unfold executeWithExtra at h
  cases extra with
  | none => exact executeExtrinsicsWithBookKeeping_finishes env h
  | some extra =>
    simp only [Run.bind_eq_ok] at h
    obtain ⟨found, _, h⟩ := h
    split at h
    · simp only [executeExtrinsicsWithBookKeepingWithProof, Run.bind_eq_ok, Prod.exists] at h
      obtain ⟨_, ended, hnoted, root, _, h⟩ := h
      split_ifs at h
      obtain ⟨executed, hexecuted⟩ := executeExtrinsics_of_notingRelays env hnoted
      exact ⟨executed, ended, hexecuted, h⟩
    · exact executeExtrinsicsWithBookKeeping_finishes env h

end Yeeroot
