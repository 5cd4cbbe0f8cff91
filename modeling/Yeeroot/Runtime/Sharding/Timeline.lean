import Yeeroot.Executive
import Yeeroot.Runtime.Sharding.Lemmas

namespace Yeeroot.Sharding

variable {σ : Type}

-- The phases that wait for a block number.
inductive Stage where
  | started
  | nativeReady
  | ready

def Stage.phase : Stage → UInt64 → UInt16 → ScaleOutPhase
  | .started => .started
  | .nativeReady => .nativeReady
  | .ready => .ready

-- What a stage turns into in the block it waits for.
def Stage.after (stage : Stage) (info : ShardInfo) (blockNumber observe : UInt64) :
    ScaleOutPhase :=
  match stage with
  | .started => .nativeReady (blockNumber + observe) (targetShardNum info)
  | .nativeReady => .ready (blockNumber + observe) (targetShardNum info)
  | .ready => .committing (info.count + info.count)

theorem nextPhase_stage (stage : Stage) (observeUtil : UInt64) (shardNum : UInt16)
    (info : ShardInfo) (blockNumber observe : UInt64) :
    nextPhase (some (stage.phase observeUtil shardNum)) info blockNumber observe =
      if observeUtil = blockNumber then some (stage.after info blockNumber observe)
      else some (stage.phase observeUtil shardNum) := by
  cases stage <;> rfl

theorem observeUtil_of_starts {phase : Option ScaleOutPhase} {info : ShardInfo}
    {blockNumber observe observeUtil : UInt64} {shardNum : UInt16}
    (hbefore : ∀ util num, phase ≠ some (.started util num))
    (h : nextPhase phase info blockNumber observe = some (.started observeUtil shardNum)) :
    observeUtil = blockNumber + observe := by
  rcases phase with _ | (⟨util, num⟩ | ⟨util, num⟩ | ⟨util, num⟩ | count | ⟨num, count⟩)
  · simp only [nextPhase] at h
    split at h
    · simp only [Option.some.injEq, ScaleOutPhase.started.injEq] at h
      exact h.1.symm
    · simp at h
  · exact absurd rfl (hbefore util num)
  · simp only [nextPhase] at h
    split_ifs at h <;> simp at h
  · simp only [nextPhase] at h
    split_ifs at h <;> simp at h
  · simp [nextPhase] at h
  · simp [nextPhase] at h

-- Consecutive blocks with one inherent each.
structure ShardRun (σ : Type) where
  first : UInt64
  length : Nat
  info : Nat → ShardInfo
  logs : Nat → List Log
  state : Nat → State σ
  block : ∀ k < length,
    ShardBlock (first + UInt64.ofNat k) (info k) (state k) (logs k) (state (k + 1))

namespace ShardRun

variable (run : ShardRun σ)

def number (k : Nat) : UInt64 := run.first + UInt64.ofNat k

def phase (k : Nat) : Option ScaleOutPhase := (run.state (k + 1)).sharding.currentScaleOutPhase

def observe : UInt64 := (run.state 0).sharding.scaleOutObserveBlocks

def period : Nat := run.observe.toNat

theorem number_add_observe (k : Nat) : run.number k + run.observe = run.number (k + run.period) := by
  simp only [number, period, UInt64.ofNat_add, UInt64.ofNat_toNat, UInt64.add_assoc]

-- Block numbers wrap, so they tell apart the blocks of a window of `2 ^ 64` only.
theorem number_injOn {k l : Nat} (hle : k ≤ l) (hlt : l < k + 2 ^ 64)
    (h : run.number l = run.number k) : l = k := by
  have hcancel : UInt64.ofNat l = UInt64.ofNat k := (UInt64.add_right_inj run.first).mp h
  have hmod := congrArg UInt64.toNat hcancel
  simp only [UInt64.toNat_ofNat'] at hmod
  omega

variable {k n : Nat} {stage : Stage} {shardNum : UInt16}

theorem scaleOutObserveBlocks_eq (hk : k ≤ run.length) :
    (run.state k).sharding.scaleOutObserveBlocks = run.observe := by
  induction k with
  | zero => rfl
  | succ k ih => rw [sharding_of_block (run.block k hk), ih (Nat.le_of_succ_le hk)]

theorem phase_eq (hk : k < run.length) :
    run.phase k = nextPhase (run.state k).sharding.currentScaleOutPhase (run.info k)
      (run.number k) run.observe := by
  rw [phase, sharding_of_block (run.block k hk), run.scaleOutObserveBlocks_eq (Nat.le_of_lt hk)]
  rfl

theorem phase_succ (hk : k + 1 < run.length) :
    run.phase (k + 1) =
      nextPhase (run.phase k) (run.info (k + 1)) (run.number (k + 1)) run.observe :=
  run.phase_eq hk

theorem phase_waiting (h : run.phase k = some (stage.phase (run.number (k + run.period)) shardNum))
    {j : Nat} (hj : j < run.period) (hlength : k + j < run.length) :
    run.phase (k + j) = some (stage.phase (run.number (k + run.period)) shardNum) := by
  induction j with
  | zero => exact h
  | succ j ih =>
    have hperiod : run.period < 2 ^ 64 := run.observe.toNat_lt
    have hbefore : run.number (k + run.period) ≠ run.number (k + j + 1) := by
      intro heq
      have := run.number_injOn (by omega) (by omega) heq
      omega
    have hsucc : k + j + 1 < run.length := by omega
    rw [← Nat.add_assoc, run.phase_succ hsucc, ih (by omega) (by omega), nextPhase_stage,
      if_neg hbefore]

theorem phase_after (h : run.phase k = some (stage.phase (run.number (k + run.period)) shardNum))
    (hperiod : 0 < run.period) (hlength : k + run.period < run.length) :
    run.phase (k + run.period) = some (stage.after (run.info (k + run.period))
      (run.number (k + run.period)) run.observe) := by
  have hlast : run.phase (k + (run.period - 1)) =
      some (stage.phase (run.number (k + run.period)) shardNum) :=
    run.phase_waiting h (by omega) (by omega)
  have hsucc : k + run.period = k + (run.period - 1) + 1 := by omega
  have hnext := run.phase_succ (hsucc ▸ hlength)
  rw [← hsucc, hlast, nextPhase_stage, if_pos rfl] at hnext
  exact hnext

-- Block `k` is in the stage, and the block number it waits for is still ahead.
def Waits (stage : Stage) (k : Nat) : Prop :=
  ∃ ahead shardNum, 0 < ahead ∧ ahead ≤ run.period ∧
    run.phase k = some (stage.phase (run.number (k + ahead)) shardNum)

theorem waits_of_entered
    (h : run.phase k = some (stage.phase (run.number (k + run.period)) shardNum)) {j : Nat}
    (hj : j < run.period) (hlength : k + j < run.length) : run.Waits stage (k + j) := by
  refine ⟨run.period - j, shardNum, by omega, by omega, ?_⟩
  have hahead : k + j + (run.period - j) = k + run.period := by omega
  rw [hahead]
  exact run.phase_waiting h hj hlength

def StartsIn (n : Nat) : Prop :=
  n < run.length ∧
    (∀ observeUtil shardNum,
      (run.state n).sharding.currentScaleOutPhase ≠ some (.started observeUtil shardNum)) ∧
    ∃ observeUtil shardNum, run.phase n = some (.started observeUtil shardNum)

-- The scale-out that starts in block `n`, as far as the run goes.
structure Timeline (n : Nat) : Prop where
  started : ∀ j < run.period, n + j < run.length → run.Waits .started (n + j)
  nativeReady : ∀ j < run.period, n + run.period + j < run.length →
    run.Waits .nativeReady (n + run.period + j)
  ready : ∀ j < run.period, n + 2 * run.period + j < run.length →
    run.Waits .ready (n + 2 * run.period + j)
  committing : n + 3 * run.period < run.length → ∃ shardCount,
    run.phase (n + 3 * run.period) = some (.committing shardCount) ∧
      shardCount.toNat = 2 * (run.info (n + 3 * run.period)).count.toNat
  committed : n + 3 * run.period + 1 < run.length → ∃ shardNum shardCount,
    run.phase (n + 3 * run.period + 1) = some (.committed shardNum shardCount)
  ended : n + 3 * run.period + 2 < run.length → run.phase (n + 3 * run.period + 2) = none

variable {run}

theorem started_of_startsIn (h : run.StartsIn n) : ∃ shardNum,
    run.phase n = some (Stage.phase .started (run.number (n + run.period)) shardNum) := by
  obtain ⟨hlength, hbefore, observeUtil, shardNum, hphase⟩ := h
  refine ⟨shardNum, ?_⟩
  have hnext := (run.phase_eq hlength).symm.trans hphase
  rw [hphase, observeUtil_of_starts hbefore hnext, run.number_add_observe]
  rfl

theorem nativeReady_of_startsIn (h : run.StartsIn n) (hperiod : 0 < run.period)
    (hlength : n + run.period < run.length) : ∃ shardNum,
    run.phase (n + run.period) =
      some (Stage.phase .nativeReady (run.number (n + run.period + run.period)) shardNum) := by
  obtain ⟨_, hstarted⟩ := started_of_startsIn h
  have hafter := run.phase_after hstarted hperiod hlength
  exact ⟨_, by rw [hafter, Stage.after, run.number_add_observe]; rfl⟩

theorem ready_of_startsIn (h : run.StartsIn n) (hperiod : 0 < run.period)
    (hlength : n + 2 * run.period < run.length) : ∃ shardNum,
    run.phase (n + 2 * run.period) =
      some (Stage.phase .ready (run.number (n + 2 * run.period + run.period)) shardNum) := by
  have htwice : n + 2 * run.period = n + run.period + run.period := by omega
  rw [htwice] at hlength ⊢
  obtain ⟨_, hnative⟩ := nativeReady_of_startsIn h hperiod (by omega)
  have hafter := run.phase_after hnative hperiod hlength
  exact ⟨_, by rw [hafter, Stage.after, run.number_add_observe]; rfl⟩

theorem committing_of_startsIn (h : run.StartsIn n) (hperiod : 0 < run.period)
    (hlength : n + 3 * run.period < run.length) :
    run.phase (n + 3 * run.period) = some (.committing
      ((run.info (n + 3 * run.period)).count + (run.info (n + 3 * run.period)).count)) := by
  have hthrice : n + 3 * run.period = n + 2 * run.period + run.period := by omega
  rw [hthrice] at hlength ⊢
  obtain ⟨_, hready⟩ := ready_of_startsIn h hperiod (by omega)
  exact run.phase_after hready hperiod hlength

theorem committed_of_startsIn (h : run.StartsIn n) (hperiod : 0 < run.period)
    (hlength : n + 3 * run.period + 1 < run.length) : ∃ shardNum shardCount,
    run.phase (n + 3 * run.period + 1) = some (.committed shardNum shardCount) := by
  have hnext := run.phase_succ hlength
  rw [committing_of_startsIn h hperiod (by omega)] at hnext
  exact ⟨_, _, hnext⟩

theorem ended_of_startsIn (h : run.StartsIn n) (hperiod : 0 < run.period)
    (hlength : n + 3 * run.period + 2 < run.length) :
    run.phase (n + 3 * run.period + 2) = none := by
  obtain ⟨_, _, hcommitted⟩ := committed_of_startsIn h hperiod (by omega)
  have hnext := run.phase_succ hlength
  rw [hcommitted] at hnext
  exact hnext

theorem toNat_add_self_iff (count : UInt16) :
    (count + count).toNat = 2 * count.toNat ↔ count.toNat < 2 ^ 15 := by
  have hlt := count.toNat_lt
  rw [UInt16.toNat_add]
  omega

-- The shard count is doubled in 16 bits. Everything else holds of every scale-out.
theorem timeline_iff_count_small {n : Nat} (hobserve : 1 ≤ run.observe) (hstart : run.StartsIn n) :
    run.Timeline n ↔ (n + 3 * run.period < run.length →
      (run.info (n + 3 * run.period)).count.toNat < 2 ^ 15) := by
  have hperiod : 0 < run.period := UInt64.le_iff_toNat_le.mp hobserve
  constructor
  · intro htimeline hlength
    obtain ⟨shardCount, hphase, hdouble⟩ := htimeline.committing hlength
    rw [committing_of_startsIn hstart hperiod hlength] at hphase
    obtain rfl := ScaleOutPhase.committing.inj (Option.some.inj hphase)
    exact (toNat_add_self_iff _).mp hdouble
  · intro hcount
    refine ⟨?_, ?_, ?_, ?_, committed_of_startsIn hstart hperiod, ended_of_startsIn hstart hperiod⟩
    · intro j hj hlength
      obtain ⟨_, hstarted⟩ := started_of_startsIn hstart
      exact run.waits_of_entered hstarted hj hlength
    · intro j hj hlength
      obtain ⟨_, hnative⟩ := nativeReady_of_startsIn hstart hperiod (by omega)
      exact run.waits_of_entered hnative hj hlength
    · intro j hj hlength
      obtain ⟨_, hready⟩ := ready_of_startsIn hstart hperiod (by omega)
      exact run.waits_of_entered hready hj hlength
    · intro hlength
      exact ⟨_, committing_of_startsIn hstart hperiod hlength,
        (toNat_add_self_iff _).mpr (hcount hlength)⟩

-- The run of blocks that do nothing but take their inherents.
def followState (first : UInt64) (info : Nat → ShardInfo) (st : State σ) : Nat → State σ
  | 0 => st
  | k + 1 => runBlock (first + UInt64.ofNat k) (info k) (followState first info st k)

def follow (first : UInt64) (length : Nat) (info : Nat → ShardInfo) (st : State σ) :
    ShardRun σ where
  first := first
  length := length
  info := info
  logs k := (followState first info st (k + 1)).system.logs
  state := followState first info st
  block k _ := shardBlock_runBlock (first + UInt64.ofNat k) (info k) (followState first info st k)

-- A shard asks for its split in every block, with an observe period of one block.
def plainScaleOut (count : UInt16) : ShardRun Unit :=
  follow 7 6 (fun _ => ⟨0, count, some ⟨count⟩⟩) (plainState none)

theorem plainScaleOut_starts (count : UInt16) : (plainScaleOut count).StartsIn 0 :=
  ⟨Nat.zero_lt_succ 5, by simp [plainScaleOut, follow, followState, plainState], 8, count, rfl⟩

theorem timeline_iff_count_small_two : (plainScaleOut 2).Timeline 0 := by
  have hobserve : 1 ≤ (plainScaleOut 2).observe := by decide
  exact (timeline_iff_count_small hobserve (plainScaleOut_starts 2)).mpr (fun _ => by decide)

-- With the most shards that 16 bits can number, the split commits to zero shards.
theorem commits_to_zero_shards :
    (plainScaleOut 32768).phase 3 = some (.committing 0) ∧
    ((plainScaleOut 32768).info 3).count = 32768 ∧
    1 ≤ (plainScaleOut 32768).observe ∧ (plainScaleOut 32768).StartsIn 0 ∧
    ¬ (plainScaleOut 32768).Timeline 0 := by
  have hphase : (plainScaleOut 32768).phase 3 = some (.committing 0) := rfl
  refine ⟨hphase, rfl, by decide, plainScaleOut_starts 32768, ?_⟩
  intro htimeline
  obtain ⟨shardCount, hcommitting, hdouble⟩ := htimeline.committing (by decide)
  have hsame := hphase.symm.trans hcommitting
  obtain rfl := ScaleOutPhase.committing.inj (Option.some.inj hsame)
  exact absurd hdouble (by decide)

end ShardRun

end Yeeroot.Sharding
