import Yeeroot.Cli.CustomParam
import Yeeroot.Pow.Seal
import Yeeroot.Runtime.Sharding.Lemmas
import Yeeroot.Transition
import Yeeroot.Verifier.ShardInfo.Theorems

namespace Yeeroot.Cli

open Scale Sharding Transition Verifier

theorem getShardInfoFromClient_genesis {genesisShardCount arg : UInt16} {head : Header}
    {info : ShardInfo} (hinfo : head.shardInfo = none)
    (h : getShardInfoFromClient genesisShardCount arg head = .ok (.ok info)) :
    info.scaleOut = none := by
  simp only [getShardInfoFromClient, hinfo] at h
  split_ifs at h
  · simp at h
  · obtain rfl := Except.ok.inj (Except.ok.inj h)
    rfl

theorem getShardInfoFromClient_committing {genesisShardCount arg num count target : UInt16}
    {head : Header} {info : ShardInfo} (hinfo : head.shardInfo = some (num, count))
    (hphase : head.phase = some (.committing target))
    (h : getShardInfoFromClient genesisShardCount arg head = .ok (.ok info)) :
    info = ⟨arg, target, none⟩ := by
  simp only [getShardInfoFromClient, hinfo, hphase] at h
  split_ifs at h
  · exact (Except.ok.inj (Except.ok.inj h)).symm
  · simp at h

theorem getShardInfoFromClient_normal {genesisShardCount arg num count : UInt16}
    {head : Header} {info : ShardInfo} (hinfo : head.shardInfo = some (num, count))
    (hphase : ∀ target, head.phase ≠ some (.committing target))
    (h : getShardInfoFromClient genesisShardCount arg head = .ok (.ok info)) :
    info.num = num ∧ info.count = count ∧ targets (targetShardNum info) num count = true := by
  simp only [getShardInfoFromClient, hinfo] at h
  simp only [Run.bind_eq_ok, Run.expect_eq_ok, Option.some.injEq] at h
  obtain ⟨_, rfl, h⟩ := h
  split_ifs at h with hsame hother
  · obtain rfl := Except.ok.inj ((Run.pure_eq_ok _ _).mp h)
    exact ⟨rfl, rfl, by simp [targetShardNum, targets]⟩
  · obtain rfl := Except.ok.inj ((Run.pure_eq_ok _ _).mp h)
    exact ⟨rfl, rfl, by simp [targetShardNum, targets, hother]⟩
  · exact absurd ((Run.pure_eq_ok _ _).mp h) (by simp)

-- In a waiting phase of shard `num` the block number waited for is ahead of the head's.
def WaitsAhead (number : UInt64) (num count : UInt16) : Option ScaleOutPhase → Prop
  | some (.started observeUtil shardNum) =>
    number < observeUtil ∧ targets shardNum num count = true
  | some (.nativeReady observeUtil shardNum) =>
    number < observeUtil ∧ targets shardNum num count = true
  | some (.ready observeUtil shardNum) =>
    number < observeUtil ∧ targets shardNum num count = true
  | _ => True

theorem lt_add_of_fits {number observe : UInt64} (hobserve : 1 ≤ observe)
    (hfits : number.toNat + observe.toNat < 2 ^ 64) : number < number + observe := by
  have hone := UInt64.le_iff_toNat_le.mp hobserve
  rw [UInt64.lt_iff_toNat_lt, UInt64.toNat_add, Nat.mod_eq_of_lt hfits]
  have : (1 : UInt64).toNat = 1 := rfl
  omega

theorem succ_lt_of_lt_of_ne {number observeUtil : UInt64} (hlt : number < observeUtil)
    (hne : observeUtil ≠ number + 1) : number + 1 < observeUtil := by
  have hlt' := UInt64.lt_iff_toNat_lt.mp hlt
  have hbound := observeUtil.toNat_lt
  have hsucc : (number + 1).toNat = number.toNat + 1 := by
    rw [UInt64.toNat_add]
    have : (1 : UInt64).toNat = 1 := rfl
    omega
  have hne' : observeUtil.toNat ≠ number.toNat + 1 := by
    intro h
    exact hne (UInt64.toNat_inj.mp (h.trans hsucc.symm))
  rw [UInt64.lt_iff_toNat_lt, hsucc]
  omega

section Step

variable {number observe : UInt64} {num count : UInt16} {phase : Option ScaleOutPhase}
  {info : ShardInfo}

theorem phaseOk_nextPhase (hobserve : 1 ≤ observe)
    (hfits : (number + 1).toNat + observe.toNat < 2 ^ 64)
    (hwaits : WaitsAhead number num count phase)
    (hphase : ∀ target, phase ≠ some (.committing target)) (hcount : info.count = count)
    (htarget : targets (targetShardNum info) num count = true) :
    phaseOk .release observe (number + 1) num count phase
        (nextPhase phase info (number + 1) observe) = .ok true ∧
      WaitsAhead (number + 1) num count (nextPhase phase info (number + 1) observe) ∧
      ∀ shardNum shardCount,
        nextPhase phase info (number + 1) observe ≠ some (.committed shardNum shardCount) := by
  have hahead := lt_add_of_fits hobserve hfits
  rcases phase with _ | (⟨util, target⟩ | ⟨util, target⟩ | ⟨util, target⟩ | target | ⟨old, total⟩)
  · cases hscale : info.scaleOut with
    | none => simp [nextPhase, hscale, phaseOk.eq_def, WaitsAhead]
    | some scaleOut =>
      simp [nextPhase, hscale, phaseOk.eq_def, firstWaiting_computes _ _ _, WaitsAhead, htarget,
        hahead]
  · obtain ⟨hlt, hold⟩ := hwaits
    by_cases hutil : util = number + 1
    · simp [nextPhase, hutil, phaseOk.eq_def, nextWaiting_computes _ _ _ _, WaitsAhead, htarget,
        hahead]
    · simp [nextPhase, hutil, phaseOk.eq_def, stillWaiting_computes _ _ _ _, WaitsAhead, hold,
        succ_lt_of_lt_of_ne hlt hutil]
  · obtain ⟨hlt, hold⟩ := hwaits
    by_cases hutil : util = number + 1
    · simp [nextPhase, hutil, phaseOk.eq_def, nextWaiting_computes _ _ _ _, WaitsAhead, htarget,
        hahead]
    · simp [nextPhase, hutil, phaseOk.eq_def, stillWaiting_computes _ _ _ _, WaitsAhead, hold,
        succ_lt_of_lt_of_ne hlt hutil]
  · obtain ⟨hlt, hold⟩ := hwaits
    by_cases hutil : util = number + 1
    · have hdouble : count + count = count * 2 := by
        apply UInt16.toNat_inj.mp
        rw [UInt16.toNat_add, UInt16.toNat_mul]
        exact congrArg (· % 2 ^ 16) (Nat.mul_two _).symm
      simp [nextPhase, hutil, phaseOk.eq_def, commits_computes _ _ _, WaitsAhead, hcount, hdouble]
    · simp [nextPhase, hutil, phaseOk.eq_def, stillWaiting_computes _ _ _ _, WaitsAhead, hold,
        succ_lt_of_lt_of_ne hlt hutil]
  · exact absurd rfl (hphase target)
  · simp [nextPhase, phaseOk.eq_def, WaitsAhead]

end Step

variable {σ : Type}

-- A node at its best block.
structure Node (σ : Type) where
  state : State σ
  head : Header

def IsGenesis (observe : UInt64) (node : Node σ) : Prop :=
  node.head.number = 0 ∧ node.head.logs = [] ∧ node.state.sharding = ⟨observe, none, none⟩

-- Who authors the next block: the shard number on the command line, the coinbase, and
-- the seal that is found.
structure Author where
  argShardNum : UInt16
  coinbase : AccountId
  sealed : Bytes

structure AuthoredBlock where
  extra : ShardExtra
  parent : Header
  header : Header

def authorStep (genesisShardCount : UInt16) (node : Node σ) (author : Author) (node' : Node σ)
    (blocks : List AuthoredBlock) : Prop :=
  ∃ info logs header,
    getShardInfoFromClient genesisShardCount author.argShardNum node.head = .ok (.ok info) ∧
    header.number = node.head.number + 1 ∧ header.logs = logs.map Log.digestItem ∧
    ShardBlock header.number info node.state logs node'.state ∧
    node'.head = { header with
      logs := header.logs ++ [.consensus Pow.YEE_POW_ENGINE_ID author.sealed] } ∧
    blocks = [⟨⟨author.coinbase, info.num, info.count, info.scaleOut⟩, node.head, header⟩]

-- A verifier with the author's own startup result takes the header.
def AuthoredBlock.Passes (observe : UInt64) (block : AuthoredBlock) : Prop :=
  ∀ chain, chain block.header.parentHash = some block.parent →
    checkShardInfo .release chain observe block.extra block.header = .ok (.ok ())

-- The storage of a node agrees with the log of its head.
structure Agrees (observe : UInt64) (node : Node σ) : Prop where
  observe_eq : node.state.sharding.scaleOutObserveBlocks = observe
  phase_eq : node.state.sharding.currentScaleOutPhase = node.head.phase
  unmarked : node.head.shardInfo = none → node.head.phase = none
  waits : ∀ num count, node.head.shardInfo = some (num, count) →
    WaitsAhead node.head.number num count node.head.phase

theorem agrees_genesis {observe : UInt64} {node : Node σ} (h : IsGenesis observe node) :
    Agrees observe node := by
  obtain ⟨_, hlogs, hsharding⟩ := h
  have hinfo : node.head.shardInfo = none := by rw [Header.shardInfo, hlogs]; rfl
  have hphase : node.head.phase = none := by rw [Header.phase, hlogs]; rfl
  refine ⟨by rw [hsharding], by rw [hsharding, hphase], fun _ => hphase, ?_⟩
  intro num count hmarked
  exact absurd (hinfo.symm.trans hmarked) (by simp)

-- The number of the next block leaves room for the observe period.
def NumberFits (observe : UInt64) (node : Node σ) (_ : Author) : Prop :=
  (node.head.number + 1).toNat + observe.toNat < 2 ^ 64

theorem phaseOk_of_agrees {observe : UInt64} {node : Node σ} {genesisShardCount arg : UInt16}
    {info : ShardInfo} {phase : Option ScaleOutPhase} (hagrees : Agrees observe node)
    (hobserve : 1 ≤ observe) (hfits : (node.head.number + 1).toNat + observe.toNat < 2 ^ 64)
    (hstartup : getShardInfoFromClient genesisShardCount arg node.head = .ok (.ok info))
    (hnext : phase = nextPhase node.head.phase info (node.head.number + 1) observe) :
    phaseOk .release observe (node.head.number + 1) info.num info.count node.head.phase phase =
        .ok true ∧
      WaitsAhead (node.head.number + 1) info.num info.count phase ∧
      ∀ shardNum shardCount, phase = some (.committed shardNum shardCount) →
        shardCount = info.count := by
  subst hnext
  cases hinfo : node.head.shardInfo with
  | none =>
    have hscale := getShardInfoFromClient_genesis hinfo hstartup
    simp [hagrees.unmarked hinfo, nextPhase, hscale, phaseOk.eq_def, WaitsAhead]
  | some marker =>
    obtain ⟨num, count⟩ := marker
    by_cases hcommitting : ∃ target, node.head.phase = some (.committing target)
    · obtain ⟨target, htarget⟩ := hcommitting
      obtain rfl := getShardInfoFromClient_committing hinfo htarget hstartup
      simp [htarget, nextPhase, phaseOk.eq_def, WaitsAhead, targetShardNum]
    · have hnormal : ∀ target, node.head.phase ≠ some (.committing target) :=
        fun target htarget => hcommitting ⟨target, htarget⟩
      obtain ⟨rfl, rfl, htarget⟩ := getShardInfoFromClient_normal hinfo hnormal hstartup
      obtain ⟨hok, hwaits, hcommitted⟩ := phaseOk_nextPhase hobserve hfits
        (hagrees.waits _ _ hinfo) hnormal rfl htarget
      exact ⟨hok, hwaits, fun shardNum shardCount h => absurd h (hcommitted shardNum shardCount)⟩

theorem checkScale_own {header : Header} {coinbase : AccountId} {info : ShardInfo}
    (h : ∀ shardNum shardCount, header.phase = some (.committed shardNum shardCount) →
      shardCount = info.count) :
    checkScale header ⟨coinbase, info.num, info.count, info.scaleOut⟩ = .ok (.ok ()) := by
  unfold checkScale
  split
  · next shardNum shardCount hphase =>
      rw [if_neg (not_not.mpr (h shardNum shardCount hphase).symm)]
  · rfl

theorem agrees_step {observe : UInt64} {genesisShardCount : UInt16} {node node' : Node σ}
    {author : Author} {blocks : List AuthoredBlock} (hobserve : 1 ≤ observe)
    (hagrees : Agrees observe node) (hfits : NumberFits observe node author)
    (hstep : authorStep genesisShardCount node author node' blocks) :
    Agrees observe node' ∧ ∀ block ∈ blocks, block.Passes observe := by
  obtain ⟨info, logs, header, hstartup, hnumber, hlogs, hblock, hhead, rfl⟩ := hstep
  have hsharding := sharding_of_block hblock
  rw [hagrees.phase_eq, hagrees.observe_eq, hnumber] at hsharding
  have hinfo : header.shardInfo = some (info.num, info.count) := by
    rw [Header.shardInfo, hlogs]
    exact shardInfo_of_block hblock
  have hphase : header.phase = node'.state.sharding.currentScaleOutPhase := by
    rw [Header.phase, hlogs]
    exact phase_of_block hblock
  -- The seal is no entry of the sharding module.
  have hheadInfo : node'.head.shardInfo = header.shardInfo := by
    rw [hhead, Header.shardInfo, lastLog_append]
    rfl
  have hheadPhase : node'.head.phase = header.phase := by
    rw [hhead, Header.phase, lastLog_append]
    rfl
  have hnext : header.phase = nextPhase node.head.phase info (node.head.number + 1) observe := by
    rw [hphase, hsharding]
  obtain ⟨hok, hwaits, hcommitted⟩ := phaseOk_of_agrees hagrees hobserve hfits hstartup hnext
  have hheadNumber : node'.head.number = node.head.number + 1 := by rw [hhead, ← hnumber]
  refine ⟨⟨by rw [hsharding]; exact hagrees.observe_eq, by rw [hheadPhase, hphase], ?_, ?_⟩, ?_⟩
  · intro hunmarked
    exact absurd (hheadInfo.symm.trans hunmarked) (by simp [hinfo])
  · intro num count hmarked
    obtain ⟨rfl, rfl⟩ := Prod.mk.inj (Option.some.inj (hinfo.symm.trans (hheadInfo.symm.trans hmarked)))
    rw [hheadNumber, hheadPhase]
    exact hwaits
  · intro block hmem chain hparent
    obtain rfl := List.mem_singleton.mp hmem
    exact (checkShardInfo_eq_ok .release chain observe _ header).mpr ⟨info.num, info.count, node.head, hinfo,
      hparent, hnumber ▸ hok, checkScale_own hcommitted, getOriginalShardNum_self _ _⟩

-- Every block of a chain whose numbers leave room for the observe period.
theorem authored_blocks_pass {observe : UInt64} {genesisShardCount : UInt16}
    {genesis node : Node σ} {blocks : List AuthoredBlock} (hgenesis : IsGenesis observe genesis)
    (hobserve : 1 ≤ observe)
    (hrun : Reaches (authorStep genesisShardCount) (NumberFits observe) genesis blocks node) :
    ∀ block ∈ blocks, block.Passes observe := by
  have hinvariant := hrun.invariant
    (fun blocks node => Agrees observe node ∧ ∀ block ∈ blocks, block.Passes observe)
    ⟨agrees_genesis hgenesis, by simp⟩ ?_
  · exact hinvariant.2
  · intro blocks node author node' blocks' hbefore hfits hstep
    obtain ⟨hagrees, hpass⟩ := hbefore
    obtain ⟨hagrees', hpass'⟩ := agrees_step hobserve hagrees hfits hstep
    refine ⟨hagrees', fun block hmem => ?_⟩
    rcases List.mem_append.mp hmem with hold | hnew
    · exact hpass block hold
    · exact hpass' block hnew

-- Blocks that do nothing but take their inherents.
def plainBlock (info : ShardInfo) (node : Node σ) : AuthoredBlock where
  extra := ⟨filled 32 1, info.num, info.count, info.scaleOut⟩
  parent := node.head
  header := ⟨filled 32 0, node.head.number + 1,
    (runBlock (node.head.number + 1) info node.state).system.logs.map Log.digestItem⟩

def plainNext (info : ShardInfo) (node : Node σ) : Node σ where
  state := runBlock (node.head.number + 1) info node.state
  head := { (plainBlock info node).header with
    logs := (plainBlock info node).header.logs ++ [.consensus Pow.YEE_POW_ENGINE_ID []] }

def plainAuthor (arg : UInt16) : Author := ⟨arg, filled 32 1, []⟩

theorem authorStep_plainNext {genesisShardCount arg : UInt16} {info : ShardInfo} {node : Node σ}
    (h : getShardInfoFromClient genesisShardCount arg node.head = .ok (.ok info)) :
    authorStep genesisShardCount node (plainAuthor arg) (plainNext info node)
      [plainBlock info node] :=
  ⟨info, _, (plainBlock info node).header, h, rfl, rfl, shardBlock_runBlock _ _ _, rfl, rfl⟩

def plainGenesis (observe : UInt64) : Node Unit :=
  ⟨{ plainState none with sharding := ⟨observe, none, none⟩ }, filled 32 0, 0, []⟩

-- Shard 0 of 2 asks for its split from the second block on.
def plainFirst (observe : UInt64) : Node Unit := plainNext ⟨0, 2, none⟩ (plainGenesis observe)

def plainSecond (observe : UInt64) : Node Unit := plainNext ⟨0, 2, some ⟨2⟩⟩ (plainFirst observe)

def plainBlocks (observe : UInt64) : List AuthoredBlock :=
  [plainBlock ⟨0, 2, none⟩ (plainGenesis observe),
    plainBlock ⟨0, 2, some ⟨2⟩⟩ (plainFirst observe),
    plainBlock ⟨0, 2, some ⟨2⟩⟩ (plainSecond observe)]

theorem reaches_plainBlocks {observe : UInt64} {guard : Node Unit → Author → Prop}
    (hguard₁ : guard (plainGenesis observe) (plainAuthor 0))
    (hguard₂ : guard (plainFirst observe) (plainAuthor 2))
    (hguard₃ : guard (plainSecond observe) (plainAuthor 2))
    (hsecond : getShardInfoFromClient 2 2 (plainFirst observe).head = .ok (.ok ⟨0, 2, some ⟨2⟩⟩))
    (hthird : getShardInfoFromClient 2 2 (plainSecond observe).head = .ok (.ok ⟨0, 2, some ⟨2⟩⟩)) :
    Reaches (authorStep 2) guard (plainGenesis observe) (plainBlocks observe)
      (plainNext ⟨0, 2, some ⟨2⟩⟩ (plainSecond observe)) := by
  have hfirst : getShardInfoFromClient 2 0 (plainGenesis observe).head = .ok (.ok ⟨0, 2, none⟩) :=
    rfl
  exact .tail (.tail (.tail (.refl _) hguard₁ (authorStep_plainNext hfirst))
    hguard₂ (authorStep_plainNext hsecond)) hguard₃ (authorStep_plainNext hthird)

theorem authored_blocks_pass_plain :
    IsGenesis 1 (plainGenesis 1) ∧ ∀ block ∈ plainBlocks 1, block.Passes 1 := by
  have hgenesis : IsGenesis 1 (plainGenesis 1) := ⟨rfl, rfl, rfl⟩
  have hrun : Reaches (authorStep 2) (NumberFits 1) (plainGenesis 1) (plainBlocks 1) _ :=
    reaches_plainBlocks (by unfold NumberFits; decide) (by unfold NumberFits; decide)
      (by unfold NumberFits; decide) (by decide +kernel) (by decide +kernel)
  exact ⟨hgenesis, authored_blocks_pass hgenesis (by decide) hrun⟩

-- With the longest observe period the sum wraps: the split that starts in block 2 waits
-- for block 1, and the verifier refuses block 3.
theorem long_observe_period_rejected :
    IsGenesis 0xffffffffffffffff (plainGenesis 0xffffffffffffffff) ∧
    (∃ node, Reaches (authorStep 2) (fun _ _ => True) (plainGenesis 0xffffffffffffffff)
      (plainBlocks 0xffffffffffffffff) node) ∧
    (∀ block ∈ plainBlocks 0xffffffffffffffff,
      block.extra.shardNum < block.extra.shardCount ∧ block.extra.shardCount ≤ 16384) ∧
    (plainSecond 0xffffffffffffffff).head.phase = some (.started 1 2) ∧
    ¬ ∀ block ∈ plainBlocks 0xffffffffffffffff, block.Passes 0xffffffffffffffff := by
  refine ⟨⟨rfl, rfl, rfl⟩, ⟨_, reaches_plainBlocks trivial trivial trivial (by decide +kernel)
    (by decide +kernel)⟩, ?_, by decide +kernel, ?_⟩
  · intro block hmem
    simp only [plainBlocks, List.mem_cons, List.not_mem_nil, or_false] at hmem
    rcases hmem with rfl | rfl | rfl <;> exact ⟨by decide, by decide⟩
  · intro hpass
    have hthird := hpass (plainBlock ⟨0, 2, some ⟨2⟩⟩ (plainSecond 0xffffffffffffffff))
      (by simp [plainBlocks])
    have hchecked := hthird (fun _ => some (plainSecond 0xffffffffffffffff).head) rfl
    have hrejected : checkShardInfo .release (fun _ => some (plainSecond 0xffffffffffffffff).head)
        0xffffffffffffffff (plainBlock ⟨0, 2, some ⟨2⟩⟩ (plainSecond 0xffffffffffffffff)).extra
        (plainBlock ⟨0, 2, some ⟨2⟩⟩ (plainSecond 0xffffffffffffffff)).header =
        .ok (.error ⟨"ScaleOutPhase checked failed.", none⟩) := by decide +kernel
    exact absurd (hchecked.symm.trans hrejected) (by simp)

end Yeeroot.Cli
