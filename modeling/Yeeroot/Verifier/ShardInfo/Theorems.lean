import Yeeroot.Executive
import Yeeroot.Primitives.Lemmas
import Yeeroot.Verifier.ShardInfo

namespace Yeeroot.Verifier

section Phases

variable {build : Build} {observeBlocks number : UInt64} {num count : UInt16}

-- The shard itself or its other half, as far as the sum does not panic.
def targets (shardNum num count : UInt16) : Bool := shardNum = num || shardNum = num + count

-- The sum that a shard number is compared with fits, if it is computed.
def TargetNumFits (num count shardNum : UInt16) : Prop :=
  shardNum ≠ num → num.toNat + count.toNat < 2 ^ 16

-- The sums and products of the table fit, as far as they are computed.
def PhaseFits (observeBlocks number : UInt64) (num count : UInt16) :
    Option ScaleOutPhase → Option ScaleOutPhase → Prop
  | some (.started parentUtil _), some (.started observeUtil shardNum)
  | some (.nativeReady parentUtil _), some (.nativeReady observeUtil shardNum)
  | some (.ready parentUtil _), some (.ready observeUtil shardNum) =>
    parentUtil = observeUtil → TargetNumFits num count shardNum
  | some (.started parentUtil _), some (.nativeReady _ shardNum)
  | some (.nativeReady parentUtil _), some (.ready _ shardNum) =>
    parentUtil = number → TargetNumFits num count shardNum ∧
      (targets shardNum num count → number.toNat + observeBlocks.toNat < 2 ^ 64)
  | some (.ready parentUtil _), some (.committing _) =>
    parentUtil = number → count.toNat * 2 < 2 ^ 16
  | some (.committed _ _), some (.started observeUtil shardNum)
  | none, some (.started observeUtil shardNum) =>
    number.toNat + observeBlocks.toNat < 2 ^ 64 ∧
      (number + observeBlocks = observeUtil → TargetNumFits num count shardNum)
  | _, _ => True

theorem andThen_computes {a value : Bool} {b : Run Bool} {fits : Prop}
    (h : build.Computes b fits value) :
    build.Computes (andThen a b) (a = true → fits) (a && value) := by
  cases a with
  | false => exact (Build.Computes.ok build false).congr (by simp)
  | true => exact h.congr (by simp)

theorem isTargetNum_computes (shardNum : UInt16) :
    build.Computes (isTargetNum build shardNum num count) (TargetNumFits num count shardNum)
      (targets shardNum num count) := by
  unfold isTargetNum TargetNumFits targets
  by_cases hsame : shardNum = num
  · rw [if_pos hsame]
    simpa [hsame] using Build.Computes.ok build true
  · rw [if_neg hsame]
    simpa [hsame] using (Build.Computes.add16 num count).map fun sum => decide (shardNum = sum)

theorem stillWaiting_computes (parentUtil observeUtil : UInt64) (shardNum : UInt16) :
    build.Computes
      (stillWaiting build number num count parentUtil observeUtil shardNum)
      (parentUtil = observeUtil → TargetNumFits num count shardNum)
      (parentUtil = observeUtil && targets shardNum num count && number < observeUtil) := by
  rw [Bool.and_assoc]
  exact (andThen_computes ((isTargetNum_computes shardNum).map fun target =>
    target && decide (number < observeUtil))).congr (by simp)

theorem nextWaiting_computes (parentUtil observeUtil : UInt64) (shardNum : UInt16) :
    build.Computes
      (nextWaiting build observeBlocks number num count parentUtil observeUtil shardNum)
      (parentUtil = number → TargetNumFits num count shardNum ∧
        (targets shardNum num count → number.toNat + observeBlocks.toNat < 2 ^ 64))
      (parentUtil = number && targets shardNum num count &&
        number + observeBlocks = observeUtil) := by
  rw [Bool.and_assoc]
  exact (andThen_computes ((isTargetNum_computes shardNum).bind
    (andThen_computes ((Build.Computes.add64 number observeBlocks).map fun util =>
      decide (util = observeUtil))))).congr (by simp)

theorem firstWaiting_computes (observeUtil : UInt64) (shardNum : UInt16) :
    build.Computes (firstWaiting build observeBlocks number num count observeUtil shardNum)
      (number.toNat + observeBlocks.toNat < 2 ^ 64 ∧
        (number + observeBlocks = observeUtil → TargetNumFits num count shardNum))
      (number + observeBlocks = observeUtil && targets shardNum num count) :=
  ((Build.Computes.add64 number observeBlocks).bind
    (andThen_computes (isTargetNum_computes shardNum))).congr (by simp)

theorem commits_computes (parentUtil : UInt64) (shardCount : UInt16) :
    build.Computes (commits build number count parentUtil shardCount)
      (parentUtil = number → count.toNat * 2 < 2 ^ 16)
      (parentUtil = number && shardCount = count * 2) :=
  (andThen_computes ((Build.Computes.mul16 count 2).map fun double =>
    decide (shardCount = double))).congr (imp_congr_left decide_eq_true_iff)

theorem phaseOk_eq_ok (parentPhase phase : Option ScaleOutPhase) (ok : Bool) :
    phaseOk build observeBlocks number num count parentPhase phase = .ok ok ↔
      (build = .checked → PhaseFits observeBlocks number num count parentPhase phase) ∧
        phaseOk .release observeBlocks number num count parentPhase phase = .ok ok := by
  rcases parentPhase with _ | (_ | _ | _ | _ | _) <;> rcases phase with _ | (_ | _ | _ | _ | _)
  all_goals
    unfold phaseOk PhaseFits
    simp only [stillWaiting_computes _ _ _ _, nextWaiting_computes _ _ _ _,
      firstWaiting_computes _ _ _, commits_computes _ _ _, reduceCtorEq, false_implies,
      implies_true, true_and]

theorem phaseOk_release_returns (observeBlocks number : UInt64) (num count : UInt16)
    (parentPhase phase : Option ScaleOutPhase) :
    ∃ ok, phaseOk .release observeBlocks number num count parentPhase phase = .ok ok := by
  rcases parentPhase with _ | (_ | _ | _ | _ | _) <;> rcases phase with _ | (_ | _ | _ | _ | _)
  all_goals
    unfold phaseOk
    simp [stillWaiting_computes _ _ _ _, nextWaiting_computes _ _ _ _,
      firstWaiting_computes _ _ _, commits_computes _ _ _]

theorem phaseOk_committing {target : UInt16} {parentPhase : Option ScaleOutPhase}
    (h : phaseOk build observeBlocks number num count parentPhase (some (.committing target)) =
      .ok true) :
    target = count * 2 := by
  rcases parentPhase with _ | (_ | _ | ⟨parentUtil, parentNum⟩ | _ | _)
  case some.ready =>
    have hboth := ((commits_computes parentUtil target true).mp h).2
    exact of_decide_eq_true (Bool.and_eq_true_iff.mp hboth).2
  all_goals cases h

theorem phaseOk_of_committing {target : UInt16} {phase : Option ScaleOutPhase}
    (h : phaseOk build observeBlocks number num count (some (.committing target)) phase =
      .ok true) :
    phase = some (.committed num target) ∧ count = target := by
  rcases phase with _ | (_ | _ | _ | _ | ⟨shardNum, shardCount⟩)
  case some.committed =>
    have hall : (decide (shardNum = num) && decide (shardCount = target) &&
        decide (count = shardCount)) = true := Except.ok.inj h
    obtain ⟨hfirst, hcount⟩ := Bool.and_eq_true_iff.mp hall
    obtain ⟨hnum, htarget⟩ := Bool.and_eq_true_iff.mp hfirst
    obtain rfl := of_decide_eq_true hnum
    obtain rfl := of_decide_eq_true htarget
    exact ⟨rfl, of_decide_eq_true hcount⟩
  all_goals cases h

end Phases

theorem checkShardInfo_eq_ok (build : Build) (chain : H256 → Option Header)
    (observeBlocks : UInt64) (extra : ShardExtra) (header : Header) :
    checkShardInfo build chain observeBlocks extra header = .ok (.ok ()) ↔
      ∃ num count parent, header.shardInfo = some (num, count) ∧
        chain header.parentHash = some parent ∧
        phaseOk build observeBlocks header.number num count parent.phase header.phase = .ok true ∧
        checkScale header extra = .ok (.ok ()) ∧
        getOriginalShardNum extra.shardNum extra.shardCount count = .ok num := by
  simp only [checkShardInfo, Run.bind_eq_ok, Run.expect_eq_ok, Prod.exists]
  constructor
  · intro hcase
    obtain ⟨num, count, hinfo, parent, hparent, ok, hphase, h⟩ := hcase
    split_ifs at h with hok
    · subst hok
      simp only [Run.bind_eq_ok] at h
      obtain ⟨scaled, hscale, h⟩ := h
      cases scaled with
      | error rejection => exact absurd ((Run.pure_eq_ok _ _).mp h) (by simp)
      | ok _ =>
        simp only [Run.bind_eq_ok, Run.expect_eq_ok, Prod.exists] at h
        obtain ⟨num', count', hinfo', h⟩ := h
        obtain ⟨rfl, rfl⟩ := Prod.mk.inj (Option.some.inj (hinfo.symm.trans hinfo'))
        cases horiginal : getOriginalShardNum extra.shardNum extra.shardCount count with
        | error message => simp [horiginal, reject] at h
        | ok original =>
          simp only [horiginal] at h
          split_ifs at h with hne
          · simp [reject] at h
          · exact ⟨num, count, parent, hinfo, hparent, hphase, hscale,
              by rw [horiginal, not_not.mp hne]⟩
    · simp [reject] at h
  · intro hcase
    obtain ⟨num, count, parent, hinfo, hparent, hphase, hscale, horiginal⟩ := hcase
    refine ⟨num, count, hinfo, parent, hparent, true, hphase, ?_⟩
    rw [if_pos rfl]
    simp only [Run.bind_eq_ok]
    refine ⟨.ok (), hscale, ?_⟩
    simp only [Run.bind_eq_ok, Run.expect_eq_ok, Prod.exists]
    refine ⟨num, count, hinfo, ?_⟩
    simp only [horiginal]
    rw [if_neg (not_not.mpr rfl)]
    rfl

theorem shardCount_of_checkScale {header : Header} {extra : ShardExtra} {num count : UInt16}
    (hphase : header.phase = some (.committed num count))
    (h : checkScale header extra = .ok (.ok ())) : extra.shardCount = count := by
  simp only [checkScale, hphase] at h
  split_ifs at h with hne
  · simp only [Run.bind_eq_ok] at h
    obtain ⟨_, _, h⟩ := h
    split_ifs at h <;> simp [Run.pure_eq_ok] at h
  · exact not_not.mp hne

theorem halve_of_le {original count : UInt16} (fuel : Nat) (num : UInt16) (h : count ≤ original) :
    halve original fuel num count = (num, count) := by
  cases fuel with
  | zero => rfl
  | succ fuel => rw [halve, if_neg (UInt16.not_lt.mpr h)]

theorem getOriginalShardNum_of_le {original count : UInt16} (num : UInt16)
    (h : count ≤ original) : getOriginalShardNum num count original =
      if count ≠ original then .error "Invalid header shard info" else .ok num := by
  rw [getOriginalShardNum, halve_of_le 16 num h]

theorem getOriginalShardNum_self (num count : UInt16) :
    getOriginalShardNum num count count = .ok num := by
  simp [getOriginalShardNum_of_le]

-- One halving. Twice the count may wrap, and then the node's count is below the
-- header's and the check fails.
theorem getOriginalShardNum_half {num half original : UInt16}
    (h : getOriginalShardNum num (half * 2) half = .ok original) :
    (half * 2).toNat = 2 * half.toNat ∧
      original = if half ≤ num then num - half else num := by
  have hmul : (half * 2).toNat = half.toNat * 2 % 2 ^ 16 := by simp
  have hlt := half.toNat_lt
  by_cases hbelow : half < half * 2
  · have hbelow' := UInt16.lt_iff_toNat_lt.mp hbelow
    have hdouble : (half * 2).toNat = 2 * half.toNat := by omega
    have hback : half * 2 / 2 = half := by
      apply UInt16.toNat_inj.mp
      rw [UInt16.toNat_div, hdouble]
      exact Nat.mul_div_cancel_left _ (by decide)
    refine ⟨hdouble, ?_⟩
    rw [getOriginalShardNum, halve, if_pos hbelow] at h
    simp only [hback, halve_of_le 15 _ (UInt16.le_refl half), ne_eq, not_true_eq_false,
      if_false] at h
    exact (Except.ok.inj h).symm
  · rw [getOriginalShardNum_of_le num (UInt16.not_lt.mp hbelow)] at h
    split_ifs at h with hne
    have hsame : half * 2 = half := not_not.mp hne
    have hzero : half = 0 := by
      apply UInt16.toNat_inj.mp
      rw [hsame] at hmul
      simp only [UInt16.toNat_zero]
      omega
    subst hzero
    obtain rfl := Except.ok.inj h
    exact ⟨rfl, by simp⟩

-- The shard a header may belong to, given its parent's phase and shard.
def KeepsShard (parentPhase : Option ScaleOutPhase) (parentNum parentCount num count : UInt16) :
    Prop :=
  match parentPhase with
  | some (.committing _) => count.toNat = 2 * parentCount.toNat ∧
      (num.toNat = parentNum.toNat ∨ num.toNat = parentNum.toNat + parentCount.toNat)
  | _ => num = parentNum ∧ count = parentCount

def isCommitting : Option ScaleOutPhase → Bool
  | some (.committing _) => true
  | _ => false

theorem keepsShard_of_committing {build : Build} {extra : ShardExtra} {header parent : Header}
    {observeBlocks parentObserve parentNumber : UInt64} {num count parentNum parentCount : UInt16}
    {grandparentPhase : Option ScaleOutPhase} {target : UInt16}
    (hcommitting : parent.phase = some (.committing target))
    (hparentPhase : phaseOk build parentObserve parentNumber parentNum parentCount
      grandparentPhase parent.phase = .ok true)
    (hphase : phaseOk build observeBlocks header.number num count parent.phase header.phase =
      .ok true)
    (hscale : checkScale header extra = .ok (.ok ()))
    (hown : getOriginalShardNum extra.shardNum extra.shardCount count = .ok num)
    (hparentOwn : getOriginalShardNum extra.shardNum extra.shardCount parentCount =
      .ok parentNum) :
    KeepsShard parent.phase parentNum parentCount num count := by
  rw [hcommitting] at hparentPhase hphase ⊢
  obtain rfl := phaseOk_committing hparentPhase
  obtain ⟨hcommitted, rfl⟩ := phaseOk_of_committing hphase
  rw [shardCount_of_checkScale hcommitted hscale] at hown hparentOwn
  rw [getOriginalShardNum_self] at hown
  obtain ⟨hdouble, hnum⟩ := getOriginalShardNum_half hparentOwn
  refine ⟨hdouble, ?_⟩
  rw [hnum, ← Except.ok.inj hown]
  split_ifs with hle
  · right
    have hle' := UInt16.le_iff_toNat_le.mp hle
    rw [UInt16.toNat_sub_of_le _ _ hle]
    omega
  · exact .inl rfl

-- The check compares a header with the node's own shard and never with its parent's,
-- so outside of a commit the count may still move along the halvings of that shard.
theorem shard_identity_stable_iff {build : Build} {chain : H256 → Option Header}
    {observeBlocks : UInt64} {extra : ShardExtra} {header parent : Header} {num count parentNum parentCount : UInt16}
    (hparent : chain header.parentHash = some parent)
    (hinfo : header.shardInfo = some (num, count))
    (hparentInfo : parent.shardInfo = some (parentNum, parentCount))
    (haccepted : checkShardInfo build chain observeBlocks extra header = .ok (.ok ()))
    (hparentAccepted : checkShardInfo build chain observeBlocks extra parent = .ok (.ok ())) :
    KeepsShard parent.phase parentNum parentCount num count ↔
      isCommitting parent.phase ∨ count = parentCount := by
  obtain ⟨_, _, _, hinfo', hparent', hphase, hscale, hown⟩ :=
    (checkShardInfo_eq_ok build chain observeBlocks extra header).mp haccepted
  obtain ⟨rfl, rfl⟩ := Prod.mk.inj (Option.some.inj (hinfo.symm.trans hinfo'))
  obtain rfl := Option.some.inj (hparent.symm.trans hparent')
  obtain ⟨_, _, grandparent, hparentInfo', _, hparentPhase, _, hparentOwn⟩ :=
    (checkShardInfo_eq_ok build chain observeBlocks extra parent).mp hparentAccepted
  obtain ⟨rfl, rfl⟩ := Prod.mk.inj (Option.some.inj (hparentInfo.symm.trans hparentInfo'))
  by_cases hcommitting : ∃ target, parent.phase = some (.committing target)
  · obtain ⟨target, htarget⟩ := hcommitting
    refine iff_of_true ?_ (.inl (by rw [htarget]; rfl))
    exact keepsShard_of_committing htarget hparentPhase hphase hscale hown hparentOwn
  · have hkeeps : KeepsShard parent.phase parentNum parentCount num count ↔
        num = parentNum ∧ count = parentCount := by
      unfold KeepsShard
      split
      · next target htarget => exact absurd ⟨target, htarget⟩ hcommitting
      · rfl
    have hnot : isCommitting parent.phase = false := by
      unfold isCommitting
      split
      · next target htarget => exact absurd ⟨target, htarget⟩ hcommitting
      · rfl
    rw [hkeeps, hnot]
    constructor
    · intro hcase
      obtain ⟨_, hcount⟩ := hcase
      exact .inr hcount
    · rintro (h | rfl)
      · simp at h
      · -- The same count is reached by the same halvings.
        exact ⟨Except.ok.inj (hown.symm.trans hparentOwn), rfl⟩

-- Three headers of a chain without a scale-out, for a node of shard 1 of 4.
def plainHeader (parent : UInt8) (number : UInt64) (num count : UInt16) : Header :=
  ⟨filled 32 parent, number, [.shardingInfo num count]⟩

def plainChain (hash : H256) : Option Header :=
  if hash = filled 32 2 then some (plainHeader 1 2 1 4) else some (plainHeader 0 1 1 4)

def plainExtra : ShardExtra := ⟨filled 32 1, 1, 4, none⟩

theorem shard_identity_stable_iff_plain :
    checkShardInfo .checked plainChain 1 plainExtra (plainHeader 2 3 1 4) = .ok (.ok ()) ∧
    checkShardInfo .checked plainChain 1 plainExtra (plainHeader 1 2 1 4) = .ok (.ok ()) ∧
    KeepsShard (plainHeader 1 2 1 4).phase 1 4 1 4 := by
  have haccepted : checkShardInfo .checked plainChain 1 plainExtra (plainHeader 2 3 1 4) = .ok (.ok ()) := by
    decide +kernel
  have hparent : checkShardInfo .checked plainChain 1 plainExtra (plainHeader 1 2 1 4) = .ok (.ok ()) := by
    decide +kernel
  exact ⟨haccepted, hparent, (shard_identity_stable_iff (by decide +kernel) (by decide +kernel)
    (by decide +kernel) haccepted hparent).mpr (.inr rfl)⟩

-- The child of a header of shard 1 of 4 claims to be of shard 1 of 2.
theorem shard_count_halved_accepted :
    plainChain (plainHeader 2 3 1 2).parentHash = some (plainHeader 1 2 1 4) ∧
    checkShardInfo .checked plainChain 1 plainExtra (plainHeader 1 2 1 4) = .ok (.ok ()) ∧
    checkShardInfo .checked plainChain 1 plainExtra (plainHeader 2 3 1 2) = .ok (.ok ()) ∧
    (plainHeader 1 2 1 4).phase = none ∧
    (plainHeader 1 2 1 4).shardInfo = some (1, 4) ∧
    (plainHeader 2 3 1 2).shardInfo = some (1, 2) ∧
    ¬ KeepsShard (plainHeader 1 2 1 4).phase 1 4 1 2 := by
  refine ⟨by decide +kernel, by decide +kernel, by decide +kernel, by decide +kernel,
    by decide +kernel, by decide +kernel, ?_⟩
  rw [show (plainHeader 1 2 1 4).phase = none by decide +kernel]
  intro hcase
  obtain ⟨_, h⟩ := hcase
  exact absurd h (by decide)

end Yeeroot.Verifier
