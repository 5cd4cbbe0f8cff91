import Yeeroot.Pow.Returns

namespace Yeeroot.Pow

open Scale

variable {H : Type} {build : Build} {hashing : Hashing H} {context : Context} {client : Client H}
variable {header : BlockHeader H}

-- A header that starts a period, with the seals that its target is computed from.
structure Adjusts (build : Build) (codec : Codec H) (client : Client H) (context : Context)
    (header : BlockHeader H) (currSeal ancestorSeal : PowSeal H) : Prop where
  first : FirstOfPeriod build context header.number
  parent : ∃ parent, client.header header.parentHash = some parent ∧
    parent.lastSeal codec = some currSeal
  ancestor : ∃ ancestor,
    client.headerByNumber (header.number - context.genesisPowTargetAdj) = some ancestor ∧
      ancestor.lastSeal codec = some ancestorSeal

-- `target_block_time * 1000 * block_gap`, where it is defined.
def Context.gap (context : Context) : UInt64 :=
  context.genesisTargetBlockTime * 1000 * context.genesisPowTargetAdj

-- The product is longer than 256 bits.
def Overflows (context : Context) (target : PowTarget) (timeGap : UInt64) : Prop :=
  2 ^ 256 ≤ (target / BitVec.ofNat 256 context.gap.toNat).toNat * timeGap.toNat

theorem scaleTarget_of_overflows {target : PowTarget} {timeGap : UInt64}
    (h : Overflows context target timeGap) :
    scaleTarget context target context.gap timeGap = context.genesisPowTarget := if_pos h

theorem toNat_scaleTarget {target : PowTarget} {timeGap : UInt64}
    (h : ¬ Overflows context target timeGap) :
    (scaleTarget context target context.gap timeGap).toNat =
      (target / BitVec.ofNat 256 context.gap.toNat).toNat * timeGap.toNat := by
  unfold Overflows at h
  rw [scaleTarget, if_neg h, BitVec.toNat_ofNat, Nat.mod_eq_of_lt (Nat.not_le.mp h)]

theorem Overflows.mono {target : PowTarget} {timeGap timeGap' : UInt64}
    (h : Overflows context target timeGap) (hle : timeGap ≤ timeGap') :
    Overflows context target timeGap' := by
  have hle' := UInt64.le_iff_toNat_le.mp hle
  exact h.trans (Nat.mul_le_mul_left _ hle')

theorem scaleTarget_mono (target : PowTarget) {timeGap timeGap' : UInt64}
    (hle : timeGap ≤ timeGap') :
    scaleTarget context target context.gap timeGap ≤
        scaleTarget context target context.gap timeGap' ∨
      ¬ Overflows context target timeGap ∧ Overflows context target timeGap' := by
  by_cases hover : Overflows context target timeGap
  · left
    rw [scaleTarget_of_overflows hover, scaleTarget_of_overflows (hover.mono hle)]
    exact BitVec.le_refl _
  · by_cases hover' : Overflows context target timeGap'
    · exact .inr ⟨hover, hover'⟩
    · left
      rw [BitVec.le_def, toNat_scaleTarget hover, toNat_scaleTarget hover']
      exact Nat.mul_le_mul_left _ (UInt64.le_iff_toNat_le.mp hle)

theorem sub_le_sub_of_le {a b base : UInt64} (hbase : base ≤ a) (hle : a ≤ b) :
    a - base ≤ b - base := by
  have hbase' := UInt64.le_iff_toNat_le.mp hbase
  have hle' := UInt64.le_iff_toNat_le.mp hle
  rw [UInt64.le_iff_toNat_le, UInt64.toNat_sub_of_le _ _ hbase,
    UInt64.toNat_sub_of_le _ _ (UInt64.le_trans hbase hle)]
  omega

section Adjusts

variable {currSeal ancestorSeal : PowSeal H}

theorem Adjusts.calcPowTarget_eq
    (h : Adjusts build hashing.codec client context header currSeal ancestorSeal)
    (timestamp : UInt64) :
    calcPowTarget build hashing.codec client header timestamp context =
      adjustTarget build context currSeal.powTarget timestamp ancestorSeal.timestamp := by
  obtain ⟨parent, hparent, hsealed⟩ := h.parent
  obtain ⟨ancestor, hfound, hancestor⟩ := h.ancestor
  rw [calcPowTarget_first hparent hsealed h.first, hfound]
  simp only [Run.expect, hancestor, bind, Except.bind]

theorem adjustTarget_panics (hgap : ¬ GapDefined build context) (target : PowTarget)
    (lastTime : UInt64) : ∃ panic, ∀ timestamp, lastTime ≤ timestamp →
      adjustTarget build context target timestamp lastTime = .error panic := by
  cases hexpected : expectedGap build context with
  | error panic =>
    refine ⟨panic, fun timestamp hle => ?_⟩
    rw [adjustTarget, if_neg (UInt64.not_lt.mpr hle), hexpected]
    rfl
  | ok gap =>
    obtain ⟨hfits, rfl⟩ := (expectedGap_computes _).mp hexpected
    have hzero : context.genesisTargetBlockTime * 1000 * context.genesisPowTargetAdj = 0 := by
      by_contra hne
      exact hgap ⟨hfits, hne⟩
    refine ⟨⟨"division by zero"⟩, fun timestamp hle => ?_⟩
    rw [adjustTarget, if_neg (UInt64.not_lt.mpr hle), hexpected]
    simp only [bind, Except.bind, hzero, if_true]

theorem gapDefined_of_fits (hadj : context.genesisPowTargetAdj ≠ 0)
    (htime : 0 < context.genesisTargetBlockTime)
    (hfits : context.genesisTargetBlockTime.toNat * 1000 * context.genesisPowTargetAdj.toNat <
      2 ^ 64) : GapDefined build context := by
  have hadj' : 0 < context.genesisPowTargetAdj.toNat := by
    rw [Nat.pos_iff_ne_zero]
    intro hzero
    exact hadj (UInt64.toNat_inj.mp hzero)
  have htime' : 0 < context.genesisTargetBlockTime.toNat := UInt64.lt_iff_toNat_lt.mp htime
  have hmillis : context.genesisTargetBlockTime.toNat * 1000 < 2 ^ 64 :=
    lt_of_le_of_lt (Nat.le_mul_of_pos_right _ hadj') hfits
  have hmillis' : (context.genesisTargetBlockTime * 1000).toNat =
      context.genesisTargetBlockTime.toNat * 1000 := by
    rw [UInt64.toNat_mul]
    exact Nat.mod_eq_of_lt hmillis
  refine ⟨fun _ => ⟨hmillis, by rw [hmillis']; exact hfits⟩, fun hzero => ?_⟩
  have hproduct := congrArg UInt64.toNat hzero
  rw [UInt64.toNat_mul, hmillis', Nat.mod_eq_of_lt hfits, UInt64.toNat_zero] at hproduct
  have hpos : 0 < context.genesisTargetBlockTime.toNat * 1000 * context.genesisPowTargetAdj.toNat :=
    Nat.mul_pos (Nat.mul_pos htime' (by decide)) hadj'
  omega

-- A later time never makes the target smaller, but where the product first overflows: there
-- the target is that of the genesis. Only an expected gap beyond 64 bits can panic, and it
-- does at every time.
theorem target_rises_until_overflow (htime : 0 < context.genesisTargetBlockTime)
    (h : Adjusts build hashing.codec client context header currSeal ancestorSeal)
    {time time' : UInt64} (hafter : ancestorSeal.timestamp ≤ time) (hle : time ≤ time') :
    (∃ target target',
      calcPowTarget build hashing.codec client header time context = .ok target ∧
      calcPowTarget build hashing.codec client header time' context = .ok target' ∧
      (target ≤ target' ∨
        ¬ Overflows context currSeal.powTarget (time - ancestorSeal.timestamp) ∧
          Overflows context currSeal.powTarget (time' - ancestorSeal.timestamp) ∧
          target' = context.genesisPowTarget)) ∨
    2 ^ 64 ≤ context.genesisTargetBlockTime.toNat * 1000 * context.genesisPowTargetAdj.toNat ∧
      ∃ panic, ∀ timestamp, ancestorSeal.timestamp ≤ timestamp →
        calcPowTarget build hashing.codec client header timestamp context = .error panic := by
  by_cases hgap : GapDefined build context
  · have hafter' := UInt64.le_trans hafter hle
    have hreturns : ∀ timestamp, ancestorSeal.timestamp ≤ timestamp →
        calcPowTarget build hashing.codec client header timestamp context =
          .ok (scaleTarget context currSeal.powTarget context.gap
            (timestamp - ancestorSeal.timestamp)) := by
      intro timestamp hafter
      rw [h.calcPowTarget_eq]
      exact (adjustTarget_eq_ok _ _ _).mpr ⟨hafter, hgap, rfl⟩
    refine .inl ⟨_, _, hreturns time hafter, hreturns time' hafter', ?_⟩
    rcases scaleTarget_mono currSeal.powTarget (sub_le_sub_of_le hafter hle) with hrises | hcrossed
    · exact .inl hrises
    · exact .inr ⟨hcrossed.1, hcrossed.2, scaleTarget_of_overflows hcrossed.2⟩
  · obtain ⟨panic, hpanic⟩ := adjustTarget_panics hgap currSeal.powTarget ancestorSeal.timestamp
    refine .inr ⟨?_, panic, fun timestamp hafter => ?_⟩
    · by_contra hfits
      exact hgap (gapDefined_of_fits h.first.2.2.1 htime (Nat.not_le.mp hfits))
    · rw [h.calcPowTarget_eq]
      exact hpanic timestamp hafter

end Adjusts

-- The parameters of the chain specification.
def specContext : Context := ⟨0xffff <<< 224, 60, 30, 4, 0⟩

-- A chain of 60 blocks that were sealed at one time with the genesis target.
def steadyFork : Fork Nat := ⟨plainGenesis, specContext.genesisPowTarget, 1000⟩

noncomputable def steadyClient : Client Nat := forkClient pairHashing plainClient steadyFork 60

noncomputable def header61 : BlockHeader Nat :=
  ⟨pairHashing.header (steadyFork.block pairHashing 60), 61, 0, 0, []⟩

theorem adjusts_header61 :
    Adjusts .checked pairHashing.codec steadyClient specContext header61 steadyFork.sealed
      steadyFork.sealed where
  first := ⟨by decide, by decide, by decide, by decide⟩
  parent := ⟨_, forkClient_fork pairHashing_collisionFree (by decide),
    steadyFork.lastSeal_block pairHashing 59⟩
  ancestor := by
    have hnumber : header61.number - specContext.genesisPowTargetAdj = 1 := by
      change (61 : UInt64) - 60 = 1
      decide
    refine ⟨steadyFork.block pairHashing 1, ?_, steadyFork.lastSeal_block pairHashing 0⟩
    have hle : (1 : UInt64) ≤ 60 := by decide
    simp only [hnumber, steadyClient, forkClient, if_pos hle]
    rfl

theorem target_rises_steadily :
    (∃ target target',
      calcPowTarget .checked pairHashing.codec steadyClient header61 1801000 specContext =
        .ok target ∧
      calcPowTarget .checked pairHashing.codec steadyClient header61 3601000 specContext =
        .ok target' ∧
      (target ≤ target' ∨
        ¬ Overflows specContext steadyFork.target (1801000 - 1000) ∧
          Overflows specContext steadyFork.target (3601000 - 1000) ∧
          target' = specContext.genesisPowTarget)) ∨
    2 ^ 64 ≤ specContext.genesisTargetBlockTime.toNat * 1000 *
        specContext.genesisPowTargetAdj.toNat ∧
      ∃ panic, ∀ timestamp, steadyFork.sealed.timestamp ≤ timestamp →
        calcPowTarget .checked pairHashing.codec steadyClient header61 timestamp specContext =
          .error panic :=
  target_rises_until_overflow (by decide) adjusts_header61 (by decide) (by decide)

-- After a pause of 100000000 seconds the target is far above that of the genesis, and after
-- one of 120000000 seconds it is that of the genesis.
theorem target_falls_at_overflow :
    0 < specContext.genesisTargetBlockTime ∧
    Adjusts .checked pairHashing.codec steadyClient specContext header61 steadyFork.sealed
      steadyFork.sealed ∧
    ∃ target target',
      calcPowTarget .checked pairHashing.codec steadyClient header61 100000001000 specContext =
        .ok target ∧
      calcPowTarget .checked pairHashing.codec steadyClient header61 120000001000 specContext =
        .ok target' ∧ ¬ target ≤ target' := by
  refine ⟨by decide, adjusts_header61, scaleTarget specContext steadyFork.target specContext.gap
    100000000000, specContext.genesisPowTarget, ?_, ?_, by decide +kernel⟩
  · rw [adjusts_header61.calcPowTarget_eq]
    decide +kernel
  · rw [adjusts_header61.calcPowTarget_eq]
    decide +kernel

end Yeeroot.Pow
