import Yeeroot.Pow.Target.Theorems

namespace Yeeroot.Pow

open Scale

section Target

variable {H : Type} {build : Build} {codec : Codec H} {client : Client H} {context : Context}
variable {parent header : BlockHeader H} {timestamp : UInt64}

-- `target_block_time * 1000 * block_gap` fits, and can be divided by.
def GapDefined (build : Build) (context : Context) : Prop :=
  (build = .checked → context.genesisTargetBlockTime.toNat * 1000 < 2 ^ 64 ∧
    (context.genesisTargetBlockTime * 1000).toNat * context.genesisPowTargetAdj.toNat < 2 ^ 64) ∧
  context.genesisTargetBlockTime * 1000 * context.genesisPowTargetAdj ≠ 0

-- The target of a header on a stored parent, one case for each branch.
inductive TargetIs (build : Build) (codec : Codec H) (client : Client H) (context : Context)
    (parent header : BlockHeader H) (timestamp : UInt64) : PowTarget → Prop where
  | genesis (number : header.number = 1) :
      TargetIs build codec client context parent header timestamp context.genesisPowTarget
  | reused (number : header.number ≠ 1) (checked : ¬ (build = .checked ∧ header.number = 0))
      (adj : context.genesisPowTargetAdj ≠ 0)
      (within : (header.number - 1) % context.genesisPowTargetAdj ≠ 0) :
      TargetIs build codec client context parent header timestamp
        ((parent.lastSeal codec).elim context.genesisPowTarget PowSeal.powTarget)
  | adjusted {currSeal ancestorSeal : PowSeal H} {ancestor : BlockHeader H}
      (first : FirstOfPeriod build context header.number)
      (isSealed : parent.lastSeal codec = some currSeal)
      (found : client.headerByNumber (header.number - context.genesisPowTargetAdj) = some ancestor)
      (ancestorSealed : ancestor.lastSeal codec = some ancestorSeal)
      (ordered : ancestorSeal.timestamp ≤ timestamp) (gap : GapDefined build context) :
      TargetIs build codec client context parent header timestamp
        (scaleTarget context currSeal.powTarget
          (context.genesisTargetBlockTime * 1000 * context.genesisPowTargetAdj)
          (timestamp - ancestorSeal.timestamp))

theorem expectedGap_computes :
    build.Computes (expectedGap build context)
      (context.genesisTargetBlockTime.toNat * 1000 < 2 ^ 64 ∧
        (context.genesisTargetBlockTime * 1000).toNat * context.genesisPowTargetAdj.toNat < 2 ^ 64)
      (context.genesisTargetBlockTime * 1000 * context.genesisPowTargetAdj) :=
  (Build.Computes.mul64 _ _).bind (.mul64 _ _)

theorem adjustTarget_eq_ok (target result : PowTarget) (lastTime : UInt64) :
    adjustTarget build context target timestamp lastTime = .ok result ↔
      lastTime ≤ timestamp ∧ GapDefined build context ∧
        scaleTarget context target
          (context.genesisTargetBlockTime * 1000 * context.genesisPowTargetAdj)
          (timestamp - lastTime) = result := by
  unfold adjustTarget
  split_ifs with hbefore
  · have hnot : ¬ lastTime ≤ timestamp := UInt64.not_le.mpr hbefore
    simp [hnot]
  · simp only [Run.bind_eq_ok, expectedGap_computes _, UInt64.not_lt.mp hbefore, true_and]
    constructor
    · intro h
      obtain ⟨gap, ⟨hfits, rfl⟩, h⟩ := h
      split_ifs at h with hzero
      exact ⟨⟨hfits, hzero⟩, ((Run.pure_eq_ok _ _).mp h).symm⟩
    · intro h
      obtain ⟨⟨hfits, hzero⟩, rfl⟩ := h
      refine ⟨_, ⟨hfits, rfl⟩, ?_⟩
      rw [if_neg hzero]
      rfl

theorem calcAdjusted_eq_ok (first : FirstOfPeriod build context header.number)
    (target : PowTarget) :
    calcAdjusted build codec client parent header timestamp context = .ok target ↔
      ∃ currSeal ancestor ancestorSeal, parent.lastSeal codec = some currSeal ∧
        client.headerByNumber (header.number - context.genesisPowTargetAdj) = some ancestor ∧
        ancestor.lastSeal codec = some ancestorSeal ∧ ancestorSeal.timestamp ≤ timestamp ∧
        GapDefined build context ∧
        scaleTarget context currSeal.powTarget
          (context.genesisTargetBlockTime * 1000 * context.genesisPowTargetAdj)
          (timestamp - ancestorSeal.timestamp) = target := by
  have hnumber : build.sub64 header.number context.genesisPowTargetAdj =
      .ok (header.number - context.genesisPowTargetAdj) :=
    (Build.Computes.sub64 _ _ _).mpr ⟨first.adj_le, rfl⟩
  simp only [calcAdjusted, Run.bind_eq_ok, Run.expect_eq_ok, hnumber, Except.ok.injEq,
    adjustTarget_eq_ok]
  constructor
  · intro h
    obtain ⟨currSeal, hseal, _, rfl, ancestor, hfound, ancestorSeal, hancestor, h⟩ := h
    exact ⟨currSeal, ancestor, ancestorSeal, hseal, hfound, hancestor, h⟩
  · intro h
    obtain ⟨currSeal, ancestor, ancestorSeal, hseal, hfound, hancestor, h⟩ := h
    exact ⟨currSeal, hseal, _, rfl, ancestor, hfound, ancestorSeal, hancestor, h⟩

theorem calcPowTarget_eq_ok (hparent : client.header header.parentHash = some parent)
    (target : PowTarget) :
    calcPowTarget build codec client header timestamp context = .ok target ↔
      TargetIs build codec client context parent header timestamp target := by
  simp only [calcPowTarget, hparent, Run.bind_eq_ok, Run.expect_eq_ok, Option.some.injEq,
    exists_eq_left']
  by_cases hone : header.number = 1
  · rw [if_pos hone, Run.pure_eq_ok]
    constructor
    · intro h
      exact h ▸ .genesis hone
    · intro h
      cases h with
      | genesis => rfl
      | reused number => exact absurd hone number
      | adjusted first => exact absurd hone first.1
  · rw [if_neg hone]
    simp only [Run.bind_eq_ok, sub64_one_eq_ok, rem64_eq_ok]
    constructor
    · intro h
      obtain ⟨_, ⟨hchecked, rfl⟩, _, ⟨hadj, rfl⟩, h⟩ := h
      by_cases hwithin : (header.number - 1) % context.genesisPowTargetAdj = 0
      · rw [if_neg (not_not.mpr hwithin)] at h
        have hfirst : FirstOfPeriod build context header.number := ⟨hone, hchecked, hadj, hwithin⟩
        obtain ⟨currSeal, ancestor, ancestorSeal, hseal, hfound, hancestor, hordered, hgap, rfl⟩ :=
          (calcAdjusted_eq_ok hfirst target).mp h
        exact .adjusted hfirst hseal hfound hancestor hordered hgap
      · rw [if_pos hwithin] at h
        have hreused : TargetIs build codec client context parent header timestamp _ :=
          .reused hone hchecked hadj hwithin
        cases hseal : parent.lastSeal codec with
        | none => simp_all [Run.pure_eq_ok]
        | some currSeal => simp_all [Run.pure_eq_ok]
    · intro h
      cases h with
      | genesis number => exact absurd number hone
      | reused _ hchecked hadj hwithin =>
        refine ⟨_, ⟨hchecked, rfl⟩, _, ⟨hadj, rfl⟩, ?_⟩
        rw [if_pos hwithin]
        cases hseal : parent.lastSeal codec <;> rfl
      | adjusted first hseal hfound hancestor hordered hgap =>
        obtain ⟨_, hchecked, hadj, hwithin⟩ := first
        refine ⟨_, ⟨hchecked, rfl⟩, _, ⟨hadj, rfl⟩, ?_⟩
        rw [if_neg (not_not.mpr hwithin)]
        exact (calcAdjusted_eq_ok ⟨hone, hchecked, hadj, hwithin⟩ _).mpr
          ⟨_, _, _, hseal, hfound, hancestor, hordered, hgap, rfl⟩

end Target

section WorkProof

variable {H : Type} {build : Build} {hashing : Hashing H}

-- The leaf count of a proof of this length and the double of the shard count fit, as far as
-- they are computed.
def LeavesFit (build : Build) (count : UInt16) (length : Nat) : Prop :=
  build = .checked → (UInt16.ofNat length).toNat < 16 ∧
    ((1 : UInt16) <<< UInt16.ofNat length ≠ count → count.toNat * 2 < 2 ^ 16)

-- merkle_light takes the path of a tree of one leaf only if it says so.
def BareLeafTaken (hashing : Hashing H) (num count : UInt16) (proof : List H) : Prop :=
  hashing.provesBareLeaf = false → ¬ (num = 0 ∧ count = 1 ∧ proof = [])

def WorkDefined (build : Build) (hashing : Hashing H) (sealed : PowSeal H) (num count : UInt16) :
    Prop :=
  ∀ multi, sealed.workProof = .multi multi →
    LeavesFit build count multi.merkleProof.length ∧
      BareLeafTaken hashing num count multi.merkleProof

theorem proofShard_returns (num count : UInt16) (length : Nat) :
    (proofShard build num count length).Returns ↔ LeavesFit build count length := by
  simp only [proofShard, Run.returns_bind, Build.Computes.shl16 _ _ _, LeavesFit]
  constructor
  · intro h hchecked
    obtain ⟨_, ⟨hshl, rfl⟩, h⟩ := h
    refine ⟨hshl hchecked, fun hne => ?_⟩
    rw [if_neg hne, Run.returns_bind] at h
    obtain ⟨scaled, hscaled, _⟩ := h
    exact ((Build.Computes.mul16 _ _ _).mp hscaled).1 hchecked
  · intro h
    refine ⟨_, ⟨fun hchecked => (h hchecked).1, rfl⟩, ?_⟩
    split_ifs with heq
    · exact Run.returns_pure _
    · refine (Run.returns_bind _ _).mpr
        ⟨_, (Build.Computes.mul16 _ _ _).mpr ⟨fun hchecked => (h hchecked).2 heq, rfl⟩, ?_⟩
      split_ifs <;> exact Run.returns_pure _

theorem proofNew_returns (lemmas : List H) (path : List Bool) :
    (proofNew hashing lemmas path).Returns ↔
      (hashing.provesBareLeaf = false → 2 < lemmas.length) := by
  unfold proofNew
  split_ifs with hshort
  · simp only [Run.not_returns_error, false_iff]
    exact fun h => absurd (h hshort.2) (Nat.not_lt.mpr hshort.1)
  · exact iff_of_true (Run.returns_ok _) fun hbare =>
      Nat.not_le.mp fun hle => hshort ⟨hle, hbare⟩

theorem parseOriginal_returns (cmp : CompactMerkleProof H) :
    (parseOriginal hashing cmp).Returns ↔
      BareLeafTaken hashing cmp.num cmp.count cmp.proof := by
  simp only [parseOriginal, BareLeafTaken]
  split_ifs with hrange hpow hsize
  · refine iff_of_true (Run.returns_ok _) fun _ hbare => ?_
    rw [hbare.1, hbare.2.1] at hrange
    exact absurd hrange (by decide)
  · refine iff_of_true (Run.returns_ok _) fun _ hbare => hpow ?_
    rw [hbare.2.1]
    decide
  · refine iff_of_true (Run.returns_ok _) fun _ hbare => hsize ?_
    rw [hbare.2.1, hbare.2.2, List.length_nil]
    decide
  · rw [ne_eq, not_not] at hpow hsize
    have hlemmas : 2 < (cmp.item :: cmp.proof ++ [cmp.root]).length ↔ cmp.proof ≠ [] := by
      simp [List.length_pos_iff]
    have hbare : cmp.num = 0 ∧ cmp.count = 1 ∧ cmp.proof = [] ↔ cmp.proof = [] := by
      refine ⟨fun h => h.2.2, fun hnil => ?_⟩
      rw [hnil, List.length_nil] at hsize
      have hcount : cmp.count = 1 := by
        rw [← hpow, UInt16.toNat_inj.mp (hsize.symm.trans UInt16.toNat_zero.symm)]
        decide
      rw [UInt16.not_le, hcount, UInt16.lt_iff_toNat_lt, UInt16.toNat_one] at hrange
      exact ⟨UInt16.toNat_inj.mp (Nat.lt_one_iff.mp hrange), hcount, hnil⟩
    simp only [Run.returns_bind, hbare]
    rw [← ne_eq, ← hlemmas, ← proofNew_returns _ (pathOf (Sharding.log2 cmp.count).toNat cmp.num)]
    constructor
    · intro h
      obtain ⟨proof, hproof, _⟩ := h
      exact ⟨proof, hproof⟩
    · intro h
      obtain ⟨proof, hproof⟩ := h
      exact ⟨proof, hproof, Run.returns_pure _⟩

theorem bareLeafTaken_iff {num count num' count' : UInt16} {proof : List H}
    (hshard : proofShard build num count proof.length = .ok (.ok (num', count'))) :
    BareLeafTaken hashing num' count' proof ↔ BareLeafTaken hashing num count proof := by
  obtain ⟨rfl, hcount⟩ := proofShard_eq_ok hshard
  have hone : count' = 1 ∧ proof = [] ↔ count = 1 ∧ proof = [] := by
    constructor
    · intro h
      refine ⟨?_, h.2⟩
      rcases hcount with hsame | hdouble
      · exact hsame.symm.trans h.1
      · have hodd := congrArg UInt16.toNat (hdouble.symm.trans h.1)
        rw [UInt16.toNat_mul, UInt16.toNat_one, show (2 : UInt16).toNat = 2 from rfl] at hodd
        omega
    · intro h
      have hnormal := proofShard_normal build num' (show proof.length < 16 by simp [h.2])
        (show count.toNat = 2 ^ proof.length by simp [h.1, h.2])
      rw [hnormal] at hshard
      have hsame := (Prod.mk.inj (Except.ok.inj (Except.ok.inj hshard))).2
      exact ⟨hsame.symm.trans h.1, h.2⟩
  simp only [BareLeafTaken, hone]

variable [DecidableEq H]

theorem checkMulti_returns {header : BlockHeader H} {sealed : PowSeal H} {multi : ProofMulti H}
    {num count : UInt16} (hinfo : header.shardInfo = some (num, count)) :
    (checkMulti build hashing header sealed multi).Returns ↔
      LeavesFit build count multi.merkleProof.length ∧
        BareLeafTaken hashing num count multi.merkleProof := by
  simp only [checkMulti, hinfo, Run.returns_bind, Run.expect_eq_ok, Option.some.injEq,
    exists_eq_left']
  rw [← proofShard_returns num]
  constructor
  · intro h
    obtain ⟨shard, hshard, h⟩ := h
    refine ⟨⟨shard, hshard⟩, ?_⟩
    obtain error | ⟨num', count'⟩ := shard
    · intro _ hbare
      have hnormal := proofShard_normal build num
        (show multi.merkleProof.length < 16 by simp [hbare.2.2])
        (show count.toNat = 2 ^ multi.merkleProof.length by simp [hbare.2.1, hbare.2.2])
      exact absurd (hnormal.symm.trans hshard) (by simp)
    · simp only [Run.returns_bind] at h
      obtain ⟨parsed, hparsed, _⟩ := h
      exact (bareLeafTaken_iff hshard).mp ((parseOriginal_returns _).mp ⟨parsed, hparsed⟩)
  · intro h
    obtain ⟨⟨shard, hshard⟩, hbare⟩ := h
    refine ⟨shard, hshard, ?_⟩
    obtain error | ⟨num', count'⟩ := shard
    · exact Run.returns_pure _
    · simp only [Run.returns_bind]
      obtain ⟨parsed, hparsed⟩ := (parseOriginal_returns
        ⟨multi.merkleProof, preHash hashing header sealed, multi.merkleRoot, num', count'⟩).mpr
        ((bareLeafTaken_iff hshard).mpr hbare)
      refine ⟨parsed, hparsed, ?_⟩
      obtain error | original := parsed
      · exact Run.returns_pure _
      · obtain ⟨_, _, _, rfl⟩ := parseOriginal_eq_ok.mp hparsed
        have hlen : multi.merkleProof.length ≤ (pathOf multi.merkleProof.length num').length := by
          simp
        obtain ⟨hash, hfold⟩ := Merkle.fold_isSome hashing.node multi.merkleProof _
          (preHash hashing header sealed) hlen
        simp only [Run.returns_bind, Run.expect_eq_ok, hashing.validate_eq, hfold, Option.map_some,
          Option.some.injEq, exists_eq_left']
        split_ifs <;> exact Run.returns_pure _

theorem checkWorkProof_returns {header : BlockHeader H} {sealed : PowSeal H} {num count : UInt16}
    (hinfo : header.shardInfo = some (num, count)) :
    (checkWorkProof build hashing header sealed).Returns ↔
      WorkDefined build hashing sealed num count := by
  unfold checkWorkProof WorkDefined
  cases hproof : sealed.workProof with
  | unknown => exact iff_of_true (Run.returns_ok _) (by simp)
  | nonce proof => exact iff_of_true (Run.returns_ok _) (by simp)
  | multi multi => simp [checkMulti_returns hinfo]

end WorkProof

end Yeeroot.Pow
