import Yeeroot.Merkle.Lemmas
import Yeeroot.Pow.WorkProof
import Yeeroot.Primitives.Lemmas
import Yeeroot.Sharding.Utils.Lemmas

namespace Yeeroot.Pow

open Scale

variable {H : Type} {build : Build} {hashing : Hashing H}
variable {length : Nat} {shardCount : UInt16}

@[simp] theorem length_pathOf (height : Nat) (num : UInt16) : (pathOf height num).length = height := by
  induction height generalizing num with
  | zero => rfl
  | succ height ih => simp [pathOf, ih]

theorem pathOf_eq_directions (height : Nat) (num : UInt16) :
    pathOf height num = Merkle.directions height num.toNat := by
  induction height generalizing num with
  | zero => rfl
  | succ height ih =>
    have hhalf : (num / 2).toNat = num.toNat / 2 := by simp
    have heven : num % 2 = 0 ↔ num.toNat % 2 = 0 := by
      rw [← UInt16.toNat_inj]
      simp
    simp only [pathOf, Merkle.directions, ih, hhalf, heven]

theorem size_checks_iff {count : UInt16} (hpos : count ≠ 0) (length : Nat) :
    Sharding.pow2 (Sharding.log2 count) = count ∧ length = (Sharding.log2 count).toNat ↔
      count.toNat = 2 ^ length := by
  have hlog := Sharding.toNat_log2 count hpos
  have hlt : (Sharding.log2 count).toNat < 16 := by
    rw [hlog]
    exact Sharding.log2_lt count hpos
  rw [← UInt16.toNat_inj, Sharding.toNat_pow2 _ hlt]
  constructor
  · intro h
    obtain ⟨hcount, rfl⟩ := h
    exact hcount.symm
  · intro h
    rw [hlog, h, Nat.log2_two_pow]
    exact ⟨rfl, rfl⟩

theorem compact_eq (item : H) (lemmas : List H) (root : H) (path : List Bool) (num count : UInt16) :
    OriginalMerkleProof.compact ⟨⟨item :: lemmas ++ [root], path⟩, num, count⟩ =
      .ok ⟨lemmas, item, root, num, count⟩ := by
  have hroot : Merkle.Proof.root ⟨item :: lemmas ++ [root], path⟩ = some root := by
    simp [Merkle.Proof.root, List.getLast?_cons]
  simp only [OriginalMerkleProof.compact, Run.bind_eq_ok, Run.expect_eq_ok, hroot]
  exact ⟨item, rfl, root, rfl, by simp [Run.pure_eq_ok]⟩

theorem proofNew_eq_ok {lemmas : List H} {path : List Bool} {proof : Merkle.Proof H} :
    proofNew hashing lemmas path = .ok proof ↔
      (2 < lemmas.length ∨ hashing.provesBareLeaf = true) ∧ proof = ⟨lemmas, path⟩ := by
  unfold proofNew
  split_ifs with h
  · simp only [false_iff, not_and]
    intro hcase
    rcases hcase with hlong | hbare
    · omega
    · simp [hbare] at h
  · simp only [Except.ok.injEq]
    constructor
    · intro hproof
      refine ⟨?_, hproof.symm⟩
      by_contra hcase
      simp only [not_or, Bool.not_eq_true] at hcase
      exact h ⟨by omega, hcase.2⟩
    · intro hcase
      exact hcase.2.symm

theorem parseOriginal_eq_ok {cmp : CompactMerkleProof H} {original : OriginalMerkleProof H} :
    parseOriginal hashing cmp = .ok (.ok original) ↔
      cmp.num < cmp.count ∧ cmp.count.toNat = 2 ^ cmp.proof.length ∧
      (0 < cmp.proof.length ∨ hashing.provesBareLeaf = true) ∧
      original = ⟨⟨cmp.item :: cmp.proof ++ [cmp.root], pathOf cmp.proof.length cmp.num⟩,
        cmp.num, cmp.count⟩ := by
  have hlemmas : (2 < (cmp.item :: cmp.proof ++ [cmp.root]).length) ↔ 0 < cmp.proof.length := by
    simp only [List.length_append, List.length_cons, List.length_nil]
    omega
  unfold parseOriginal
  by_cases hnum : cmp.count ≤ cmp.num
  · have hnot : ¬ cmp.num < cmp.count := UInt16.not_lt.mpr hnum
    simp [hnum, hnot]
  have hlt : cmp.num < cmp.count := UInt16.not_le.mp hnum
  have hpos : cmp.count ≠ 0 := by
    intro hzero
    rw [hzero] at hlt
    exact absurd hlt (by simp)
  have hsizes := size_checks_iff hpos cmp.proof.length
  rw [if_neg hnum]
  by_cases hpow : cmp.count.toNat = 2 ^ cmp.proof.length
  · obtain ⟨hcount, hsize⟩ := hsizes.mpr hpow
    simp only [hcount, ← hsize, ne_eq, not_true_eq_false, if_false, Run.bind_eq_ok,
      Run.pure_eq_ok, proofNew_eq_ok, hlemmas, Except.ok.injEq]
    constructor
    · intro h
      obtain ⟨proof, ⟨hbare, rfl⟩, rfl⟩ := h
      exact ⟨hlt, hpow, hbare, rfl⟩
    · intro h
      obtain ⟨_, _, hbare, rfl⟩ := h
      exact ⟨_, ⟨hbare, rfl⟩, rfl⟩
  · have hfails := mt hsizes.mp hpow
    simp only [hpow, false_and, and_false, iff_false]
    by_cases hcount : Sharding.pow2 (Sharding.log2 cmp.count) = cmp.count
    · have hsize : cmp.proof.length ≠ (Sharding.log2 cmp.count).toNat := fun h => hfails ⟨hcount, h⟩
      simp [hcount, hsize]
    · simp [hcount]

theorem shl16_one (build : Build) (h : length < 16) :
    build.shl16 1 (UInt16.ofNat length) = .ok (Sharding.pow2 (UInt16.ofNat length)) ∧
      (Sharding.pow2 (UInt16.ofNat length)).toNat = 2 ^ length := by
  have hlength : (UInt16.ofNat length).toNat = length := UInt16.toNat_ofNat_of_lt' (by
    rw [UInt16.size]
    omega)
  refine ⟨(Build.Computes.shl16 _ _ _).mpr ⟨fun _ => ?_, rfl⟩, ?_⟩
  · omega
  · rw [Sharding.toNat_pow2 _ (by omega), hlength]

theorem proofShard_eq_ok {shardNum shardCount num count : UInt16}
    (h : proofShard build shardNum shardCount length = .ok (.ok (num, count))) :
    num = shardNum ∧ (count = shardCount ∨ count = shardCount * 2) := by
  simp only [proofShard, Run.bind_eq_ok] at h
  obtain ⟨itemCount, _, h⟩ := h
  split_ifs at h with hnormal
  · obtain ⟨rfl, rfl⟩ := Prod.mk.inj (Except.ok.inj ((Run.pure_eq_ok _ _).mp h))
    exact ⟨rfl, .inl rfl⟩
  · simp only [Run.bind_eq_ok] at h
    obtain ⟨scaled, hscaled, h⟩ := h
    obtain ⟨_, rfl⟩ := (Build.Computes.mul16 _ _ _).mp hscaled
    split_ifs at h with hscaling
    · obtain ⟨rfl, rfl⟩ := Prod.mk.inj (Except.ok.inj ((Run.pure_eq_ok _ _).mp h))
      exact ⟨rfl, .inr rfl⟩
    · exact absurd ((Run.pure_eq_ok _ _).mp h) (by simp)

theorem proofShard_normal (build : Build) (shardNum : UInt16) (hlength : length < 16)
    (hcount : shardCount.toNat = 2 ^ length) :
    proofShard build shardNum shardCount length = .ok (.ok (shardNum, shardCount)) := by
  obtain ⟨hshl, hpow⟩ := shl16_one build hlength
  have hitems : Sharding.pow2 (UInt16.ofNat length) = shardCount :=
    UInt16.toNat_inj.mp (hpow.trans hcount.symm)
  simp only [proofShard, Run.bind_eq_ok]
  refine ⟨_, hshl, ?_⟩
  rw [if_pos hitems]
  rfl

theorem toNat_double (hlength : length < 15) (hcount : shardCount.toNat = 2 ^ length) :
    (shardCount * 2).toNat = 2 ^ (length + 1) := by
  have hpow : 2 ^ (length + 1) < 2 ^ 16 := Nat.pow_lt_pow_right (by decide) (by omega)
  rw [UInt16.toNat_mul, hcount, show (2 : UInt16).toNat = 2 from rfl, ← pow_succ]
  exact Nat.mod_eq_of_lt hpow

theorem proofShard_scaling (build : Build) (shardNum : UInt16) (hlength : length < 15)
    (hcount : shardCount.toNat = 2 ^ length) :
    proofShard build shardNum shardCount (length + 1) = .ok (.ok (shardNum, shardCount * 2)) := by
  obtain ⟨hshl, hpow⟩ := shl16_one build (show length + 1 < 16 by omega)
  have hdouble := toNat_double hlength hcount
  have hnormal : Sharding.pow2 (UInt16.ofNat (length + 1)) ≠ shardCount := by
    intro heq
    rw [heq, hcount] at hpow
    have := Nat.pow_lt_pow_right (show 1 < 2 by decide) (Nat.lt_succ_self length)
    omega
  have hitems : Sharding.pow2 (UInt16.ofNat (length + 1)) = shardCount * 2 :=
    UInt16.toNat_inj.mp (hpow.trans hdouble.symm)
  have hmul : build.mul16 shardCount 2 = .ok (shardCount * 2) := by
    refine (Build.Computes.mul16 _ _ _).mpr ⟨fun _ => ?_, rfl⟩
    rw [hcount, show (2 : UInt16).toNat = 2 from rfl, ← pow_succ]
    exact Nat.pow_lt_pow_right (by decide) (by omega)
  simp only [proofShard, Run.bind_eq_ok]
  refine ⟨_, hshl, ?_⟩
  simp only [if_neg hnormal, Run.bind_eq_ok]
  refine ⟨_, hmul, ?_⟩
  rw [if_pos hitems]
  rfl

theorem proofShard_leaves (build : Build) (shardNum : UInt16) (hlength : length < 16)
    (hcount : shardCount.toNat = 2 ^ length ∨ shardCount.toNat * 2 = 2 ^ length) :
    proofShard build shardNum shardCount length =
      .ok (.ok (shardNum, UInt16.ofNat (2 ^ length))) := by
  rcases hcount with hnormal | hscaling
  · rw [proofShard_normal build shardNum hlength hnormal, ← hnormal, UInt16.ofNat_toNat]
  · cases length with
    | zero => omega
    | succ height =>
      have hcount : shardCount.toNat = 2 ^ height := by
        rw [pow_succ] at hscaling
        omega
      rw [proofShard_scaling build shardNum (by omega) hcount,
        ← toNat_double (by omega) hcount, UInt16.ofNat_toNat]

-- What a Multi seal must be to pass.
structure Sealed (build : Build) (hashing : Hashing H) (header : BlockHeader H)
    (sealed : PowSeal H) (multi : ProofMulti H) (num count : UInt16) : Prop where
  leaves : proofShard build num count multi.merkleProof.length = .ok (.ok (num,
    UInt16.ofNat (2 ^ multi.merkleProof.length)))
  short : multi.merkleProof.length < 16
  inRange : num.toNat < 2 ^ multi.merkleProof.length
  bare : 0 < multi.merkleProof.length ∨ hashing.provesBareLeaf = true
  path : Merkle.fold hashing.node (preHash hashing header sealed) multi.merkleProof
    (pathOf multi.merkleProof.length num) = some multi.merkleRoot
  checksum : checkExtraData hashing multi.extraData = true
  work : hashing.target (hashing.source multi.merkleRoot multi.nonce multi.extraData) ≤
    sealed.powTarget

variable [DecidableEq H]

theorem checkMulti_eq_ok {header : BlockHeader H} {sealed : PowSeal H} {multi : ProofMulti H}
    {num count : UInt16} (hinfo : header.shardInfo = some (num, count)) :
    (∃ block, checkMulti build hashing header sealed multi = .ok (.ok block)) ↔
      Sealed build hashing header sealed multi num count := by
  have hlen : multi.merkleProof.length ≤ (pathOf multi.merkleProof.length num).length := by simp
  obtain ⟨hash, hfold⟩ := Merkle.fold_isSome hashing.node multi.merkleProof _
    (preHash hashing header sealed) hlen
  constructor
  · intro h
    obtain ⟨block, h⟩ := h
    simp only [checkMulti, hinfo, Run.bind_eq_ok, Run.expect_eq_ok, Option.some.injEq] at h
    obtain ⟨_, rfl, shard, hshard, h⟩ := h
    obtain _ | ⟨num', count'⟩ := shard
    · exact absurd ((Run.pure_eq_ok _ _).mp h) (by simp)
    obtain ⟨rfl, _⟩ := proofShard_eq_ok hshard
    simp only [Run.bind_eq_ok] at h
    obtain ⟨parsed, hparsed, h⟩ := h
    obtain _ | original := parsed
    · exact absurd ((Run.pure_eq_ok _ _).mp h) (by simp)
    obtain ⟨hnum, hcount, hbare, rfl⟩ := parseOriginal_eq_ok.mp hparsed
    simp only at hnum hcount hbare
    simp only [Run.bind_eq_ok, Run.expect_eq_ok, hashing.validate_eq, hfold, Option.map_some,
      Option.some.injEq] at h
    obtain ⟨_, rfl, h⟩ := h
    split_ifs at h with hvalid hextra hwork
    · exact absurd ((Run.pure_eq_ok _ _).mp h) (by simp)
    · have hshort : multi.merkleProof.length < 16 := by
        have hlt := count'.toNat_lt
        rw [hcount] at hlt
        exact (Nat.pow_lt_pow_iff_right (by decide)).mp hlt
      refine ⟨?_, hshort, ?_, hbare, ?_, hextra, BitVec.not_lt.mp hwork⟩
      · rw [← hcount, UInt16.ofNat_toNat]
        exact hshard
      · rw [← hcount]
        exact UInt16.lt_iff_toNat_lt.mp hnum
      · rw [hfold]
        simpa using hvalid
    · exact absurd ((Run.pure_eq_ok _ _).mp h) (by simp)
    · exact absurd ((Run.pure_eq_ok _ _).mp h) (by simp)
  · intro h
    have hleaves : (UInt16.ofNat (2 ^ multi.merkleProof.length)).toNat =
        2 ^ multi.merkleProof.length :=
      UInt16.toNat_ofNat_of_lt' (Nat.pow_lt_pow_right (by decide) h.short)
    have hparsed : parseOriginal hashing ⟨multi.merkleProof, preHash hashing header sealed,
        multi.merkleRoot, num, UInt16.ofNat (2 ^ multi.merkleProof.length)⟩ = .ok (.ok _) :=
      parseOriginal_eq_ok.mpr
        ⟨UInt16.lt_iff_toNat_lt.mpr (by rw [hleaves]; exact h.inRange), hleaves, h.bare, rfl⟩
    refine ⟨sealedBlock hashing header sealed, ?_⟩
    simp only [checkMulti, hinfo, Run.bind_eq_ok, Run.expect_eq_ok, Option.some.injEq]
    refine ⟨_, rfl, _, h.leaves, ?_⟩
    simp only [Run.bind_eq_ok]
    refine ⟨_, hparsed, ?_⟩
    simp only [Run.bind_eq_ok, Run.expect_eq_ok, hashing.validate_eq, h.path, Option.map_some,
      Option.some.injEq]
    refine ⟨_, rfl, ?_⟩
    simp only [decide_true, not_true_eq_false, if_false, h.checksum, BitVec.not_lt.mpr h.work]
    rfl

end Yeeroot.Pow
