import Mathlib.Data.List.Nodup
import Yeeroot.Pow.WorkProof.Lemmas
import Yeeroot.Switch.WorkManager

namespace Yeeroot.Switch

open Scale Yeeroot.Pow Rpc

variable {H : Type} {hashing : Hashing H}

theorem mem_shardNums {shardCount num : UInt16} : num ∈ shardNums shardCount ↔ num < shardCount := by
  simp only [shardNums, List.mem_map, List.mem_range]
  constructor
  · intro h
    obtain ⟨index, hindex, rfl⟩ := h
    have hlt := shardCount.toNat_lt
    rw [UInt16.lt_iff_toNat_lt, UInt16.toNat_ofNat_of_lt' (show index < 2 ^ 16 by omega)]
    exact hindex
  · intro h
    exact ⟨num.toNat, UInt16.lt_iff_toNat_lt.mp h, UInt16.ofNat_toNat⟩

theorem getElem?_shardNums {shardCount num : UInt16} (h : num < shardCount) :
    (shardNums shardCount)[num.toNat]? = some num := by
  have hlt := UInt16.lt_iff_toNat_lt.mp h
  simp [shardNums, hlt]

theorem length_shardNums (shardCount : UInt16) :
    (shardNums shardCount).length = shardCount.toNat := by simp [shardNums]

theorem mem_of_shardJob {pick : UInt16 → Nat} {jobs : Jobs H} {num : UInt16}
    {entry : UInt16 × Job H} (h : shardJob pick jobs num = some entry) :
    entry ∈ jobs.entries ∧ ∃ count, parseShardInfo entry.2 = some (num, count) := by
  have hmem := List.mem_of_getElem? h
  obtain ⟨hentry, hserves⟩ := List.mem_filter.mp hmem
  refine ⟨hentry, ?_⟩
  unfold servesShard at hserves
  split at hserves
  · next actualNum actualCount hinfo =>
      obtain ⟨hnum, _⟩ := Bool.and_eq_true_iff.mp hserves
      rw [of_decide_eq_true hnum] at hinfo
      exact ⟨actualCount, hinfo⟩
  · exact absurd hserves (by simp)

theorem getCache_eq_some {now : Nat} {cache : WorkCache H} {root : H} {rawWork : RawWork H}
    (h : getCache now cache root = some rawWork) :
    ∃ expireAt, cache root = some (rawWork, expireAt) := by
  unfold getCache at h
  split at h
  · next cached expireAt hcached =>
      split_ifs at h
      obtain rfl := Option.some.inj h
      exact ⟨expireAt, hcached⟩
  · exact absurd h (by simp)

theorem putCache_eq_some [DecidableEq H] {now : Nat} {cache : WorkCache H} {rawWork : RawWork H}
    {root : H} {cached : RawWork H × Nat} (h : putCache now cache rawWork root = some cached) :
    Function.update cache rawWork.work.merkleRoot (some (rawWork, now + RAW_WORK_LIFE)) root =
      some cached := by
  unfold putCache at h
  split at h
  · next kept expireAt hkept =>
      split_ifs at h
      exact hkept.trans h
  · exact absurd h (by simp)

section Compile

variable [Inhabited H]
variable {rawWork : RawWork H}

-- What a compiled work is made of.
structure Compiled (hashing : Hashing H) (rawWork : RawWork H) : Prop where
  leaves : rawWork.merkleTree.leaves =
    (shardNums rawWork.shardCount).map fun num => (leafOf rawWork.shardJobs num).1
  built : rawWork.merkleTree.root = some rawWork.work.merkleRoot
  root : Merkle.rootOf hashing.node rawWork.merkleTree.leaves = some rawWork.work.merkleRoot
  extraData : rawWork.work.extraData = extraDataOf hashing zeroExtra

theorem compiled_of_compile {shardCount : UInt16} {shardJobs : ShardJobs H}
    (h : compile hashing shardCount shardJobs = .ok rawWork) :
    rawWork.shardCount = shardCount ∧ rawWork.shardJobs = shardJobs ∧ Compiled hashing rawWork := by
  simp only [compile, Run.bind_eq_ok, Run.expect_eq_ok, Run.pure_eq_ok] at h
  obtain ⟨maxTarget, _, merkleTree, htree, merkleRoot, hstated, rfl⟩ := h
  rw [hashing.build_eq] at htree
  obtain ⟨root, hroot, rfl⟩ := Option.map_eq_some_iff.mp htree
  obtain rfl := Option.some.inj hstated
  refine ⟨rfl, rfl, ⟨?_, rfl, hroot, rfl⟩⟩
  rw [List.map_map]
  rfl

theorem getWork_eq_ok {pick : UInt16 → Nat} {jobs : Jobs H}
    (h : getWork hashing pick jobs = .ok (.ok rawWork)) :
    shardCount? jobs = some rawWork.shardCount ∧ rawWork.shardJobs = shardJob pick jobs ∧
      Compiled hashing rawWork := by
  unfold getWork at h
  split_ifs at h
  · exact absurd (Except.ok.inj h) (by simp)
  split at h
  · exact absurd (Except.ok.inj h) (by simp)
  · next shardCount hcount =>
      simp only [Run.bind_eq_ok, Run.pure_eq_ok, Except.ok.injEq] at h
      obtain ⟨compiled, hcompile, rfl⟩ := h
      obtain ⟨hsame, hjobs, hcompiled⟩ := compiled_of_compile hcompile
      exact ⟨hsame ▸ hcount, hjobs, hcompiled⟩

theorem Compiled.tree_eq (h : Compiled hashing rawWork) :
    ⟨rawWork.merkleTree.leaves, some rawWork.work.merkleRoot⟩ = rawWork.merkleTree := by
  rw [← h.built]

theorem Compiled.length_leaves (h : Compiled hashing rawWork) :
    rawWork.merkleTree.leaves.length = rawWork.shardCount.toNat := by
  rw [h.leaves, List.length_map, length_shardNums]

theorem Compiled.getElem?_leaves (h : Compiled hashing rawWork) {num configNum : UInt16}
    {job : Job H} (hnum : num < rawWork.shardCount)
    (hjob : rawWork.shardJobs num = some (configNum, job)) :
    rawWork.merkleTree.leaves[num.toNat]? = some job.hash := by
  rw [h.leaves, List.getElem?_map, getElem?_shardNums hnum]
  simp [leafOf, hjob]

omit [Inhabited H] in
theorem jobResult_eq {num : UInt16} {item root : H} {lemmas : List H} {path : List Bool}
    (work : Work H) (value : UInt64) (job : Job H)
    (h : hashing.genProof rawWork.merkleTree num.toNat = some ⟨item :: lemmas ++ [root], path⟩) :
    jobResult hashing rawWork work value num job =
      .ok ⟨job.hash, .multi ⟨work.extraData, work.merkleRoot, value, lemmas⟩⟩ := by
  rw [jobResult, h]
  simp only [Run.bind_eq_ok, Run.expect_eq_ok, Option.some.injEq]
  exact ⟨_, rfl, _, compact_eq item lemmas root path num rawWork.shardCount, rfl⟩

end Compile

end Yeeroot.Switch
