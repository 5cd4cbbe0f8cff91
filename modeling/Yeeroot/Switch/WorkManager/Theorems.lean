import Yeeroot.Switch.Nonce
import Yeeroot.Switch.WorkManager.Logs
import Yeeroot.Switch.WorkManager.Submission
import Yeeroot.Transition

namespace Yeeroot.Switch

open Scale Yeeroot.Pow Rpc Transition

variable {H : Type} {hashing : Hashing H}

-- A job that a shard's node has built and answered with.
structure Delivered (hashing : Hashing H) (source : DefaultJob H) (job : Job H) : Prop where
  built : ∃ header authorityId powTarget timestamp relayProof,
    source = buildJob hashing header authorityId powTarget timestamp relayProof
  answered : Job.ofDefault source = .ok job
  logged : LogsOneShard source.header

namespace Delivered

variable {source : DefaultJob H} {job : Job H}

theorem eq_answer (h : Delivered hashing source job) :
    ∃ logs, source.header.logs.mapM DigestItem.encode = .ok logs ∧
      job = ⟨source.hash, ⟨source.header.parentHash, source.header.number, source.header.stateRoot,
        source.header.extrinsicsRoot, logs⟩, .ofSeal source.digestItem⟩ := by
  have hanswered := h.answered
  simp only [Job.ofDefault, Header.ofHeader, Run.bind_eq_ok, Run.pure_eq_ok] at hanswered
  obtain ⟨header, ⟨logs, hlogs, rfl⟩, rfl⟩ := hanswered
  exact ⟨logs, hlogs, rfl⟩

theorem powTarget (h : Delivered hashing source job) :
    job.digestItem.powTarget = source.digestItem.powTarget := by
  obtain ⟨logs, _, rfl⟩ := h.eq_answer
  rfl

theorem hash (h : Delivered hashing source job) (result : JobResult H) :
    preHash hashing source.header (result.into source).digestItem = job.hash := by
  obtain ⟨header, authorityId, powTarget, timestamp, relayProof, hbuilt⟩ := h.built
  obtain ⟨logs, _, rfl⟩ := h.eq_answer
  subst hbuilt
  rfl

theorem shardInfo (h : Delivered hashing source job) :
    source.header.shardInfo = parseShardInfo job := by
  obtain ⟨logs, hlogs, rfl⟩ := h.eq_answer
  rw [parseShardInfo, findSome?_encode hlogs, findSome?_eq_shardInfo h.logged]

end Delivered

-- The logged counts are powers of two from 2 on, no two further apart than one doubling.
def CountsAgree (jobs : Jobs H) : Prop :=
  ∀ entry ∈ jobs.entries, ∀ num count, parseShardInfo entry.2 = some (num, count) →
    (∃ height, 1 ≤ height ∧ count.toNat = 2 ^ height) ∧
    ∀ entry' ∈ jobs.entries, ∀ num' count', parseShardInfo entry'.2 = some (num', count') →
      count = count' ∨ count.toNat = 2 * count'.toNat ∨ count'.toNat = 2 * count.toNat

theorem foldl_greatest (values : List UInt16) (first : UInt16) :
    let greatest := values.foldl (fun greatest value => if greatest < value then value else greatest)
      first
    greatest ∈ first :: values ∧ ∀ value ∈ first :: values, value ≤ greatest := by
  induction values generalizing first with
  | nil => simp
  | cons value values ih =>
    obtain ⟨hmem, hle⟩ := ih (if first < value then value else first)
    rw [List.foldl_cons]
    refine ⟨?_, ?_⟩
    · rcases List.mem_cons.mp hmem with heq | hin
      · rw [heq]
        split_ifs <;> simp
      · exact List.mem_cons_of_mem _ (List.mem_cons_of_mem _ hin)
    · intro other hother
      have hstart := hle _ List.mem_cons_self
      simp only [List.mem_cons] at hother
      rcases hother with rfl | rfl | hin
      · split_ifs at hstart ⊢ with hlt
        · exact UInt16.le_trans (UInt16.le_of_lt hlt) hstart
        · exact hstart
      · split_ifs at hstart ⊢ with hlt
        · exact hstart
        · exact UInt16.le_trans (UInt16.not_lt.mp hlt) hstart
      · exact hle other (List.mem_cons_of_mem _ hin)

theorem shardCount?_eq_some {jobs : Jobs H} {shardCount : UInt16}
    (h : shardCount? jobs = some shardCount) :
    (∃ entry ∈ jobs.entries, ∃ num, parseShardInfo entry.2 = some (num, shardCount)) ∧
      ∀ entry ∈ jobs.entries, ∀ num count, parseShardInfo entry.2 = some (num, count) →
        count ≤ shardCount := by
  unfold shardCount? at h
  cases hcounts : jobs.entries.filterMap fun entry => (parseShardInfo entry.2).map Prod.snd with
  | nil => simp [hcounts, maximum?] at h
  | cons first counts =>
    rw [hcounts, maximum?] at h
    obtain ⟨hmem, hle⟩ := foldl_greatest counts first
    rw [Option.some.inj h, ← hcounts] at hmem
    rw [Option.some.inj h, ← hcounts] at hle
    refine ⟨?_, ?_⟩
    · obtain ⟨entry, hentry, hcount⟩ := List.mem_filterMap.mp hmem
      obtain ⟨⟨num, count⟩, hinfo, rfl⟩ := Option.map_eq_some_iff.mp hcount
      exact ⟨entry, hentry, num, hinfo⟩
    · intro entry hentry num count hinfo
      exact hle count (List.mem_filterMap.mpr ⟨entry, hentry, by simp [hinfo]⟩)

theorem proofShard_of_agree {jobs : Jobs H} {shardCount count num : UInt16} (build : Build)
    (hagree : CountsAgree jobs) (hcount : shardCount? jobs = some shardCount)
    {entry : UInt16 × Job H} (hentry : entry ∈ jobs.entries)
    (hinfo : parseShardInfo entry.2 = some (num, count)) :
    ∃ height, 1 ≤ height ∧ height < 16 ∧ shardCount.toNat = 2 ^ height ∧
      proofShard build num count height = .ok (.ok (num, UInt16.ofNat (2 ^ height))) := by
  obtain ⟨⟨top, htop, num', hinfo'⟩, hle⟩ := shardCount?_eq_some hcount
  obtain ⟨⟨height, hpos, hpow⟩, hothers⟩ := hagree top htop num' shardCount hinfo'
  have hheight : height < 16 := by
    have hlt := shardCount.toNat_lt
    rw [hpow] at hlt
    exact (Nat.pow_lt_pow_iff_right (by decide)).mp hlt
  refine ⟨height, hpos, hheight, hpow, proofShard_leaves build num hheight ?_⟩
  have hbelow := UInt16.le_iff_toNat_le.mp (hle entry hentry num count hinfo)
  rcases hothers entry hentry num count hinfo with rfl | hdouble | hdouble
  · exact .inl hpow
  · exact .inr (by omega)
  · have : 0 < 2 ^ height := Nat.two_pow_pos height
    omega

theorem checkExtraData_extraDataOf (hashing : Hashing H) (extra : FixedBytes 36) :
    checkExtraData hashing (extraDataOf hashing extra) = true := by
  have hextra := extra.property
  simp [checkExtraData, extraDataOf, hextra]

-- A nonce with its target, and extra data that carry their checksum.
structure Solved (hashing : Hashing H) (work : Work H) (value : UInt64) (nonceTarget : PowTarget) :
    Prop where
  nonceGiven : work.nonce = some value
  targetGiven : work.nonceTarget = some nonceTarget
  measured : hashing.target (hashing.source work.merkleRoot value work.extraData) = nonceTarget
  checksum : checkExtraData hashing work.extraData = true

theorem solved_of_searchNonce {work found : Work H} {candidates : List UInt64}
    (hchecksum : checkExtraData hashing work.extraData = true)
    (h : searchNonce hashing work candidates = some found) :
    ∃ value nonceTarget, Solved hashing found value nonceTarget := by
  induction candidates with
  | nil => exact absurd h (by simp [searchNonce])
  | cons candidate candidates ih =>
    rw [searchNonce] at h
    split_ifs at h with hmet
    · obtain rfl := Option.some.inj h
      exact ⟨candidate, _, rfl, rfl, rfl, hchecksum⟩
    · exact ih h

section Manager

variable [Inhabited H] [DecidableEq H]

-- A work that `get_work` makes of jobs that nodes have delivered.
structure Offered (hashing : Hashing H) (rawWork : RawWork H) : Prop where
  made : ∃ pick jobs, getWork hashing pick jobs = .ok (.ok rawWork) ∧ CountsAgree jobs ∧
    ∀ entry ∈ jobs.entries, ∃ source, Delivered hashing source entry.2

omit [DecidableEq H] in
theorem Offered.delivered {rawWork : RawWork H} (h : Offered hashing rawWork)
    {num configNum : UInt16} {job : Job H}
    (hjob : rawWork.shardJobs num = some (configNum, job)) :
    ∃ source, Delivered hashing source job := by
  obtain ⟨pick, jobs, hwork, _, hdelivered⟩ := h.made
  obtain ⟨_, hshardJobs, _⟩ := getWork_eq_ok hwork
  rw [hshardJobs] at hjob
  exact hdelivered _ (mem_of_shardJob hjob).1

-- Each winner's result passes the check of the node that its job is from.
theorem Offered.passes (build : Build) {rawWork : RawWork H} (h : Offered hashing rawWork)
    {work : Work H} {value : UInt64} {nonceTarget : PowTarget}
    (hsolved : Solved hashing work value nonceTarget)
    (hroot : work.merkleRoot = rawWork.work.merkleRoot) {num configNum : UInt16} {job : Job H}
    (hnum : num < rawWork.shardCount) (hjob : rawWork.shardJobs num = some (configNum, job))
    (hwins : nonceTarget ≤ job.digestItem.powTarget) :
    ∃ result, jobResult hashing rawWork work value num job = .ok result ∧
      ∀ source, Delivered hashing source job →
        ∃ block, checkWorkProof build hashing (result.into source).header
          (result.into source).digestItem = .ok (.ok block) := by
  obtain ⟨pick, jobs, hwork, hagree, _⟩ := h.made
  obtain ⟨hcount, hshardJobs, hcompiled⟩ := getWork_eq_ok hwork
  rw [hshardJobs] at hjob
  obtain ⟨hentry, count, hinfo⟩ := mem_of_shardJob hjob
  obtain ⟨height, hpos, hshort, hpow, hshard⟩ := proofShard_of_agree build hagree hcount hentry hinfo
  have hlength : rawWork.merkleTree.leaves.length = 2 ^ height := by
    rw [hcompiled.length_leaves, hpow]
  have hleaf := hcompiled.getElem?_leaves hnum (hshardJobs ▸ hjob)
  obtain ⟨lemmas, hproof, hlemmas, hfold⟩ := hashing.genProof_full hlength hleaf hcompiled.root
  refine ⟨_, jobResult_eq work value job (hcompiled.tree_eq ▸ hproof), ?_⟩
  intro source hsource
  have hsealed := hsource.shardInfo.trans hinfo
  refine (checkMulti_eq_ok hsealed).mpr ⟨?_, ?_, ?_, ?_, ?_, hsolved.checksum, ?_⟩
  · rw [hlemmas]
    exact hshard
  · rw [hlemmas]
    exact hshort
  · rw [hlemmas, ← hpow]
    exact UInt16.lt_iff_toNat_lt.mp hnum
  · exact .inl (hlemmas ▸ hpos)
  · rw [hsource.hash, pathOf_eq_directions, hlemmas, hfold, hroot]
  · have htarget := hsource.powTarget
    rw [hsolved.measured]
    exact htarget ▸ hwins

-- What the nodes answer is a job of theirs, and the counts agree when a work is asked for.
def Serving (hashing : Hashing H) (manager : Manager H) : Request H → Prop
  | .fetched _ (.ok job) => ∃ source, Delivered hashing source job
  | .fetched _ (.error _) => True
  | .getWork _ _ => CountsAgree manager.jobs

structure Sound (hashing : Hashing H) (works : List (Work H)) (manager : Manager H) : Prop where
  jobs : ∀ entry ∈ manager.jobs.entries, ∃ source, Delivered hashing source entry.2
  works : ∀ work ∈ works, work.extraData = extraDataOf hashing zeroExtra
  cache : ∀ root rawWork expireAt, manager.cache root = some (rawWork, expireAt) →
    rawWork.work.merkleRoot = root ∧ Offered hashing rawWork

theorem Sound.step {works out : List (Work H)} {manager manager' : Manager H} {request : Request H}
    (h : Sound hashing works manager) (hserving : Serving hashing manager request)
    (hstep : Manager.Step hashing manager request manager' out) :
    Sound hashing (works ++ out) manager' := by
  cases hstep with
  | fetched configNum answer =>
    rw [List.append_nil]
    cases answer with
    | error =>
      refine ⟨?_, h.works, h.cache⟩
      intro entry hentry
      exact h.jobs entry (List.mem_filter.mp hentry).1
    | ok job =>
      refine ⟨?_, h.works, h.cache⟩
      intro entry hentry
      rcases List.mem_cons.mp hentry with rfl | hin
      · exact hserving
      · exact h.jobs entry (List.mem_filter.mp hin).1
  | @getWork pick rawWork now compiled =>
    obtain ⟨_, _, hcompiled⟩ := getWork_eq_ok compiled
    refine ⟨h.jobs, ?_, ?_⟩
    · intro work hwork
      rcases List.mem_append.mp hwork with hold | hnew
      · exact h.works work hold
      · rw [List.mem_singleton.mp hnew]
        exact hcompiled.extraData
    · intro root cached expireAt hcached
      have hput := putCache_eq_some hcached
      by_cases hroot : root = rawWork.work.merkleRoot
      · subst hroot
        rw [Function.update_self] at hput
        obtain ⟨rfl, _⟩ := Prod.mk.inj (Option.some.inj hput)
        exact ⟨rfl, pick, manager.jobs, compiled, hserving, h.jobs⟩
      · rw [Function.update_of_ne hroot] at hput
        exact h.cache root cached expireAt hput

abbrev Runs (hashing : Hashing H) (jobs : Jobs H) : List (Work H) → Manager H → Prop :=
  Reaches (Manager.Step hashing) (Serving hashing) ⟨jobs, Manager.new.cache⟩

theorem sound_of_runs {jobs : Jobs H} {works : List (Work H)} {manager : Manager H}
    (hjobs : ∀ entry ∈ jobs.entries, ∃ source, Delivered hashing source entry.2)
    (hruns : Runs hashing jobs works manager) : Sound hashing works manager := by
  refine hruns.invariant (Sound hashing) ?_ ?_
  · refine ⟨hjobs, fun work hwork => absurd hwork (by simp), ?_⟩
    intro root rawWork expireAt hcached
    exact absurd hcached (by simp [Manager.new])
  · intro works manager request manager' out hsound hserving hstep
    exact hsound.step hserving hstep

-- The worker has found the nonce for a work that was handed out, or a miner has submitted it.
inductive Found (hashing : Hashing H) (jobs : Jobs H) (found : Work H) : Prop where
  | mined {works : List (Work H)} {manager : Manager H} (run : Runs hashing jobs works manager)
      {work : Work H} (handedOut : work ∈ works) (nonceStart : UInt64)
      (searched : mineWork hashing work nonceStart = some found)
  | submitted {works : List (Work H)} {manager : Manager H} (run : Runs hashing jobs works manager)
      (now : Nat) (input : Bytes)
      (decoded : submittedWork hashing now manager.cache input = some found)

theorem Found.solved {jobs : Jobs H} {found : Work H}
    (hjobs : ∀ entry ∈ jobs.entries, ∃ source, Delivered hashing source entry.2)
    (h : Found hashing jobs found) : ∃ value nonceTarget, Solved hashing found value nonceTarget := by
  rcases h with ⟨run, handedOut, nonceStart, searched⟩ | ⟨run, now, input, decoded⟩
  · refine solved_of_searchNonce ?_ searched
    rw [(sound_of_runs hjobs run).works _ handedOut]
    exact checkExtraData_extraDataOf hashing zeroExtra
  · simp only [submittedWork, Option.bind_eq_bind, Option.bind_eq_some_iff, Option.pure_def,
      Option.some.injEq] at decoded
    obtain ⟨job, hjob, rawWork, hcached, rfl⟩ := decoded
    obtain ⟨expireAt, hentry⟩ := getCache_eq_some hcached
    obtain ⟨hroot, _⟩ := (sound_of_runs hjobs run).cache _ _ _ hentry
    simp only [decodeSubmitWork, Option.ite_none_left_eq_some, Option.bind_eq_bind,
      Option.bind_eq_some_iff, Option.pure_def, Option.some.injEq, Prod.exists] at hjob
    obtain ⟨_, merkleRoot, _, _, value, _, _, extra, _, _, rfl⟩ := hjob
    refine ⟨value, _, rfl, rfl, ?_, checkExtraData_extraDataOf hashing extra⟩
    rw [hroot]

-- In every run, whatever the worker or a miner finds, each shard whose target is met has a
-- task that sends it a result which its own node takes.
theorem results_pass_check (build : Build) (hashing : Hashing H) {jobs : Jobs H}
    (hjobs : ∀ entry ∈ jobs.entries, ∃ source, Delivered hashing source entry.2)
    {works : List (Work H)} {manager : Manager H} (hruns : Runs hashing jobs works manager)
    {found : Work H} (hfound : Found hashing jobs found) {now : Nat} {rawWork : RawWork H}
    (hcached : getCache now manager.cache found.merkleRoot = some rawWork) :
    ∃ value nonceTarget, found.nonce = some value ∧ found.nonceTarget = some nonceTarget ∧
      ∀ nodes, ∃ tasks, acceptWorkFuture hashing nodes now manager.cache found = .ok (.ok tasks) ∧
      ∀ num configNum job, num < rawWork.shardCount →
        rawWork.shardJobs num = some (configNum, job) → nonceTarget ≤ job.digestItem.powTarget →
        ∃ result, jobResult hashing rawWork found value num job = .ok result ∧
          ((nodes.submitJob configNum).refused = none → ∃ rest,
            .wait (nodes.submitJob configNum).connect
              (.emit (.submitted configNum result) rest) ∈ tasks) ∧
          (∃ source, Delivered hashing source job) ∧
          ∀ source, Delivered hashing source job →
            ∃ block, checkWorkProof build hashing (result.into source).header
              (result.into source).digestItem = .ok (.ok block) := by
  obtain ⟨value, nonceTarget, hsolved⟩ := hfound.solved hjobs
  refine ⟨value, nonceTarget, hsolved.nonceGiven, hsolved.targetGiven, fun nodes => ⟨_,
    acceptWorkFuture_eq nodes hcached hsolved.nonceGiven hsolved.targetGiven, ?_⟩⟩
  intro num configNum job hnum hjob hwins
  obtain ⟨expireAt, hentry⟩ := getCache_eq_some hcached
  obtain ⟨hroot, hoffered⟩ := (sound_of_runs hjobs hruns).cache _ _ _ hentry
  obtain ⟨result, hresult, hpasses⟩ := hoffered.passes build hsolved hroot.symm hnum hjob hwins
  refine ⟨result, hresult, fun hnode => ?_, hoffered.delivered hjob, hpasses⟩
  obtain ⟨rest, htask⟩ := shardTask_winner hwins hresult hnode
  exact ⟨rest, htask ▸ mem_shardTasks hnum hjob⟩

end Manager

def plainSource (num : UInt8) (powTarget : PowTarget) : DefaultJob Nat :=
  buildJob countHashing ⟨0, 7, 0, 0, [.other [2, 0, num, 0, 2, 0]]⟩ (filled 32 0) powTarget 0 zero256

theorem delivered_plainSource (num : UInt8) (powTarget : PowTarget) :
    Delivered countHashing (plainSource num powTarget) (plainJob num powTarget) := by
  refine ⟨⟨_, _, _, _, _, rfl⟩, rfl, ?_⟩
  intro item hitem item' hitem' info info' hinfo hinfo'
  rw [List.mem_singleton.mp hitem] at hinfo
  rw [List.mem_singleton.mp hitem'] at hinfo'
  exact Option.some.inj (hinfo.symm.trans hinfo')

theorem mem_mixedJobs {entry : UInt16 × Job Nat} (h : entry ∈ mixedJobs.entries) :
    entry = (0, plainJob 0 0) ∨ entry = (1, plainJob 1 9) := by
  simpa [mixedJobs] using h

theorem delivered_mixedJobs : ∀ entry ∈ mixedJobs.entries, ∃ source,
    Delivered countHashing source entry.2 := by
  intro entry hentry
  rcases mem_mixedJobs hentry with rfl | rfl
  · exact ⟨_, delivered_plainSource 0 0⟩
  · exact ⟨_, delivered_plainSource 1 9⟩

theorem countsAgree_mixedJobs : CountsAgree mixedJobs := by
  have htwo : ∀ entry ∈ mixedJobs.entries, ∀ num count,
      parseShardInfo entry.2 = some (num, count) → count = 2 := by
    intro entry hentry num count hinfo
    have hlogged : (parseShardInfo entry.2).map Prod.snd = some 2 := by
      rcases mem_mixedJobs hentry with rfl | rfl <;> rfl
    rw [hinfo] at hlogged
    exact Option.some.inj hlogged
  intro entry hentry num count hinfo
  obtain rfl := htwo entry hentry num count hinfo
  refine ⟨⟨1, Nat.le_refl 1, rfl⟩, ?_⟩
  intro entry' hentry' num' count' hinfo'
  exact .inl (htwo entry' hentry' num' count' hinfo').symm

-- The second shard has won and the first has not.
theorem results_pass_check_mixed : ∃ tasks result rest,
    acceptWorkFuture countHashing (refusingNodes 1) 0
      (putCache 0 (fun _ => none) (plainRawWork mixedJobs [7, 7]))
      (minedWork (plainRawWork mixedJobs [7, 7]) 5) = .ok (.ok tasks) ∧
    .wait 1 (.emit (.submitted 1 result) rest) ∈ tasks ∧
    ∃ block, checkWorkProof .release countHashing (result.into (plainSource 1 9)).header
      (result.into (plainSource 1 9)).digestItem = .ok (.ok block) := by
  have hmade : getWork countHashing (fun _ => 0) mixedJobs =
      .ok (.ok (plainRawWork mixedJobs [7, 7])) := rfl
  have hserving : Serving countHashing ⟨mixedJobs, Manager.new.cache⟩ (.getWork (fun _ => 0) 0) :=
    countsAgree_mixedJobs
  have hruns : Runs countHashing mixedJobs ([] ++ [(plainRawWork mixedJobs [7, 7]).work])
      ⟨mixedJobs, putCache 0 (fun _ => none) (plainRawWork mixedJobs [7, 7])⟩ :=
    .tail (.refl _) hserving (.getWork 0 hmade)
  have hsearched : mineWork countHashing (plainRawWork mixedJobs [7, 7]).work 5 =
      some (minedWork (plainRawWork mixedJobs [7, 7]) 5) := by
    have hsteps : NONCE_STEPS = 99999 + 1 := rfl
    rw [mineWork, hsteps, List.range_succ_eq_map, List.map_cons, searchNonce]
    exact if_pos (by decide)
  have hcached : getCache 0 (putCache 0 (fun _ => none) (plainRawWork mixedJobs [7, 7]))
      (minedWork (plainRawWork mixedJobs [7, 7]) 5).merkleRoot =
        some (plainRawWork mixedJobs [7, 7]) := rfl
  obtain ⟨value, nonceTarget, hvalue, htarget, hresults⟩ := results_pass_check .release countHashing
    delivered_mixedJobs hruns (.mined hruns (by simp) 5 hsearched) hcached
  obtain rfl := Option.some.inj hvalue
  obtain rfl := Option.some.inj htarget
  obtain ⟨tasks, haccept, hwinners⟩ := hresults (refusingNodes 1)
  obtain ⟨result, _, hsent, _, hpasses⟩ := hwinners 1 1 (plainJob 1 9) (by decide) rfl (by decide)
  obtain ⟨rest, htask⟩ := hsent rfl
  exact ⟨tasks, result, rest, haccept, htask, hpasses _ (delivered_plainSource 1 9)⟩

end Yeeroot.Switch
