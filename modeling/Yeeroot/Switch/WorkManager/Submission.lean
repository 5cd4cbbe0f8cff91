import Yeeroot.Merkle.Reference
import Yeeroot.Switch.WorkManager.Lemmas

namespace Yeeroot.Switch

open Scale Yeeroot.Pow Rpc Futures

variable {H : Type} {hashing : Hashing H}

theorem acceptWorkFuture_eq {now : Nat} {cache : WorkCache H} {rawWork : RawWork H} {work : Work H}
    {value : UInt64} {nonceTarget : PowTarget} (nodes : Nodes H)
    (hcached : getCache now cache work.merkleRoot = some rawWork) (hnonce : work.nonce = some value)
    (htarget : work.nonceTarget = some nonceTarget) :
    acceptWorkFuture hashing nodes now cache work =
      .ok (.ok (shardTasks hashing nodes rawWork work value nonceTarget)) := by
  simp only [acceptWorkFuture, hnonce, htarget, hcached, Run.bind_eq_ok, Run.expect_eq_ok]
  exact ⟨value, rfl, nonceTarget, rfl, rfl⟩

section Tasks

variable {rawWork : RawWork H} {work : Work H} {value : UInt64} {nonceTarget : PowTarget}
  {num configNum : UInt16} {job : Job H}

theorem shardTask_winner {nodes : Nodes H} {result : JobResult H}
    (hwins : nonceTarget ≤ job.digestItem.powTarget)
    (hresult : jobResult hashing rawWork work value num job = .ok result)
    (hnode : (nodes.submitJob configNum).refused = none) :
    ∃ rest, shardTask hashing nodes rawWork work value nonceTarget num configNum job =
      .wait (nodes.submitJob configNum).connect (.emit (.submitted configNum result) rest) := by
  rw [shardTask, if_pos hwins, hresult]
  simp only [submitJobFuture, Call.future, hnode]
  rw [Future.wait_andThen, Future.andThen]
  exact ⟨_, rfl⟩

theorem mem_shardTasks {nodes : Nodes H} (hnum : num < rawWork.shardCount)
    (hjob : rawWork.shardJobs num = some (configNum, job)) :
    shardTask hashing nodes rawWork work value nonceTarget num configNum job ∈
      shardTasks hashing nodes rawWork work value nonceTarget :=
  List.mem_filterMap.mpr ⟨num, mem_shardNums.mpr hnum, by simp [hjob]⟩

-- The nodes of all shards but one refuse, and that one takes a poll to connect.
def refusingNodes (configNum : UInt16) : Nodes H where
  submitJob num := ⟨if num = configNum then 1 else 0,
    if num = configNum then none else some "connection refused", 0, .error ""⟩
  getJob _ _ := ⟨0, some "connection refused", 0, .error ""⟩
  delay _ _ := 0

end Tasks

-- A network of two shards with hashes that are numbers.
def countHashing : Hashing Nat where
  toLibrary := Merkle.Reference.library fun left right => left + right + 1
  codec := .nat
  debug := toString
  header header := header.number.toNat
  source _ value _ := value.toNat
  target hash := BitVec.ofNat 256 hash
  blake2 _ := zero256
  provesBareLeaf := false

-- The header of a job logs shard `num` of two.
def plainJob (num : UInt8) (powTarget : PowTarget) : Job Nat :=
  ⟨7, ⟨0, 7, 0, 0, [[0, 24, 2, 0, num, 0, 2, 0]]⟩, ⟨filled 32 0, powTarget, 0, .unknown⟩⟩

-- The first shard's target is out of reach.
def mixedJobs : Jobs Nat := ⟨[(0, plainJob 0 0), (1, plainJob 1 9)], by decide⟩

def plainRawWork (jobs : Jobs Nat) (leaves : List Nat) : RawWork Nat where
  shardCount := 2
  shardJobs := shardJob (fun _ => 0) jobs
  merkleTree := ⟨leaves, some (leaves.sum + 1)⟩
  work := ⟨leaves.sum + 1, extraDataOf countHashing zeroExtra, 9, 2,
    fun num => (shardJob (fun _ => 0) jobs num).map fun entry => entry.2.header.number, none, none⟩

def minedWork (rawWork : RawWork Nat) (value : UInt64) : Work Nat :=
  { rawWork.work with nonce := some value, nonceTarget := some (BitVec.ofNat 256 value.toNat) }

end Yeeroot.Switch
