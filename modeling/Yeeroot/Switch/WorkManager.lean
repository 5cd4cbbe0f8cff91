import Yeeroot.Futures
import Yeeroot.Rpc.Mining

namespace Yeeroot.Switch

open Scale Yeeroot.Pow Rpc Futures

variable {H : Type}

inductive Error where
  | shardsDown
  | workExpired
  | targetNotAccpect
  | rpc (message : String)
  | panicked (panic : Panic)

-- Only an item of the `Other` variant, whose index is 0, is read.
def parseLog (item : Bytes) : Option (UInt16 × UInt16) :=
  match item with
  | [] => none
  | variant :: input =>
    if variant = 0 then do
      let (data, _) ← decodeByteVec input
      if 6 ≤ data.bytes.length ∧ data.bytes[0]? = some GENERATED_MODULE_LOG_PREFIX ∧
          data.bytes[1]? = some GENERATED_SHARDING_PREFIX then do
        let (shardNum, input) ← decodeU16 (data.bytes.drop 2)
        let (shardCount, _) ← decodeU16 input
        return (shardNum, shardCount)
      else none
    else none

-- The first log that can be read.
def parseShardInfo (job : Job H) : Option (UInt16 × UInt16) := job.header.logs.findSome? parseLog

def maximum? {α : Type} [LT α] [DecidableLT α] : List α → Option α
  | [] => none
  | first :: rest =>
    some (rest.foldl (fun greatest value => if greatest < value then value else greatest) first)

-- The job map: one job for each number that the switch is configured with.
structure Jobs (H : Type) where
  entries : List (UInt16 × Job H)
  nodup : (entries.map Prod.fst).Nodup

def Jobs.empty : Jobs H := ⟨[], List.nodup_nil⟩

def Jobs.remove (jobs : Jobs H) (configNum : UInt16) : Jobs H where
  entries := jobs.entries.filter fun entry => entry.1 ≠ configNum
  nodup := jobs.nodup.sublist (List.filter_sublist.map Prod.fst)

def Jobs.insert (jobs : Jobs H) (configNum : UInt16) (job : Job H) : Jobs H where
  entries := (configNum, job) :: (jobs.remove configNum).entries
  nodup := by
    refine List.nodup_cons.mpr ⟨?_, (jobs.remove configNum).nodup⟩
    intro hmem
    obtain ⟨entry, hentry, hnum⟩ := List.mem_map.mp hmem
    exact absurd hnum (by simpa using (List.mem_filter.mp hentry).2)

def shardCount? (jobs : Jobs H) : Option UInt16 :=
  maximum? (jobs.entries.filterMap fun entry => (parseShardInfo entry.2).map Prod.snd)

-- Normal or scale out: a node of the shard, or of the half that will split off.
def servesShard (num : UInt16) (entry : UInt16 × Job H) : Bool :=
  match parseShardInfo entry.2 with
  | some (actualNum, actualCount) =>
    actualNum = num && (entry.1 = actualNum || entry.1 = actualNum + actualCount)
  | none => false

-- One job a shard; `pick` is the random number generator.
def shardJob (pick : UInt16 → Nat) (jobs : Jobs H) (num : UInt16) : Option (UInt16 × Job H) :=
  let items := jobs.entries.filter (servesShard num)
  items[pick num % items.length]?

structure Work (H : Type) where
  merkleRoot : H
  extraData : ExtraData
  target : PowTarget
  shardCount : UInt16
  shardBlockNumber : UInt16 → Option UInt64
  nonce : Option UInt64
  nonceTarget : Option PowTarget

-- By the actual shard number: the configured number and the job.
abbrev ShardJobs (H : Type) := UInt16 → Option (UInt16 × Job H)

structure RawWork (H : Type) where
  shardCount : UInt16
  shardJobs : ShardJobs H
  merkleTree : Merkle.Tree H
  work : Work H

def shardNums (shardCount : UInt16) : List UInt16 :=
  (List.range shardCount.toNat).map UInt16.ofNat

variable (hashing : Hashing H)

-- The first 36 bytes, followed by their checksum.
def extraDataOf (extra : FixedBytes 36) : ExtraData :=
  ⟨extra.val ++ (hashing.blake2 extra.val).val.take 4, by
    have hextra := extra.property
    have hhash := (hashing.blake2 extra.val).property
    simp [hextra, hhash]⟩

def zeroExtra : FixedBytes 36 := filled 36 0

section Compile

variable [Inhabited H]

-- A shard without a job has the default hash as its leaf.
def leafOf (shardJobs : ShardJobs H) (num : UInt16) : H × PowTarget :=
  match shardJobs num with
  | some (_, job) => (job.hash, job.digestItem.powTarget)
  | none => (default, 0)

def compile (shardCount : UInt16) (shardJobs : ShardJobs H) : Run (RawWork H) := do
  let items := (shardNums shardCount).map (leafOf shardJobs)
  let maxTarget ← Run.expect (maximum? (items.map Prod.snd)) "qed"
  let merkleTree ← Run.expect (hashing.build (items.map Prod.fst))
    "assertion failed: leafs > 1"
  let merkleRoot ← Run.expect merkleTree.root "index out of bounds"
  return {
    shardCount, shardJobs, merkleTree
    work := {
      merkleRoot
      extraData := extraDataOf hashing zeroExtra
      target := maxTarget
      shardCount
      shardBlockNumber := fun num => (shardJobs num).map fun entry => entry.2.header.number
      nonce := none
      nonceTarget := none } }

def getWork (pick : UInt16 → Nat) (jobs : Jobs H) : Run (Except Error (RawWork H)) :=
  if jobs.entries.length = 0 then .ok (.error .shardsDown)
  else
    match shardCount? jobs with
    | none => .ok (.error .shardsDown)
    | some shardCount => do
      let rawWork ← compile hashing shardCount (shardJob pick jobs)
      return .ok rawWork

end Compile

-- In seconds.
def RAW_WORK_LIFE : Nat := 60

def REFRESH_MAX_TRY_TIMES : Nat := 40

-- The cached works by their roots, each with the time it expires at.
abbrev WorkCache (H : Type) := H → Option (RawWork H × Nat)

def getCache (now : Nat) (cache : WorkCache H) (root : H) : Option (RawWork H) :=
  match cache root with
  | some (rawWork, expireAt) => if expireAt < now then none else some rawWork
  | none => none

-- The works that have expired are dropped on the way.
def putCache [DecidableEq H] (now : Nat) (cache : WorkCache H) (rawWork : RawWork H) :
    WorkCache H :=
  fun root =>
    match Function.update cache rawWork.work.merkleRoot (some (rawWork, now + RAW_WORK_LIFE))
      root with
    | some (rawWork, expireAt) => if expireAt < now then none else some (rawWork, expireAt)
    | none => none

-- How a call of a node goes: it takes some polls to connect, and unless that fails, the
-- request is sent and some more polls later there is an answer.
structure Call (α : Type) where
  connect : Nat
  refused : Option String
  answer : Nat
  result : Except String α

-- The nodes' side, by the configured number of the shard: the answer to the submitted
-- job, to the attempts to get the next one, and how long the delays between them take.
structure Nodes (H : Type) where
  submitJob : UInt16 → Call H
  getJob : UInt16 → Nat → Call (Job H)
  delay : UInt16 → Nat → Nat

inductive Event (H : Type) where
  | submitted (configNum : UInt16) (result : JobResult H)
  | refreshed (configNum : UInt16) (job : Job H)

abbrev Task (H α : Type) := Future (Event H) Error α

-- `sent` is what happens when the request goes out.
def Call.future {α : Type} (call : Call α) (context : String)
    (sent : Task H α → Task H α) : Task H α :=
  .wait call.connect
    (match call.refused with
      | some message => .done (.error (.rpc (context ++ message)))
      | none => sent (.wait call.answer
          (.done (call.result.mapError fun message => .rpc (context ++ message)))))

def submitJobFuture (nodes : Nodes H) (configNum : UInt16) (result : JobResult H) : Task H H :=
  (nodes.submitJob configNum).future "Submit job error: " (.emit (.submitted configNum result))

def getJobFuture (nodes : Nodes H) (configNum : UInt16) (attempt : Nat) : Task H (Job H) :=
  (nodes.getJob configNum attempt).future "Get job error: " id

-- One round of the `loop_fn` that waits for the shard's next job.
def refreshAttempt (nodes : Nodes H) (configNum : UInt16) (jobNumber : UInt64) (attempt : Nat)
    (retry : Task H Unit) : Task H Unit :=
  (getJobFuture nodes configNum attempt).thenWith fun newJob =>
    match newJob with
    | .ok newJob =>
      if jobNumber < newJob.header.number then
        .emit (.refreshed configNum newJob) (.done (.ok ()))
      else retry
    | .error _ => retry

def refreshJob (nodes : Nodes H) (configNum : UInt16) (jobNumber : UInt64) : Nat → Task H Unit
  | 0 => refreshAttempt nodes configNum jobNumber REFRESH_MAX_TRY_TIMES (.done (.ok ()))
  | tries + 1 =>
    let attempt := REFRESH_MAX_TRY_TIMES - (tries + 1)
    refreshAttempt nodes configNum jobNumber attempt
      (.wait (nodes.delay configNum attempt) (refreshJob nodes configNum jobNumber tries))

-- The result for a shard whose target is met. `gen_proof` asserts that there is a leaf.
def jobResult (rawWork : RawWork H) (work : Work H) (nonce : UInt64) (num : UInt16)
    (job : Job H) : Run (JobResult H) := do
  let proof ← Run.expect (hashing.genProof rawWork.merkleTree num.toNat)
    "assertion failed: i < self.leafs"
  let merkleProof ← OriginalMerkleProof.compact ⟨proof, num, rawWork.shardCount⟩
  return ⟨job.hash, .multi ⟨work.extraData, work.merkleRoot, nonce, merkleProof.proof⟩⟩

def shardTask (nodes : Nodes H) (rawWork : RawWork H) (work : Work H) (nonce : UInt64)
    (nonceTarget : PowTarget) (num configNum : UInt16) (job : Job H) : Task H Unit :=
  if nonceTarget ≤ job.digestItem.powTarget then
    match jobResult hashing rawWork work nonce num job with
    | .error panic => .done (.error (.panicked panic))
    | .ok result => (submitJobFuture nodes configNum result).andThen fun _ =>
      refreshJob nodes configNum job.header.number REFRESH_MAX_TRY_TIMES
  else .done (.error .targetNotAccpect)

-- The futures that `accept_work_future` joins, in the order of the shards.
def shardTasks (nodes : Nodes H) (rawWork : RawWork H) (work : Work H) (nonce : UInt64)
    (nonceTarget : PowTarget) : List (Task H Unit) :=
  (shardNums rawWork.shardCount).filterMap fun num =>
    (rawWork.shardJobs num).map fun entry =>
      shardTask hashing nodes rawWork work nonce nonceTarget num entry.1 entry.2

def acceptWorkFuture (nodes : Nodes H) (now : Nat) (cache : WorkCache H) (work : Work H) :
    Run (Except Error (List (Task H Unit))) := do
  let nonce ← Run.expect work.nonce "qed"
  let nonceTarget ← Run.expect work.nonceTarget "qed"
  match getCache now cache work.merkleRoot with
  | none => return .error .workExpired
  | some rawWork => return .ok (shardTasks hashing nodes rawWork work nonce nonceTarget)

structure Manager (H : Type) where
  jobs : Jobs H
  cache : WorkCache H

def Manager.new : Manager H := ⟨.empty, fun _ => none⟩

-- A node has answered: to the timer, or to the refresh after a submitted job.
def Manager.fetched (manager : Manager H) (configNum : UInt16) (answer : Except Error (Job H)) :
    Manager H :=
  match answer with
  | .ok job => { manager with jobs := manager.jobs.insert configNum job }
  | .error _ => { manager with jobs := manager.jobs.remove configNum }

inductive Request (H : Type) where
  | fetched (configNum : UInt16) (answer : Except Error (Job H))
  | getWork (pick : UInt16 → Nat) (now : Nat)

-- The works handed out are the outputs. A `get_work` that fails changes nothing.
inductive Manager.Step [Inhabited H] [DecidableEq H] :
    Manager H → Request H → Manager H → List (Work H) → Prop where
  | fetched (manager : Manager H) (configNum : UInt16) (answer : Except Error (Job H)) :
      Step manager (.fetched configNum answer) (manager.fetched configNum answer) []
  | getWork {manager : Manager H} {pick : UInt16 → Nat} {rawWork : RawWork H} (now : Nat)
      (compiled : Switch.getWork hashing pick manager.jobs = .ok (.ok rawWork)) :
      Step manager (.getWork pick now)
        { manager with cache := putCache now manager.cache rawWork } [rawWork.work]

end Yeeroot.Switch
