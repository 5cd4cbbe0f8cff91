import Mathlib.Logic.Function.Basic
import Yeeroot.Grandpa.Voters

namespace Yeeroot.Crfg

open Grandpa

-- What the gate reads of a commit. The signatures are only passed on.
structure CompactCommit (H : Type) where
  targetHash : H
  targetNumber : UInt64
  precommits : List (Precommit H)
  deriving DecidableEq

abbrev CommitMessage (H : Type) := UInt64 × CompactCommit H

-- The hashes that a message names, with the number it gives to each.
def CommitMessage.named {H : Type} (message : CommitMessage H) : List (H × UInt64) :=
  message.2.precommits.map (fun precommit => (precommit.targetHash, precommit.targetNumber)) ++
    [(message.2.targetHash, message.2.targetNumber)]

inductive KnownOrUnknown where
  | known (number : UInt64)
  | unknown (number : UInt64)
  deriving DecidableEq

def KnownOrUnknown.number : KnownOrUnknown → UInt64
  | .known number => number
  | .unknown number => number

-- A handle. `inner` is the address of the commit that it shares with the other handles.
structure BlockCommitMessage where
  inner : Nat
  targetNumber : UInt64
  deriving DecidableEq

-- What the handles of a commit share: the counter, and the commit until it is taken.
structure LockedCommit (H : Type) where
  count : Nat
  commit : Option (CommitMessage H)

-- The gate. Every message that comes in gets an address, also if nothing waits for it, and
-- is released under it.
structure UntilImported (H : Type) where
  commits : Nat → LockedCommit H
  next : Nat
  pending : H → List BlockCommitMessage
  ready : List (Nat × CommitMessage H)

def UntilImported.new (H : Type) : UntilImported H := ⟨fun _ => ⟨0, none⟩, 0, fun _ => [], []⟩

variable {ε H : Type} [DecidableEq H]

-- `BlockStatus::block_number`, from the numbers in the headers of all blocks and the blocks
-- that are known.
def blockNumber (number : H → UInt64) (known : H → Except ε Bool) (hash : H) :
    Except ε (Option UInt64) := do
  return if ← known hash then some (number hash) else none

-- The hashes that were looked at, in the order of the first look.
abbrev CheckedHashes (H : Type) := List (H × KnownOrUnknown)

section Schedule

variable (number : H → UInt64) (known : H → Except ε Bool)

def queryKnown (checkedHashes : CheckedHashes H) (unknownCount : Nat) (targetHash : H)
    (perceivedNumber : UInt64) : Except ε (Bool × CheckedHashes H × Nat) :=
  match checkedHashes.lookup targetHash with
  | some entry => .ok (entry.number = perceivedNumber, checkedHashes, unknownCount)
  | none => do
    match ← blockNumber number known targetHash with
    | some canonNumber =>
      return (canonNumber = perceivedNumber,
        checkedHashes ++ [(targetHash, .known canonNumber)], unknownCount)
    | none =>
      return (true, checkedHashes ++ [(targetHash, .unknown perceivedNumber)],
        unknownCount + 1)

def queryAll : List (H × UInt64) → CheckedHashes H → Nat →
    Except ε (Option (CheckedHashes H × Nat))
  | [], checkedHashes, unknownCount => .ok (some (checkedHashes, unknownCount))
  | (targetHash, targetNumber) :: targets, checkedHashes, unknownCount => do
    let (ok, checkedHashes, unknownCount) ←
      queryKnown number known checkedHashes unknownCount targetHash targetNumber
    if ok then queryAll targets checkedHashes unknownCount else return none

-- The handle of a hash that is not known yet.
def wait (inner : Nat) (pending : H → List BlockCommitMessage) (checked : H × KnownOrUnknown) :
    H → List BlockCommitMessage :=
  match checked.2 with
  | .unknown targetNumber =>
    Function.update pending checked.1 (pending checked.1 ++ [⟨inner, targetNumber⟩])
  | .known _ => pending

def scheduleWait (input : CommitMessage H) (gate : UntilImported H) :
    Except ε (UntilImported H) := do
  match ← queryAll number known input.named [] 0 with
  | none => return { gate with next := gate.next + 1 }
  | some (checkedHashes, unknownCount) =>
    if unknownCount = 0 then
      return { gate with next := gate.next + 1, ready := gate.ready ++ [(gate.next, input)] }
    else
      return { gate with
        next := gate.next + 1
        commits := Function.update gate.commits gate.next ⟨unknownCount, some input⟩
        pending := checkedHashes.foldl (wait gate.next) gate.pending }

end Schedule

-- The previous value, and what is stored then.
def compareAndSwap (value current new : Nat) : Nat × Nat :=
  (value, if value = current then new else value)

-- The loop of `wait_completed`. It runs again if another handle has changed the count since
-- the load; a poll has the gate for itself, so that the first swap succeeds.
def releaseLast : Nat → Nat → LockedCommit H → LockedCommit H × Option (CommitMessage H)
  | 0, _, inner => (inner, none)
  | rounds + 1, lastCount, inner =>
    if lastCount = 1 then ({ inner with commit := none }, inner.commit)
    else
      let (prevValue, count) := compareAndSwap inner.count lastCount (lastCount - 1)
      if prevValue = lastCount then ({ inner with count := count }, none)
      else releaseLast rounds prevValue { inner with count := count }

def waitCompleted (handle : BlockCommitMessage) (canonNumber : UInt64) (inner : LockedCommit H) :
    LockedCommit H × Option (CommitMessage H) :=
  if handle.targetNumber ≠ canonNumber then (inner, none)
  else releaseLast 1 inner.count inner

def complete (canonNumber : UInt64) (gate : UntilImported H) (handle : BlockCommitMessage) :
    UntilImported H :=
  let (inner, released) := waitCompleted handle canonNumber (gate.commits handle.inner)
  { gate with
    commits := Function.update gate.commits handle.inner inner
    ready := gate.ready ++ released.toList.map (handle.inner, ·) }

def completeHash (number : H → UInt64) (gate : UntilImported H) (hash : H) : UntilImported H :=
  (gate.pending hash).foldl (complete (number hash))
    { gate with pending := Function.update gate.pending hash [] }

-- What a kind of messages (`BlockUntilImported`) does at a gate with state `G`. `K` is what
-- is known of the blocks at some time, and `B` a block that is known by then.
structure MessageKind (ε H G I K B O : Type) where
  scheduleWait : K → I → G → Except ε G
  status : K → H → Except ε (Option B)
  completeHash : G → B → G
  ready : G → List O
  withReady : G → List O → G

-- What a poll finds: the messages that have come in, each with what is known as it is looked
-- at, the blocks of the import notifications, and, if the interval is over, the hashes that
-- are waited for in the order of the map, with what is known then. A stream that is not just
-- empty has ended or fails.
structure PollOf (ε H I K B : Type) where
  inputs : List (I × K)
  inputsEnd : Option (Except ε Unit)
  notifications : List B
  notificationsEnd : Option (Except ε Unit)
  check : Except ε (Option (List H × K))

inductive Polled (O : Type) where
  | ready (item : O)
  | notReady
  | done

section Poll

variable {G I K B O : Type} (kind : MessageKind ε H G I K B O)

def scheduleAll : List (I × K) → G → Except ε G
  | [], gate => .ok gate
  | (input, known) :: inputs, gate => do
    let gate ← kind.scheduleWait known input gate
    scheduleAll inputs gate

def knownKeys (known : K) : List H → Except ε (List B)
  | [] => .ok []
  | hash :: hashes => do
    let block? ← kind.status known hash
    let rest ← knownKeys known hashes
    return block?.toList ++ rest

def checkPending (check : Option (List H × K)) (gate : G) : Except ε G :=
  match check with
  | none => .ok gate
  | some (hashes, known) => do
    let keys ← knownKeys kind known hashes
    return keys.foldl kind.completeHash gate

def popReady (gate : G) : G × Polled O :=
  match kind.ready gate with
  | [] => (gate, .notReady)
  | item :: ready => (kind.withReady gate ready, .ready item)

def poll (input : PollOf ε H I K B) (gate : G) : Except ε (G × Polled O) := do
  let gate ← scheduleAll kind input.inputs gate
  match input.inputsEnd with
  | some ended => do
    ended
    return (gate, .done)
  | none =>
    let gate := input.notifications.foldl kind.completeHash gate
    match input.notificationsEnd with
    | some ended => do
      ended
      return (gate, .done)
    | none => do
      let check ← input.check
      let gate ← checkPending kind check gate
      return popReady kind gate

end Poll

def commitKind (number : H → UInt64) :
    MessageKind ε H (UntilImported H) (CommitMessage H) (H → Except ε Bool) H
      (Nat × CommitMessage H) where
  scheduleWait known := scheduleWait number known
  status known hash := do return if ← known hash then some hash else none
  completeHash := completeHash number
  ready gate := gate.ready
  withReady gate ready := { gate with ready := ready }

abbrev CommitPoll (ε H : Type) := PollOf ε H (CommitMessage H) (H → Except ε Bool) H

end Yeeroot.Crfg
