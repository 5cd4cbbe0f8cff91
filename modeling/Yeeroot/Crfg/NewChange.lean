import Yeeroot.Crfg.Import

namespace Yeeroot.Crfg

-- An author that is already there counts one more, whatever weight the list gives.
def addAuthor (author : AuthorityId × UInt64) :
    List (AuthorityId × UInt64) → List (AuthorityId × UInt64)
  | [] => [author]
  | first :: polymer =>
    if first.1 = author.1 then (first.1, first.2 + 1) :: polymer
    else first :: addAuthor author polymer

def aggregateAuthorities (authorities : List (AuthorityId × UInt64)) :
    List (AuthorityId × UInt64) :=
  authorities.foldl (fun polymer author => addAuthor author polymer) []

structure ScheduledChange where
  nextAuthorities : List (AuthorityId × UInt64)
  delay : UInt64

-- The runtime at the parent of a block; an error is its text. `supportsForced` tells
-- whether its API has forced changes.
structure CrfgApi (Hd : Type) where
  forcedChange : Hd → Except String (Option (UInt64 × ScheduledChange))
  supportsForced : Hd → Except String Bool
  pendingChange : Hd → Except String (Option ScheduledChange)

variable {Hd : Type}

def importError {α : Type} (message : String) : Except ConsensusError α :=
  .error (.clientImport (.client (.other message)))

def PendingChange.ofScheduled (host : Host Hd) (header : Hd) (hash : H256)
    (change : ScheduledChange) (delayKind : DelayKind) : PendingChange where
  nextAuthorities := aggregateAuthorities change.nextAuthorities
  delay := change.delay
  canonHeight := host.headerNumber header
  canonHash := hash
  delayKind := delayKind

def checkNewChange (host : Host Hd) (api : CrfgApi Hd) (header : Hd) (hash : H256) :
    Except ConsensusError (Option PendingChange) := do
  let forced ← match api.forcedChange header with
    | .ok forced => pure forced
    | .error message =>
      match api.supportsForced header with
      | .error message => importError message
      | .ok true => importError message
      | .ok false => pure none
  match forced with
  | some (median, change) => return some (.ofScheduled host header hash change (.best median))
  | none =>
    match api.pendingChange header with
    | .error message => importError message
    | .ok change =>
      return change.map fun change => .ofScheduled host header hash change .finalized

end Yeeroot.Crfg
