import Yeeroot.Crfg.NewChange
import Yeeroot.SortedList

namespace Yeeroot.Crfg

open Scale Grandpa

-- The other operations of Substrate's fork tree that an authority set uses.
structure ChangeTree (τ : Type) extends ForkTree τ where
  new : τ
  importNode : τ → H256 → UInt64 → PendingChange → IsDescendentOf → Except String τ
  finalizesAnyWithDescendentIf : τ → H256 → UInt64 → IsDescendentOf → (PendingChange → Bool) →
    Except String (Option Bool)

namespace AuthoritySet

variable {τ : Type} (tree : ChangeTree τ)

def genesis (initial : List (AuthorityId × UInt64)) : AuthoritySet τ :=
  ⟨initial, 0, tree.new, []⟩

def addStandardChange (set : AuthoritySet τ) (pending : PendingChange)
    (isDescendentOf : IsDescendentOf) : Except String (AuthoritySet τ) := do
  let changes ← tree.importNode set.pendingStandardChanges pending.canonHash pending.canonHeight
    pending isDescendentOf
  return { set with pendingStandardChanges := changes }

-- The list is cleared before the change is inserted at its place.
def addForcedChange (set : AuthoritySet τ) (pending : PendingChange) : AuthoritySet τ :=
  { set with pendingForcedChanges := [pending] }

def addPendingChange (set : AuthoritySet τ) (pending : PendingChange)
    (isDescendentOf : IsDescendentOf) : Except String (AuthoritySet τ) :=
  match pending.delayKind with
  | .best _ => .ok (set.addForcedChange pending)
  | .finalized => set.addStandardChange tree pending isDescendentOf

def addNewChange (set : AuthoritySet τ) (change? : Option PendingChange)
    (isDescendentOf : IsDescendentOf) : Except String (AuthoritySet τ) :=
  match change? with
  | none => .ok set
  | some change => set.addPendingChange tree change isDescendentOf

-- The loop of `apply_forced_changes` over the changes that are due at the best block.
def applyFirstForced (set : AuthoritySet τ) (bestHash : H256) (isDescendentOf : IsDescendentOf) :
    List PendingChange → Run (Except ClientError (Option (UInt64 × AuthoritySet τ)))
  | [] => .ok (.ok none)
  | change :: changes =>
    match (if change.canonHash = bestHash then .ok true
      else isDescendentOf change.canonHash bestHash) with
    | .error error => .ok (.error error)
    | .ok false => applyFirstForced set bestHash isDescendentOf changes
    | .ok true =>
      match change.delayKind with
      | .best median => .ok (.ok (some (median,
          ⟨change.nextAuthorities, set.setId + 1, tree.new, []⟩)))
      | .finalized => .error ⟨"internal error: entered unreachable code: " ++
          "pending_forced_changes only contains forced changes; forced changes have delay " ++
          "kind Best; qed."⟩

def applyForcedChanges (set : AuthoritySet τ) (bestHash : H256) (bestNumber : UInt64)
    (isDescendentOf : IsDescendentOf) :
    Run (Except ClientError (Option (UInt64 × AuthoritySet τ))) :=
  set.applyFirstForced tree bestHash isDescendentOf
    ((set.pendingForcedChanges.takeWhile fun change => change.effectiveNumber ≤ bestNumber).filter
      fun change => change.effectiveNumber = bestNumber)

def enactsStandardChange (set : AuthoritySet τ) (finalizedHash : H256) (finalizedNumber : UInt64)
    (isDescendentOf : IsDescendentOf) : Except String (Option Bool) :=
  tree.finalizesAnyWithDescendentIf set.pendingStandardChanges finalizedHash finalizedNumber
    isDescendentOf fun change => change.effectiveNumber = finalizedNumber

end AuthoritySet

-- The standard library's `binary_search_by_key`, which may return any of several changes of
-- one height.
abbrev ConsensusChanges.Search := List (UInt64 × H256) → UInt64 → Except Nat Nat

def ConsensusChanges.noteChange (search : Search) (changes : ConsensusChanges)
    (change : UInt64 × H256) : ConsensusChanges :=
  ⟨SortedList.insertBy Prod.fst search changes.pendingChanges change⟩

def CrfgJustification.defaultJustification {Hd : Type} (hash : H256) (number : UInt64) :
    CrfgJustification Hd :=
  ⟨0, ⟨hash, number, []⟩, []⟩

inductive AppliedChanges where
  | standard (root : Bool)
  | forced (new : NewAuthoritySet)
  | none

def AppliedChanges.needsJustification : AppliedChanges → Bool
  | .standard _ => true
  | .forced _ | .none => false

-- The set is put back when the value is dropped and not defused.
structure PendingSetChanges (τ : Type) where
  authoritySet : AuthoritySet τ
  auxiliary : List (AuxWrite τ)
  appliedChanges : AppliedChanges
  doPause : Bool

structure ImportedAux where
  clearJustificationRequests : Bool
  needsJustification : Bool
  badJustification : Bool

inductive ImportResult where
  | imported (aux : ImportedAux)
  | alreadyInChain
  | knownBad
  | unknownParent

-- `CrfgBlockImport`. `status` tells whether a block is in the chain; `innerImport` is the
-- client's own import, with the values that are written beside the block.
structure BlockImport (κ ι τ Hd : Type) where
  host : Host Hd
  client : Client κ ι τ Hd
  tree : ChangeTree τ
  api : CrfgApi Hd
  status : κ → H256 → Except ClientError Bool
  search : ConsensusChanges.Search
  innerImport : κ → H256 → Hd → List (AuxWrite τ) → Except ClientError (ImportResult × κ)

def BlockImport.env {κ ι τ Hd : Type} (inner : BlockImport κ ι τ Hd) : Env κ ι τ Hd :=
  ⟨inner.host, inner.client, inner.tree.toForkTree⟩

variable {κ ι τ Hd : Type} (inner : BlockImport κ ι τ Hd)

def clientImport {α : Type} (error : ClientError) : Except ConsensusError α :=
  .error (.clientImport (.client error))

-- The new set starts at the smaller one of the median and the best finalized block.
def forcedAuthorities (client : κ) (median : UInt64) (set : AuthoritySet τ) :
    Run (Except ConsensusError NewAuthoritySet) :=
  match inner.client.finalizedNumber client with
  | .error error => .ok (clientImport error)
  | .ok bestFinalized =>
    let canonNumber := min bestFinalized median
    match inner.client.headerByNumber client canonNumber with
    | .error error => .ok (clientImport error)
    | .ok none => .error ⟨"the given block number is less or equal than the current best " ++
        "finalized number; current best finalized number must exist in chain; qed."⟩
    | .ok (some header) => .ok (.ok
        ⟨canonNumber, inner.host.headerHash header, set.setId, set.currentAuthorities⟩)

-- The changes that apply at the imported block; a forced one replaces the set.
def appliedChanges (client : κ) (hash : H256) (number : UInt64) (isDescendentOf : IsDescendentOf)
    (set : AuthoritySet τ) : Run (Except ConsensusError (AppliedChanges × AuthoritySet τ)) := do
  match ← set.applyForcedChanges inner.tree hash number isDescendentOf with
  | .error error => return clientImport error
  | .ok (some (median, newSet)) => do
    match ← forcedAuthorities inner client median newSet with
    | .error error => return .error error
    | .ok new => return .ok (.forced new, newSet)
  | .ok none =>
    match set.enactsStandardChange inner.tree hash number isDescendentOf with
    | .error message => return importError message
    | .ok (some root) => return .ok (.standard root, set)
    | .ok none => return .ok (.none, set)

-- The auxiliary values are written only when there is a set to put back.
def makeAuthoritiesChanges (node : Node κ τ) (hash : H256) (header : Hd) :
    Run (Except ConsensusError (PendingSetChanges τ)) := do
  match checkNewChange inner.host inner.api header hash with
  | .error error => return .error error
  | .ok change? =>
    let number := inner.host.headerNumber header
    let isDescendentOf := isDescendentOf inner.env node.client
      (some (hash, inner.host.parentHash header))
    match node.authoritySet.addNewChange inner.tree change? isDescendentOf with
    | .error message => return importError message
    | .ok set => do
      match ← appliedChanges inner node.client hash number isDescendentOf set with
      | .error error => return .error error
      | .ok (applied, set) =>
        let doPause := match change?.map PendingChange.delayKind with
          | some (.best _) => true
          | _ => false
        let auxiliary := match applied with
          | .forced new => authoritySetWrites set (some new)
          | _ => if change?.isSome then authoritySetWrites set none else []
        return .ok ⟨set, auxiliary, applied, doPause⟩

-- A finished call; `result` is a panic if the assertion on set changes fails at its end.
structure BlockImported (κ τ : Type) where
  node : Node κ τ
  commands : List VoterCommand
  result : Run (Except ConsensusError ImportResult)

def DEFAULT_FINALIZE_BLOCK : UInt64 := 1

-- A justification that does not do is requested again.
def concludeBlock (commands : List VoterCommand) (aux : ImportedAux) (imported : Imported κ τ) :
    BlockImported κ τ :=
  ⟨imported.node, commands ++ imported.commands,
    match imported.result with
    | .error panic => .error panic
    | .ok (.ok ()) => .ok (.ok (.imported aux))
    | .ok (.error _) => .ok (.ok (.imported
        { aux with badJustification := true, needsJustification := true }))⟩

-- The last part of `import_block`: the block's own justification, the default one or none.
def justifyBlock (voterAlive : Bool) (hash : H256) (number : UInt64) (justification : Option Bytes)
    (needsJustification enactsConsensusChange : Bool) (commands : List VoterCommand)
    (aux : ImportedAux) (node : Node κ τ) : Run (BlockImported κ τ) :=
  if !needsJustification && !enactsConsensusChange then
    .ok ⟨node, commands, .ok (.ok (.imported aux))⟩
  else
    match justification with
    | some justification => do
      let imported ← importJustification inner.env voterAlive hash number justification
        needsJustification node
      return concludeBlock commands aux imported
    | none =>
      if number = DEFAULT_FINALIZE_BLOCK then do
        let imported ← importJustification inner.env voterAlive hash number
          ((CrfgJustification.defaultJustification hash number).encode inner.host)
          needsJustification node
        return concludeBlock commands aux imported
      else
        let changes := if enactsConsensusChange then
            node.consensusChanges.noteChange inner.search (number, hash)
          else node.consensusChanges
        .ok ⟨{ node with consensusChanges := changes }, commands,
          .ok (.ok (.imported { aux with needsJustification := true }))⟩

-- The part that comes after the block has been written. A change that waits for others
-- drops the justification.
def afterImport (voterAlive : Bool) (hash : H256) (number : UInt64) (justification : Option Bytes)
    (enactsConsensusChange : Bool) (pending : PendingSetChanges τ) (aux : ImportedAux)
    (node : Node κ τ) : Run (BlockImported κ τ) :=
  let justify := fun justification change aux =>
    let pause := if pending.doPause then
      [VoterCommand.pause "Forced change scheduled after inactivity"] else []
    justifyBlock inner voterAlive hash number justification
      pending.appliedChanges.needsJustification enactsConsensusChange
      (if voterAlive then pause ++ change else []) aux node
  match pending.appliedChanges with
  | .forced new => justify justification [.changeAuthorities new]
      { aux with clearJustificationRequests := true }
  | .standard true | .none => justify justification [] aux
  | .standard false => justify none [] aux

def importBlock (voterAlive : Bool) (hash : H256) (header : Hd) (justification : Option Bytes)
    (enactsConsensusChange : Bool) (node : Node κ τ) : Run (BlockImported κ τ) :=
  match inner.status node.client hash with
  | .error error => .ok ⟨node, [], .ok (clientImport error)⟩
  | .ok true => .ok ⟨node, [], .ok (.ok .alreadyInChain)⟩
  | .ok false => do
    match ← makeAuthoritiesChanges inner node hash header with
    | .error error => return ⟨node, [], .ok (.error error)⟩
    | .ok pending =>
      match inner.innerImport node.client hash header pending.auxiliary with
      | .error error => return ⟨node, [], .ok (clientImport error)⟩
      | .ok (.imported aux, client) =>
        afterImport inner voterAlive hash (inner.host.headerNumber header) justification
          enactsConsensusChange pending aux
          { node with client := client, authoritySet := pending.authoritySet }
      | .ok (result, client) => return ⟨{ node with client := client }, [], .ok (.ok result)⟩

end Yeeroot.Crfg
