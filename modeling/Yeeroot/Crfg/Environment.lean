import Yeeroot.Crfg.Authorities

namespace Yeeroot.Crfg

open Scale Grandpa

inductive Error where
  | crfg (error : Grandpa.Error)
  | network (message : String)
  | blockchain (message : String)
  | client (error : ClientError)
  | safety (message : String)
  | timer (message : String)

structure NewAuthoritySet where
  canonNumber : UInt64
  canonHash : H256
  setId : UInt64
  authorities : List (AuthorityId × UInt64)

inductive VoterCommand where
  | pause (reason : String)
  | changeAuthorities (set : NewAuthoritySet)

inductive CommandOrError where
  | error (error : Error)
  | voterCommand (command : VoterCommand)

-- What is written beside the blocks, in one import operation.
inductive AuxWrite (τ : Type) where
  | consensusChanges (changes : ConsensusChanges)
  | authoritySet (set : AuthoritySet τ)
  | setState (canonHash : H256) (canonNumber : UInt64)

-- Substrate's client with its block store of type `κ` and import operations of type `ι`.
-- `treeRoute` is the hash of the common block of two blocks; `notifyFinalized` runs when
-- the operation has been committed.
structure Client (κ ι τ Hd : Type) where
  treeRoute : κ → H256 → H256 → Except ClientError H256
  blockNumberToHash : κ → UInt64 → Option H256
  headerByNumber : κ → UInt64 → Except ClientError (Option Hd)
  headerByHash : κ → H256 → Except ClientError (Option Hd)
  finalizedNumber : κ → Except ClientError UInt64
  beginOperation : κ → Except ClientError ι
  applyAux : κ → ι → List (AuxWrite τ) → Except ClientError ι
  applyFinality : κ → ι → H256 → Option Bytes → Except ClientError ι
  commitOperation : κ → ι → Except ClientError κ
  notifyFinalized : κ → ι → Except ClientError Unit

structure Env (κ ι τ Hd : Type) where
  host : Host Hd
  client : Client κ ι τ Hd
  tree : ForkTree τ

variable {κ ι τ Hd : Type} (env : Env κ ι τ Hd)

-- `current` is a block that is not in the store yet, with its parent.
def isDescendentOf (client : κ) (current : Option (H256 × H256)) : IsDescendentOf :=
  fun base hash =>
    let routed (hash : H256) : Except ClientError Bool := do
      let common ← env.client.treeRoute client hash base
      return decide (common = base)
    if base = hash then .ok false
    else
      match current with
      | none => routed hash
      | some (currentHash, currentParentHash) =>
        if base = currentHash then .ok false
        else if hash = currentHash then
          if base = currentParentHash then .ok true else routed currentParentHash
        else routed hash

def headerBack (client : κ) : Nat → Hd → Except ClientError (Option Hd)
  | 0, current => .ok (some current)
  | steps + 1, current => do
    match ← env.client.headerByHash client (env.host.parentHash current) with
    | some header => headerBack client steps header
    | none => return none

def canonicalAtHeight (client : κ) (base : H256 × UInt64) (baseIsCanonical : Bool)
    (height : UInt64) : Except ClientError (Option H256) :=
  if base.2 < height then .ok none
  else if height = base.2 then
    if baseIsCanonical then .ok (some base.1) else .ok (env.client.blockNumberToHash client height)
  else if baseIsCanonical then .ok (env.client.blockNumberToHash client height)
  else do
    match ← env.client.headerByNumber client (base.2 - 1) with
    | none => return none
    | some header => do
      let header ← headerBack env client (base.2 - height - 1).toNat header
      return header.map env.host.headerHash

inductive JustificationOrCommit (Hd : Type) where
  | justification (just : CrfgJustification Hd)
  | commit (round : UInt64) (commit : CrfgCommit)

-- What the import operation changes in memory while it runs.
structure Finalizing (τ : Type) where
  authoritySet : AuthoritySet τ
  consensusChanges : ConsensusChanges
  oldConsensusChanges : Option ConsensusChanges

abbrev FinalizeM (τ : Type) := ExceptT Error (StateT (Finalizing τ) Run)

def orClientError {α : Type} (result : Except ClientError α) : FinalizeM τ α :=
  match result with
  | .ok value => pure value
  | .error error => throw (.client error)

-- A period of zero is a division by zero, unless the first test fails before it.
def periodElapsed (period lastFinalized number : UInt64) : Run Bool :=
  if lastFinalized ≠ 0 ∨ number - lastFinalized = period then
    if period = 0 then .error ⟨"attempt to divide by zero"⟩
    else .ok (decide (lastFinalized / period ≠ number / period))
  else .ok false

def justificationFor (client : κ) (justificationPeriod : Option UInt64) (number : UInt64)
    (required : Bool) : JustificationOrCommit Hd → FinalizeM τ (Option Bytes)
  | .justification just => return some (just.encode env.host)
  | .commit round commit => do
    let required ← match required, justificationPeriod with
      | false, some period => do
        let lastFinalized ← orClientError (env.client.finalizedNumber client)
        (periodElapsed period lastFinalized number : Run Bool)
      | required, _ => pure required
    if required then do
      let just ← orClientError (← (CrfgJustification.fromCommit env.host
        (env.client.headerByHash client) round commit : Run _))
      return some (just.encode env.host)
    else return none

def applySetChanges (client : κ) (hash : H256) (number : UInt64) : FinalizeM τ Status := do
  let before ← get
  match before.authoritySet.applyStandardChanges env.tree hash number
      (isDescendentOf env client none) with
  | .error message => throw (.safety message)
  | .ok (status, set) => do
    modify fun state => { state with authoritySet := set }
    return status

-- Whether consensus changes are finalized, and the operation with their update. The copy
-- for a failure is taken after the change.
def finalizeChanges (client : κ) (hash : H256) (number : UInt64) (op : ι) :
    FinalizeM τ (Bool × ι) := do
  let before ← get
  let (changes, finalized) := before.consensusChanges.finalize (number, hash)
    (canonicalAtHeight env client (hash, number) true)
  modify fun state => { state with consensusChanges := changes }
  let (alters, finalizes) ← orClientError finalized
  if alters then do
    modify fun state => { state with oldConsensusChanges := some changes }
    let op ← orClientError (env.client.applyAux client op [.consensusChanges changes])
    return (finalizes, op)
  else return (finalizes, op)

def newAuthorities (status : Status) (set : AuthoritySet τ) : Option NewAuthoritySet :=
  status.newSetBlock.map fun (canonHash, canonNumber) =>
    ⟨canonNumber, canonHash, set.setId, set.currentAuthorities⟩

-- `update_authority_set`: a new set starts with a round of its own.
def authoritySetWrites (set : AuthoritySet τ) (new : Option NewAuthoritySet) :
    List (AuxWrite τ) :=
  .authoritySet set :: (new.map fun new => .setState new.canonHash new.canonNumber).toList

-- The closure that `finalize_block` runs under the import lock.
def finalizeOperation (client : κ) (justificationPeriod : Option UInt64) (hash : H256)
    (number : UInt64) (justificationOrCommit : JustificationOrCommit Hd) (op : ι) :
    FinalizeM τ (Option VoterCommand × ι) := do
  let status ← applySetChanges env client hash number
  let (finalizes, op) ← finalizeChanges env client hash number op
  let justification ← justificationFor env client justificationPeriod number
    (status.newSetBlock.isSome || finalizes) justificationOrCommit
  let op ← orClientError (env.client.applyFinality client op hash justification)
  let set := (← get).authoritySet
  let new := newAuthorities status set
  if status.changed then do
    let op ← orClientError (env.client.applyAux client op (authoritySetWrites set new))
    return (new.map .changeAuthorities, op)
  else return (new.map .changeAuthorities, op)

structure Finalized where
  hash : H256
  number : UInt64
  deriving DecidableEq

structure Node (κ τ : Type) where
  client : κ
  authoritySet : AuthoritySet τ
  consensusChanges : ConsensusChanges

-- A call that came to an end; `finalized` is set if the store took the operation.
structure FinalizeOutcome (κ τ : Type) where
  node : Node κ τ
  finalized : Option Finalized
  result : Except CommandOrError Unit

def Node.finalizing (node : Node κ τ) : Finalizing τ :=
  ⟨node.authoritySet, node.consensusChanges, none⟩

def Node.revert (node : Node κ τ) (state : Finalizing τ) : Node κ τ :=
  { node with consensusChanges := state.oldConsensusChanges.getD state.consensusChanges }

-- The end of `lock_import_and_run` and of `finalize_block`. A listener may fail when the
-- operation has been committed.
def conclude (hash : H256) (number : UInt64) (node : Node κ τ) (state : Finalizing τ) :
    Except Error (Option VoterCommand × ι) → FinalizeOutcome κ τ
  | .error error => ⟨node.revert state, none, .error (.error error)⟩
  | .ok (command, op) =>
    match env.client.commitOperation node.client op with
    | .error error => ⟨node.revert state, none, .error (.error (.client error))⟩
    | .ok client =>
      match env.client.notifyFinalized client op with
      | .error error => ⟨{ node.revert state with client := client }, some ⟨hash, number⟩,
          .error (.error (.client error))⟩
      | .ok () => ⟨⟨client, state.authoritySet, state.consensusChanges⟩, some ⟨hash, number⟩,
          match command with
          | some command => .error (.voterCommand command)
          | none => .ok ()⟩

def finalizeBlock (justificationPeriod : Option UInt64) (hash : H256) (number : UInt64)
    (justificationOrCommit : JustificationOrCommit Hd) (node : Node κ τ) :
    Run (FinalizeOutcome κ τ) :=
  match env.client.beginOperation node.client with
  | .error error => .ok ⟨node, none, .error (.error (.client error))⟩
  | .ok op => do
    let (result, state) ← (finalizeOperation env node.client justificationPeriod hash number
      justificationOrCommit op).run.run node.finalizing
    return conclude env hash number node state result

end Yeeroot.Crfg
