import Yeeroot.Crfg.Justification

namespace Yeeroot.Crfg

open Grandpa

inductive DelayKind where
  | finalized
  | best (medianLastFinalized : UInt64)

structure PendingChange where
  nextAuthorities : List (AuthorityId × UInt64)
  delay : UInt64
  canonHeight : UInt64
  canonHash : H256
  delayKind : DelayKind

def PendingChange.effectiveNumber (change : PendingChange) : UInt64 :=
  change.canonHeight + change.delay

inductive FinalizationResult where
  | changed (change : Option PendingChange)
  | unchanged

abbrev IsDescendentOf := H256 → H256 → Except ClientError Bool

-- Substrate's fork tree of pending changes; an error is its message.
structure ForkTree (τ : Type) where
  finalizeWithDescendentIf : τ → H256 → UInt64 → IsDescendentOf → (PendingChange → Bool) →
    Except String (FinalizationResult × τ)

structure AuthoritySet (τ : Type) where
  currentAuthorities : List (AuthorityId × UInt64)
  setId : UInt64
  pendingStandardChanges : τ
  pendingForcedChanges : List PendingChange

structure Status where
  changed : Bool
  newSetBlock : Option (H256 × UInt64)

namespace AuthoritySet

variable {τ : Type}

def voters (set : AuthoritySet τ) : VoterSet AuthorityId :=
  VoterSet.fromIter set.currentAuthorities

def applyStandardChanges (tree : ForkTree τ) (set : AuthoritySet τ) (finalizedHash : H256)
    (finalizedNumber : UInt64) (isDescendentOf : IsDescendentOf) :
    Except String (Status × AuthoritySet τ) := do
  let (result, pending) ← tree.finalizeWithDescendentIf set.pendingStandardChanges finalizedHash
    finalizedNumber isDescendentOf fun change => change.effectiveNumber ≤ finalizedNumber
  let set := { set with pendingStandardChanges := pending }
  match result with
  | .unchanged => return (⟨false, none⟩, set)
  | .changed none => return (⟨true, none⟩, { set with pendingForcedChanges := [] })
  | .changed (some change) => return (⟨true, some (finalizedHash, finalizedNumber)⟩, { set with
      pendingForcedChanges := []
      currentAuthorities := change.nextAuthorities
      setId := set.setId + 1 })

end AuthoritySet

structure ConsensusChanges where
  pendingChanges : List (UInt64 × H256)
  deriving DecidableEq

-- The finalized changes are dropped also when a lookup fails.
def ConsensusChanges.finalize (changes : ConsensusChanges) (block : UInt64 × H256)
    (canonicalAtHeight : UInt64 → Except ClientError (Option H256)) :
    ConsensusChanges × Except ClientError (Bool × Bool) :=
  let (finalized, pending) := changes.pendingChanges.span fun change => change.1 ≤ block.1
  let hasFinalizedChanges := finalized.foldl (fun has change => do
    if ← has then return true
    else return decide (some change.2 = (← canonicalAtHeight change.1))) (Except.ok false)
  (⟨pending⟩, hasFinalizedChanges.map fun has => (!finalized.isEmpty, has))

end Yeeroot.Crfg
