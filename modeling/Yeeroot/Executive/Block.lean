import Yeeroot.Executive
import Yeeroot.MultiLayerProof

namespace Yeeroot

open Scale

variable {σ : Type} (env : Substrate σ)

def ApplyError.panic : ApplyError → Panic
  | .cantPay => ⟨"All extrinsics should have sender able to pay their fees"⟩
  | .badSignature _ => ⟨"All extrinsics should be properly signed"⟩
  | .stale | .future => ⟨"All extrinsics should have the correct nonce"⟩
  | .fullBlock => ⟨"Extrinsics should not exceed block limit"⟩

-- `apply_extrinsic_no_note`: in a block a rejected extrinsic is fatal.
def applyExtrinsicNoNote (uxt : UncheckedExtrinsic) (st : State σ) : Run (Applied σ) := do
  let applied ← applyExtrinsic env uxt st
  match applied.result with
  | .ok _ => return applied
  | .error error => .error error.panic

structure Executed (σ : Type) where
  before : State σ
  uxt : UncheckedExtrinsic
  applied : Applied σ

def Executed.succeeded (executed : Executed σ) : Bool :=
  match executed.applied.result with
  | .ok .success => true
  | _ => false

def executeExtrinsics : List UncheckedExtrinsic → State σ → Run (List (Executed σ) × State σ)
  | [], st => .ok ([], st)
  | uxt :: extrinsics, st => do
    let applied ← applyExtrinsicNoNote env uxt st
    let (executed, final) ← executeExtrinsics extrinsics applied.state
    return (⟨st, uxt, applied⟩ :: executed, final)

-- The body as the node hands it over, without a proof to compare with.
def executeBody (body : List OpaqueExtrinsic) (st : State σ) :
    Run (List (Executed σ) × State σ) := do
  let extrinsics ← Run.expect (decodeBody env.args body) "Bad input data provided to execute_block"
  executeExtrinsics env extrinsics st

def executeExtrinsicsWithBookKeeping (extrinsics : List UncheckedExtrinsic) (number : UInt64)
    (st : State σ) : Run (State σ) := do
  let (_, st) ← executeExtrinsics env extrinsics st
  finishBlock env number st

-- The hashes of the extrinsics that leave for each shard, in the order of the block.
abbrev ExtrinsicShard (H : Type) := UInt16 → List H

def ExtrinsicShard.push {H : Type} (shards : ExtrinsicShard H) (num : UInt16) (hash : H) :
    ExtrinsicShard H :=
  Function.update shards num (shards num ++ [hash])

def ExtrinsicShard.note {H : Type} (shards : ExtrinsicShard H) (leaf : Option (UInt16 × H)) :
    ExtrinsicShard H :=
  match leaf with
  | some (num, hash) => shards.push num hash
  | none => shards

-- The other shard that a signed extrinsic is for. Its destination is read from the
-- bytes, once the module byte has told how.
def executorShard (curShard shardCount : UInt16) (uxt : UncheckedExtrinsic) :
    Run (Option UInt16) :=
  if uxt.isSigned then do
    let relayType? ← OriginExtrinsic.decodeType uxt.encode
    return do
      let relayType ← relayType?
      let origin ← OriginExtrinsic.decode relayType uxt.encode
      let num ← Sharding.shardNumFor origin.dest shardCount
      if num ≠ curShard then some num else none
  else .ok none

def executorLeaf (blake2 : Bytes → H256) (curShard shardCount : UInt16)
    (uxt : UncheckedExtrinsic) (success : Bool) : Run (Option (UInt16 × H256)) :=
  if success then do
    let shard ← executorShard curShard shardCount uxt
    return shard.map fun num => (num, blake2 uxt.encode)
  else .ok none

-- The loop of `execute_extrinsics_with_book_keeping_with_proof`.
def executeNotingRelays (curShard shardCount : UInt16) :
    List UncheckedExtrinsic → ExtrinsicShard H256 → State σ → Run (ExtrinsicShard H256 × State σ)
  | [], shards, st => .ok (shards, st)
  | uxt :: extrinsics, shards, st => do
    let applied ← applyExtrinsicNoNote env uxt st
    let leaf ← executorLeaf env.blake2 curShard shardCount uxt
      (Executed.succeeded ⟨st, uxt, applied⟩)
    executeNotingRelays curShard shardCount extrinsics (shards.note leaf) applied.state

def executeExtrinsicsWithBookKeepingWithProof (ml : MerkleLight H256)
    (extrinsics : List UncheckedExtrinsic) (number : UInt64) (proof : H256)
    (curShard shardCount : UInt16) (st : State σ) : Run (State σ) := do
  let (shards, st) ← executeNotingRelays env curShard shardCount extrinsics (fun _ => []) st
  let root ← layer2Root ml shardCount shards
  if root = proof then finishBlock env number st else .error ⟨"proof root not match"⟩

end Yeeroot
