import Yeeroot.Merkle
import Yeeroot.Overflow
import Yeeroot.Pow.Seal

namespace Yeeroot.Pow

open Scale

-- The hashes that sealing uses, with merkle_light over `MiningAlgorithm`. `source` is the hash
-- of `(merkle_root, nonce, extra_data)` and `target` the number that a hash is read as.
-- `provesBareLeaf` tells whether merkle_light's `Proof::new` takes a path without siblings.
structure Hashing (H : Type) extends Merkle.Library H where
  codec : Codec H
  debug : H → String
  header : BlockHeader H → H
  source : H → UInt64 → ExtraData → H
  target : H → PowTarget
  blake2 : Bytes → H256
  provesBareLeaf : Bool

def MAX_EXTRA_DATA_LENGTH : Nat := 32

structure CompactMerkleProof (H : Type) where
  proof : List H
  item : H
  root : H
  num : UInt16
  count : UInt16
  deriving DecidableEq

structure OriginalMerkleProof (H : Type) where
  proof : Merkle.Proof H
  num : UInt16
  count : UInt16
  deriving DecidableEq

variable {H : Type} (build : Build) (hashing : Hashing H)

-- Without the siblings' bounds: the leaf comes first and the root last.
def OriginalMerkleProof.compact (omp : OriginalMerkleProof H) : Run (CompactMerkleProof H) := do
  let item ← Run.expect omp.proof.item "called `Option::unwrap()` on a `None` value"
  let root ← Run.expect omp.proof.root "called `Option::unwrap()` on a `None` value"
  return ⟨omp.proof.lemmas.tail.dropLast, item, root, omp.num, omp.count⟩

def proofNew (lemmas : List H) (path : List Bool) : Run (Merkle.Proof H) :=
  if lemmas.length ≤ 2 ∧ hashing.provesBareLeaf = false then
    .error ⟨"assertion failed: hash.len() > 2"⟩
  else .ok ⟨lemmas, path⟩

-- The lowest bit first; `true` where the running hash is the left operand.
def pathOf : Nat → UInt16 → List Bool
  | 0, _ => []
  | height + 1, num => decide (num % 2 = 0) :: pathOf height (num / 2)

def parseOriginal (cmp : CompactMerkleProof H) : Run (Except String (OriginalMerkleProof H)) :=
  if cmp.count ≤ cmp.num then .ok (.error s!"Invalid num: {cmp.num}")
  else
    let height := Sharding.log2 cmp.count
    if Sharding.pow2 height ≠ cmp.count then .ok (.error s!"Invalid count: {cmp.count}")
    else if cmp.proof.length ≠ height.toNat then
      .ok (.error s!"Invalid proof size: {cmp.proof.length}, expected: {height}")
    else do
      let proof ← proofNew hashing (cmp.item :: cmp.proof ++ [cmp.root])
        (pathOf height.toNat cmp.num)
      return .ok ⟨proof, cmp.num, cmp.count⟩

-- The hash that the proof of work is for: the seal's work proof is blanked.
def preHash (header : BlockHeader H) (sealed : PowSeal H) : H :=
  hashing.header (header.push hashing.codec { sealed with workProof := .unknown })

-- The number and count of the leaves for a proof of this length: those of the shard, or
-- of a network that is twice as large.
def proofShard (shardNum shardCount : UInt16) (length : Nat) :
    Run (Except String (UInt16 × UInt16)) := do
  let itemCount ← build.shl16 1 (UInt16.ofNat length)
  if itemCount = shardCount then return .ok (shardNum, shardCount)
  else do
    let scaled ← build.mul16 shardCount 2
    if itemCount = scaled then return .ok (shardNum, scaled)
    else return .error "Invalid merkle proof item count"

def checkExtraData (extraData : ExtraData) : Bool :=
  extraData.val.drop 36 = (hashing.blake2 (extraData.val.take 36)).val.take 4

-- The digest item and the hash of the sealed block.
def sealedBlock (header : BlockHeader H) (sealed : PowSeal H) : DigestItem × H :=
  (powSeal hashing.codec sealed, hashing.header (header.push hashing.codec sealed))

variable [DecidableEq H]

def checkNonce (header : BlockHeader H) (sealed : PowSeal H) (proof : ProofNonce) :
    Except String (DigestItem × H) :=
  if MAX_EXTRA_DATA_LENGTH < proof.extraData.bytes.length then .error "extra data too long"
  else
    let (item, hash) := sealedBlock hashing header sealed
    let got := hashing.target hash
    if sealed.powTarget < got then
      .error s!"Nonce proof: pow target not satisified, need {sealed.powTarget.toNat}, got {got.toNat}"
    else .ok (item, hash)

def checkMulti (header : BlockHeader H) (sealed : PowSeal H) (multi : ProofMulti H) :
    Run (Except String (DigestItem × H)) := do
  let (shardNum, shardCount) ← Run.expect header.shardInfo "must exist"
  match ← proofShard build shardNum shardCount multi.merkleProof.length with
  | .error error => return .error error
  | .ok (num, count) =>
    match ← parseOriginal hashing
      ⟨multi.merkleProof, preHash hashing header sealed, multi.merkleRoot, num, count⟩ with
    | .error error => return .error error
    | .ok original =>
      let valid ← Run.expect (hashing.validate original.proof) "index out of bounds"
      if ¬ valid then return .error "Invalid merkle proof"
      else if ¬ checkExtraData hashing multi.extraData then
        let bytes := multi.extraData.val.map UInt8.toNat
        return .error s!"Multi proof: pow check extra data failed: {bytes}"
      else
        let got := hashing.target
          (hashing.source multi.merkleRoot multi.nonce multi.extraData)
        if sealed.powTarget < got then
          return .error s!"Multi proof: pow target not satisfied, need {sealed.powTarget.toNat}, got {got.toNat}"
        else return .ok (sealedBlock hashing header sealed)

def checkWorkProof (header : BlockHeader H) (sealed : PowSeal H) :
    Run (Except String (DigestItem × H)) :=
  match sealed.workProof with
  | .unknown => .ok (.error "invalid work proof")
  | .nonce proof => .ok (checkNonce hashing header sealed proof)
  | .multi multi => checkMulti build hashing header sealed multi

end Yeeroot.Pow
