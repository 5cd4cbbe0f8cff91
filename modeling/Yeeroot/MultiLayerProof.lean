import Yeeroot.Merkle
import Yeeroot.Primitives

namespace Yeeroot

open Scale

-- merkle_light over `ProofAlgorithm`, with the wire formats of trees and single-leaf proofs.
-- `provesBareLeaf` tells whether its `Proof::new` takes a path without siblings.
structure MerkleLight (H : Type) extends Merkle.Library H where
  provesBareLeaf : Bool
  empty : H
  tree : Codec (Merkle.Tree H)
  proofIntoBytes : Merkle.Proof H → Bytes
  proofFromBytes : Bytes → Option (Merkle.Proof H)
  proof_round_trip : ∀ proof, proofFromBytes (proofIntoBytes proof) = some proof

structure MultiLayerProof (H : Type) where
  layer2Merkle : Option (Merkle.Tree H)
  layer2Proof : Option Bytes
  layer1Merkles : List (UInt16 × Option (Merkle.Tree H))

variable {H : Type} (ml : MerkleLight H)

-- The roots of the shards' trees are the leaves of layer 2; a shard without
-- extrinsics has the default hash.
def layer1Merkles (shardCount : UInt16) (extrinsicShard : UInt16 → List H) :
    List (UInt16 × Option (Merkle.Tree H)) :=
  (List.range shardCount.toNat).map fun i =>
    (UInt16.ofNat i, ml.build (extrinsicShard (UInt16.ofNat i)))

def layer2Leaves (layer1 : List (UInt16 × Option (Merkle.Tree H))) : List H :=
  layer1.map fun (_, tree) => (tree.bind Merkle.Tree.root).getD ml.empty

def layer2Root (shardCount : UInt16) (extrinsicShard : UInt16 → List H) : Run H :=
  Run.expect ((ml.build (layer2Leaves ml (layer1Merkles ml shardCount extrinsicShard))).bind
    Merkle.Tree.root) "index out of bounds"

namespace MultiLayerProof

-- merkle_light asserts that there is the leaf, and that its path has siblings.
def genPath (tree : Merkle.Tree H) (index : Nat) : Run (Merkle.Proof H) := do
  let path ← Run.expect (ml.genProof tree index) "assertion failed: i < self.leafs"
  if path.lemmas.length ≤ 2 ∧ ml.provesBareLeaf = false then
    .error ⟨"assertion failed: hash.len() > 2"⟩
  else return path

def genProof (proof : MultiLayerProof H) (shardNum : UInt16) : Run (Option (MultiLayerProof H)) :=
  match proof.layer2Merkle with
  | none => .ok none
  | some tree =>
    if proof.layer1Merkles.length ≠ tree.leaves.length ∨ tree.leaves.length ≤ shardNum.toNat then
      .ok none
    else
      match proof.layer1Merkles[shardNum.toNat]? with
      | none => .ok none
      | some layer1 => do
        let path ← genPath ml tree shardNum.toNat
        return some ⟨none, some (ml.proofIntoBytes path), [layer1]⟩

def encode (proof : MultiLayerProof H) : Bytes :=
  encodeOption ml.tree.encode proof.layer2Merkle ++
    encodeOption (fun bytes : Bytes => encodeCompact (bytes.length % 2 ^ 32) ++ bytes)
      proof.layer2Proof ++
    encodeVec (fun (num, tree) => encodeLE 2 num.toNat ++ encodeOption ml.tree.encode tree)
      proof.layer1Merkles

def decodeLayer1 (input : Bytes) : Option ((UInt16 × Option (Merkle.Tree H)) × Bytes) := do
  let (num, input) ← decodeU16 input
  let (tree, input) ← decodeOption ml.tree.decode input
  return ((num, tree), input)

-- Bytes after the proof are ignored.
def fromBytes (input : Bytes) : Option (MultiLayerProof H) := do
  let (layer2Merkle, input) ← decodeOption ml.tree.decode input
  let (layer2Proof, input) ← decodeOption decodeByteVec input
  let (layer1Merkles, _) ← decodeVec (decodeLayer1 ml) input
  return ⟨layer2Merkle, layer2Proof.map ByteVec.bytes, layer1Merkles⟩

-- Neither a tree nor a proof without nodes has a root.
def layer2Root (proof : MultiLayerProof H) : Run (Option H) :=
  match proof.layer2Merkle, proof.layer2Proof with
  | some tree, _ => do
    let root ← Run.expect tree.root "index out of bounds"
    return some root
  | none, some bytes =>
    match ml.proofFromBytes bytes with
    | some path => do
      let root ← Run.expect path.root "called `Option::unwrap()` on a `None` value"
      return some root
    | none => .ok none
  | none, none => .ok none

-- The first tree listed for the shard.
def shardTree (proof : MultiLayerProof H) (shard : UInt16) : Option (Merkle.Tree H) :=
  (proof.layer1Merkles.findSome? fun (num, tree) => if num = shard then tree else none)

def contains [DecidableEq H] (proof : MultiLayerProof H) (shard : UInt16) (hash : H) : Bool :=
  match proof.shardTree shard with
  | some tree => tree.contains hash
  | none => false

end MultiLayerProof

end Yeeroot
