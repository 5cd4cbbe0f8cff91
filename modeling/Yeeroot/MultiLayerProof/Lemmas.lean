import Yeeroot.Merkle.Reference
import Yeeroot.MultiLayerProof
import Yeeroot.Primitives.Lemmas
import Yeeroot.Scale.Codec

namespace Yeeroot

open Scale

variable {H : Type}

section Layers

variable (ml : MerkleLight H)

theorem layer2Leaves_eq (shardCount : UInt16) (sent : UInt16 → List H) :
    layer2Leaves ml (layer1Merkles ml shardCount sent) =
      (List.range shardCount.toNat).map fun i =>
        (Merkle.rootOf ml.node (sent (UInt16.ofNat i))).getD ml.empty := by
  unfold layer2Leaves layer1Merkles
  rw [List.map_map]
  refine List.map_congr_left fun i _ => ?_
  simp only [Function.comp_apply, ml.build_eq]
  cases Merkle.rootOf ml.node (sent (UInt16.ofNat i)) <;> rfl

theorem length_layer2Leaves (shardCount : UInt16) (sent : UInt16 → List H) :
    (layer2Leaves ml (layer1Merkles ml shardCount sent)).length = shardCount.toNat := by
  rw [layer2Leaves_eq, List.length_map, List.length_range]

theorem getElem?_layer2Leaves {shardCount shard : UInt16} (sent : UInt16 → List H)
    (h : shard < shardCount) :
    (layer2Leaves ml (layer1Merkles ml shardCount sent))[shard.toNat]? =
      some ((Merkle.rootOf ml.node (sent shard)).getD ml.empty) := by
  have hlt := UInt16.lt_iff_toNat_lt.mp h
  rw [layer2Leaves_eq, List.getElem?_map, List.getElem?_range hlt]
  simp

theorem layer2Root_eq_ok (shardCount : UInt16) (sent : UInt16 → List H) (root : H) :
    layer2Root ml shardCount sent = .ok root ↔
      Merkle.rootOf ml.node (layer2Leaves ml (layer1Merkles ml shardCount sent)) = some root := by
  rw [layer2Root, Run.expect_eq_ok, ml.build_eq]
  cases Merkle.rootOf ml.node (layer2Leaves ml (layer1Merkles ml shardCount sent)) <;> rfl

end Layers

namespace MultiLayerProof

variable (ml : MerkleLight H)

theorem contains_eq_true [DecidableEq H] (proof : MultiLayerProof H) (shard : UInt16) (hash : H) :
    proof.contains shard hash = true ↔
      ∃ tree, proof.shardTree shard = some tree ∧ hash ∈ tree.leaves := by
  unfold contains
  cases proof.shardTree shard with
  | none => simp
  | some tree => simp [Merkle.Tree.contains]

-- The path of layer 2 that a proof carries.
def PathIs (proof : MultiLayerProof H) (path : Merkle.Proof H) : Prop :=
  ∃ bytes, proof.layer2Proof = some bytes ∧ ml.proofFromBytes bytes = some path

theorem genProof_eq {tree : Merkle.Tree H} {layer1 : List (UInt16 × Option (Merkle.Tree H))}
    {shardNum : UInt16} {entry : UInt16 × Option (Merkle.Tree H)} {path : Merkle.Proof H}
    (hlength : layer1.length = tree.leaves.length) (hentry : layer1[shardNum.toNat]? = some entry)
    (hpath : ml.genProof tree shardNum.toNat = some path)
    (hbare : 2 < path.lemmas.length ∨ ml.provesBareLeaf = true) (stored : Option Bytes) :
    genProof ml ⟨some tree, stored, layer1⟩ shardNum =
      .ok (some ⟨none, some (ml.proofIntoBytes path), [entry]⟩) := by
  obtain ⟨hlt, _⟩ := List.getElem?_eq_some_iff.mp hentry
  have hinside : ¬ (layer1.length ≠ tree.leaves.length ∨ tree.leaves.length ≤ shardNum.toNat) := by
    omega
  have hsiblings : ¬ (path.lemmas.length ≤ 2 ∧ ml.provesBareLeaf = false) := by
    rintro ⟨hshort, hnone⟩
    rcases hbare with hlong | hproves
    · omega
    · exact Bool.false_ne_true (hnone.symm.trans hproves)
  have hgen : genPath ml tree shardNum.toNat = .ok path := by
    simp only [genPath, hpath, Run.expect, bind, Except.bind, if_neg hsiblings]
    rfl
  simp only [genProof, if_neg hinside, hentry, hgen]
  rfl

def layer1Codec : Codec (UInt16 × Option (Merkle.Tree H)) where
  encode entry := encodeLE 2 entry.1.toNat ++ encodeOption ml.tree.encode entry.2
  decode := decodeLayer1 ml
  decode_append entry rest := by
    simp [decodeLayer1, ml.tree.decodeOption_append]

theorem shardTree_layer1Merkles (layer2 : Option (Merkle.Tree H)) (path : Option Bytes)
    (shardCount : UInt16) (sent : UInt16 → List H) (shard : UInt16) (tree : Merkle.Tree H) :
    (MultiLayerProof.mk layer2 path (Yeeroot.layer1Merkles ml shardCount sent)).shardTree shard =
        some tree ↔
      shard < shardCount ∧ ml.build (sent shard) = some tree := by
  have hentry : ∀ tree, (∃ entry ∈ Yeeroot.layer1Merkles ml shardCount sent,
      (if entry.1 = shard then entry.2 else none) = some tree) ↔
        shard < shardCount ∧ ml.build (sent shard) = some tree := by
    intro tree
    simp only [Yeeroot.layer1Merkles, List.mem_map, List.mem_range]
    constructor
    · intro h
      obtain ⟨_, ⟨i, hi, rfl⟩, htree⟩ := h
      split_ifs at htree with hshard
      have hlt : (UInt16.ofNat i).toNat < shardCount.toNat := by
        have hcount := shardCount.toNat_lt
        rwa [UInt16.toNat_ofNat_of_lt' (by simp only [UInt16.size]; omega)]
      exact ⟨hshard ▸ UInt16.lt_iff_toNat_lt.mpr hlt, hshard ▸ htree⟩
    · intro h
      obtain ⟨hlt, htree⟩ := h
      exact ⟨_, ⟨shard.toNat, UInt16.lt_iff_toNat_lt.mp hlt, rfl⟩, by simpa using htree⟩
  constructor
  · intro htree
    obtain ⟨entry, hin, hfound⟩ := List.exists_of_findSome?_eq_some htree
    exact (hentry tree).mp ⟨entry, hin, hfound⟩
  · intro h
    obtain ⟨entry, hin, hfound⟩ := (hentry tree).mpr h
    have hsome : (MultiLayerProof.shardTree ⟨layer2, path,
        Yeeroot.layer1Merkles ml shardCount sent⟩ shard).isSome :=
      List.findSome?_isSome_iff.mpr ⟨entry, hin, Option.isSome_iff_exists.mpr ⟨_, hfound⟩⟩
    obtain ⟨other, hother⟩ := Option.isSome_iff_exists.mp hsome
    obtain ⟨entry', hin', hfound'⟩ := List.exists_of_findSome?_eq_some hother
    obtain ⟨_, hbuild⟩ := (hentry other).mp ⟨entry', hin', hfound'⟩
    obtain rfl := Option.some.inj (h.2.symm.trans hbuild)
    exact hother

theorem contains_layer1Merkles [DecidableEq H] (layer2 : Option (Merkle.Tree H))
    (path : Option Bytes) (shardCount : UInt16) (sent : UInt16 → List H) (shard : UInt16)
    (hash : H) :
    (MultiLayerProof.mk layer2 path (Yeeroot.layer1Merkles ml shardCount sent)).contains shard
        hash = true ↔ shard < shardCount ∧ hash ∈ sent shard := by
  simp only [contains_eq_true, shardTree_layer1Merkles, and_assoc, exists_and_left,
    Merkle.exists_mem_build]

theorem decodeOption_path (path : Option Bytes) (rest : Bytes)
    (h : ∀ bytes, path = some bytes → bytes.length < 2 ^ 32) :
    ∃ vec : Option ByteVec, vec.map ByteVec.bytes = path ∧
      decodeOption decodeByteVec (encodeOption
        (fun bytes : Bytes => encodeCompact (bytes.length % 2 ^ 32) ++ bytes) path ++ rest) =
        some (vec, rest) := by
  cases path with
  | none => exact ⟨none, rfl, by simp [decodeOption, encodeOption]⟩
  | some bytes =>
    have hfits := h bytes rfl
    refine ⟨some ⟨bytes, hfits⟩, rfl, ?_⟩
    have hvec := decodeByteVec_append ⟨bytes, hfits⟩ rest
    rw [encodeByteVec] at hvec
    rw [encodeOption, Nat.mod_eq_of_lt hfits]
    simp only [decodeOption, List.cons_append, readByte_cons, Option.bind_eq_bind,
      Option.bind_some, hvec]
    rfl

theorem fromBytes_encode (proof : MultiLayerProof H) (hlayer1 : proof.layer1Merkles.length < 2 ^ 32)
    (hpath : ∀ bytes, proof.layer2Proof = some bytes → bytes.length < 2 ^ 32) :
    fromBytes ml (encode ml proof) = some proof := by
  have hdecoded := (layer1Codec ml).decodeVec_append proof.layer1Merkles [] hlayer1
  rw [List.append_nil] at hdecoded
  obtain ⟨vec, hvec, hpath⟩ := decodeOption_path proof.layer2Proof
    (encodeVec (layer1Codec ml).encode proof.layer1Merkles) hpath
  rw [encode, List.append_assoc, fromBytes, ml.tree.decodeOption_append]
  simp only [Option.bind_eq_bind, Option.bind_some]
  change (decodeOption decodeByteVec (_ ++ encodeVec (layer1Codec ml).encode _)).bind _ = _
  rw [hpath]
  simp only [Option.bind_some]
  change (decodeVec (layer1Codec ml).decode _).bind _ = _
  rw [hdecoded, Option.bind_some, hvec]
  rfl

end MultiLayerProof

-- merkle_light over hashes with a wire format of their own.
def MerkleLight.ofCodec [DecidableEq H] (node : H → H → H) (empty : H) (codec : Codec H) :
    MerkleLight H :=
  let proof := Codec.prod codec.list Codec.bool.list
  { Merkle.Reference.library node with
    provesBareLeaf := false
    empty := empty
    tree := (Codec.prod codec.list codec.option).map (fun (leaves, root) => ⟨leaves, root⟩)
      (fun tree => (tree.leaves, tree.root)) fun _ => rfl
    proofIntoBytes := fun path => proof.encode (path.lemmas, path.path)
    proofFromBytes := fun bytes =>
      (proof.decode bytes).map fun ((lemmas, path), _) => ⟨lemmas, path⟩
    proof_round_trip := fun path => by
      have h := proof.decode_append (path.lemmas, path.path) []
      rw [List.append_nil] at h
      simp [h] }

end Yeeroot
