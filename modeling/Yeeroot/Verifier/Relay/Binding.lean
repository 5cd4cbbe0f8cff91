import Yeeroot.MultiLayerProof.Lemmas
import Yeeroot.Verifier.Relay

namespace Yeeroot.Verifier

open Scale
open Merkle (pairNode pairNode_injective pairNode_atom)

section Binding

variable {H : Type} [DecidableEq H] (ml : MerkleLight H)

theorem checkRelayMerkleProof_eq_ok {bytes : Bytes} {root : H}
    (h : checkRelayMerkleProof ml (some bytes) root = .ok (.ok ())) :
    ∃ proof path, MultiLayerProof.fromBytes ml bytes = some proof ∧ proof.PathIs ml path ∧
      ml.validate path = some true := by
  unfold checkRelayMerkleProof at h
  cases hproof : MultiLayerProof.fromBytes ml bytes with
  | none => simp [hproof] at h
  | some proof =>
    simp only [hproof, Run.bind_eq_ok] at h
    obtain ⟨layer2Root, -, h⟩ := h
    split_ifs at h
    · simp only [Run.bind_eq_ok, Run.expect_eq_ok] at h
      obtain ⟨stored, hstored, valid, hvalid, h⟩ := h
      cases valid with
      | false => simp [pure, Except.pure] at h
      | true =>
        unfold validatesLayer2 at hvalid
        split at hvalid
        · next path hpath =>
          exact ⟨proof, path, rfl, ⟨stored, hstored, hpath⟩, (Run.expect_eq_ok _ _ _).mp hvalid⟩
        · simp at hvalid
    · simp [pure, Except.pure] at h

-- The path has the form of that of leaf `index` in a full tree with this root.
structure AtLeaf (path : Merkle.Proof H) (height index : Nat) (root : H) : Prop where
  inside : index < 2 ^ height
  length : path.lemmas.length = height + 2
  sides : path.path = Merkle.directions height index
  root : path.root = some root

omit [DecidableEq H] in
theorem AtLeaf.lemmas_eq {path : Merkle.Proof H} {height index : Nat} {root : H}
    (h : AtLeaf path height index root) : ∃ item siblings,
      path = ⟨item :: siblings ++ [root], Merkle.directions height index⟩ ∧
        siblings.length = height := by
  obtain ⟨lemmas, sides⟩ := path
  obtain ⟨item, rest, rfl⟩ := List.exists_cons_of_length_eq_add_one h.length
  have hlength : rest.length = height + 1 := by simpa using h.length
  have hne : rest ≠ [] := List.ne_nil_of_length_eq_add_one hlength
  have hlast : rest.getLast hne = root := by
    have hroot := h.root
    rw [Merkle.Proof.root, List.getLast?_eq_some_getLast (List.cons_ne_nil item rest),
      List.getLast_cons hne] at hroot
    exact Option.some.inj hroot
  refine ⟨item, rest.dropLast, ?_, by rw [List.length_dropLast, hlength]; rfl⟩
  rw [List.cons_append, ← hlast, List.dropLast_append_getLast hne, ← h.sides]

omit [DecidableEq H] in
-- The leaf of a valid path is the one at its place in the tree with the root, whatever the
-- tree is.
theorem AtLeaf.item_eq (hinj : Function.Injective2 ml.node) {path : Merkle.Proof H}
    {layer2 : List H} {height index : Nat} {root : H} (h : AtLeaf path height index root)
    (hlength : layer2.length = 2 ^ height) (hroot : Merkle.rootOf ml.node layer2 = some root)
    (hvalid : ml.validate path = some true) : path.item = layer2[index]? := by
  obtain ⟨item, siblings, rfl, hsiblings⟩ := h.lemmas_eq
  obtain ⟨leaf, hleaf⟩ := Merkle.exists_getElem? (hlength ▸ h.inside)
  obtain ⟨lemmas, -, hlemmas, hfold⟩ := ml.genProof_full hlength hleaf hroot
  have hsame := Merkle.fold_injective hinj (hsiblings.trans hlemmas.symm)
    ((ml.validate_eq_true_iff ..).mp hvalid) hfold
  rw [hleaf, ← hsame.1]
  rfl

-- The check compares nothing with the trees of layer 1. A tree that is listed for the shard
-- of the path is the one under the root exactly if it hashes to the leaf of the path; a proof
-- that lists such trees alone binds every hash in them.
theorem relay_proof_binds_iff (hinj : Function.Injective2 ml.node) {layer2 : List H}
    {height : Nat} {root : H} {bytes : Bytes} (hlength : layer2.length = 2 ^ height)
    (hroot : Merkle.rootOf ml.node layer2 = some root)
    (haccepted : checkRelayMerkleProof ml (some bytes) root = .ok (.ok ())) :
    ∃ proof path, MultiLayerProof.fromBytes ml bytes = some proof ∧ proof.PathIs ml path ∧
      (∀ shard tree, proof.shardTree shard = some tree → AtLeaf path height shard.toNat root →
        (layer2[shard.toNat]? = Merkle.rootOf ml.node tree.leaves ↔
          path.item = Merkle.rootOf ml.node tree.leaves)) ∧
      ((∀ shard tree, proof.shardTree shard = some tree →
          AtLeaf path height shard.toNat root ∧ path.item = Merkle.rootOf ml.node tree.leaves) →
        ∀ shard hash, proof.contains shard hash = true →
          ∃ layer1, layer2[shard.toNat]? = Merkle.rootOf ml.node layer1 ∧ hash ∈ layer1) := by
  obtain ⟨proof, path, hproof, hpath, hvalid⟩ := checkRelayMerkleProof_eq_ok ml haccepted
  have hitem : ∀ {shard : UInt16}, AtLeaf path height shard.toNat root →
      path.item = layer2[shard.toNat]? := fun hat => hat.item_eq ml hinj hlength hroot hvalid
  refine ⟨proof, path, hproof, hpath, ?_, ?_⟩
  · intro shard tree _ hat
    rw [hitem hat]
  · intro hopens shard hash hcontains
    obtain ⟨tree, htree, hmem⟩ := (proof.contains_eq_true shard hash).mp hcontains
    obtain ⟨hat, hleaf⟩ := hopens shard tree htree
    exact ⟨tree.leaves, (hitem hat).symm.trans hleaf, hmem⟩

end Binding

def pairMerkleLight : MerkleLight Nat := .ofCodec pairNode 0 .nat

-- A proof that lists these hashes for one shard of two.
def pairProof (shard : UInt16) (path : Merkle.Proof Nat) (listed : List Nat) :
    MultiLayerProof Nat :=
  ⟨none, some (pairMerkleLight.proofIntoBytes path),
    [(shard, some ⟨listed, Merkle.rootOf pairNode listed⟩)]⟩

theorem fromBytes_pairProof {shard : UInt16} {path : Merkle.Proof Nat} {listed : List Nat}
    (hpath : (pairMerkleLight.proofIntoBytes path).length < 2 ^ 32) :
    MultiLayerProof.fromBytes pairMerkleLight ((pairProof shard path listed).encode pairMerkleLight) =
      some (pairProof shard path listed) := by
  refine MultiLayerProof.fromBytes_encode _ _ (by simp [pairProof]) ?_
  rintro bytes hbytes
  rw [← Option.some.inj hbytes]
  exact hpath

-- The second shard was sent 4, and gets the proof for it.
theorem relay_proof_binds_iff_sent :
    Merkle.rootOf pairNode [0, 4] = some 33 ∧
    checkRelayMerkleProof pairMerkleLight
      (some ((pairProof 1 ⟨[4, 0, 33], [false]⟩ [4]).encode pairMerkleLight)) 33 = .ok (.ok ()) ∧
    ∃ proof, MultiLayerProof.fromBytes pairMerkleLight
        ((pairProof 1 ⟨[4, 0, 33], [false]⟩ [4]).encode pairMerkleLight) = some proof ∧
      proof.contains 1 4 = true ∧
      ∀ shard hash, proof.contains shard hash = true → ∃ layer1,
        [0, 4][shard.toNat]? = Merkle.rootOf pairNode layer1 ∧ hash ∈ layer1 := by
  have hroot : Merkle.rootOf pairNode [0, 4] = some 33 := by decide +kernel
  have haccepted : checkRelayMerkleProof pairMerkleLight
      (some ((pairProof 1 ⟨[4, 0, 33], [false]⟩ [4]).encode pairMerkleLight)) 33 =
        .ok (.ok ()) := by
    decide +kernel
  refine ⟨hroot, haccepted, ?_⟩
  obtain ⟨proof, path, hproof, ⟨stored, hstored, hpath⟩, -, hbinds⟩ := relay_proof_binds_iff
    pairMerkleLight pairNode_injective (show [0, 4].length = 2 ^ 1 from rfl) hroot haccepted
  obtain rfl := Option.some.inj (hproof.symm.trans (fromBytes_pairProof (by decide +kernel)))
  rw [← Option.some.inj hstored, pairMerkleLight.proof_round_trip] at hpath
  obtain rfl := Option.some.inj hpath
  refine ⟨_, hproof, by decide +kernel, hbinds ?_⟩
  intro shard tree htree
  simp only [pairProof, MultiLayerProof.shardTree, List.findSome?_cons, List.findSome?_nil] at htree
  split_ifs at htree with hshard
  obtain rfl := hshard
  obtain rfl := Option.some.inj htree
  exact ⟨⟨by decide, rfl, rfl, rfl⟩, by decide +kernel⟩

-- Nothing was sent, and a proof with the genuine path of layer 2 lists a hash.
theorem forged_layer1_accepted :
    layer2Root pairMerkleLight 2 (fun _ => []) = .ok 1 ∧
    checkRelayMerkleProof pairMerkleLight
      (some ((pairProof 0 ⟨[0, 0, 1], [true]⟩ [4]).encode pairMerkleLight)) 1 = .ok (.ok ()) ∧
    MultiLayerProof.fromBytes pairMerkleLight
      ((pairProof 0 ⟨[0, 0, 1], [true]⟩ [4]).encode pairMerkleLight) =
        some (pairProof 0 ⟨[0, 0, 1], [true]⟩ [4]) ∧
    (pairProof 0 ⟨[0, 0, 1], [true]⟩ [4]).contains 0 4 = true ∧
    ¬ ∃ layer2 layer1 : List Nat, layer2.length = 2 ∧
      Merkle.rootOf pairNode layer2 = some 1 ∧
      layer2[0]? = Merkle.rootOf pairNode layer1 ∧ 4 ∈ layer1 := by
  refine ⟨by decide +kernel, by decide +kernel, fromBytes_pairProof (by decide +kernel),
    by decide +kernel, ?_⟩
  intro h
  obtain ⟨layer2, layer1, hlen, hroot, hlayer1, hmem⟩ := h
  have hlayer2 : layer2 = [0, 0] :=
    Merkle.rootOf_injective pairNode_injective hlen (Merkle.ne_nil_of_rootOf pairNode hroot)
      (hroot.trans (by decide +kernel))
  subst hlayer2
  have hone := Merkle.eq_singleton_of_rootOf pairNode hlayer1.symm (pairNode_atom 0)
  rw [hone] at hmem
  exact absurd hmem (by decide)

end Yeeroot.Verifier
