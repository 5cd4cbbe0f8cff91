import Yeeroot.Miner.Theorems
import Yeeroot.Verifier.Relay

namespace Yeeroot.Verifier

open Scale Miner

-- `VProtocol::get_proof_by_shard_num`; `proof` is what the chain has stored for the block.
def getProofByShardNum {H : Type} (ml : MerkleLight H) (proof : Option Bytes) (shardNum : UInt16) :
    Run (Option Bytes) :=
  match proof.bind (MultiLayerProof.fromBytes ml) with
  | none => .ok none
  | some tree => do
    let part ← tree.genProof ml shardNum
    return part.map fun part => part.encode ml

section Part

variable {H : Type} (ml : MerkleLight H)

-- The wire format of a path of at most 17 hashes fits in a vector.
def ShortPaths : Prop :=
  ∀ path : Merkle.Proof H, path.lemmas.length ≤ 17 → path.path.length ≤ 15 →
    (ml.proofIntoBytes path).length < 2 ^ 32

-- What the author of a block stores: the tree of layer 2 over all trees of layer 1.
def authoredProof (shardCount : UInt16) (sent : UInt16 → List H) (root : H) : MultiLayerProof H :=
  let layer1 := layer1Merkles ml shardCount sent
  ⟨some ⟨layer2Leaves ml layer1, some root⟩, none, layer1⟩

-- What a shard is given of it: the path of its leaf and its own tree.
def shardProof (path : Merkle.Proof H) (shard : UInt16) (sent : List H) : MultiLayerProof H :=
  ⟨none, some (ml.proofIntoBytes path), [(shard, ml.build sent)]⟩

theorem getElem?_layer1Merkles {shardCount shard : UInt16} (sent : UInt16 → List H)
    (h : shard < shardCount) :
    (layer1Merkles ml shardCount sent)[shard.toNat]? =
      some (shard, ml.build (sent shard)) := by
  rw [layer1Merkles, List.getElem?_map, List.getElem?_range (UInt16.lt_iff_toNat_lt.mp h)]
  simp

theorem length_layer1Merkles (shardCount : UInt16) (sent : UInt16 → List H) :
    (layer1Merkles ml shardCount sent).length = shardCount.toNat := by
  rw [layer1Merkles, List.length_map, List.length_range]

theorem fromBytes_authoredProof (shardCount : UInt16) (sent : UInt16 → List H) (root : H) :
    MultiLayerProof.fromBytes ml ((authoredProof ml shardCount sent root).encode ml) =
      some (authoredProof ml shardCount sent root) := by
  apply MultiLayerProof.fromBytes_encode
  · have hcount := shardCount.toNat_lt
    simp only [authoredProof, length_layer1Merkles]
    omega
  · intro bytes hbytes
    simp [authoredProof] at hbytes

theorem genProof_authoredProof {shardCount shard : UInt16} {sent : UInt16 → List H} {root : H}
    {k : Nat} (hpow : shardCount.toNat = 2 ^ k)
    (hroot : Merkle.rootOf ml.node (layer2Leaves ml (layer1Merkles ml shardCount sent)) = some root)
    (hshard : shard < shardCount) (hbare : shardCount ≠ 1 ∨ ml.provesBareLeaf = true) :
    ∃ item lemmas path, (authoredProof ml shardCount sent root).genProof ml shard =
        .ok (some (shardProof ml ⟨item :: lemmas ++ [root], path⟩ shard (sent shard))) ∧
      lemmas.length = k ∧ path.length = k ∧
      Merkle.fold ml.node item lemmas path = some root := by
  have hlength := length_layer2Leaves ml shardCount sent
  obtain ⟨lemmas, hpath, hlemmas, hfold⟩ := ml.genProof_full (hlength.trans hpow)
    (getElem?_layer2Leaves ml sent hshard) hroot
  refine ⟨_, lemmas, _, ?_, hlemmas, Merkle.length_directions k shard.toNat, hfold⟩
  refine MultiLayerProof.genProof_eq ml
    ((length_layer1Merkles ml shardCount sent).trans hlength.symm)
    (getElem?_layer1Merkles ml sent hshard) hpath (hbare.imp_left fun hne => ?_) none
  have hpos : k ≠ 0 := by
    rintro rfl
    exact hne (UInt16.toNat_inj.mp hpow)
  simp only [List.length_append, List.length_cons, List.length_nil, hlemmas]
  omega

theorem fromBytes_shardProof {path : Merkle.Proof H}
    (hpath : (ml.proofIntoBytes path).length < 2 ^ 32) (shard : UInt16) (sent : List H) :
    MultiLayerProof.fromBytes ml ((shardProof ml path shard sent).encode ml) =
      some (shardProof ml path shard sent) := by
  apply MultiLayerProof.fromBytes_encode
  · simp [shardProof]
  · intro bytes hbytes
    obtain rfl := Option.some.inj hbytes
    exact hpath

variable [DecidableEq H]

theorem checkRelayMerkleProof_shardProof {path : Merkle.Proof H} {root : H}
    (hroot : path.root = some root) (hvalid : ml.validate path = some true)
    (hfits : (ml.proofIntoBytes path).length < 2 ^ 32) (shard : UInt16) (sent : List H) :
    checkRelayMerkleProof ml (some ((shardProof ml path shard sent).encode ml)) root =
      .ok (.ok ()) := by
  simp only [checkRelayMerkleProof, fromBytes_shardProof ml hfits]
  simp [shardProof, MultiLayerProof.layer2Root, validatesLayer2, ml.proof_round_trip, hroot, hvalid,
    Run.expect, bind, Except.bind, pure, Except.pure]

theorem contains_shardProof (path : Merkle.Proof H) (shard other : UInt16) (sent : List H)
    (hash : H) :
    (shardProof ml path shard sent).contains other hash = true ↔ other = shard ∧ hash ∈ sent := by
  have htree : (shardProof ml path shard sent).shardTree other =
      if shard = other then ml.build sent else none := by
    simp only [shardProof, MultiLayerProof.shardTree, List.findSome?_cons, List.findSome?_nil]
    split <;> simp_all
  rw [MultiLayerProof.contains_eq_true, htree]
  by_cases hsame : shard = other
  · subst hsame
    simp only [if_true, true_and]
    exact Merkle.exists_mem_build ml.toLibrary sent hash
  · have hother : ¬ other = shard := fun heq => hsame heq.symm
    simp [hsame, hother]

end Part

section Authored

variable (args : SubstrateArgs) (blake2 : Bytes → H256) (ml : MerkleLight H256)
variable {shardNum shardCount : UInt16}

-- Extrinsic `i` succeeded and is a signed transfer to this other shard.
def SentTo (shardNum shardCount : UInt16) (body : List OpaqueExtrinsic) (results : List Bool)
    (shard : UInt16) (hash : H256) : Prop :=
  ∃ (i : Nat) (tx : OpaqueExtrinsic), body[i]? = some tx ∧ results[i]? = some true ∧
    minerShard args shardNum shardCount tx = some shard ∧ blake2 tx.encode = hash

theorem noteRelays_returns (shardNum shardCount : UInt16) {body : List OpaqueExtrinsic}
    {results : List Bool} (hlength : body.length ≤ results.length) (shards : ExtrinsicShard H256) :
    ∃ noted, noteRelays args blake2 shardNum shardCount body results shards = .ok noted := by
  induction body generalizing results shards with
  | nil => exact ⟨shards, rfl⟩
  | cons tx body ih =>
    obtain ⟨success, results, rfl⟩ : ∃ success rest, results = success :: rest := by
      cases results with
      | nil => simp at hlength
      | cons success rest => exact ⟨success, rest, rfl⟩
    have htail : body.length ≤ results.length := by simpa using hlength
    simp only [noteRelays, List.tail_cons]
    cases minerShard args shardNum shardCount tx with
    | none => exact ih htail shards
    | some num => exact ih htail _

theorem genExtrinsicProof_eq {header : Header} {body : List OpaqueExtrinsic} {results : List Bool}
    {noted : ExtrinsicShard H256} {root : H256}
    (hinfo : header.shardInfo = some (shardNum, shardCount))
    (hnoted : noteRelays args blake2 shardNum shardCount body results (fun _ => []) = .ok noted)
    (hroot : Merkle.rootOf ml.node (layer2Leaves ml (layer1Merkles ml shardCount noted)) =
      some root) :
    genExtrinsicProof args blake2 ml header body results =
      .ok (root, (authoredProof ml shardCount noted root).encode ml) := by
  have hbuild : ml.build (layer2Leaves ml (layer1Merkles ml shardCount noted)) =
      some ⟨layer2Leaves ml (layer1Merkles ml shardCount noted), some root⟩ := by
    rw [ml.build_eq, hroot, Option.map_some]
  simp only [genExtrinsicProof, hinfo, Run.bind_eq_ok, Run.expect_eq_ok, Run.pure_eq_ok,
    Option.some.injEq]
  refine ⟨_, rfl, noted, hnoted, root, (layer2Root_eq_ok ml shardCount noted root).mpr hroot, ?_⟩
  rw [hbuild]
  rfl

-- The author's proof, taken apart for every shard: each part decodes, passes the check
-- against the root and lists exactly what was sent to its shard.
theorem authored_proof_serves_shards (hshort : ShortPaths ml) {header : Header}
    {body : List OpaqueExtrinsic} {results : List Bool}
    (hinfo : header.shardInfo = some (shardNum, shardCount))
    (hpow : ∃ k, shardCount.toNat = 2 ^ k) (hlength : results.length = body.length)
    (hbare : shardCount ≠ 1 ∨ ml.provesBareLeaf = true) :
    ∃ root bytes total, genExtrinsicProof args blake2 ml header body results = .ok (root, bytes) ∧
      MultiLayerProof.fromBytes ml bytes = some total ∧
      ∀ shard < shardCount, ∃ part, total.genProof ml shard = .ok (some part) ∧
        getProofByShardNum ml (some bytes) shard = .ok (some (part.encode ml)) ∧
        MultiLayerProof.fromBytes ml (part.encode ml) = some part ∧
        checkRelayMerkleProof ml (some (part.encode ml)) root = .ok (.ok ()) ∧
        ∀ hash, (part.contains shard hash = true ↔
            SentTo args blake2 shardNum shardCount body results shard hash) ∧
          ∀ other, other ≠ shard → part.contains other hash = false := by
  obtain ⟨k, hpow⟩ := hpow
  obtain ⟨noted, hnoted⟩ := noteRelays_returns args blake2 shardNum shardCount hlength.ge
    (fun _ => [])
  have hleaves : layer2Leaves ml (layer1Merkles ml shardCount noted) ≠ [] := by
    intro hnil
    have hcount := length_layer2Leaves ml shardCount noted
    rw [hnil, List.length_nil, hpow] at hcount
    have hpos := Nat.two_pow_pos k
    omega
  obtain ⟨root, hroot⟩ := Merkle.rootOf_isSome ml.node _ hleaves
  have htotal := fromBytes_authoredProof ml shardCount noted root
  refine ⟨root, _, _, genExtrinsicProof_eq args blake2 ml hinfo hnoted hroot, htotal, ?_⟩
  intro shard hshard
  obtain ⟨item, lemmas, path, hpart, hlemmas, hpath, hfold⟩ :=
    genProof_authoredProof ml hpow hroot hshard hbare
  have hk : k < 16 := by
    have hlt := shardCount.toNat_lt
    rw [hpow] at hlt
    exact (Nat.pow_lt_pow_iff_right (by decide)).mp hlt
  have hfits := hshort ⟨item :: lemmas ++ [root], path⟩ (by simp; omega)
    (show path.length ≤ 15 by omega)
  have hvalid := (ml.validate_eq_true_iff item lemmas root path).mpr hfold
  have hend : Merkle.Proof.root ⟨item :: lemmas ++ [root], path⟩ = some root := by
    simp [Merkle.Proof.root, List.getLast?_cons]
  refine ⟨_, hpart, ?_, fromBytes_shardProof ml hfits shard _,
    checkRelayMerkleProof_shardProof ml hend hvalid hfits shard _, fun hash => ⟨?_, ?_⟩⟩
  · simp only [getProofByShardNum, Option.bind_some, htotal, hpart, bind, Except.bind]
    rfl
  · rw [contains_shardProof, mem_noteRelays hnoted]
    simp [SentTo]
  · intro other hne
    rw [← Bool.not_eq_true, contains_shardProof]
    exact fun h => hne h.1

end Authored

theorem shortPaths_halfMerkleLight : ShortPaths halfMerkleLight := by
  intro path hlemmas hpath
  have hhashes := (Codec.fixed 32).length_encodeList (fun item => item.property) path.lemmas
  have hsides := Codec.bool.length_encodeList (n := 1) (fun _ => rfl) path.path
  have hbytes : (halfMerkleLight.proofIntoBytes path).length =
      ((Codec.fixed 32).encodeList path.lemmas).length +
        (Codec.bool.encodeList path.path).length := List.length_append
  rw [hbytes, hhashes, hsides]
  omega

-- One coin transfer from shard 1 of 2 to shard 0.
theorem authored_proof_serves_two :
    ∃ root bytes total, genExtrinsicProof plainSubstrate.args plainSubstrate.blake2 halfMerkleLight
        ⟨zero256, 1, [.shardingInfo 1 2]⟩ [plainTransfer.toOpaque] [true] = .ok (root, bytes) ∧
      MultiLayerProof.fromBytes halfMerkleLight bytes = some total ∧
      ∃ part, total.genProof halfMerkleLight 0 = .ok (some part) ∧
        checkRelayMerkleProof halfMerkleLight (some (part.encode halfMerkleLight)) root =
          .ok (.ok ()) ∧
        part.contains 0 (plainSubstrate.blake2 plainTransfer.toOpaque.encode) = true ∧
        part.contains 1 (plainSubstrate.blake2 plainTransfer.toOpaque.encode) = false := by
  have hinfo : (Header.mk zero256 1 [.shardingInfo 1 2]).shardInfo = some (1, 2) := by
    decide +kernel
  have hlength : [true].length = [plainTransfer.toOpaque].length := rfl
  obtain ⟨root, bytes, total, hauthored, htotal, hparts⟩ := authored_proof_serves_shards
    plainSubstrate.args plainSubstrate.blake2 halfMerkleLight shortPaths_halfMerkleLight hinfo
    ⟨1, rfl⟩ hlength (.inl (by decide))
  obtain ⟨part, hpart, _, _, hchecked, hcontains⟩ := hparts 0 (by decide)
  obtain ⟨hsent, hothers⟩ := hcontains (plainSubstrate.blake2 plainTransfer.toOpaque.encode)
  refine ⟨root, bytes, total, hauthored, htotal, part, hpart, hchecked, hsent.mpr ?_,
    hothers 1 (by decide)⟩
  exact ⟨0, plainTransfer.toOpaque, rfl, rfl, by decide +kernel, rfl⟩

end Yeeroot.Verifier
