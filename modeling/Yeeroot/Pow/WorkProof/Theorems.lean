import Yeeroot.Merkle.Reference
import Mathlib.Data.Countable.Basic
import Mathlib.Data.FinEnum
import Mathlib.Logic.Equiv.List
import Yeeroot.Digest.Lemmas
import Yeeroot.Pow.WorkProof.Lemmas

namespace Yeeroot.Pow

open Scale

variable {H : Type} {build : Build} {hashing : Hashing H}

-- No two inputs have one hash: of the nodes, of the headers, and of a header and a node.
structure Hashing.CollisionFree (hashing : Hashing H) : Prop where
  node : Function.Injective2 hashing.node
  header : Function.Injective hashing.header
  header_ne_node : ∀ header x y, hashing.header header ≠ hashing.node x y

section Compact

theorem parseOriginal_inconsistent (hashing : Hashing H) {cmp : CompactMerkleProof H}
    (h : ¬ (cmp.num < cmp.count ∧ cmp.count.toNat = 2 ^ cmp.proof.length)) :
    ∃ message, parseOriginal hashing cmp = .ok (.error message) := by
  unfold parseOriginal
  by_cases hnum : cmp.count ≤ cmp.num
  · rw [if_pos hnum]
    exact ⟨_, rfl⟩
  have hpos : cmp.count ≠ 0 := by
    intro hzero
    rw [hzero] at hnum
    exact hnum (by simp)
  have hsizes : ¬ cmp.count.toNat = 2 ^ cmp.proof.length :=
    fun hcount => h ⟨UInt16.not_le.mp hnum, hcount⟩
  rw [← size_checks_iff hpos, not_and_or] at hsizes
  rw [if_neg hnum]
  by_cases hcount : Sharding.pow2 (Sharding.log2 cmp.count) = cmp.count
  · have hsize := hsizes.resolve_left (not_not.mpr hcount)
    simp only [hcount, ne_eq, not_true_eq_false, if_false, hsize, not_false_eq_true, if_true]
    exact ⟨_, rfl⟩
  · simp only [ne_eq, hcount, not_false_eq_true, if_true]
    exact ⟨_, rfl⟩

theorem parseOriginal_compact {k : Nat} {num count : UInt16} (hcount : count.toNat = 2 ^ k)
    (hnum : num < count) (item root : H) {lemmas : List H} (hlemmas : lemmas.length = k)
    (hbare : 0 < k ∨ hashing.provesBareLeaf = true) :
    ∃ cmp, OriginalMerkleProof.compact
        ⟨⟨item :: lemmas ++ [root], Merkle.directions k num.toNat⟩, num, count⟩ = .ok cmp ∧
      parseOriginal hashing cmp = .ok (.ok
        ⟨⟨item :: lemmas ++ [root], Merkle.directions k num.toNat⟩, num, count⟩) := by
  refine ⟨_, compact_eq item lemmas root _ num count, parseOriginal_eq_ok.mpr ?_⟩
  subst hlemmas
  exact ⟨hnum, hcount, hbare, by rw [pathOf_eq_directions]⟩

theorem compact_proofs_lossless (hashing : Hashing H) :
    (∀ k ≤ 15, ∀ leaves : List H, leaves.length = 2 ^ k → ∀ num : UInt16, num.toNat < 2 ^ k →
      ∃ tree path, hashing.build leaves = some tree ∧
        hashing.genProof tree num.toNat = some path ∧
        (0 < k → proofNew hashing path.lemmas path.path = .ok path) ∧
        (proofNew hashing path.lemmas path.path = .ok path → ∃ cmp,
          OriginalMerkleProof.compact ⟨path, num, UInt16.ofNat (2 ^ k)⟩ = .ok cmp ∧
          parseOriginal hashing cmp = .ok (.ok ⟨path, num, UInt16.ofNat (2 ^ k)⟩))) ∧
    ∀ cmp : CompactMerkleProof H,
      ¬ (cmp.num < cmp.count ∧ cmp.count.toNat = 2 ^ cmp.proof.length) →
        ∃ message, parseOriginal hashing cmp = .ok (.error message) := by
  refine ⟨?_, fun cmp => parseOriginal_inconsistent hashing⟩
  intro k hk leaves hleaves num hnum
  have hcount := Sharding.toNat_ofNat_two_pow hk
  have hlt : num < UInt16.ofNat (2 ^ k) := by
    rw [UInt16.lt_iff_toNat_lt, hcount]
    exact hnum
  have hne : leaves ≠ [] := by
    apply List.length_pos_iff.mp
    omega
  obtain ⟨root, hroot⟩ := Merkle.rootOf_isSome hashing.node leaves hne
  obtain ⟨item, hitem⟩ := Merkle.exists_getElem? (show num.toNat < leaves.length by omega)
  obtain ⟨lemmas, hpath, hlemmas, _⟩ := hashing.genProof_full hleaves hitem hroot
  have hlong : 2 < (item :: lemmas ++ [root]).length ↔ 0 < k := by
    simp only [List.length_append, List.length_cons, List.length_nil]
    omega
  refine ⟨⟨leaves, some root⟩, _, by rw [hashing.build_eq, hroot, Option.map_some], hpath, ?_, ?_⟩
  · intro hpos
    exact proofNew_eq_ok.mpr ⟨.inl (hlong.mpr hpos), rfl⟩
  · intro hnew
    obtain ⟨hbare, _⟩ := proofNew_eq_ok.mp hnew
    exact parseOriginal_compact hcount hlt item root hlemmas (hbare.imp_left hlong.mp)

end Compact

theorem pathOf_succ_zero (height : Nat) : pathOf (height + 1) 0 = true :: pathOf height 0 := rfl

variable {header header' : BlockHeader H} {sealed sealed' : PowSeal H} {multi multi' : ProofMulti H}

theorem Sealed.length_cases {num count : UInt16}
    (h : Sealed build hashing header sealed multi num count)
    (h' : Sealed build hashing header' sealed' multi' num count)
    (hlt : multi.merkleProof.length < multi'.merkleProof.length) :
    multi'.merkleProof.length = multi.merkleProof.length + 1 ∧
      count.toNat = 2 ^ multi.merkleProof.length := by
  have hpow {length : Nat} (hshort : length < 16) : (UInt16.ofNat (2 ^ length)).toNat = 2 ^ length :=
    UInt16.toNat_ofNat_of_lt' (Nat.pow_lt_pow_right (by decide) hshort)
  have hinj {a b : Nat} (heq : 2 ^ a = 2 ^ b) : a = b := Nat.pow_right_injective (le_refl 2) heq
  have hleaves := (proofShard_eq_ok h.leaves).2
  have hleaves' := (proofShard_eq_ok h'.leaves).2
  rw [← UInt16.toNat_inj, ← UInt16.toNat_inj, hpow h.short] at hleaves
  rw [← UInt16.toNat_inj, ← UInt16.toNat_inj, hpow h'.short] at hleaves'
  have hshort' := h'.short
  rcases hleaves with hcount | hcount
  · have hdouble := toNat_double (by omega) hcount.symm
    rcases hleaves' with hcount' | hcount'
    · exact absurd (hinj (hcount.trans hcount'.symm)) (by omega)
    · exact ⟨hinj (hcount'.trans hdouble), hcount.symm⟩
  · rcases hleaves' with hcount' | hcount'
    · exfalso
      by_cases hlast : multi'.merkleProof.length < 15
      · have := hinj (hcount.trans (toNat_double hlast hcount'.symm))
        omega
      · -- Doubling 2^15 wraps to zero.
        have hlen : multi'.merkleProof.length = 15 := by omega
        rw [UInt16.toNat_mul, ← hcount', hlen] at hcount
        exact absurd hcount (by simp)
    · exact absurd (hinj (hcount.trans hcount'.symm)) (by omega)

theorem Sealed.preHash_eq_of_length_eq (hfree : hashing.CollisionFree) {num count : UInt16}
    (h : Sealed build hashing header sealed multi num count)
    (h' : Sealed build hashing header' sealed' multi' num count)
    (hroot : multi.merkleRoot = multi'.merkleRoot)
    (hlen : multi.merkleProof.length = multi'.merkleProof.length) :
    preHash hashing header sealed = preHash hashing header' sealed' := by
  have hpath := h.path
  rw [hlen, hroot] at hpath
  exact (Merkle.fold_injective hfree.node hlen hpath h'.path).1

-- Index 0 denotes the leftmost leaf at both depths, and a header's hash is no node.
theorem Sealed.length_not_lt_of_zero (hfree : hashing.CollisionFree) {count : UInt16}
    (h : Sealed build hashing header sealed multi 0 count)
    (h' : Sealed build hashing header' sealed' multi' 0 count)
    (hroot : multi.merkleRoot = multi'.merkleRoot) :
    ¬ multi.merkleProof.length < multi'.merkleProof.length := by
  intro hlt
  obtain ⟨hlen, _⟩ := h.length_cases h' hlt
  obtain ⟨sibling, siblings, hproof⟩ := List.exists_cons_of_length_eq_add_one hlen
  have hpath' := h'.path
  rw [hlen, pathOf_succ_zero, hproof, ← hroot, Merkle.fold] at hpath'
  have hsame : multi.merkleProof.length = siblings.length := by
    rw [hproof, List.length_cons] at hlen
    omega
  exact hfree.header_ne_node _ _ _ (Merkle.fold_injective hfree.node hsame h.path hpath').1

-- An index that is not 0 denotes leaves in different subtrees at the two depths: any two
-- hashes can be put there under one root.
theorem exists_common_root (node : H → H → H) (filler : H) (height : Nat) (num : UInt16)
    (hpos : num ≠ 0) (hlt : num.toNat < 2 ^ height) (item item' : H) :
    ∃ siblings siblings' root, siblings.length = height ∧ siblings'.length = height + 1 ∧
      Merkle.fold node item siblings (pathOf height num) = some root ∧
      Merkle.fold node item' siblings' (pathOf (height + 1) num) = some root := by
  induction height generalizing num item item' with
  | zero =>
    refine absurd (UInt16.toNat_inj.mp ?_) hpos
    rw [UInt16.toNat_zero]
    omega
  | succ height ih =>
    by_cases hone : num / 2 = 0
    · -- The last set bit: the shorter path goes right here, the longer one left above.
      have hnum : num.toNat = 1 := by
        have hhalf := congrArg UInt16.toNat hone
        rw [UInt16.toNat_div, UInt16.toNat_zero, show (2 : UInt16).toNat = 2 from rfl] at hhalf
        have hne : num.toNat ≠ 0 := fun hz => hpos (UInt16.toNat_inj.mp hz)
        omega
      obtain rfl : num = 1 := UInt16.toNat_inj.mp hnum
      obtain ⟨root, hroot⟩ := Merkle.fold_isSome node (List.replicate height filler)
        (pathOf height 0) (node (node filler item') item) (by simp)
      refine ⟨node filler item' :: List.replicate height filler,
        filler :: item :: List.replicate height filler, root, by simp, by simp, ?_, ?_⟩
      · exact hroot
      · exact hroot
    · have hhalf : (num / 2).toNat < 2 ^ height := by
        rw [UInt16.toNat_div, show (2 : UInt16).toNat = 2 from rfl]
        rw [pow_succ] at hlt
        omega
      obtain ⟨siblings, siblings', root, hlen, hlen', hfold, hfold'⟩ := ih (num / 2) hone hhalf
        (if num % 2 = 0 then node item filler else node filler item)
        (if num % 2 = 0 then node item' filler else node filler item')
      refine ⟨filler :: siblings, filler :: siblings', root, by simp [hlen], by simp [hlen'],
        ?_, ?_⟩
      · rw [pathOf, Merkle.fold]
        simpa using hfold
      · rw [pathOf, Merkle.fold]
        simpa using hfold'

-- A header of the shard and a seal that any work satisfies.
def plainBlock (filler : H) (number : UInt64) (num count : UInt16) : BlockHeader H :=
  ⟨filler, number, filler, filler, [.shardingInfo num count]⟩

def plainSeal (multi : ProofMulti H) : PowSeal H :=
  ⟨filled 32 0, BitVec.allOnes 256, 0, .multi multi, zero256⟩

def plainExtraData (hashing : Hashing H) : ExtraData :=
  ⟨List.replicate 36 0 ++ (hashing.blake2 (List.replicate 36 0)).val.take 4, by
    simp [(hashing.blake2 _).property]⟩

theorem shardInfo_plainBlock (filler : H) (number : UInt64) (num count : UInt16) :
    (plainBlock filler number num count).shardInfo = some (num, count) := by
  simp [plainBlock, BlockHeader.shardInfo, lastLog, DigestItem.asShardingInfo_shardingInfo]

theorem checkExtraData_plain (hashing : Hashing H) :
    checkExtraData hashing (plainExtraData hashing) = true := by
  simp [checkExtraData, plainExtraData]

theorem preHash_ne (hfree : hashing.CollisionFree) (filler : H) {number number' : UInt64}
    (hne : number ≠ number') (num count : UInt16) (multi multi' : ProofMulti H) :
    preHash hashing (plainBlock filler number num count) (plainSeal multi) ≠
      preHash hashing (plainBlock filler number' num count) (plainSeal multi') := by
  intro h
  have hheader := hfree.header h
  exact hne (congrArg BlockHeader.number hheader)

section Checked

variable [DecidableEq H]

def Passes (build : Build) (hashing : Hashing H) (header : BlockHeader H) (sealed : PowSeal H) :
    Prop :=
  ∃ block, checkWorkProof build hashing header sealed = .ok (.ok block)

-- Two headers of the shard that one proof of work seals are the same up to that proof.
def SealsOnce (build : Build) (hashing : Hashing H) (num count : UInt16) : Prop :=
  ∀ header header' sealed sealed' multi multi',
    header.shardInfo = some (num, count) → header'.shardInfo = some (num, count) →
    sealed.workProof = .multi multi → sealed'.workProof = .multi multi' →
    multi.merkleRoot = multi'.merkleRoot → multi.nonce = multi'.nonce →
    multi.extraData = multi'.extraData →
    Passes build hashing header sealed → Passes build hashing header' sealed' →
    preHash hashing header sealed = preHash hashing header' sealed'

theorem passes_multi_iff {header : BlockHeader H} {sealed : PowSeal H} {multi : ProofMulti H}
    {num count : UInt16} (hinfo : header.shardInfo = some (num, count))
    (hproof : sealed.workProof = .multi multi) :
    Passes build hashing header sealed ↔ Sealed build hashing header sealed multi num count := by
  unfold Passes checkWorkProof
  rw [hproof]
  exact checkMulti_eq_ok hinfo

theorem passes_plain {filler : H} {number : UInt64} {num count : UInt16} {siblings : List H}
    {root : H} (hleaves : proofShard build num count siblings.length =
      .ok (.ok (num, UInt16.ofNat (2 ^ siblings.length))))
    (hshort : siblings.length < 16) (hrange : num.toNat < 2 ^ siblings.length)
    (hne : 0 < siblings.length)
    (hpath : Merkle.fold hashing.node (preHash hashing (plainBlock filler number num count)
      (plainSeal ⟨plainExtraData hashing, root, 0, siblings⟩)) siblings
        (pathOf siblings.length num) = some root) :
    Passes build hashing (plainBlock filler number num count)
      (plainSeal ⟨plainExtraData hashing, root, 0, siblings⟩) := by
  have hsealed : Sealed build hashing (plainBlock filler number num count)
      (plainSeal ⟨plainExtraData hashing, root, 0, siblings⟩)
      ⟨plainExtraData hashing, root, 0, siblings⟩ num count := by
    refine ⟨hleaves, hshort, hrange, .inl hne, hpath, checkExtraData_plain hashing, ?_⟩
    rw [plainSeal, BitVec.le_def, BitVec.toNat_allOnes]
    exact Nat.le_sub_one_of_lt (BitVec.isLt _)
  exact (passes_multi_iff (shardInfo_plainBlock _ _ _ _) rfl).mpr hsealed

-- The proof length of a shard or of its successors is accepted for either, so one work
-- seals two headers of a shard unless its index denotes the same leaf at both depths.
theorem seals_once_iff [Inhabited H] (hfree : hashing.CollisionFree) (num count : UInt16) :
    SealsOnce build hashing num count ↔
      ¬ (0 < num ∧ num < count ∧ ∃ height ≤ 14, count.toNat = 2 ^ height) := by
  constructor
  · intro honce hcase
    obtain ⟨hpos, hlt, height, hheight, hcount⟩ := hcase
    have hpos : num ≠ 0 := fun hzero => by simp [hzero] at hpos
    have hrange : num.toNat < 2 ^ height := by
      rw [← hcount]
      exact UInt16.lt_iff_toNat_lt.mp hlt
    have hroom : height ≠ 0 := by
      rintro rfl
      exact hpos (UInt16.toNat_inj.mp (by rw [UInt16.toNat_zero]; omega))
    let blank : ProofMulti H := ⟨plainExtraData hashing, default, 0, []⟩
    obtain ⟨siblings, siblings', root, hlen, hlen', hfold, hfold'⟩ :=
      exists_common_root hashing.node default height num hpos hrange
        (preHash hashing (plainBlock default 1 num count) (plainSeal blank))
        (preHash hashing (plainBlock default 2 num count) (plainSeal blank))
    have hpass : Passes build hashing (plainBlock default 1 num count)
        (plainSeal ⟨plainExtraData hashing, root, 0, siblings⟩) := by
      refine passes_plain ?_ (by omega) (by rw [hlen]; exact hrange) (by omega) ?_
      · exact proofShard_leaves build num (by omega) (.inl (by rw [hlen, hcount]))
      · rw [hlen]
        exact hfold
    have hpass' : Passes build hashing (plainBlock default 2 num count)
        (plainSeal ⟨plainExtraData hashing, root, 0, siblings'⟩) := by
      refine passes_plain ?_ (by omega) ?_ (by omega) ?_
      · exact proofShard_leaves build num (by omega) (.inr (by rw [hlen', hcount, pow_succ]))
      · rw [hlen', pow_succ]
        omega
      · rw [hlen']
        exact hfold'
    have hsame := honce _ _ _ _ ⟨plainExtraData hashing, root, 0, siblings⟩
      ⟨plainExtraData hashing, root, 0, siblings'⟩ (shardInfo_plainBlock _ _ _ _)
      (shardInfo_plainBlock _ _ _ _) rfl rfl rfl rfl rfl hpass hpass'
    exact preHash_ne hfree default (by decide) num count _ _ hsame
  · intro hcond header header' sealed sealed' multi multi' hinfo hinfo' hproof hproof' hroot _ _
      hpass hpass'
    have h := (passes_multi_iff hinfo hproof).mp hpass
    have h' := (passes_multi_iff hinfo' hproof').mp hpass'
    -- A longer and a shorter proof leave only index 0.
    have hzero {multi multi' : ProofMulti H} {header header' : BlockHeader H}
        {sealed sealed' : PowSeal H} (h : Sealed build hashing header sealed multi num count)
        (h' : Sealed build hashing header' sealed' multi' num count)
        (hroot : multi.merkleRoot = multi'.merkleRoot) :
        ¬ multi.merkleProof.length < multi'.merkleProof.length := by
      intro hlt
      obtain ⟨hlen, hcount⟩ := h.length_cases h' hlt
      have hshort' := h'.short
      by_cases hnum : num = 0
      · subst hnum
        exact h.length_not_lt_of_zero hfree h' hroot hlt
      · refine hcond ⟨UInt16.pos_iff_ne_zero.mpr hnum, ?_, _, ?_, hcount⟩
        · rw [UInt16.lt_iff_toNat_lt, hcount]
          exact h.inRange
        · omega
    have hlen : multi.merkleProof.length = multi'.merkleProof.length :=
      Nat.le_antisymm (Nat.not_lt.mp (hzero h' h hroot.symm)) (Nat.not_lt.mp (hzero h h' hroot))
    exact h.preHash_eq_of_length_eq hfree h' hroot hlen

end Checked

-- A hash without collisions: headers have the even numbers, nodes the odd ones.
instance DigestItem.countable : Countable DigestItem := by
  let code : DigestItem → Nat × Bytes × Bytes
    | .other data => (0, data, [])
    | .authoritiesChange data => (1, data, [])
    | .changesTrieRoot data => (2, data, [])
    | .seal data => (3, data, [])
    | .consensus engine data => (4, engine.val, data)
  have hcode : Function.Injective code := by
    intro item item' h
    cases item <;> cases item' <;> simp_all [code, Subtype.ext_iff]
  exact hcode.countable

instance BlockHeader.countable : Countable (BlockHeader Nat) := by
  let code (header : BlockHeader Nat) :=
    (header.parentHash, header.number, header.stateRoot, header.extrinsicsRoot, header.logs)
  have hcode : Function.Injective code := by
    intro header header' h
    cases header
    cases header'
    simp_all [code]
  exact hcode.countable

noncomputable def headerNumber : BlockHeader Nat → Nat := (exists_injective_nat _).choose

noncomputable def pairHashing : Hashing Nat where
  toLibrary := Merkle.Reference.library Merkle.pairNode
  codec := .nat
  debug := toString
  header header := 2 * headerNumber header
  source root nonce _ := 2 * Nat.pair root nonce.toNat
  target hash := BitVec.ofNat 256 hash
  blake2 _ := zero256
  provesBareLeaf := true

theorem pairHashing_collisionFree : pairHashing.CollisionFree where
  node := Merkle.pairNode_injective
  header header header' h := by
    refine (exists_injective_nat (BlockHeader Nat)).choose_spec ?_
    have hdouble : 2 * headerNumber header = 2 * headerNumber header' := h
    exact Nat.eq_of_mul_eq_mul_left (by decide) hdouble
  header_ne_node header := Merkle.pairNode_atom (headerNumber header)

theorem seals_once_iff_leftmost : pairHashing.CollisionFree ∧ SealsOnce .release pairHashing 0 2 :=
  ⟨pairHashing_collisionFree,
    (seals_once_iff pairHashing_collisionFree 0 2).mpr (by simp)⟩

-- Blocks 1 and 2 of shard 1 of 2 under one root: block 1 is leaf 1 of two, block 2 is
-- leaf 1 of four.
noncomputable def sharedPreHash (number : UInt64) : Nat :=
  preHash pairHashing (plainBlock 0 number 1 2) (plainSeal ⟨plainExtraData pairHashing, 0, 0, []⟩)

noncomputable def sharedSeal (siblings : List Nat) : PowSeal Nat :=
  plainSeal ⟨plainExtraData pairHashing,
    Merkle.pairNode (Merkle.pairNode 0 (sharedPreHash 2)) (sharedPreHash 1), 0, siblings⟩

theorem two_headers_one_work :
    pairHashing.CollisionFree ∧
    (plainBlock 0 1 1 2 : BlockHeader Nat).shardInfo = some (1, 2) ∧
    (plainBlock 0 2 1 2 : BlockHeader Nat).shardInfo = some (1, 2) ∧
    Passes .release pairHashing (plainBlock 0 1 1 2)
      (sharedSeal [Merkle.pairNode 0 (sharedPreHash 2)]) ∧
    Passes .release pairHashing (plainBlock 0 2 1 2) (sharedSeal [0, sharedPreHash 1]) ∧
    preHash pairHashing (plainBlock 0 1 1 2) (sharedSeal [Merkle.pairNode 0 (sharedPreHash 2)]) ≠
      preHash pairHashing (plainBlock 0 2 1 2) (sharedSeal [0, sharedPreHash 1]) := by
  refine ⟨pairHashing_collisionFree, shardInfo_plainBlock _ _ _ _, shardInfo_plainBlock _ _ _ _,
    passes_plain ?_ (by simp) (by simp) (by simp) rfl,
    passes_plain ?_ (by simp) (by simp) (by simp) rfl,
    preHash_ne pairHashing_collisionFree 0 (by decide) 1 2 _ _⟩
  · exact proofShard_leaves .release 1 (by simp) (.inl rfl)
  · exact proofShard_leaves .release 1 (by simp) (.inr rfl)

end Yeeroot.Pow
