import Yeeroot.Merkle.Lemmas

-- A Merkle tree library as the documentation has it.
namespace Yeeroot.Merkle.Reference

variable {H : Type} (node : H → H → H)

-- The siblings of leaf `index` from the bottom up. An odd last node is its own.
def siblings : Nat → Nat → List H → Option (List H × List Bool)
  | 0, _, _ => some ([], [])
  | fuel + 1, index, nodes =>
    if nodes.length ≤ 1 then some ([], [])
    else do
      let sibling ← if index % 2 = 0 then nodes[index + 1]? <|> nodes[index]? else nodes[index - 1]?
      let (lemmas, path) ← siblings fuel (index / 2) (level node nodes)
      return (sibling :: lemmas, decide (index % 2 = 0) :: path)

def genProof (tree : Tree H) (index : Nat) : Option (Proof H) := do
  let item ← tree.leaves[index]?
  let (lemmas, path) ← siblings node tree.leaves.length index tree.leaves
  return ⟨item :: lemmas ++ tree.root.toList, path⟩

def validate [DecidableEq H] (proof : Proof H) : Option Bool :=
  match proof.lemmas with
  | item :: sibling :: rest =>
    (fold node item (sibling :: rest).dropLast proof.path).map fun hash =>
      decide (some hash = proof.root)
  | _ => some false

theorem validate_isSome_iff [DecidableEq H] (proof : Proof H) :
    (validate node proof).isSome ↔ proof.lemmas.length ≤ proof.path.length + 2 := by
  unfold validate
  split
  · next item sibling rest hlemmas =>
      simp [fold_isSome_iff, hlemmas]
  · next hshort =>
      refine iff_of_true rfl ?_
      rcases hlemmas : proof.lemmas with _ | ⟨item, _ | ⟨sibling, rest⟩⟩
      · simp
      · simp
      · exact absurd hlemmas (hshort item sibling rest)

theorem validate_eq [DecidableEq H] (item : H) (siblings : List H) (root : H) (path : List Bool) :
    validate node ⟨item :: siblings ++ [root], path⟩ =
      (fold node item siblings path).map fun hash => decide (hash = root) := by
  have hlast : (siblings ++ [root]).dropLast = siblings := by simp
  cases siblings with
  | nil => simp [validate, Proof.root, fold]
  | cons sibling siblings =>
    rw [validate, Proof.root]
    simp only [List.cons_append] at hlast ⊢
    rw [hlast]
    simp [List.getLast?_cons]

theorem level_getElem? (nodes : List H) (i : Nat) {left right : H}
    (hleft : nodes[2 * i]? = some left) (hright : nodes[2 * i + 1]? = some right) :
    (level node nodes)[i]? = some (node left right) := by
  induction nodes using level.induct generalizing i with
  | case1 => simp at hleft
  | case2 x =>
    have hshort := List.getElem?_eq_some_iff.mp hright
    obtain ⟨hlt, _⟩ := hshort
    simp at hlt
  | case3 x y rest ih =>
    cases i with
    | zero =>
      simp only [Nat.mul_zero, List.getElem?_cons_zero, Option.some.injEq, Nat.zero_add,
        List.getElem?_cons_succ] at hleft hright
      simp [level, hleft, hright]
    | succ i =>
      rw [level, List.getElem?_cons_succ]
      exact ih i (by simpa [Nat.mul_succ] using hleft) (by simpa [Nat.mul_succ] using hright)

theorem siblings_isSome (fuel : Nat) (nodes : List H) {index : Nat} (hindex : index < nodes.length) :
    (siblings node fuel index nodes).isSome := by
  induction fuel generalizing nodes index with
  | zero => rfl
  | succ fuel ih =>
    unfold siblings
    split_ifs with hshort heven
    · rfl
    · obtain ⟨next, hnext⟩ := Option.isSome_iff_exists.mp
        (ih (level node nodes) (show index / 2 < _ by rw [length_level]; omega))
      obtain ⟨self, hself⟩ := exists_getElem? hindex
      cases hright : nodes[index + 1]? <;> simp [hself, hnext]
    · obtain ⟨next, hnext⟩ := Option.isSome_iff_exists.mp
        (ih (level node nodes) (show index / 2 < _ by rw [length_level]; omega))
      obtain ⟨left, hleft⟩ := exists_getElem? (show index - 1 < nodes.length by omega)
      simp [hleft, hnext]

theorem siblings_full {height fuel : Nat} {nodes : List H} {index : Nat} {item : H}
    (hlength : nodes.length = 2 ^ height) (hfuel : height ≤ fuel) (hitem : nodes[index]? = some item) :
    ∃ lemmas, siblings node fuel index nodes = some (lemmas, directions height index) ∧
      lemmas.length = height ∧
      fold node item lemmas (directions height index) = (reduce node fuel nodes).head? := by
  induction height generalizing fuel nodes index item with
  | zero =>
    obtain ⟨only, rfl⟩ := List.length_eq_one_iff.mp hlength
    have hindex : index = 0 := by
      obtain ⟨hlt, _⟩ := List.getElem?_eq_some_iff.mp hitem
      simpa using hlt
    subst hindex
    obtain rfl : only = item := by simpa using hitem
    cases fuel <;> exact ⟨[], by simp [siblings, directions], rfl, by simp [fold, reduce]⟩
  | succ height ih =>
    obtain ⟨fuel, rfl⟩ : ∃ n, fuel = n + 1 := ⟨fuel - 1, by omega⟩
    have hpow : 2 ^ (height + 1) = 2 * 2 ^ height := by ring
    have hpos : 0 < 2 ^ height := Nat.two_pow_pos height
    have hlong : ¬ nodes.length ≤ 1 := by omega
    have hlevel : (level node nodes).length = 2 ^ height := by rw [length_level]; omega
    obtain ⟨hindex, _⟩ := List.getElem?_eq_some_iff.mp hitem
    have hreduce : reduce node (fuel + 1) nodes = reduce node fuel (level node nodes) := by
      rw [reduce, if_neg hlong]
    by_cases heven : index % 2 = 0
    · obtain ⟨sibling, hsibling⟩ := exists_getElem? (show index + 1 < nodes.length by omega)
      have hpair := level_getElem? node nodes (index / 2)
        (by rw [show 2 * (index / 2) = index by omega]; exact hitem)
        (by rw [show 2 * (index / 2) + 1 = index + 1 by omega]; exact hsibling)
      obtain ⟨lemmas, hnext, hlen, hfold⟩ := ih hlevel (Nat.le_of_succ_le_succ hfuel) hpair
      refine ⟨sibling :: lemmas, ?_, by rw [List.length_cons, hlen], ?_⟩
      · rw [siblings, if_neg hlong, if_pos heven, hsibling, hnext, directions]
        rfl
      · rw [directions, fold, hreduce]
        simpa [heven] using hfold
    · obtain ⟨sibling, hsibling⟩ := exists_getElem? (show index - 1 < nodes.length by omega)
      have hpair := level_getElem? node nodes (index / 2)
        (by rw [show 2 * (index / 2) = index - 1 by omega]; exact hsibling)
        (by rw [show 2 * (index / 2) + 1 = index by omega]; exact hitem)
      obtain ⟨lemmas, hnext, hlen, hfold⟩ := ih hlevel (Nat.le_of_succ_le_succ hfuel) hpair
      refine ⟨sibling :: lemmas, ?_, by rw [List.length_cons, hlen], ?_⟩
      · rw [siblings, if_neg hlong, if_neg heven, hsibling]
        simp only [Option.bind_eq_bind, Option.bind_some, hnext]
        rw [directions]
        rfl
      · rw [directions, fold, hreduce]
        simpa [heven] using hfold

def library [DecidableEq H] : Library H where
  node := node
  build leaves := (rootOf node leaves).map fun root => ⟨leaves, some root⟩
  genProof := genProof node
  validate := validate node
  build_eq _ := rfl
  genProof_isSome := by
    intro leaves index root hindex
    obtain ⟨next, hnext⟩ := Option.isSome_iff_exists.mp
      (siblings_isSome node leaves.length leaves hindex)
    refine ⟨leaves.get ⟨index, hindex⟩, next.1, next.2, ?_⟩
    simp [genProof, hindex, hnext]
  genProof_full := by
    intro leaves height index item root hlength hitem hroot
    have hfuel : height ≤ leaves.length := hlength ▸ Nat.le_of_lt Nat.lt_two_pow_self
    obtain ⟨lemmas, hsiblings, hlen, hfold⟩ := siblings_full node hlength hfuel hitem
    refine ⟨lemmas, ?_, hlen, hfold.trans hroot⟩
    simp only [genProof, hitem, hsiblings, Option.bind_eq_bind, Option.bind_some]
    rfl
  validate_isSome_iff := validate_isSome_iff node
  validate_eq_true_iff item siblings root path := by
    rw [validate_eq, Option.map_eq_some_iff]
    simp

end Yeeroot.Merkle.Reference
