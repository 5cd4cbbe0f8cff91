import Mathlib.Algebra.Ring.Nat

namespace Yeeroot.Merkle

variable {H : Type} (node : H → H → H)

-- One level up. An odd last node is paired with itself.
def level : List H → List H
  | [] => []
  | [x] => [node x x]
  | x :: y :: rest => node x y :: level rest

-- Levels are built while more than one node is left.
def reduce : Nat → List H → List H
  | 0, nodes => nodes
  | fuel + 1, nodes => if nodes.length ≤ 1 then nodes else reduce fuel (level node nodes)

-- A level halves the nodes, so their number is enough fuel.
def rootOf (leaves : List H) : Option H := (reduce node leaves.length leaves).head?

-- A tree as its users see it: the leaves it lists and the root it states. A tree that was
-- decoded rather than built may state any root, or have no nodes at all.
structure Tree (H : Type) where
  leaves : List H
  root : Option H
  deriving DecidableEq

def Tree.contains [DecidableEq H] (tree : Tree H) (item : H) : Bool := tree.leaves.contains item

-- The path of one leaf: the leaf, its siblings from the bottom up and the root,
-- with `true` where the running hash is the left operand.
structure Proof (H : Type) where
  lemmas : List H
  path : List Bool
  deriving DecidableEq

def Proof.root (proof : Proof H) : Option H := proof.lemmas.getLast?

def Proof.item (proof : Proof H) : Option H := proof.lemmas.head?

def fold : H → List H → List Bool → Option H
  | running, [], _ => some running
  | _, _ :: _, [] => none
  | running, sibling :: siblings, left :: path =>
    fold (if left then node running sibling else node sibling running) siblings path

-- The sides of a leaf of a full tree, from the bottom up.
def directions : Nat → Nat → List Bool
  | 0, _ => []
  | height + 1, index => decide (index % 2 = 0) :: directions height (index / 2)

-- A hash that no node has.
def Atom (item : H) : Prop := ∀ x y, item ≠ node x y

-- What is used of a Merkle tree library, with what it documents: a tree is built level by
-- level, the path of a leaf leads to the root, and a path is valid if it does. `none` stands
-- for an index out of range.
structure Library (H : Type) where
  node : H → H → H
  build : List H → Option (Tree H)
  genProof : Tree H → Nat → Option (Proof H)
  validate : Proof H → Option Bool
  build_eq : ∀ leaves, build leaves = (rootOf node leaves).map fun root => ⟨leaves, some root⟩
  genProof_isSome : ∀ {leaves : List H} {index : Nat} {root : H}, index < leaves.length →
    ∃ item lemmas path, genProof ⟨leaves, some root⟩ index =
      some ⟨item :: lemmas ++ [root], path⟩
  genProof_full : ∀ {leaves : List H} {height index : Nat} {item root : H},
    leaves.length = 2 ^ height → leaves[index]? = some item → rootOf node leaves = some root →
    ∃ lemmas, genProof ⟨leaves, some root⟩ index =
        some ⟨item :: lemmas ++ [root], directions height index⟩ ∧
      lemmas.length = height ∧ fold node item lemmas (directions height index) = some root
  validate_isSome_iff : ∀ proof, (validate proof).isSome ↔
    proof.lemmas.length ≤ proof.path.length + 2
  validate_eq_true_iff : ∀ (item : H) (siblings : List H) (root : H) (path : List Bool),
    validate ⟨item :: siblings ++ [root], path⟩ = some true ↔
      fold node item siblings path = some root

end Yeeroot.Merkle
