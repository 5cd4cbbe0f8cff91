import Yeeroot.Merkle
import Mathlib.Data.List.Basic
import Mathlib.Data.Nat.Pairing
import Mathlib.Tactic.Ring

namespace Yeeroot.Merkle

variable {H : Type} (node : H → H → H)
variable {hash : H} {nodes : List H}

theorem length_level (nodes : List H) : (level node nodes).length = (nodes.length + 1) / 2 := by
  induction nodes using level.induct with
  | case1 => simp [level]
  | case2 => simp [level]
  | case3 x y rest ih =>
    simp only [level, List.length_cons, ih]
    omega

theorem length_reduce (fuel : Nat) (nodes : List H) (hfuel : nodes.length ≤ fuel)
    (hne : nodes ≠ []) : (reduce node fuel nodes).length = 1 := by
  induction fuel generalizing nodes with
  | zero => exact absurd (List.eq_nil_of_length_eq_zero (by omega)) hne
  | succ fuel ih =>
    have hpos : 0 < nodes.length := List.length_pos_iff.mpr hne
    have hlen := length_level node nodes
    unfold reduce
    split_ifs with h
    · omega
    · refine ih (level node nodes) (by omega) ?_
      intro hnil
      rw [hnil, List.length_nil] at hlen
      omega

theorem rootOf_isSome (leaves : List H) (hne : leaves ≠ []) : ∃ hash, rootOf node leaves = some hash := by
  have hlen := length_reduce node leaves.length leaves (Nat.le_refl _) hne
  obtain ⟨hash, hr⟩ := List.length_eq_one_iff.mp hlen
  exact ⟨hash, by simp [rootOf, hr]⟩

theorem ne_nil_of_rootOf {leaves : List H} (h : rootOf node leaves = some hash) :
    leaves ≠ [] := by
  rintro rfl
  simp [rootOf, reduce] at h

theorem exists_mem_build (library : Library H) (leaves : List H) (item : H) :
    (∃ tree, library.build leaves = some tree ∧ item ∈ tree.leaves) ↔ item ∈ leaves := by
  rw [library.build_eq]
  constructor
  · intro h
    obtain ⟨tree, hbuild, hmem⟩ := h
    obtain ⟨_, _, rfl⟩ := Option.map_eq_some_iff.mp hbuild
    exact hmem
  · intro hmem
    obtain ⟨hash, hroot⟩ := rootOf_isSome library.node leaves (List.ne_nil_of_mem hmem)
    exact ⟨⟨leaves, some hash⟩, by rw [hroot, Option.map_some], hmem⟩

theorem rootOf_singleton (leaf : H) : rootOf node [leaf] = some leaf := by
  simp [rootOf, reduce]

theorem mem_level (h : hash ∈ level node nodes) :
    ∃ x y, hash = node x y := by
  induction nodes using level.induct with
  | case1 => simp [level] at h
  | case2 x => exact ⟨x, x, by simpa [level] using h⟩
  | case3 x y rest ih =>
    rcases List.mem_cons.mp (by simpa only [level] using h) with rfl | hrest
    · exact ⟨x, y, rfl⟩
    · exact ih hrest

theorem mem_reduce (hnodes : ∀ hash ∈ nodes, ∃ x y, hash = node x y) (fuel : Nat)
    (h : hash ∈ reduce node fuel nodes) : ∃ x y, hash = node x y := by
  induction fuel generalizing nodes with
  | zero => exact hnodes hash h
  | succ fuel ih =>
    unfold reduce at h
    split_ifs at h
    · exact hnodes hash h
    · exact ih (fun _ hmem => mem_level node hmem) h

theorem eq_singleton_of_rootOf {leaves : List H} (h : rootOf node leaves = some hash)
    (hatom : Atom node hash) : leaves = [hash] := by
  match leaves with
  | [] => exact absurd rfl (ne_nil_of_rootOf node h)
  | [leaf] =>
    rw [rootOf_singleton] at h
    rw [Option.some.inj h]
  | x :: y :: rest =>
    have hmem : hash ∈ reduce node (rest.length + 1) (level node (x :: y :: rest)) := by
      have hlong : ¬ (x :: y :: rest).length ≤ 1 := by simp
      rw [rootOf, List.length_cons, reduce, if_neg hlong] at h
      exact List.mem_of_mem_head? h
    obtain ⟨a, b, hnode⟩ := mem_reduce node (fun _ hin => mem_level node hin) _ hmem
    exact absurd hnode (hatom a b)

section CollisionFree

variable {node}

variable (hinj : Function.Injective2 node)
include hinj

theorem level_injective {nodes nodes' : List H} (hlen : nodes.length = nodes'.length)
    (h : level node nodes = level node nodes') : nodes = nodes' := by
  induction nodes using level.induct generalizing nodes' with
  | case1 => exact (List.eq_nil_of_length_eq_zero hlen.symm).symm
  | case2 x =>
    obtain ⟨y, rfl⟩ := List.length_eq_one_iff.mp hlen.symm
    simp only [level, List.cons.injEq, and_true] at h
    rw [(hinj h).1]
  | case3 x y rest ih =>
    match nodes', hlen with
    | x' :: y' :: rest', hlen =>
      simp only [level, List.cons.injEq] at h
      obtain ⟨rfl, rfl⟩ := hinj h.1
      rw [ih (by simpa using hlen) h.2]

theorem reduce_injective (fuel : Nat) {nodes nodes' : List H} (hlen : nodes.length = nodes'.length)
    (h : reduce node fuel nodes = reduce node fuel nodes') : nodes = nodes' := by
  induction fuel generalizing nodes nodes' with
  | zero => exact h
  | succ fuel ih =>
    unfold reduce at h
    rw [← hlen] at h
    split_ifs at h
    · exact h
    · exact level_injective hinj hlen (ih (by rw [length_level, length_level, hlen]) h)

theorem rootOf_injective {leaves leaves' : List H} (hlen : leaves.length = leaves'.length)
    (hne : leaves ≠ []) (h : rootOf node leaves = rootOf node leaves') : leaves = leaves' := by
  have hne' : leaves' ≠ [] := by
    rintro rfl
    exact hne (List.eq_nil_of_length_eq_zero hlen)
  obtain ⟨x, hx⟩ := List.length_eq_one_iff.mp
    (length_reduce node leaves.length leaves (Nat.le_refl _) hne)
  obtain ⟨x', hx'⟩ := List.length_eq_one_iff.mp
    (length_reduce node leaves'.length leaves' (Nat.le_refl _) hne')
  have hxx : x = x' := by simpa [rootOf, hx, hx'] using h
  refine reduce_injective hinj leaves.length hlen ?_
  rw [hx, hlen, hx', hxx]

theorem fold_injective {siblings siblings' : List H} {path : List Bool} {item item' hash : H}
    (hlen : siblings.length = siblings'.length) (h : fold node item siblings path = some hash)
    (h' : fold node item' siblings' path = some hash) : item = item' ∧ siblings = siblings' := by
  induction siblings generalizing siblings' path item item' with
  | nil =>
    obtain rfl := List.eq_nil_of_length_eq_zero hlen.symm
    rw [fold, Option.some.injEq] at h h'
    exact ⟨h.trans h'.symm, rfl⟩
  | cons sibling siblings ih =>
    obtain ⟨sibling', siblings', rfl⟩ := List.exists_cons_of_length_eq_add_one hlen.symm
    cases path with
    | nil => simp [fold] at h
    | cons left path =>
      obtain ⟨hnode, rfl⟩ := ih (by simpa using hlen) h h'
      cases left with
      | true =>
        obtain ⟨rfl, rfl⟩ := hinj hnode
        exact ⟨rfl, rfl⟩
      | false =>
        obtain ⟨rfl, rfl⟩ := hinj hnode
        exact ⟨rfl, rfl⟩

end CollisionFree

theorem fold_isSome_iff (siblings : List H) (path : List Bool) (item : H) :
    (fold node item siblings path).isSome ↔ siblings.length ≤ path.length := by
  induction siblings generalizing path item with
  | nil => simp [fold]
  | cons sibling siblings ih =>
    cases path with
    | nil => simp [fold]
    | cons left path => simp [fold, ih]

theorem fold_isSome (siblings : List H) (path : List Bool) (item : H)
    (h : siblings.length ≤ path.length) : ∃ hash, fold node item siblings path = some hash :=
  Option.isSome_iff_exists.mp ((fold_isSome_iff node siblings path item).mpr h)

theorem Library.validate_eq [DecidableEq H] (library : Library H) (item : H) (siblings : List H)
    (root : H) (path : List Bool) :
    library.validate ⟨item :: siblings ++ [root], path⟩ =
      (fold library.node item siblings path).map fun hash => decide (hash = root) := by
  have hlength : (item :: siblings ++ [root]).length ≤ path.length + 2 ↔
      siblings.length ≤ path.length := by
    simp
  have hsome := library.validate_isSome_iff ⟨item :: siblings ++ [root], path⟩
  rw [hlength, ← fold_isSome_iff library.node siblings path item] at hsome
  have htrue := library.validate_eq_true_iff item siblings root path
  cases hfold : fold library.node item siblings path with
  | none =>
    rw [hfold] at hsome
    exact Option.not_isSome_iff_eq_none.mp fun h => absurd (hsome.mp h) (by simp)
  | some hash =>
    rw [hfold] at hsome htrue
    obtain ⟨valid, hvalid⟩ := Option.isSome_iff_exists.mp (hsome.mpr rfl)
    rw [hvalid] at htrue ⊢
    by_cases hroot : hash = root
    · simpa [hroot] using htrue
    · simpa [hroot] using htrue

theorem exists_getElem? {index : Nat} (h : index < nodes.length) :
    ∃ item, nodes[index]? = some item := ⟨_, List.getElem?_eq_getElem h⟩

@[simp] theorem length_directions (height index : Nat) :
    (directions height index).length = height := by
  induction height generalizing index with
  | zero => rfl
  | succ height ih => rw [directions, List.length_cons, ih]

-- A hash without collisions: the nodes are the odd numbers.
def pairNode (x y : Nat) : Nat := 2 * Nat.pair x y + 1

theorem pairNode_injective : Function.Injective2 pairNode := by
  intro x x' y y' h
  have hpair : Nat.pair x y = Nat.pair x' y' := by
    unfold pairNode at h
    omega
  exact Nat.pair_eq_pair.mp hpair

theorem pairNode_atom (n : Nat) : Atom pairNode (2 * n) := by
  intro x y h
  unfold pairNode at h
  omega

end Yeeroot.Merkle
