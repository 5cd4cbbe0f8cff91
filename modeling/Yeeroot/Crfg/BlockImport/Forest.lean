import Yeeroot.Crfg.BlockImport.Forced
import Yeeroot.Crfg.Justification.Theorems
import Yeeroot.Scale.Codec

namespace Yeeroot.Crfg

-- Substrate's fork tree as it is: nodes with their children, the roots in a list.
inductive ForkNode where
  | node (hash : H256) (number : UInt64) (change : PendingChange) (children : List ForkNode)

namespace ForkNode

def hash : ForkNode → H256
  | .node hash _ _ _ => hash

def number : ForkNode → UInt64
  | .node _ number _ _ => number

def change : ForkNode → PendingChange
  | .node _ _ change _ => change

def children : ForkNode → List ForkNode
  | .node _ _ _ children => children

end ForkNode

structure Forest where
  roots : List ForkNode
  bestFinalizedNumber : Option UInt64

namespace Forest

def answers (isDescendentOf : IsDescendentOf) (base block : H256) : Bool :=
  match isDescendentOf base block with
  | .ok answer => answer
  | .error _ => false

def answered (answer : Except ClientError Bool) : Except String Bool :=
  answer.mapError fun _ => "Client error"

section Insert

variable (hash : H256) (number : UInt64) (change : PendingChange) (isDescendentOf : IsDescendentOf)

-- `none`: the change does not belong under the node, or under any of the nodes.
mutual
def insertNode : ForkNode → Except String (Option ForkNode)
  | .node base height other children =>
    if base = hash then .error "Hash already exists in Tree"
    else if number ≤ height then .ok none
    else
      match insertAmong children with
      | .error message => .error message
      | .ok (some children') => .ok (some (.node base height other children'))
      | .ok none =>
        (answered (isDescendentOf base hash)).map fun below =>
          if below then
            some (.node base height other (children ++ [.node hash number change []]))
          else none
def insertAmong : List ForkNode → Except String (Option (List ForkNode))
  | [] => .ok none
  | node :: nodes =>
    match insertNode node with
    | .error message => .error message
    | .ok (some node') => .ok (some (node' :: nodes))
    | .ok none => (insertAmong nodes).map (Option.map (node :: ·))
end

end Insert

-- All nodes, each before its children.
mutual
def nodesOf : ForkNode → List ForkNode
  | .node hash number change children =>
    .node hash number change children :: nodesAmong children
def nodesAmong : List ForkNode → List ForkNode
  | [] => []
  | node :: nodes => nodesOf node ++ nodesAmong nodes
end

section Finalize

variable (hash : H256) (number : UInt64) (isDescendentOf : IsDescendentOf)
  (pred : PendingChange → Bool)

def reverts (forest : Forest) : Bool :=
  forest.bestFinalizedNumber.any fun best => decide (number ≤ best)

-- The first node that the predicate lets through and that is the block or before it.
def firstDue : List ForkNode → Except String (Option ForkNode)
  | [] => .ok none
  | node :: nodes =>
    if pred node.change then
      if node.hash = hash then .ok (some node)
      else
        match answered (isDescendentOf node.hash hash) with
        | .error message => .error message
        | .ok true => .ok (some node)
        | .ok false => firstDue nodes
    else firstDue nodes

def unfinalizedAmong : List ForkNode → Except String Bool
  | [] => .ok false
  | node :: nodes =>
    if node.number ≤ number then
      match answered (isDescendentOf node.hash hash) with
      | .error message => .error message
      | .ok true => .ok true
      | .ok false => unfinalizedAmong nodes
    else unfinalizedAmong nodes

-- A root stays if it is above the block, the block itself or before it.
def retains (root : ForkNode) : Bool :=
  (decide (number < root.number) && answers isDescendentOf hash root.hash) ||
    (decide (root.number = number) && decide (root.hash = hash)) ||
    answers isDescendentOf root.hash hash

end Finalize

def importNode (forest : Forest) (hash : H256) (number : UInt64) (change : PendingChange)
    (isDescendentOf : IsDescendentOf) : Except String Forest :=
  if forest.reverts number then
    .error "Tried to import or finalize node that is an ancestor of a previously finalized node"
  else
    (insertAmong hash number change isDescendentOf forest.roots).map fun roots? =>
      { forest with roots := roots?.getD (forest.roots ++ [.node hash number change []]) }

def finalizeWithDescendentIf (forest : Forest) (hash : H256) (number : UInt64)
    (isDescendentOf : IsDescendentOf) (pred : PendingChange → Bool) :
    Except String (FinalizationResult × Forest) :=
  if forest.reverts number then
    .error "Tried to import or finalize node that is an ancestor of a previously finalized node"
  else do
    match ← firstDue hash isDescendentOf pred forest.roots with
    | some due =>
      if ← unfinalizedAmong hash number isDescendentOf due.children then
        .error "Finalized descendent of Tree node without finalizing its ancestor(s) first"
      else
        return (.changed (some due.change),
          ⟨due.children.filter (retains hash number isDescendentOf), some number⟩)
    | none =>
      let retained := forest.roots.filter (retains hash number isDescendentOf)
      return (if retained.length < forest.roots.length then .changed none else .unchanged,
        ⟨retained, some number⟩)

def finalizesAnyWithDescendentIf (forest : Forest) (hash : H256) (number : UInt64)
    (isDescendentOf : IsDescendentOf) (pred : PendingChange → Bool) :
    Except String (Option Bool) :=
  if forest.reverts number then
    .error "Tried to import or finalize node that is an ancestor of a previously finalized node"
  else do
    match ← firstDue hash isDescendentOf pred (nodesAmong forest.roots) with
    | some due =>
      if ← unfinalizedAmong hash number isDescendentOf due.children then
        .error "Finalized descendent of Tree node without finalizing its ancestor(s) first"
      else
        return some (forest.roots.any fun root => decide (root.hash = due.hash))
    | none => return none

def tree : ChangeTree Forest where
  new := ⟨[], none⟩
  importNode := importNode
  finalizeWithDescendentIf := finalizeWithDescendentIf
  finalizesAnyWithDescendentIf := finalizesAnyWithDescendentIf

variable {Hd : Type} {host : Host Hd}

def Numbered (blocks : BlockTree host) (node : ForkNode) : Prop :=
  node.number = blocks.number node.hash

-- The roots, in a tree where every node has the number of its block.
def view (blocks : BlockTree host) : TreeView Forest where
  valid forest := ∀ node ∈ nodesAmong forest.roots, Numbered blocks node
  nodes forest := forest.roots.map fun root => (root.hash, root.change)

theorem mem_nodesOf {node root : ForkNode} :
    node ∈ nodesOf root ↔ node = root ∨ node ∈ nodesAmong root.children := by
  cases root
  simp [nodesOf, ForkNode.children]

variable {node : ForkNode} {nodes : List ForkNode}

theorem mem_nodesAmong :
    node ∈ nodesAmong nodes ↔ ∃ root ∈ nodes, node ∈ nodesOf root := by
  induction nodes with
  | nil => simp [nodesAmong]
  | cons root nodes ih => simp [nodesAmong, ih]

theorem mem_nodesAmong_self (h : node ∈ nodes) :
    node ∈ nodesAmong nodes :=
  mem_nodesAmong.mpr ⟨node, h, mem_nodesOf.mpr (.inl rfl)⟩

theorem mem_nodesAmong_children {node root : ForkNode} (hroot : root ∈ nodes)
    (h : node ∈ nodesAmong root.children) : node ∈ nodesAmong nodes :=
  mem_nodesAmong.mpr ⟨root, hroot, mem_nodesOf.mpr (.inr h)⟩

theorem nodesAmong_append (nodes others : List ForkNode) :
    nodesAmong (nodes ++ others) = nodesAmong nodes ++ nodesAmong others := by
  induction nodes with
  | nil => rfl
  | cons node nodes ih => simp [nodesAmong, ih]

theorem mem_of_mem_nodesAmong_filter {keep : ForkNode → Bool}
    (h : node ∈ nodesAmong (nodes.filter keep)) :
    node ∈ nodesAmong nodes := by
  obtain ⟨root, hroot, hnode⟩ := mem_nodesAmong.mp h
  exact mem_nodesAmong.mpr ⟨root, (List.mem_filter.mp hroot).1, hnode⟩

section Inserted

variable (hash : H256) (number : UInt64) (change : PendingChange) (isDescendentOf : IsDescendentOf)

-- What an insertion does: a node becomes the last child of one that is before it, but of none
-- of its children.
inductive Inserted : List ForkNode → List ForkNode → Prop where
  | here (before : List ForkNode) {after children : List ForkNode} {base : H256} {height : UInt64}
      {other : PendingChange} (below : isDescendentOf base hash = .ok true)
      (deepest : insertAmong hash number change isDescendentOf children = .ok none) :
      Inserted (before ++ .node base height other children :: after)
        (before ++ .node base height other (children ++ [.node hash number change []]) :: after)
  | within (before : List ForkNode) {after children children' : List ForkNode} {base : H256} {height : UInt64}
      {other : PendingChange} (inserted : Inserted children children') :
      Inserted (before ++ .node base height other children :: after)
        (before ++ .node base height other children' :: after)

variable {hash number change isDescendentOf}

theorem Inserted.cons {nodes nodes' : List ForkNode}
    (h : Inserted hash number change isDescendentOf nodes nodes') (node : ForkNode) :
    Inserted hash number change isDescendentOf (node :: nodes) (node :: nodes') := by
  cases h with
  | here before below deepest => exact .here (node :: before) below deepest
  | within before inserted => exact .within (node :: before) inserted

mutual
theorem inserted_of_insertNode : ∀ {node node' : ForkNode},
    insertNode hash number change isDescendentOf node = .ok (some node') →
    ∀ after, Inserted hash number change isDescendentOf (node :: after) (node' :: after)
  | .node base height other children, node', h, after => by
    rw [insertNode] at h
    split_ifs at h
    · cases h
    · split at h
      · cases h
      · next children' hinsert =>
        obtain rfl := Option.some.inj (Except.ok.inj h)
        exact .within [] (inserted_of_insertAmong hinsert)
      · next hnone =>
        cases hanswer : isDescendentOf base hash with
        | error error =>
          rw [hanswer] at h
          cases h
        | ok below =>
          rw [hanswer] at h
          cases below with
          | false => cases h
          | true =>
            obtain rfl := Option.some.inj (Except.ok.inj h)
            exact .here [] hanswer hnone
theorem inserted_of_insertAmong : ∀ {nodes nodes' : List ForkNode},
    insertAmong hash number change isDescendentOf nodes = .ok (some nodes') →
    Inserted hash number change isDescendentOf nodes nodes'
  | [], nodes', h => by cases h
  | node :: nodes, nodes', h => by
    rw [insertAmong] at h
    split at h
    · cases h
    · next node' hinsert =>
      obtain rfl := Option.some.inj (Except.ok.inj h)
      exact inserted_of_insertNode hinsert nodes
    · cases hrest : insertAmong hash number change isDescendentOf nodes with
      | error message =>
        rw [hrest] at h
        cases h
      | ok rest? =>
        rw [hrest] at h
        cases rest? with
        | none => cases h
        | some rest =>
          obtain rfl := Option.some.inj (Except.ok.inj h)
          exact (inserted_of_insertAmong hrest).cons node
end

theorem forall_nodesAmong_split {P : ForkNode → Prop} {before after children : List ForkNode}
    {base : H256} {height : UInt64} {other : PendingChange} :
    (∀ n ∈ nodesAmong (before ++ .node base height other children :: after), P n) ↔
      (∀ n ∈ nodesAmong before, P n) ∧
        (P (.node base height other children) ∧ ∀ n ∈ nodesAmong children, P n) ∧
        ∀ n ∈ nodesAmong after, P n := by
  rw [nodesAmong_append, nodesAmong, nodesOf]
  simp only [List.forall_mem_append, List.forall_mem_cons]

theorem Inserted.hashes {nodes nodes' : List ForkNode}
    (h : Inserted hash number change isDescendentOf nodes nodes') :
    nodes'.map ForkNode.hash = nodes.map ForkNode.hash := by
  cases h <;> simp [ForkNode.hash]

-- What holds of all nodes holds after an insertion, if it holds of the new leaf and survives
-- at a node that gets this leaf or has it further below.
theorem Inserted.forall_nodes {P : ForkNode → Prop} {nodes nodes' : List ForkNode}
    (h : Inserted hash number change isDescendentOf nodes nodes')
    (hleaf : P (.node hash number change []))
    (hhere : ∀ {base height other children}, P (.node base height other children) →
      (∀ n ∈ nodesAmong children, P n) → isDescendentOf base hash = .ok true →
      insertAmong hash number change isDescendentOf children = .ok none →
      P (.node base height other (children ++ [.node hash number change []])))
    (hwithin : ∀ {base height other children children'},
      children'.map ForkNode.hash = children.map ForkNode.hash →
      P (.node base height other children) → P (.node base height other children'))
    (hnodes : ∀ n ∈ nodesAmong nodes, P n) : ∀ n ∈ nodesAmong nodes', P n := by
  induction h with
  | here before below deepest =>
    obtain ⟨hbefore, ⟨hnode, hchildren⟩, hafter⟩ := forall_nodesAmong_split.mp hnodes
    refine forall_nodesAmong_split.mpr ⟨hbefore,
      ⟨hhere hnode hchildren below deepest, ?_⟩, hafter⟩
    rw [nodesAmong_append, List.forall_mem_append]
    exact ⟨hchildren, by simpa [nodesAmong, nodesOf] using hleaf⟩
  | within before inserted ih =>
    obtain ⟨hbefore, ⟨hnode, hchildren⟩, hafter⟩ := forall_nodesAmong_split.mp hnodes
    exact forall_nodesAmong_split.mpr ⟨hbefore,
      ⟨hwithin inserted.hashes hnode, ih hchildren⟩, hafter⟩

theorem importNode_eq_ok {forest forest' : Forest}
    (h : forest.importNode hash number change isDescendentOf = .ok forest') :
    (insertAmong hash number change isDescendentOf forest.roots = .ok none ∧
      forest'.roots = forest.roots ++ [.node hash number change []]) ∨
    Inserted hash number change isDescendentOf forest.roots forest'.roots := by
  rw [importNode] at h
  split_ifs at h
  cases hinsert : insertAmong hash number change isDescendentOf forest.roots with
  | error message =>
    rw [hinsert] at h
    cases h
  | ok roots? =>
    rw [hinsert] at h
    obtain rfl := Except.ok.inj h
    cases roots? with
    | none => exact .inl ⟨rfl, rfl⟩
    | some roots => exact .inr (inserted_of_insertAmong hinsert)

end Inserted

section Prunes

variable {blocks : BlockTree host} {hash : H256} {isDescendentOf : IsDescendentOf}
  {pred : PendingChange → Bool}

theorem answers_iff {among : Set H256} (htells : Tells blocks among isDescendentOf)
    {base block : H256} (hbase : base ∈ among) (hblock : block ∈ among) :
    answers isDescendentOf base block = true ↔ base ≠ block ∧ blocks.Descends base block := by
  obtain ⟨answer, hanswer, hiff⟩ := htells base hbase block hblock
  rw [answers, hanswer]
  exact hiff

theorem firstDue_eq_some {nodes : List ForkNode} {due : ForkNode}
    (h : firstDue hash isDescendentOf pred nodes = .ok (some due)) :
    due ∈ nodes ∧ pred due.change = true ∧
      (due.hash = hash ∨ isDescendentOf due.hash hash = .ok true) := by
  induction nodes with
  | nil => cases h
  | cons node nodes ih =>
    have hrest : firstDue hash isDescendentOf pred nodes = .ok (some due) →
        due ∈ node :: nodes ∧ pred due.change = true ∧
          (due.hash = hash ∨ isDescendentOf due.hash hash = .ok true) := fun hdue =>
      ⟨List.mem_cons_of_mem _ (ih hdue).1, (ih hdue).2⟩
    rw [firstDue] at h
    split_ifs at h with hpred hsame
    · obtain rfl := Option.some.inj (Except.ok.inj h)
      exact ⟨List.mem_cons_self, hpred, .inl hsame⟩
    · cases hanswer : isDescendentOf node.hash hash with
      | error error =>
        rw [hanswer] at h
        cases h
      | ok answer =>
        rw [hanswer] at h
        cases answer with
        | false => exact hrest h
        | true =>
          obtain rfl := Option.some.inj (Except.ok.inj h)
          exact ⟨List.mem_cons_self, hpred, .inr hanswer⟩
    · exact hrest h

theorem firstDue_eq_none_iff {nodes : List ForkNode} {due? : Option ForkNode}
    (htells : Tells blocks (insert hash {block | ∃ node ∈ nodes, node.hash = block})
      isDescendentOf)
    (h : firstDue hash isDescendentOf pred nodes = .ok due?) :
    due? = none ↔ ∀ node ∈ nodes, pred node.change = true → ¬ blocks.Descends node.hash hash := by
  induction nodes with
  | nil =>
    obtain rfl := Except.ok.inj h
    simp
  | cons node nodes ih =>
    have hmono : Tells blocks (insert hash {block | ∃ node ∈ nodes, node.hash = block})
        isDescendentOf := htells.mono (Set.insert_subset_insert fun block hblock => by
      obtain ⟨other, hother, rfl⟩ := hblock
      exact ⟨other, List.mem_cons_of_mem _ hother, rfl⟩)
    obtain ⟨answer, hanswer, hiff⟩ := htells node.hash (.inr ⟨node, by simp, rfl⟩) hash (.inl rfl)
    rw [List.forall_mem_cons]
    rw [firstDue, hanswer] at h
    by_cases hpred : pred node.change = true
    · rw [if_pos hpred] at h
      by_cases hsame : node.hash = hash
      · rw [if_pos hsame] at h
        obtain rfl := Except.ok.inj h
        simp [hpred, hsame, Ancestry.Descends.refl]
      · rw [if_neg hsame] at h
        cases answer with
        | true =>
          obtain rfl := Except.ok.inj h
          simp [hpred, (hiff.mp rfl).2]
        | false =>
          have hnot : ¬ blocks.Descends node.hash hash := by
            intro hdescends
            exact Bool.false_ne_true (hiff.mpr ⟨hsame, hdescends⟩)
          rw [ih hmono h]
          simp [hnot]
    · rw [if_neg hpred] at h
      rw [ih hmono h]
      simp [hpred]

theorem retains_iff {root : ForkNode} (hnumber : Numbered blocks root)
    (htells : Tells blocks {hash, root.hash} isDescendentOf) :
    retains hash (blocks.number hash) isDescendentOf root = true ↔
      blocks.SameFork root.hash hash := by
  have hroot := answers_iff htells (.inr rfl) (.inl rfl)
  have hhash := answers_iff htells (.inl rfl) (.inr rfl)
  simp only [retains, Bool.or_eq_true, Bool.and_eq_true, decide_eq_true_iff, hroot, hhash]
  constructor
  · rintro ((⟨_, _, hbelow⟩ | ⟨_, hsame⟩) | ⟨_, habove⟩)
    · exact .inr hbelow
    · exact hsame ▸ .inl .refl
    · exact .inl habove
  · intro h
    by_cases hsame : root.hash = hash
    · exact .inl (.inr ⟨by rw [show root.number = _ from hnumber, hsame], hsame⟩)
    · rcases h with habove | hbelow
      · exact .inr ⟨hsame, habove⟩
      · refine .inl (.inl ⟨?_, Ne.symm hsame, hbelow⟩)
        rw [show root.number = _ from hnumber]
        exact blocks.number_lt_of_descends hbelow (Ne.symm hsame)

theorem finalizeWithDescendentIf_eq_ok {forest forest' : Forest} {number : UInt64}
    {result : FinalizationResult}
    (h : forest.finalizeWithDescendentIf hash number isDescendentOf pred = .ok (result, forest')) :
    (∃ due, firstDue hash isDescendentOf pred forest.roots = .ok (some due) ∧
      unfinalizedAmong hash number isDescendentOf due.children = .ok false ∧
      result = .changed (some due.change) ∧
      forest'.roots = due.children.filter (retains hash number isDescendentOf)) ∨
    (firstDue hash isDescendentOf pred forest.roots = .ok none ∧
      (∀ change, result ≠ .changed (some change)) ∧
      (result = .changed none ↔ ∃ root ∈ forest.roots,
        ¬ retains hash number isDescendentOf root = true) ∧
      forest'.roots = forest.roots.filter (retains hash number isDescendentOf)) := by
  rw [finalizeWithDescendentIf] at h
  split_ifs at h
  obtain ⟨due?, hdue, h⟩ := (Run.bind_eq_ok _ _ _).mp h
  cases due? with
  | some due =>
    obtain ⟨unfinalized, hunfinalized, h⟩ := (Run.bind_eq_ok _ _ _).mp h
    cases unfinalized with
    | true => cases h
    | false =>
      obtain ⟨rfl, rfl⟩ := Prod.mk.inj (Except.ok.inj h)
      exact .inl ⟨due, hdue, hunfinalized, rfl, rfl⟩
  | none =>
    obtain ⟨rfl, rfl⟩ := Prod.mk.inj (Except.ok.inj h)
    refine .inr ⟨hdue, ?_, ?_, rfl⟩
    · split_ifs <;> simp
    · rw [← List.length_filter_lt_length_iff_exists]
      split_ifs with hless <;> simp [hless]

theorem prunes (blocks : BlockTree host) : tree.Prunes blocks (view blocks) where
  valid_new := by simp [view, tree, nodesAmong]
  valid_import := by
    intro forest forest' hash change isDescendentOf hvalid himport
    rcases importNode_eq_ok himport with ⟨-, hroots⟩ | hinserted
    · simp only [view, hroots, nodesAmong_append, List.forall_mem_append]
      exact ⟨hvalid, by simp [nodesAmong, nodesOf, Numbered, ForkNode.number, ForkNode.hash]⟩
    · exact hinserted.forall_nodes rfl (fun hnode _ _ _ => hnode) (fun _ hnode => hnode) hvalid
  valid_finalize := by
    intro forest result forest' hash isDescendentOf pred hvalid hfinalize node hnode
    rcases finalizeWithDescendentIf_eq_ok hfinalize with ⟨due, hdue, -, -, hroots⟩ | ⟨-, -, -, hroots⟩
    · rw [hroots] at hnode
      exact hvalid node (mem_nodesAmong_children (firstDue_eq_some hdue).1
        (mem_of_mem_nodesAmong_filter hnode))
    · rw [hroots] at hnode
      exact hvalid node (mem_of_mem_nodesAmong_filter hnode)
  changed_none_iff := by
    intro forest result forest' hash isDescendentOf pred hvalid htells hfinalize
    have hroots : Tells blocks (insert hash {block | ∃ root ∈ forest.roots, root.hash = block})
        isDescendentOf := htells.mono (Set.insert_subset_insert fun block hblock => by
      obtain ⟨root, hroot, rfl⟩ := hblock
      exact ⟨root.change, List.mem_map.mpr ⟨root, hroot, rfl⟩⟩)
    have hretains : ∀ root ∈ forest.roots,
        (retains hash (blocks.number hash) isDescendentOf root = true ↔
          blocks.SameFork root.hash hash) := by
      intro root hroot
      refine retains_iff (hvalid root (mem_nodesAmong_self hroot)) (hroots.mono ?_)
      rintro block (rfl | rfl)
      · exact .inl rfl
      · exact .inr ⟨root, hroot, rfl⟩
    simp only [view, List.mem_map, exists_exists_and_eq_and, forall_exists_index, and_imp,
      forall_apply_eq_imp_iff₂]
    rcases finalizeWithDescendentIf_eq_ok hfinalize with ⟨due, hdue, -, rfl, -⟩ | ⟨hdue, -, hpruned, -⟩
    · have hsome := (firstDue_eq_none_iff hroots hdue).not
      refine iff_of_false (by simp) fun h => ?_
      exact absurd (hsome.mp (by simp)) (not_not.mpr h.1)
    · have hnone := (firstDue_eq_none_iff hroots hdue).mp rfl
      rw [hpruned]
      constructor
      · rintro ⟨root, hroot, hdropped⟩
        exact ⟨hnone, root, hroot, mt (hretains root hroot).mpr hdropped⟩
      · rintro ⟨-, root, hroot, hother⟩
        exact ⟨root, hroot, mt (hretains root hroot).mp hother⟩

end Prunes

end Forest

-- Two forks after the genesis, the first one of three blocks.
namespace TwoForks

def parent (block : H256) : Option H256 :=
  if block = filled 32 1 then some (filled 32 0)
  else if block = filled 32 2 then some (filled 32 0)
  else if block = filled 32 3 then some (filled 32 1)
  else if block = filled 32 4 then some (filled 32 3)
  else none

def height (block : H256) : Nat :=
  if block = filled 32 1 then 1
  else if block = filled 32 2 then 1
  else if block = filled 32 3 then 2
  else if block = filled 32 4 then 3
  else 0

def host : Host H256 where
  headerCodec := .fixed 32
  headerHash block := block
  parentHash block := (parent block).getD (filled 32 0)
  headerNumber block := UInt64.ofNat (height block)
  ed25519Verify signature payload id := decide (signature = signWith id payload)
  headOrder := id

theorem height_le (block : H256) : height block ≤ 3 := by
  unfold height
  split_ifs <;> omega

def blocks : BlockTree host where
  ancestry := {
    parent := parent
    height := height
    height_parent := by
      intro block base h
      unfold parent at h
      split_ifs at h
      all_goals
        subst block
        obtain rfl := Option.some.inj h
        decide }
  genesis := filled 32 0
  header block := block
  height_genesis := by decide
  height_lt block := (Nat.lt_succ_of_le (height_le block)).trans (by decide)
  number_header _ := rfl
  parent_header := by
    intro block base h
    have hparent : parent block = some base := h
    simp [host, hparent]

instance (base block : H256) : Decidable (blocks.Descends base block) :=
  Ancestry.decidableDescends

def isDescendentOf : IsDescendentOf := fun base block =>
  .ok (decide (base ≠ block ∧ blocks.Descends base block))

theorem tells (among : Set H256) : Tells blocks among isDescendentOf := by
  intro base _ block _
  exact ⟨_, rfl, decide_eq_true_iff⟩

def forcedAt (block : UInt8) : PendingChange :=
  ⟨[(filled 32 block, 1)], 1, blocks.number (filled 32 block), filled 32 block, .best 0⟩

def scheduledAt (block : UInt8) : PendingChange :=
  ⟨[(filled 32 block, 1)], 1, blocks.number (filled 32 block), filled 32 block, .finalized⟩

def start : AuthoritySet Forest := .genesis Forest.tree [(filled 32 9, 1)]

end TwoForks

open AuthoritySet TwoForks

-- In a run from a set without forced changes they are kept per fork exactly if none is
-- signalled while another one is pending, and none is lost when a finalization only prunes.
theorem forced_changes_kept_iff {τ Hd : Type} {host : Host Hd} {blocks : BlockTree host}
    {tree : ChangeTree τ} {view : TreeView τ} (prunes : tree.Prunes blocks view)
    {set : AuthoritySet τ} (hvalid : view.valid set.pendingStandardChanges)
    (hnone : set.pendingForcedChanges = []) {events : List SetEvent}
    (hhonest : Along blocks tree (Honest blocks tree view) set events) :
    Along blocks tree (KeepsForks blocks tree) set events ↔
      Along blocks tree (Calm blocks view) set events :=
  along_keepsForks_iff prunes ⟨hvalid, .inl hnone⟩ hhonest

-- Block 1 forces a change for its child, block 3, and gets it.
theorem forced_change_applied_at_child :
    applyForcedChanges Forest.tree (start.after blocks Forest.tree
        (.signal (forcedAt 1) TwoForks.isDescendentOf)) (filled 32 3) 2
        TwoForks.isDescendentOf =
      .ok (.ok (some (0, ⟨[(filled 32 1, 1)], 1, Forest.tree.new, []⟩))) := by
  let events : List SetEvent := [.signal (forcedAt 1) TwoForks.isDescendentOf,
    .best (filled 32 3) TwoForks.isDescendentOf]
  have hhonest : Along blocks Forest.tree
      (Honest blocks Forest.tree (Forest.view blocks)) start events :=
    ⟨rfl, tells _, trivial⟩
  have hkept := (forced_changes_kept_iff (Forest.prunes blocks)
    (Forest.prunes blocks).valid_new rfl hhonest).mpr ⟨rfl, trivial, trivial⟩
  obtain ⟨_, ⟨happlies, _⟩, _⟩ := hkept
  have hdescends : blocks.Descends (filled 32 1) (filled 32 3) := by decide
  obtain ⟨median, hmedian, happlied⟩ := happlies (forcedAt 1)
    (List.mem_singleton.mpr rfl) ⟨by decide, hdescends⟩
  obtain rfl : 0 = median := DelayKind.best.inj hmedian
  exact happlied

-- Blocks 1 and 2 are on different forks. The change of block 2 takes the place of that of
-- block 1, which is then missing at block 3; a second change on the fork of block 1 is taken;
-- and a standard change of block 2 that is only pruned takes that of block 1 with it.
theorem forced_change_of_other_fork_lost :
    ¬ blocks.SameFork (filled 32 1) (filled 32 2) ∧
    blocks.SameFork (filled 32 1) (filled 32 3) ∧
    Due blocks (forcedAt 1) (filled 32 3) ∧
    (∃ one two, start.addPendingChange Forest.tree (forcedAt 1)
        TwoForks.isDescendentOf = .ok one ∧
      one.addPendingChange Forest.tree (forcedAt 2) TwoForks.isDescendentOf = .ok two ∧
      two.pendingForcedChanges = [forcedAt 2] ∧
      two.applyForcedChanges Forest.tree (filled 32 3) 2 TwoForks.isDescendentOf =
        .ok (.ok none) ∧
      ∃ again, one.addPendingChange Forest.tree (forcedAt 3) TwoForks.isDescendentOf =
        .ok again) ∧
    ∃ both pruned, (start.addPendingChange Forest.tree (scheduledAt 2)
        TwoForks.isDescendentOf >>= fun set => set.addPendingChange Forest.tree
          (forcedAt 1) TwoForks.isDescendentOf) = .ok both ∧
      both.pendingForcedChanges = [forcedAt 1] ∧
      both.applyStandardChanges Forest.tree.toForkTree (filled 32 1) 1 TwoForks.isDescendentOf =
        .ok (⟨true, none⟩, pruned) ∧
      pruned.pendingForcedChanges = [] := by
  have hother : ¬ blocks.SameFork (filled 32 1) (filled 32 2) := by
    rw [BlockTree.SameFork]
    decide
  have hdescends : blocks.Descends (filled 32 1) (filled 32 3) := by decide
  exact ⟨hother, .inl hdescends, ⟨by decide, hdescends⟩, ⟨_, _, rfl, rfl, rfl, rfl, _, rfl⟩,
    _, _, rfl, rfl, rfl, rfl⟩

end Yeeroot.Crfg
