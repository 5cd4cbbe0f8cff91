import Yeeroot.Crfg.BlockImport.Forest

namespace Yeeroot.Crfg.Forest

variable {Hd : Type} {host : Host Hd}

section Shape

variable (blocks : BlockTree host)

-- The blocks of sibling nodes are on different forks.
def Apart (nodes : List ForkNode) : Prop :=
  (nodes.map ForkNode.hash).Pairwise fun a b => ¬ blocks.SameFork a b

structure Shaped (node : ForkNode) : Prop where
  number : Numbered blocks node
  below : ∀ child ∈ node.children.map ForkNode.hash,
    node.hash ≠ child ∧ blocks.Descends node.hash child
  apart : Apart blocks node.children

def entries (nodes : List ForkNode) : List (H256 × PendingChange) :=
  (nodesAmong nodes).map fun node => (node.hash, node.change)

def nodesView : TreeView Forest where
  valid forest := (∀ node ∈ nodesAmong forest.roots, Shaped blocks node) ∧ Apart blocks forest.roots
  nodes forest := entries forest.roots

end Shape

variable {blocks : BlockTree host} {hash : H256} {isDescendentOf : IsDescendentOf}
  {pred : PendingChange → Bool} {forest forest' : Forest}

theorem mem_entries {nodes : List ForkNode} {block : H256} {change : PendingChange} :
    (block, change) ∈ entries nodes ↔
      ∃ node ∈ nodesAmong nodes, node.hash = block ∧ node.change = change := by
  simp only [entries, List.mem_map, Prod.mk.injEq]

theorem hash_mem_holds {node : ForkNode} (h : node ∈ nodesAmong forest.roots) :
    node.hash ∈ (nodesView blocks).holds forest :=
  ⟨node.change, mem_entries.mpr ⟨node, h, rfl, rfl⟩⟩

theorem holds_eq (blocks : BlockTree host) (forest : Forest) : (nodesView blocks).holds forest =
    {block | ∃ node ∈ nodesAmong forest.roots, node.hash = block} := by
  ext block
  constructor
  · rintro ⟨change, hchange⟩
    obtain ⟨node, hnode, rfl, -⟩ := mem_entries.mp hchange
    exact ⟨node, hnode, rfl⟩
  · rintro ⟨node, hnode, rfl⟩
    exact hash_mem_holds hnode

theorem Apart.eq_of_sameFork {nodes : List ForkNode} (h : Apart blocks nodes) {a b : ForkNode}
    (ha : a ∈ nodes) (hb : b ∈ nodes) (hsame : blocks.SameFork a.hash b.hash) : a = b := by
  rw [Apart, List.pairwise_map] at h
  have hsymm : Std.Symm fun a b : ForkNode => ¬ blocks.SameFork a.hash b.hash :=
    ⟨fun _ _ hab hba => hab hba.symm⟩
  by_contra hne
  exact h.forall ha hb hne hsame

-- Every node comes after the one above it, and so after its root.
mutual
theorem descends_of_mem_nodesOf : ∀ {root node : ForkNode},
    (∀ n ∈ nodesOf root, Shaped blocks n) → node ∈ nodesOf root →
    blocks.Descends root.hash node.hash
  | .node base height other children, node, hshaped, hnode => by
    rcases mem_nodesOf.mp hnode with rfl | hbelow
    · exact .refl
    · obtain ⟨child, hchild, -, hdescends⟩ := exists_above
        (fun n hn => hshaped n (mem_nodesOf.mpr (.inr hn))) hbelow
      have habove := (hshaped _ (mem_nodesOf.mpr (.inl rfl))).below child.hash
        (List.mem_map_of_mem hchild)
      exact habove.2.trans hdescends
theorem exists_above : ∀ {nodes : List ForkNode} {node : ForkNode},
    (∀ n ∈ nodesAmong nodes, Shaped blocks n) → node ∈ nodesAmong nodes →
    ∃ root ∈ nodes, node ∈ nodesOf root ∧ blocks.Descends root.hash node.hash
  | [], node, _, hnode => by cases hnode
  | root :: nodes, node, hshaped, hnode => by
    rw [nodesAmong, List.forall_mem_append] at hshaped
    rw [nodesAmong, List.mem_append] at hnode
    rcases hnode with hnode | hnode
    · exact ⟨root, List.mem_cons_self, hnode, descends_of_mem_nodesOf hshaped.1 hnode⟩
    · obtain ⟨other, hother, habove⟩ := exists_above hshaped.2 hnode
      exact ⟨other, List.mem_cons_of_mem _ hother, habove⟩
end

section Insert

variable {number : UInt64} {change : PendingChange}

theorem not_descends_of_insertAmong {among : Set H256} (htells : Tells blocks among isDescendentOf)
    (hhash : hash ∈ among) {nodes : List ForkNode}
    (hnodes : ∀ node ∈ nodes, Numbered blocks node ∧ node.hash ∈ among)
    (h : insertAmong hash (blocks.number hash) change isDescendentOf nodes = .ok none) :
    ∀ node ∈ nodes, ¬ blocks.Descends node.hash hash := by
  induction nodes with
  | nil => simp
  | cons node nodes ih =>
    rw [List.forall_mem_cons] at hnodes ⊢
    rw [insertAmong] at h
    split at h
    · cases h
    · cases h
    · next hnone =>
      constructor
      · obtain ⟨base, height, other, children⟩ := node
        intro hdescends
        rw [insertNode] at hnone
        split_ifs at hnone with hsame hlow
        · have hlt := blocks.number_lt_of_descends hdescends hsame
          rw [show height = blocks.number base from hnodes.1.1] at hlow
          exact absurd hlow (UInt64.not_le.mpr hlt)
        · split at hnone
          · cases hnone
          · cases hnone
          · obtain ⟨answer, hanswer, hiff⟩ := htells base hnodes.1.2 hash hhash
            rw [hanswer, hiff.mpr ⟨hsame, hdescends⟩] at hnone
            cases hnone
      · cases hrest : insertAmong hash (blocks.number hash) change isDescendentOf nodes with
        | error message =>
          rw [hrest] at h
          cases h
        | ok rest? =>
          rw [hrest] at h
          cases rest? with
          | some rest => cases h
          | none => exact ih hnodes.2 hrest

theorem entries_append (nodes others : List ForkNode) :
    entries (nodes ++ others) = entries nodes ++ entries others := by
  rw [entries, nodesAmong_append, List.map_append]
  rfl

theorem entries_cons (base : H256) (height : UInt64) (other : PendingChange)
    (children nodes : List ForkNode) :
    entries (.node base height other children :: nodes) =
      (base, other) :: entries children ++ entries nodes := by
  simp [entries, nodesAmong, nodesOf, ForkNode.hash, ForkNode.change]

theorem Inserted.mem_entries {nodes nodes' : List ForkNode}
    (h : Inserted hash number change isDescendentOf nodes nodes') (entry : H256 × PendingChange) :
    entry ∈ entries nodes' ↔ entry = (hash, change) ∨ entry ∈ entries nodes := by
  induction h with
  | here before below deepest =>
    simp only [entries_append, entries_cons, List.mem_append, List.mem_cons]
    simp only [entries, nodesAmong, List.map_nil, List.not_mem_nil]
    tauto
  | within before inserted ih =>
    simp only [entries_append, entries_cons, List.mem_append, List.mem_cons, ih]
    tauto

theorem Apart.concat {nodes : List ForkNode} (h : Apart blocks nodes)
    (hafter : ∀ node ∈ nodes, ¬ blocks.Descends hash node.hash)
    (hbefore : ∀ node ∈ nodes, ¬ blocks.Descends node.hash hash) :
    Apart blocks (nodes ++ [.node hash number change []]) := by
  rw [Apart, List.map_append, List.pairwise_append]
  refine ⟨h, List.pairwise_singleton _ _, ?_⟩
  intro base hbase block hblock
  obtain ⟨node, hnode, rfl⟩ := List.mem_map.mp hbase
  obtain rfl := List.mem_singleton.mp hblock
  exact not_or.mpr ⟨hbefore node hnode, hafter node hnode⟩

theorem Shaped.congr {base : H256} {height : UInt64} {other : PendingChange}
    {children children' : List ForkNode}
    (hsame : children'.map ForkNode.hash = children.map ForkNode.hash)
    (h : Shaped blocks (.node base height other children)) :
    Shaped blocks (.node base height other children') := by
  refine ⟨h.number, ?_, ?_⟩
  · rw [ForkNode.children, hsame]
    exact h.below
  · rw [Apart, ForkNode.children, hsame]
    exact h.apart

theorem imports (hvalid : (nodesView blocks).valid forest)
    (htells : Tells blocks (insert hash ((nodesView blocks).holds forest)) isDescendentOf)
    (hnew : ∀ block ∈ (nodesView blocks).holds forest, ¬ blocks.Descends hash block)
    (himport : forest.importNode hash (blocks.number hash) change isDescendentOf = .ok forest') :
    (nodesView blocks).valid forest' ∧ ∀ node, node ∈ (nodesView blocks).nodes forest' ↔
      node = (hash, change) ∨ node ∈ (nodesView blocks).nodes forest := by
  obtain ⟨hshaped, hapart⟩ := hvalid
  have hleaf : Shaped blocks (.node hash (blocks.number hash) change []) :=
    ⟨rfl, by simp [ForkNode.children], List.Pairwise.nil⟩
  rcases importNode_eq_ok himport with ⟨hnone, hroots⟩ | hinserted
  · have hbefore := not_descends_of_insertAmong htells (.inl rfl) (fun root hroot =>
      ⟨(hshaped root (mem_nodesAmong_self hroot)).number,
        .inr (hash_mem_holds (mem_nodesAmong_self hroot))⟩) hnone
    have hafter : ∀ root ∈ forest.roots, ¬ blocks.Descends hash root.hash := fun root hroot =>
      hnew root.hash (hash_mem_holds (mem_nodesAmong_self hroot))
    simp only [nodesView, hroots, entries_append, nodesAmong_append, List.forall_mem_append]
    refine ⟨⟨⟨hshaped, by simpa [nodesAmong, nodesOf] using hleaf⟩,
      hapart.concat hafter hbefore⟩, ?_⟩
    have hsingle : entries [.node hash (blocks.number hash) change []] = [(hash, change)] := rfl
    intro node
    rw [List.mem_append, hsingle, List.mem_singleton, or_comm]
  · refine ⟨⟨?_, ?_⟩, hinserted.mem_entries⟩
    · -- Besides the shape, every node is one that the client can tell about and not after the
      -- new block, the block itself apart.
      have hall := hinserted.forall_nodes (P := fun node => Shaped blocks node ∧
          (node.hash ∈ insert hash ((nodesView blocks).holds forest)))
        ⟨hleaf, .inl rfl⟩ ?_ ?_ fun node hnode => ⟨hshaped node hnode, .inr (hash_mem_holds hnode)⟩
      · exact fun node hnode => (hall node hnode).1
      · rintro base height other children ⟨hnode, hmem⟩ hchildren hbelow hnone
        have hknown : ∀ child ∈ children, Numbered blocks child ∧
            child.hash ∈ insert hash ((nodesView blocks).holds forest) := fun child hchild =>
          ⟨(hchildren child (mem_nodesAmong_self hchild)).1.number,
            (hchildren child (mem_nodesAmong_self hchild)).2⟩
        have hbefore := not_descends_of_insertAmong htells (.inl rfl) hknown hnone
        have hafter : ∀ child ∈ children, ¬ blocks.Descends hash child.hash := by
          intro child hchild hdescends
          rcases (hknown child hchild).2 with heq | hheld
          · exact hbefore child hchild (heq ▸ .refl)
          · exact hnew child.hash hheld hdescends
        obtain ⟨answer, hanswer, hiff⟩ := htells base hmem hash (.inl rfl)
        obtain rfl := Except.ok.inj (hanswer.symm.trans hbelow)
        refine ⟨⟨hnode.number, ?_, hnode.apart.concat hafter hbefore⟩, hmem⟩
        simp only [ForkNode.children, List.map_append, List.forall_mem_append]
        exact ⟨hnode.below, by simpa [ForkNode.hash] using hiff.mp rfl⟩
      · rintro base height other children children' hsame ⟨hnode, hmem⟩
        exact ⟨hnode.congr hsame, hmem⟩
    · rw [Apart, hinserted.hashes]
      exact hapart

end Insert

section Finalize

variable {result : FinalizationResult}
variable {root node : ForkNode}

section Valid

variable (hvalid : (nodesView blocks).valid forest)

include hvalid

theorem root_of_mem {block : H256} {change : PendingChange}
    (h : (block, change) ∈ (nodesView blocks).nodes forest) :
    ∃ root ∈ forest.roots, ∃ node ∈ nodesOf root, node.hash = block ∧ node.change = change ∧
      blocks.Descends root.hash block := by
  obtain ⟨node, hnode, rfl, rfl⟩ := mem_entries.mp h
  obtain ⟨root, hroot, hmem, hdescends⟩ := exists_above hvalid.1 hnode
  exact ⟨root, hroot, node, hmem, rfl, rfl, hdescends⟩

theorem shaped_children (hroot : root ∈ forest.roots) :
    ∀ n ∈ nodesAmong root.children, Shaped blocks n :=
  fun n hn => hvalid.1 n (mem_nodesAmong_children hroot hn)

theorem child_of_mem (hroot : root ∈ forest.roots) (hnode : node ∈ nodesOf root)
    (hne : node.hash ≠ root.hash) :
    ∃ child ∈ root.children, node ∈ nodesOf child ∧ blocks.Descends child.hash node.hash := by
  rcases mem_nodesOf.mp hnode with rfl | hbelow
  · exact absurd rfl hne
  · exact exists_above (shaped_children hvalid hroot) hbelow

theorem ne_root_of_mem_children (hroot : root ∈ forest.roots)
    (hnode : node ∈ nodesAmong root.children) : node.hash ≠ root.hash := by
  obtain ⟨child, hchild, -, hdescends⟩ := exists_above (shaped_children hvalid hroot) hnode
  obtain ⟨hne, habove⟩ := (hvalid.1 root (mem_nodesAmong_self hroot)).below child.hash
    (List.mem_map_of_mem hchild)
  intro heq
  rw [heq] at hdescends
  exact hne (habove.eq_of_height_le hdescends.height_le)

theorem eq_root_of_hash_eq (hroot : root ∈ forest.roots) (hnode : node ∈ nodesOf root)
    (heq : node.hash = root.hash) : node = root := by
  rcases mem_nodesOf.mp hnode with rfl | hbelow
  · rfl
  · exact absurd heq (ne_root_of_mem_children hvalid hroot hbelow)

theorem mem_entries_children (hroot : root ∈ forest.roots) {entry : H256 × PendingChange}
    (hbelow : blocks.Descends root.hash entry.1) :
    entry ∈ entries root.children ↔
      entry.1 ≠ root.hash ∧ entry ∈ (nodesView blocks).nodes forest := by
  obtain ⟨block, change⟩ := entry
  constructor
  · intro hentry
    obtain ⟨node, hnode, rfl, rfl⟩ := mem_entries.mp hentry
    exact ⟨ne_root_of_mem_children hvalid hroot hnode,
      mem_entries.mpr ⟨node, mem_nodesAmong_children hroot hnode, rfl, rfl⟩⟩
  · rintro ⟨hne, hentry⟩
    obtain ⟨top, htop, node, hnode, rfl, rfl, hpath⟩ := root_of_mem hvalid hentry
    obtain rfl := hvalid.2.eq_of_sameFork htop hroot (hpath.or_descends hbelow)
    rcases mem_nodesOf.mp hnode with rfl | hnode
    · exact absurd rfl hne
    · exact mem_entries.mpr ⟨node, hnode, rfl, rfl⟩

end Valid

theorem descends_of_firstDue {nodes : List ForkNode} {due : ForkNode} {among : Set H256}
    (htells : Tells blocks among isDescendentOf) (hhash : hash ∈ among)
    (hnodes : ∀ node ∈ nodes, node.hash ∈ among)
    (h : firstDue hash isDescendentOf pred nodes = .ok (some due)) :
    due ∈ nodes ∧ pred due.change = true ∧ blocks.Descends due.hash hash := by
  obtain ⟨hmem, hpred, habove⟩ := firstDue_eq_some h
  refine ⟨hmem, hpred, ?_⟩
  rcases habove with heq | htold
  · exact heq ▸ .refl
  · obtain ⟨answer, hanswer, hiff⟩ := htells due.hash (hnodes due hmem) hash hhash
    obtain rfl := Except.ok.inj (hanswer.symm.trans htold)
    exact (hiff.mp rfl).2

theorem eq_of_unfinalizedAmong {among : Set H256} (htells : Tells blocks among isDescendentOf)
    (hhash : hash ∈ among) {nodes : List ForkNode}
    (hnodes : ∀ node ∈ nodes, Numbered blocks node ∧ node.hash ∈ among)
    (h : unfinalizedAmong hash (blocks.number hash) isDescendentOf nodes = .ok false) :
    ∀ node ∈ nodes, blocks.Descends node.hash hash → node.hash = hash := by
  induction nodes with
  | nil => simp
  | cons node nodes ih =>
    rw [List.forall_mem_cons] at hnodes ⊢
    obtain ⟨answer, hanswer, hiff⟩ := htells node.hash hnodes.1.2 hash hhash
    rw [unfinalizedAmong, hanswer, show node.number = _ from hnodes.1.1] at h
    have hrest : unfinalizedAmong hash (blocks.number hash) isDescendentOf nodes = .ok false := by
      split_ifs at h
      · cases answer with
        | true => cases h
        | false => exact h
      · exact h
    refine ⟨fun hdescends => ?_, ih hnodes.2 hrest⟩
    by_contra hne
    rw [if_pos (blocks.number_le_of_descends hdescends), hiff.mpr ⟨hne, hdescends⟩] at h
    cases h

theorem firstDue_isSome
    (htells : Tells blocks (insert hash ((nodesView blocks).holds forest)) isDescendentOf)
    {due? : Option ForkNode} (hdue : firstDue hash isDescendentOf pred forest.roots = .ok due?)
    (hroot : root ∈ forest.roots) (hpred : pred root.change = true)
    (hdescends : blocks.Descends root.hash hash) : due? ≠ none := by
  intro hnone
  refine (firstDue_eq_none_iff (htells.mono (Set.insert_subset_insert ?_)) hdue).mp hnone root
    hroot hpred hdescends
  rintro block ⟨other, hother, rfl⟩
  exact hash_mem_holds (mem_nodesAmong_self hother)

variable (hvalid : (nodesView blocks).valid forest)
  (htells : Tells blocks (insert hash ((nodesView blocks).holds forest)) isDescendentOf)

include hvalid htells

theorem retains_root_iff (hnode : node ∈ nodesAmong forest.roots) :
    retains hash (blocks.number hash) isDescendentOf node = true ↔
      blocks.SameFork node.hash hash := by
  refine retains_iff (hvalid.1 node hnode).number (htells.mono ?_)
  rintro block (rfl | rfl)
  · exact .inl rfl
  · exact .inr (hash_mem_holds hnode)

-- Of nodes none of which is strictly before the block, those after it are kept.
theorem mem_entries_retained {nodes : List ForkNode}
    (hnodes : ∀ node ∈ nodesAmong nodes, node ∈ nodesAmong forest.roots)
    (hafter : ∀ node ∈ nodes, blocks.Descends node.hash hash → blocks.Descends hash node.hash)
    {entry : H256 × PendingChange} :
    entry ∈ entries (nodes.filter (retains hash (blocks.number hash) isDescendentOf)) ↔
      blocks.Descends hash entry.1 ∧ entry ∈ entries nodes := by
  have hshaped : ∀ node ∈ nodesAmong nodes, Shaped blocks node := fun node hnode =>
    hvalid.1 node (hnodes node hnode)
  obtain ⟨block, change⟩ := entry
  constructor
  · intro hentry
    obtain ⟨node, hnode, rfl, rfl⟩ := mem_entries.mp hentry
    obtain ⟨top, hkept, -, hpath⟩ := exists_above
      (fun n hn => hshaped n (mem_of_mem_nodesAmong_filter hn)) hnode
    obtain ⟨htop, hretained⟩ := List.mem_filter.mp hkept
    refine ⟨?_, mem_entries.mpr ⟨node, mem_of_mem_nodesAmong_filter hnode, rfl, rfl⟩⟩
    rcases (retains_root_iff hvalid htells (hnodes top (mem_nodesAmong_self htop))).mp
      hretained with hbefore | hdescends
    · exact (hafter top htop hbefore).trans hpath
    · exact hdescends.trans hpath
  · rintro ⟨hdescends, hentry⟩
    obtain ⟨node, hnode, rfl, rfl⟩ := mem_entries.mp hentry
    obtain ⟨top, htop, hbelow, hpath⟩ := exists_above hshaped hnode
    refine mem_entries.mpr ⟨node, mem_nodesAmong.mpr ⟨top, List.mem_filter.mpr
      ⟨htop, ?_⟩, hbelow⟩, rfl, rfl⟩
    exact (retains_root_iff hvalid htells (hnodes top (mem_nodesAmong_self htop))).mpr
      (hpath.or_descends hdescends)

-- The root that is handed out is the only one before the block, and none of its children is.
theorem finalize_due {due : ForkNode}
    (hdue : firstDue hash isDescendentOf pred forest.roots = .ok (some due))
    (hchecked : unfinalizedAmong hash (blocks.number hash) isDescendentOf due.children =
      .ok false) :
    due ∈ forest.roots ∧ blocks.Descends due.hash hash ∧
      (∀ root ∈ forest.roots, blocks.Descends root.hash hash → root = due) ∧
      ∀ child ∈ due.children, blocks.Descends child.hash hash → child.hash = hash := by
  obtain ⟨hmem, -, hdescends⟩ := descends_of_firstDue htells (.inl rfl)
    (fun root hroot => .inr (hash_mem_holds (mem_nodesAmong_self hroot))) hdue
  refine ⟨hmem, hdescends, fun root hroot habove => ?_, ?_⟩
  · exact hvalid.2.eq_of_sameFork hroot hmem (habove.or_descends hdescends)
  · refine eq_of_unfinalizedAmong htells (.inl rfl) (fun child hchild => ?_) hchecked
    have hheld := mem_nodesAmong_children hmem (mem_nodesAmong_self hchild)
    exact ⟨(hvalid.1 child hheld).number, .inr (hash_mem_holds hheld)⟩

theorem in_order {a b : H256}
    (hpred : ∀ node ∈ (nodesView blocks).nodes forest, blocks.Descends node.1 hash →
      pred node.2 = true)
    (ha : a ∈ (nodesView blocks).holds forest) (hb : b ∈ (nodesView blocks).holds forest)
    (hne : a ≠ b) (hdescendsA : blocks.Descends a hash) (hneA : a ≠ hash)
    (hdescendsB : blocks.Descends b hash) (hneB : b ≠ hash) :
    ∃ message, forest.finalizeWithDescendentIf hash (blocks.number hash) isDescendentOf pred =
      .error message := by
  cases hfinalize : forest.finalizeWithDescendentIf hash (blocks.number hash) isDescendentOf
      pred with
  | error message => exact ⟨message, rfl⟩
  | ok finalized =>
    exfalso
    obtain ⟨result, forest'⟩ := finalized
    rcases finalizeWithDescendentIf_eq_ok hfinalize with
      ⟨due, hdue, hchecked, -, -⟩ | ⟨hdue, -, -, -⟩
    · obtain ⟨hmem, -, hroots, hchildren⟩ := finalize_due hvalid htells hdue hchecked
      -- Both are nodes of the root, and a child of it is before the one that is not the root.
      have hroot : ∀ block ∈ (nodesView blocks).holds forest, blocks.Descends block hash →
          block ≠ hash → block = due.hash := by
        rintro block ⟨change, hblock⟩ hdescends hneBlock
        obtain ⟨root, hroot, node, hnode, rfl, -, habove⟩ := root_of_mem hvalid hblock
        obtain rfl := hroots root hroot (habove.trans hdescends)
        by_contra hneRoot
        obtain ⟨child, hchild, -, hpath⟩ := child_of_mem hvalid hmem hnode hneRoot
        have heq := hchildren child hchild (hpath.trans hdescends)
        rw [heq] at hpath
        exact hneBlock (hdescends.eq_of_height_le hpath.height_le)
      exact hne ((hroot a ha hdescendsA hneA).trans (hroot b hb hdescendsB hneB).symm)
    · obtain ⟨change, ha⟩ := ha
      obtain ⟨root, hroot, -, -, -, -, habove⟩ := root_of_mem hvalid ha
      have hbefore := habove.trans hdescendsA
      have hheld : (root.hash, root.change) ∈ (nodesView blocks).nodes forest :=
        mem_entries.mpr ⟨root, mem_nodesAmong_self hroot, rfl, rfl⟩
      exact firstDue_isSome htells hdue hroot (hpred _ hheld hbefore) hbefore rfl

theorem finalize_first {root : H256} {change : PendingChange}
    (hroot : (root, change) ∈ (nodesView blocks).nodes forest)
    (hdescends : blocks.Descends root hash) (hpred : pred change = true)
    (hfirst : ∀ block ∈ (nodesView blocks).holds forest, blocks.Descends block hash →
      blocks.Descends root block)
    (hfinalize : forest.finalizeWithDescendentIf hash (blocks.number hash) isDescendentOf pred =
      .ok (result, forest')) :
    result = .changed (some change) ∧ ∀ node, node ∈ (nodesView blocks).nodes forest' ↔
      (blocks.Descends hash node.1 ∧ node.1 ≠ root) ∧ node ∈ (nodesView blocks).nodes forest := by
  obtain ⟨top, htop, node, hnode, rfl, rfl, habove⟩ := root_of_mem hvalid hroot
  have hheld := hfirst top.hash (hash_mem_holds (mem_nodesAmong_self htop))
    (habove.trans hdescends)
  obtain rfl := eq_root_of_hash_eq hvalid htop hnode (hheld.eq_of_height_le habove.height_le)
  rcases finalizeWithDescendentIf_eq_ok hfinalize with
    ⟨due, hdue, hchecked, rfl, hroots⟩ | ⟨hdue, -, -, -⟩
  · obtain ⟨hmem, -, honly, hchildren⟩ := finalize_due hvalid htells hdue hchecked
    obtain rfl := honly node htop hdescends
    refine ⟨rfl, fun entry => ?_⟩
    simp only [nodesView, hroots]
    rw [mem_entries_retained hvalid htells (fun n hn => mem_nodesAmong_children hmem hn)
      fun child hchild hbefore => hchildren child hchild hbefore ▸ .refl, and_assoc]
    exact and_congr_right fun hafter =>
      mem_entries_children hvalid hmem (hdescends.trans hafter)
  · exact absurd rfl (firstDue_isSome htells hdue htop hpred hdescends)

theorem finalize_none
    (hnone : ∀ block ∈ (nodesView blocks).holds forest, ¬ blocks.Descends block hash)
    (hfinalize : forest.finalizeWithDescendentIf hash (blocks.number hash) isDescendentOf pred =
      .ok (result, forest')) :
    (∀ change, result ≠ .changed (some change)) ∧
      ∀ node, node ∈ (nodesView blocks).nodes forest' ↔
        blocks.Descends hash node.1 ∧ node ∈ (nodesView blocks).nodes forest := by
  rcases finalizeWithDescendentIf_eq_ok hfinalize with
    ⟨due, hdue, hchecked, -, -⟩ | ⟨-, hresult, -, hroots⟩
  · obtain ⟨hmem, hdescends, -, -⟩ := finalize_due hvalid htells hdue hchecked
    exact absurd hdescends (hnone due.hash (hash_mem_holds (mem_nodesAmong_self hmem)))
  · refine ⟨hresult, fun entry => ?_⟩
    simp only [nodesView, hroots]
    exact mem_entries_retained hvalid htells (fun _ hnode => hnode) fun root hroot hbefore =>
      absurd hbefore (hnone root.hash (hash_mem_holds (mem_nodesAmong_self hroot)))

theorem enacts {base : H256} {answer : Option Bool}
    (hhash : hash ∈ (nodesView blocks).holds forest)
    (hbase : base ∈ (nodesView blocks).holds forest) (hdescends : blocks.Descends base hash)
    (hne : base ≠ hash)
    (hpred : ∀ node ∈ (nodesView blocks).nodes forest, blocks.Descends node.1 hash →
      (pred node.2 = true ↔ node.1 = hash))
    (h : forest.finalizesAnyWithDescendentIf hash (blocks.number hash) isDescendentOf pred =
      .ok answer) : answer = some false := by
  have hpred' : ∀ node ∈ nodesAmong forest.roots, blocks.Descends node.hash hash →
      (pred node.change = true ↔ node.hash = hash) := fun node hnode =>
    hpred (node.hash, node.change) (mem_entries.mpr ⟨node, hnode, rfl, rfl⟩)
  have hnotRoot : forest.roots.any (fun root => decide (root.hash = hash)) = false := by
    rw [List.any_eq_false]
    intro top htop heq
    have heq : top.hash = hash := of_decide_eq_true heq
    obtain ⟨change, hbase⟩ := hbase
    obtain ⟨root, hroot, -, -, -, -, hpath⟩ := root_of_mem hvalid hbase
    obtain rfl := hvalid.2.eq_of_sameFork hroot htop (.inl (heq ▸ hpath.trans hdescends))
    rw [heq] at hpath
    exact hne (hdescends.eq_of_height_le hpath.height_le)
  rw [finalizesAnyWithDescendentIf] at h
  split_ifs at h
  obtain ⟨due?, hdue, h⟩ := (Run.bind_eq_ok _ _ _).mp h
  cases due? with
  | none =>
    obtain ⟨change, hhash⟩ := hhash
    obtain ⟨node, hnode, heq, -⟩ := mem_entries.mp hhash
    have hbefore : blocks.Descends node.hash hash := heq ▸ .refl
    exact absurd hbefore ((firstDue_eq_none_iff (holds_eq blocks forest ▸ htells)
      hdue).mp rfl node hnode ((hpred' node hnode hbefore).mpr heq))
  | some due =>
    obtain ⟨hmem, hpredDue, hbefore⟩ := descends_of_firstDue htells (.inl rfl)
      (fun node hnode => .inr (hash_mem_holds hnode)) hdue
    have heq := (hpred' due hmem hbefore).mp hpredDue
    obtain ⟨unfinalized, -, h⟩ := (Run.bind_eq_ok _ _ _).mp h
    cases unfinalized with
    | true => cases h
    | false =>
      rw [← Except.ok.inj h, heq, hnotRoot]

end Finalize

theorem documented (blocks : BlockTree host) : tree.Documented blocks (nodesView blocks) where
  valid_new := ⟨by simp [tree, nodesAmong], List.Pairwise.nil⟩
  nodes_new := rfl
  imports := imports
  valid_finalize := by
    intro forest result forest' hash isDescendentOf pred hvalid hfinalize
    rcases finalizeWithDescendentIf_eq_ok hfinalize with ⟨due, hdue, -, -, hroots⟩ | ⟨-, -, -, hroots⟩
    · have hmem := (firstDue_eq_some hdue).1
      have hapart := (hvalid.1 due (mem_nodesAmong_self hmem)).apart
      simp only [nodesView, hroots]
      exact ⟨fun n hn => shaped_children hvalid hmem n (mem_of_mem_nodesAmong_filter hn),
        hapart.sublist (List.filter_sublist.map _)⟩
    · simp only [nodesView, hroots]
      exact ⟨fun n hn => hvalid.1 n (mem_of_mem_nodesAmong_filter hn),
        hvalid.2.sublist (List.filter_sublist.map _)⟩
  in_order hvalid htells := in_order hvalid htells
  finalize_first hvalid htells := finalize_first hvalid htells
  finalize_none := finalize_none
  enacts hvalid htells := enacts hvalid htells

end Yeeroot.Crfg.Forest
