import Yeeroot.Grandpa.VoteGraph.Runs

namespace Yeeroot.Grandpa.VoteGraph

variable {H V B : Type} [DecidableEq H] {tree : Ancestry H} {graph : VoteGraph H V}
  {key newBase : H} {entry : Entry H V}

omit [DecidableEq H] in
theorem toNat_foldl_pred (blocks : List H) {number : UInt64} (hle : blocks.length ≤ number.toNat) :
    (blocks.foldl (fun number _ => number - 1) number).toNat = number.toNat - blocks.length := by
  induction blocks generalizing number with
  | nil => rfl
  | cons block blocks ih =>
    rw [List.length_cons] at hle ⊢
    have hone : (1 : UInt64) ≤ number := by
      rw [UInt64.le_iff_toNat_le]
      exact Nat.le_trans (by simp) (Nat.le_trans (Nat.le_add_left 1 _) hle)
    have hpred : (number - 1).toNat = number.toNat - 1 := UInt64.toNat_sub_of_le _ _ hone
    rw [List.foldl_cons, ih (by omega), hpred]
    omega

-- The nodes after the base was moved back over the blocks.
def rebased (graph : VoteGraph H V) (root : Entry H V) (proof : List H) (newBase : H)
    (number : UInt64) : Entries H V :=
  (graph.entries.insert graph.base { root with ancestors := proof }).insert newBase
    ⟨number, [], [graph.base], root.cumulativeVote⟩

section Lookup

variable {root : Entry H V} {proof : List H} {number : UInt64}

theorem lookup_rebased
    (h : (rebased graph root proof newBase number).lookup key = some entry) :
    (key = newBase ∧ entry = ⟨number, [], [graph.base], root.cumulativeVote⟩) ∨
      (key = graph.base ∧ entry = { root with ancestors := proof }) ∨
      (key ≠ newBase ∧ key ≠ graph.base ∧ graph.entries.lookup key = some entry) := by
  by_cases hkey : key = newBase
  · subst hkey
    rw [rebased, AList.lookup_insert] at h
    exact .inl ⟨rfl, (Option.some.inj h).symm⟩
  · rw [rebased, AList.lookup_insert_ne hkey] at h
    by_cases hroot : key = graph.base
    · subst hroot
      rw [AList.lookup_insert] at h
      exact .inr (.inl ⟨rfl, (Option.some.inj h).symm⟩)
    · rw [AList.lookup_insert_ne hroot] at h
      exact .inr (.inr ⟨hkey, hroot, h⟩)

theorem mem_rebased (hbase : graph.base ∈ graph.entries) :
    key ∈ rebased graph root proof newBase number ↔ key = newBase ∨ key ∈ graph.entries := by
  rw [rebased, AList.mem_insert, AList.mem_insert]
  refine or_congr_right (or_iff_right_of_imp ?_)
  rintro rfl
  exact hbase

end Lookup

theorem Shaped.notMem_of_height_lt (h : Shaped tree graph)
    (hlt : tree.height key < tree.height graph.base) : key ∉ graph.entries := fun hkey =>
  absurd (h.descends_base hkey).height_le (Nat.not_le.mpr hlt)

omit [DecidableEq H] in
theorem last_notMem_dropLast {block : H} {proof : List H} (hline : tree.Line (block :: proof))
    (hlast : proof.getLast? = some newBase) : newBase ∉ proof.dropLast := by
  intro hmem
  obtain ⟨i, hi⟩ := List.mem_iff_getElem?.mp hmem
  rw [List.getElem?_dropLast] at hi
  split_ifs at hi with hlt
  have hheight := hline.height_getElem hi
  have hheight' := hline.height_last hlast
  omega

section Shape

variable {root : Entry H V} {proof : List H} {number : UInt64} (h : Shaped tree graph)
  (hroot : graph.entries.lookup graph.base = some root)
  (hline : tree.Line (graph.base :: proof)) (hlast : proof.getLast? = some newBase)

include h hline hlast

theorem Shaped.newBase_notMem : newBase ∉ graph.entries :=
  h.notMem_of_height_lt (hline.height_lt (List.mem_of_getLast? hlast))

theorem Shaped.newBase_ne : newBase ≠ graph.base := fun heq =>
  h.newBase_notMem hline hlast (heq ▸ h.base)

theorem Shaped.links_rebased {prev : H} (hprev : prev ≠ newBase) (next : H) :
    (∃ node, (rebased graph root proof newBase number).lookup next = some node ∧
        node.ancestorNode = some prev) ↔
      ∃ node, graph.entries.lookup next = some node ∧ node.ancestorNode = some prev := by
  constructor
  · rintro ⟨node, hnode, hedge⟩
    rcases lookup_rebased hnode with ⟨-, rfl⟩ | ⟨-, rfl⟩ | ⟨-, -, hnode⟩
    · cases hedge
    · exact absurd (Option.some.inj (hlast.symm.trans hedge)).symm hprev
    · exact ⟨node, hnode, hedge⟩
  · rintro ⟨node, hnode, hedge⟩
    have hnext : next ≠ newBase := by
      rintro rfl
      exact h.newBase_notMem hline hlast (mem_of_lookup hnode)
    have hnext' : next ≠ graph.base := by
      rintro rfl
      rw [Entry.ancestorNode, (h.fitted hnode).root rfl] at hedge
      cases hedge
    refine ⟨node, ?_, hedge⟩
    rw [rebased, AList.lookup_insert_ne hnext, AList.lookup_insert_ne hnext', hnode]

include hroot

theorem Shaped.linked_rebased
    (hentry : (rebased graph root proof newBase number).lookup key = some entry) (next : H) :
    next ∈ entry.descendents ↔
      ∃ node, (rebased graph root proof newBase number).lookup next = some node ∧
        node.ancestorNode = some key := by
  have hne := (h.newBase_ne hline hlast).symm
  rcases lookup_rebased hentry with ⟨rfl, rfl⟩ | ⟨rfl, rfl⟩ | ⟨hkey, -, hentry⟩
  · rw [List.mem_singleton]
    constructor
    · rintro rfl
      refine ⟨{ root with ancestors := proof }, ?_, hlast⟩
      rw [rebased, AList.lookup_insert_ne hne, AList.lookup_insert]
    · rintro ⟨node, hnode, hedge⟩
      rcases lookup_rebased hnode with ⟨-, rfl⟩ | ⟨rfl, -⟩ | ⟨-, -, hnode⟩
      · cases hedge
      · rfl
      · exact absurd (h.prev_mem hnode hedge) (h.newBase_notMem hline hlast)
  · exact (h.linked hroot next).trans (h.links_rebased hline hlast hne next).symm
  · exact (h.linked hentry next).trans (h.links_rebased hline hlast hkey next).symm

theorem Shaped.fitted_rebased (hnumber : number.toNat = tree.height newBase)
    (hentry : (rebased graph root proof newBase number).lookup key = some entry) :
    Fitted tree newBase (· ∈ rebased graph root proof newBase number) key entry := by
  have hmem : ∀ key, key ∈ rebased graph root proof newBase number ↔
      key = newBase ∨ key ∈ graph.entries := fun key => mem_rebased h.base
  rcases lookup_rebased hentry with ⟨rfl, rfl⟩ | ⟨rfl, rfl⟩ | ⟨hkey, hkey', hentry⟩
  · exact ⟨hnumber, List.isChain_singleton _, fun _ => rfl, fun hne => absurd rfl hne, by simp⟩
  · refine ⟨(h.fitted hroot).number, hline, fun heq => absurd heq.symm (h.newBase_ne hline hlast),
      fun _ => ⟨newBase, hlast, (hmem _).mpr (.inl rfl)⟩, fun block hblock hknown => ?_⟩
    rcases (hmem block).mp hknown with rfl | hknown
    · exact last_notMem_dropLast hline hlast hblock
    · exact h.notMem_of_height_lt (hline.height_lt (List.mem_of_mem_dropLast hblock)) hknown
  · have hfitted := h.fitted hentry
    obtain ⟨prev, hedge, hprev⟩ := hfitted.edge hkey'
    refine ⟨hfitted.number, hfitted.line, fun heq => absurd heq hkey,
      fun _ => ⟨prev, hedge, (hmem _).mpr (.inr hprev)⟩, fun block hblock hknown => ?_⟩
    rcases (hmem block).mp hknown with rfl | hknown
    · have hle := ((h.descends_base hprev).trans (hfitted.descends_inner hedge hblock).1).height_le
      exact absurd (hline.height_lt (List.mem_of_getLast? hlast)) (Nat.not_lt.mpr hle)
    · exact hfitted.inner block hblock hknown

theorem Shaped.rebased (hnumber : number.toNat = tree.height newBase) :
    Shaped tree { graph with
      entries := VoteGraph.rebased graph root proof newBase number
      base := newBase
      baseNumber := number } := by
  refine ⟨(mem_rebased h.base).mpr (.inl rfl), h.fitted_rebased hroot hline hlast hnumber, ?_,
    h.linked_rebased hroot hline hlast, ?_⟩
  · intro key entry hentry
    rcases lookup_rebased hentry with ⟨-, rfl⟩ | ⟨-, rfl⟩ | ⟨-, -, hentry⟩
    · exact List.nodup_singleton _
    · exact (h.nodup hroot : root.descendents.Nodup)
    · exact h.nodup hentry
  · intro key entry hentry hempty
    rcases lookup_rebased hentry with ⟨-, rfl⟩ | ⟨rfl, rfl⟩ | ⟨-, -, hentry⟩
    · cases hempty
    · exact h.heads hroot hempty
    · exact h.heads hentry hempty

end Shape

variable {tally : V → Multiset B → Prop} {ballots : Multiset (H × B)}

-- The new base has the votes of the old one: there are none above that.
theorem Represents.support_newBase (h : Represents tree tally ballots graph)
    (habove : tree.Descends newBase graph.base) :
    tree.support ballots newBase = tree.support ballots graph.base := by
  classical
  unfold Ancestry.support
  congr 1
  refine Multiset.filter_congr fun ballot hballot => ?_
  have hbase := h.shaped.descends_base (h.cast ballot hballot)
  exact iff_of_true (habove.trans hbase) hbase

theorem Represents.adjustBase (h : Represents tree tally ballots graph) {proof : List H}
    (hline : tree.Line (graph.base :: proof)) (hlast : proof.getLast? = some newBase) :
    ∃ graph', VoteGraph.adjustBase graph proof = .ok graph' ∧ graph'.base = newBase ∧
      Represents tree tally ballots graph' := by
  obtain ⟨root, hroot⟩ := exists_entry h.shaped.base
  have hheight := hline.height_last hlast
  have hlength : proof.length ≤ graph.baseNumber.toNat := by
    rw [h.baseNumber]
    omega
  have hnumber := toNat_foldl_pred proof hlength
  rw [h.baseNumber] at hnumber
  have hnewNumber : (proof.foldl (fun number _ => number - 1) graph.baseNumber).toNat =
      tree.height newBase := by omega
  have hempty : root.ancestors = [] := (h.shaped.fitted hroot).root rfl
  have habove : tree.Descends newBase graph.base := hline.descends (List.mem_of_getLast? hlast)
  have hshaped := h.shaped.rebased hroot hline hlast hnewNumber
  refine ⟨_, ?_, rfl, hshaped, hnewNumber, ?_, ?_⟩
  · simp only [VoteGraph.adjustBase, hlast, if_neg (Nat.not_lt.mpr hlength), hroot, Run.expect,
      hempty, List.nil_append, bind, Except.bind]
    rfl
  · intro key entry hentry
    rcases lookup_rebased hentry with ⟨rfl, rfl⟩ | ⟨rfl, rfl⟩ | ⟨-, -, hentry⟩
    · rw [h.support_newBase habove]
      exact h.counts _ root hroot
    · exact h.counts _ root hroot
    · exact h.counts key entry hentry
  · intro ballot hballot
    exact (mem_rebased h.shaped.base).mpr (.inr (h.cast ballot hballot))

end Yeeroot.Grandpa.VoteGraph
