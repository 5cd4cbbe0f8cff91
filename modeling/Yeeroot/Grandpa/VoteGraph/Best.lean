import Mathlib.Algebra.Order.BigOperators.Group.List
import Mathlib.Algebra.Order.Ring.Nat
import Yeeroot.Grandpa.VoteGraph.Search

namespace Yeeroot.Grandpa.VoteGraph

variable {H V B : Type} [DecidableEq H] [VoteValue V] {tree : Ancestry H}
  {graph : VoteGraph H V} {ballots : Multiset (H × B)} {tally : V → Multiset B → Prop}
  {condition : V → Run Bool} {enough : Multiset B → Prop} {key current last : H}
  {node : Entry H V} {nodes : List (H × Entry H V)}

section Heaviest

omit [VoteValue V]

theorem Merges.nearest {hashes : List H} {number : UInt64}
    (hmerges : Merges tree graph enough ballots current hashes number last)
    (hbelow : Below tree graph key current nodes) :
    ∀ node ∈ graph.entries, tree.Descends node last → tree.Descends node key := by
  intro node hnode hdescends
  have hlast : tree.Descends current last := by
    rcases List.mem_cons.mp (List.mem_of_getLast? hmerges.ends) with rfl | hmem
    · exact .refl
    · exact hmerges.path.descends hmem
  rcases hdescends.comparable hlast with habove | hafter
  · exact hbelow.nearest node hnode habove
  · rcases List.mem_cons.mp (hmerges.path.mem_of_descends hmerges.ends hafter hdescends) with
      rfl | hmem
    · exact hbelow.nearest _ hnode .refl
    · exact absurd hnode (hmerges.inner node hmem)

theorem Merges.heaviest {hashes : List H} {number : UInt64} (hshaped : Shaped tree graph)
    (hmerges : Merges tree graph enough ballots current hashes number last)
    (hbelow : Below tree graph key current nodes) (hkey : key ∈ graph.entries)
    (hlight : ∀ next entry, graph.entries.lookup next = some entry →
      entry.ancestorNode = some key → tree.Descends last next →
      ¬ enough (tree.support ballots next)) :
    tree.Heaviest enough ballots last := by
  have hnearest := hmerges.nearest hbelow
  have hmem := List.mem_of_getLast? hmerges.ends
  have hlast : tree.Descends key last := by
    rcases List.mem_cons.mp hmem with rfl | hmem
    · exact hbelow.above
    · exact hbelow.above.trans (hmerges.path.descends hmem)
  refine ⟨hmerges.heavy last hmem, fun child hchild hsupport => ?_⟩
  have hstep : tree.Descends last child := .step .refl hchild
  by_cases hnew : child ∈ graph.entries
  · obtain ⟨entry, hentry⟩ := exists_entry hnew
    have hfitted := hshaped.fitted hentry
    have hheight : tree.height key < tree.height child := by
      have hle := hlast.height_le
      have hparent := tree.height_parent hchild
      omega
    have hbase : child ≠ graph.base := by
      rintro rfl
      have hle := (hshaped.descends_base hkey).height_le
      omega
    obtain ⟨prev, hedge, hprev⟩ := hfitted.edge hbase
    have hne : prev ≠ child := by
      rintro rfl
      exact absurd (hfitted.height_prev hedge) (Nat.lt_irrefl _)
    have hbefore : tree.Descends prev key :=
      hnearest prev hprev ((hfitted.descends_prev hedge).of_parent hne hchild)
    have hsame : prev = key :=
      hbefore.antisymm (hfitted.nearest hedge hkey (hlast.trans hstep) (by rintro rfl; omega))
    exact hlight child entry hentry (hsame ▸ hedge) hstep hsupport
  · obtain ⟨only, honly, henough⟩ := hmerges.full child hchild hnew hsupport
    obtain ⟨entry, prev, hentry, hedge, -, hprev, habove, hbelow', -, hlatest⟩ :=
      ((honly only).mpr rfl).edge hshaped
    have hne : prev ≠ child := fun heq => hnew (heq ▸ hprev)
    have hbefore : tree.Descends prev key := hnearest prev hprev (habove.of_parent hne hchild)
    have hsame : prev = key := hbefore.antisymm (hlatest key hkey (hlast.trans hstep))
    exact hlight only entry hentry (hsame ▸ hedge) (hstep.trans hbelow') henough

end Heaviest

section Ghost

omit [DecidableEq H] [VoteValue V] in
theorem length_le_fuel {next : H × Entry H V} (hmem : next ∈ nodes) :
    next.2.ancestors.length ≤ (0 : UInt64).toNat +
      (((nodes.map Prod.snd).map fun node => node.ancestors.length).sum + 1) := by
  have hle := List.le_sum_of_mem (List.mem_map_of_mem (f := fun node => node.ancestors.length)
    (List.mem_map_of_mem (f := Prod.snd) hmem))
  omega

variable (htallies : Tallies tally) (hdecides : Decides condition tally enough)
  (hmono : Monotone enough) (hzero : ¬ enough 0) (h : Represents tree tally ballots graph)

include htallies hdecides hmono hzero h

theorem mergePoints_toward {target : H} (hnode : graph.entries.lookup key = some node)
    (hbelow : Below tree graph key target nodes) (htarget : target ∉ graph.entries)
    (henough : enough (tree.support ballots target)) (htwo : 2 ≤ nodes.length) {fuel : Nat}
    {offset best : UInt64} (habove : tree.Descends key current)
    (hcurrent : tree.Descends current target)
    (hheight : tree.height current = tree.height key + offset.toNat)
    (hbest : best.toNat = tree.height current)
    (hfuel : ∀ next ∈ nodes, next.2.ancestors.length ≤ offset.toNat + fuel) :
    ∃ hashes hashes' number last, mergePoints condition node.number fuel offset best
        (nodes.map Prod.snd) = .ok (hashes, number) ∧
      (current :: hashes).getLast? = some last ∧
      Merges tree graph enough ballots target hashes' number last := by
  induction fuel generalizing current offset best with
  | zero =>
    obtain ⟨⟨next, entry⟩, hmem⟩ := List.exists_mem_of_length_pos (l := nodes) (by omega)
    have hlt := hbelow.height_lt h.shaped hmem
    obtain ⟨hentry, hedge, -⟩ := (hbelow.mem_iff next entry).mp hmem
    have hlast := (h.shaped.fitted hentry).line.height_last hedge
    have hle := hcurrent.height_le
    have hlength := hfuel _ hmem
    simp only at hlength
    omega
  | succ fuel ih =>
    by_cases hsame : current = target
    · subst hsame
      obtain ⟨hashes, number, last, hpoints, hmerges⟩ :=
        mergePoints_eq htallies hdecides hmono hzero h hnode hbelow hheight hbest henough hfuel
      exact ⟨hashes, hashes, number, last, hpoints, hmerges.ends, hmerges⟩
    · obtain ⟨block, hchild, hrest⟩ := hcurrent.exists_child hsame
      have hparent := tree.height_parent hchild
      have hstep : tree.Descends current block := .step .refl hchild
      have hkeyHeight := habove.height_le
      obtain ⟨⟨next, entry⟩, hmem⟩ := List.exists_mem_of_length_pos (l := nodes) (by omega)
      have hbound : tree.height target < 2 ^ 64 := by
        have hlt := hbelow.height_lt h.shaped hmem
        have hnumber := (h.shaped.fitted ((hbelow.mem_iff next entry).mp hmem).1).number
        have hfits := entry.number.toNat_lt
        omega
      have hblockHeight := hrest.height_le
      have hstart := hheight
      rw [← (h.shaped.fitted hnode).number] at hstart
      obtain ⟨hoffset, hnumber, hbestNext⟩ := numbers_succ hstart hbest (by omega)
      rw [← hparent] at hnumber hbestNext
      -- Each of the nodes has the block at this number, and no other one.
      have hheld : ∀ other ∈ nodes,
          other.2.ancestorBlock (node.number + (offset + 1)) = some block := by
        intro other hother
        have hlt := hbelow.height_lt h.shaped hother
        refine (hbelow.ancestorBlock_iff h.shaped hother hnumber (by omega)).mpr
          ⟨habove.trans hstep, hrest.trans ((hbelow.mem_iff _ _).mp hother).2.2, ?_⟩
        intro heq
        rw [heq] at hblockHeight
        omega
      have htogether : together nodes (node.number + (offset + 1)) block = nodes :=
        List.filter_eq_self.mpr fun other hother => decide_eq_true (hheld other hother)
      have htallied : ∀ next ∈ nodes, tally next.2.cumulativeVote
          (tree.support ballots next.1) := fun next hmem =>
        h.counts _ _ ((hbelow.mem_iff _ _).mp hmem).1
      have hempty : Merged tally (tree.support ballots) (node.number + (offset + 1)) []
          (∅ : AList fun _ : H => V) := fun block => .inl ⟨rfl, rfl⟩
      obtain ⟨found, hfound, hsome, hnone⟩ :=
        mergeVotes_eq htallies hdecides hmono htallied hempty
      rw [List.nil_append] at hsome hnone
      cases found with
      | none =>
        have hcounted := hnone rfl block
        rw [htogether, ← hbelow.support_eq h.shaped h.cast (mem_of_lookup hnode) htarget]
          at hcounted
        exact absurd henough (hcounted (List.ne_nil_of_mem hmem) htwo)
      | some found =>
        obtain rfl : found = block := by
          obtain ⟨other, hother⟩ := List.exists_mem_of_ne_nil _ (hsome found rfl).1
          rw [together, List.mem_filter, decide_eq_true_eq] at hother
          exact Option.some.inj (hother.2.symm.trans (hheld other hother.1))
        have hkept := filter_follows nodes found
          (UInt64.toNat_inj.mp (hbestNext.trans hnumber.symm))
        have hfuel' : ∀ other ∈ nodes,
            other.2.ancestors.length ≤ (offset + 1).toNat + fuel := by
          intro other hother
          have hle := hfuel other hother
          omega
        obtain ⟨hashes, hashes', number, last, hpoints, hlast, hmerges⟩ :=
          ih (habove.trans hstep) hrest (by rw [hparent, hheight, hoffset, Nat.add_assoc])
            hbestNext hfuel'
        refine ⟨found :: hashes, hashes', number, last, ?_, ?_, hmerges⟩
        · simp only [mergePoints, hfound, bind, Except.bind, List.filter_map, hkept, htogether,
            hpoints]
          rfl
        · rw [List.getLast?_cons_cons]
          exact hlast

theorem ghostFindMergePoint_eq (hnode : graph.entries.lookup key = some node)
    (henough : enough (tree.support ballots key)) :
    ∃ nodes hashes number last,
      ghostFindMergePoint condition graph key node none = .ok ⟨key :: hashes, number⟩ ∧
      Below tree graph key key nodes ∧ Merges tree graph enough ballots key hashes number last := by
  obtain ⟨nodes, hnodes, hbelow⟩ := h.shaped.descendents_below hnode
    "descendents always present in node storage; qed"
  have hall : (nodes.map Prod.snd).filter (fun node => node.follows none) = nodes.map Prod.snd :=
    List.filter_eq_self.mpr fun _ _ => rfl
  obtain ⟨hashes, number, last, hpoints, hmerges⟩ := mergePoints_eq htallies hdecides hmono hzero h
    hnode hbelow rfl (h.shaped.fitted hnode).number henough fun _ => length_le_fuel
  refine ⟨nodes, hashes, number, last, ?_, hbelow, hmerges⟩
  simp only [ghostFindMergePoint, hnodes, hall, bind, Except.bind] at hpoints ⊢
  rw [hpoints]
  rfl

theorem ghostFindMergePoint_none (hnode : graph.entries.lookup key = some node)
    (henough : enough (tree.support ballots key))
    (hlight : ∀ next ∈ node.descendents, ¬ enough (tree.support ballots next)) :
    ∃ chain best number, ghostFindMergePoint condition graph key node none = .ok chain ∧
      chain.best = some (best, number) ∧ number.toNat = tree.height best ∧ tree.Descends key best ∧
      tree.Heaviest enough ballots best := by
  obtain ⟨nodes, hashes, number, last, hpoint, hbelow, hmerges⟩ :=
    ghostFindMergePoint_eq htallies hdecides hmono hzero h hnode henough
  refine ⟨_, last, number, hpoint, by rw [Subchain.best, hmerges.ends]; rfl, hmerges.number, ?_, ?_⟩
  · rcases List.mem_cons.mp (List.mem_of_getLast? hmerges.ends) with rfl | hmem
    · exact .refl
    · exact hmerges.path.descends hmem
  · refine hmerges.heaviest h.shaped hbelow (mem_of_lookup hnode) fun next entry hentry hedge _ => ?_
    exact hlight next ((h.shaped.linked hnode next).mpr ⟨entry, hentry, hedge⟩)

theorem ghostFindMergePoint_some {target : H} {number : UInt64}
    (hnode : graph.entries.lookup key = some node) (htarget : target ∉ graph.entries)
    (habove : tree.Descends key target)
    (hnearest : ∀ node ∈ graph.entries, tree.Descends node target → tree.Descends node key)
    (hnumber : number.toNat = tree.height target)
    (henough : enough (tree.support ballots target))
    (hlight : ∀ next ∈ node.descendents, ∀ entry, graph.entries.lookup next = some entry →
      entry.follows (some (target, number)) = true → ¬ enough (tree.support ballots next)) :
    ∃ chain best number', ghostFindMergePoint condition graph key node (some (target, number)) =
        .ok chain ∧
      chain.best = some (best, number') ∧ number'.toNat = tree.height best ∧ tree.Descends target best ∧
      tree.Heaviest enough ballots best := by
  have hkey := mem_of_lookup hnode
  obtain ⟨all, hall, hbelowAll⟩ := h.shaped.descendents_below hnode
    "descendents always present in node storage; qed"
  have hbelow := hbelowAll.follows h.shaped hkey htarget habove hnearest hnumber
  have hkept : (all.map Prod.snd).filter (fun node => node.follows (some (target, number))) =
      (all.filter fun node => node.2.follows (some (target, number))).map Prod.snd :=
    List.filter_map ..
  -- A single node would have been gone to.
  have htwo : 2 ≤ (all.filter fun node => node.2.follows (some (target, number))).length := by
    have hcounted := henough
    rw [hbelow.support_eq h.shaped h.cast hkey htarget] at hcounted
    match hnodes : all.filter fun node => node.2.follows (some (target, number)) with
    | [] =>
      rw [hnodes] at hcounted
      exact absurd hcounted hzero
    | [(next, entry)] =>
      rw [hnodes] at hcounted
      have hmem : (next, entry) ∈ all.filter fun node =>
          node.2.follows (some (target, number)) := by
        rw [hnodes]
        exact List.mem_singleton_self _
      obtain ⟨hentry, hedge, -⟩ := (hbelow.mem_iff next entry).mp hmem
      refine absurd ?_ (hlight next ((h.shaped.linked hnode next).mpr ⟨entry, hentry, hedge⟩)
        entry hentry (List.mem_filter.mp hmem).2)
      simpa [totalCount] using hcounted
    | _ :: _ :: _ =>
      rw [hnodes]
      simp
  obtain ⟨hashes, hashes', number', last, hpoints, hends, hmerges⟩ :=
    mergePoints_toward htallies hdecides hmono hzero h hnode hbelow htarget henough htwo .refl
      habove rfl (h.shaped.fitted hnode).number fun _ => length_le_fuel
  refine ⟨⟨key :: hashes, number'⟩, last, number', ?_, by rw [Subchain.best, hends]; rfl,
    hmerges.number, ?_, ?_⟩
  · simp only [ghostFindMergePoint, hall, hkept, bind, Except.bind] at hpoints ⊢
    rw [hpoints]
    rfl
  · rcases List.mem_cons.mp (List.mem_of_getLast? hmerges.ends) with rfl | hmem
    · exact .refl
    · exact hmerges.path.descends hmem
  · have hafter : tree.Descends target last := by
      rcases List.mem_cons.mp (List.mem_of_getLast? hmerges.ends) with rfl | hmem
      · exact .refl
      · exact hmerges.path.descends hmem
    refine hmerges.heaviest h.shaped hbelow hkey fun next entry hentry hedge hdescends => ?_
    have hmem := (hbelow.mem_iff next entry).mpr ⟨hentry, hedge, hafter.trans hdescends⟩
    exact hlight next ((h.shaped.linked hnode next).mpr ⟨entry, hentry, hedge⟩) entry hentry
      (List.mem_filter.mp hmem).2

theorem ghostFrom_none (hnode : graph.entries.lookup key = some node)
    (henough : enough (tree.support ballots key)) :
    ∃ last lastNode chain best number,
      descend condition graph.entries graph.entries.keys.length key node none =
        .ok (last, lastNode, none) ∧
      ghostFindMergePoint condition graph last lastNode none = .ok chain ∧
      chain.best = some (best, number) ∧ number.toNat = tree.height best ∧ tree.Descends key best ∧
      tree.Heaviest enough ballots best := by
  have hfuel : (downFrom tree.height graph.entries key).card ≤ graph.entries.keys.length := by
    rw [← card_keySet]
    exact Finset.card_filter_le _ _
  obtain ⟨last, lastNode, constrain, hdescend, hlast, hheavy, hpath, hlight⟩ :=
    descend_eq hdecides h.shaped h.counts hnode henough hfuel none
  obtain ⟨rfl, hafter⟩ : constrain = none ∧ tree.Descends key last := by
    rcases hpath with ⟨rfl, hconstrain⟩ | ⟨hconstrain, first, entry, hfirst, hedge, -, hdescends⟩
    · exact ⟨hconstrain, .refl⟩
    · exact ⟨hconstrain, ((h.shaped.fitted hfirst).descends_prev hedge).trans hdescends⟩
  have hlight' : ∀ next ∈ lastNode.descendents, ¬ enough (tree.support ballots next) := by
    intro next hnext
    obtain ⟨entry, hentry, -⟩ := (h.shaped.linked hlast next).mp hnext
    exact hlight next hnext entry hentry rfl
  obtain ⟨chain, best, number, hpoint, hends, hnumber, hbest, hheaviest⟩ :=
    ghostFindMergePoint_none htallies hdecides hmono hzero h hlast hheavy hlight'
  exact ⟨last, lastNode, chain, best, number, hdescend, hpoint, hends, hnumber,
    hafter.trans hbest, hheaviest⟩

theorem ghostFrom_some {target : H} {number : UInt64}
    (hnode : graph.entries.lookup key = some node) (htarget : target ∉ graph.entries)
    (habove : tree.Descends key target)
    (hnearest : ∀ node ∈ graph.entries, tree.Descends node target → tree.Descends node key)
    (hnumber : number.toNat = tree.height target)
    (henough : enough (tree.support ballots target)) :
    ∃ last lastNode constrain chain best number',
      descend condition graph.entries graph.entries.keys.length key node
        (some (target, number)) = .ok (last, lastNode, constrain) ∧
      ghostFindMergePoint condition graph last lastNode constrain = .ok chain ∧
      chain.best = some (best, number') ∧ number'.toNat = tree.height best ∧ tree.Descends target best ∧
      tree.Heaviest enough ballots best := by
  have hfuel : (downFrom tree.height graph.entries key).card ≤ graph.entries.keys.length := by
    rw [← card_keySet]
    exact Finset.card_filter_le _ _
  have hkeyEnough : enough (tree.support ballots key) := hmono (Ancestry.support_le habove) henough
  obtain ⟨last, lastNode, constrain, hdescend, hlast, hheavy, hpath, hlight⟩ :=
    descend_eq hdecides h.shaped h.counts hnode hkeyEnough hfuel (some (target, number))
  rcases hpath with ⟨rfl, rfl⟩ | ⟨rfl, first, entry, hfirst, hedge, hfollows, hdescends⟩
  · obtain rfl := Option.some.inj (hnode.symm.trans hlast)
    obtain ⟨chain, best, number', hpoint, hbest⟩ := ghostFindMergePoint_some htallies hdecides
      hmono hzero h hnode htarget habove hnearest hnumber henough hlight
    exact ⟨_, _, _, chain, best, number', hdescend, hpoint, hbest⟩
  · have hlight' : ∀ next ∈ lastNode.descendents, ¬ enough (tree.support ballots next) := by
      intro next hnext
      obtain ⟨entry, hentry, -⟩ := (h.shaped.linked hlast next).mp hnext
      exact hlight next hnext entry hentry rfl
    obtain ⟨chain, best, number', hpoint, hends, hnumber', hbest, hheaviest⟩ :=
      ghostFindMergePoint_none htallies hdecides hmono hzero h hlast hheavy hlight'
    have hheld : target ∈ entry.ancestors := by
      rw [← (h.shaped.fitted hfirst).inDirectAncestry_iff hnumber]
      simp only [Entry.follows] at hfollows
      cases hdirect : entry.inDirectAncestry target number with
      | none => simp [hdirect] at hfollows
      | some held => simpa [hdirect] using hfollows
    exact ⟨_, _, _, chain, best, number', hdescend, hpoint, hends, hnumber',
      (((h.shaped.fitted hfirst).line.descends hheld).trans hdescends).trans hbest, hheaviest⟩

-- The search from the base, or from a block that had enough votes before, finds a heaviest
-- block.
theorem findGhost_eq {order : List H → List H} (horder : ∀ heads, (order heads).Perm heads)
    (henough : enough (tree.support ballots graph.base)) {start : Option (H × UInt64)}
    (hstart : ∀ hash number, start = some (hash, number) → tree.Descends graph.base hash ∧
      number.toNat = tree.height hash ∧ enough (tree.support ballots hash)) :
    ∃ best number, findGhost condition order graph start = .ok (some (best, number)) ∧
      number.toNat = tree.height best ∧ tree.Descends graph.base best ∧
      (∀ hash number, start = some (hash, number) → tree.Descends hash best) ∧
      tree.Heaviest enough ballots best := by
  have hholds : ∀ {key : H} {node : Entry H V}, graph.entries.lookup key = some node →
      enough (tree.support ballots key) → condition node.cumulativeVote = .ok true := by
    intro key node hnode henough
    obtain ⟨holds, hcondition, hiff⟩ := hdecides _ _ (h.counts key node hnode)
    rw [hcondition, hiff.mpr henough]
  match start with
  | none =>
    obtain ⟨root, hroot⟩ := exists_entry h.shaped.base
    obtain ⟨last, lastNode, chain, best, number, hdescend, hpoint, hends, hnumber, hbest,
      hheaviest⟩ := ghostFrom_none htallies hdecides hmono hzero h hroot henough
    refine ⟨best, number, ?_, hnumber, hbest, by simp, hheaviest⟩
    simp only [findGhost, pure, Except.pure, bind, Except.bind, hroot, Run.expect,
      hholds hroot henough, hdescend, hpoint, hends, if_true]
  | some (hash, number) =>
    obtain ⟨hbase, hnumber, hheavy⟩ := hstart hash number rfl
    by_cases hmem : hash ∈ graph.entries
    · have hfound : findContainingNodes order graph hash number = none := if_pos hmem
      obtain ⟨node, hnode⟩ := exists_entry hmem
      obtain ⟨last, lastNode, chain, best, number', hdescend, hpoint, hends, hnumber', hbest,
        hheaviest⟩ := ghostFrom_none htallies hdecides hmono hzero h hnode hheavy
      refine ⟨best, number', ?_, hnumber', hbase.trans hbest, ?_, hheaviest⟩
      · simp only [findGhost, hfound, pure, Except.pure, bind, Except.bind, hnode, Run.expect,
          hholds hnode hheavy, hdescend, hpoint, hends, if_true]
      · rintro _ _ heq
        obtain ⟨rfl, rfl⟩ := Prod.mk.inj (Option.some.inj heq)
        exact hbest
    · obtain ⟨containing, hfound, hnodup, hholders⟩ :=
        findContainingNodes_eq h.shaped horder hmem hnumber
      have hparts := h.shaped.parts h.cast hmem hbase hnodup hholders
      cases containing with
      | nil =>
        rw [hparts.support_eq] at hheavy
        exact absurd hheavy hzero
      | cons first rest =>
        obtain ⟨entry, prev, hentry, hedge, -, hprev, habove, -, -, hnearest⟩ :=
          ((hholders first).mp List.mem_cons_self).edge h.shaped
        obtain ⟨node, hnode⟩ := exists_entry hprev
        have hprevHeavy := hmono (Ancestry.support_le habove) hheavy
        obtain ⟨last, lastNode, constrain, chain, best, number', hdescend, hpoint, hends,
          hnumber', hbest, hheaviest⟩ := ghostFrom_some htallies hdecides hmono hzero h hnode hmem habove
            hnearest hnumber hheavy
        refine ⟨best, number', ?_, hnumber', hbase.trans hbest, ?_, hheaviest⟩
        · simp only [findGhost, hfound, hentry, hedge, pure, Except.pure, bind, Except.bind,
            hnode, Run.expect, hholds hnode hprevHeavy, hdescend, hpoint, hends, if_true]
        · rintro _ _ heq
          obtain ⟨rfl, rfl⟩ := Prod.mk.inj (Option.some.inj heq)
          exact hbest

end Ghost

section Ancestor

variable {hash next : H} {canonical : Entry H V}
variable {hashes : List H} {number : UInt64}

omit [VoteValue V] in
theorem ancestorMeeting_eq (hdecides : Decides condition tally enough) (hshaped : Shaped tree graph)
    (hcounts : Counts tally graph.entries (tree.support ballots))
    (henough : enough (tree.support ballots graph.base))
    (hcanonical : graph.entries.lookup next = some canonical)
    (hedge : canonical.ancestorNode = some key) {fuel : Nat}
    (hfuel : (upTo tree.height graph.entries key).card ≤ fuel) :
    ∃ key' active next' canonical',
      ancestorMeeting condition graph.entries fuel key canonical =
        .ok (some (key', active, canonical')) ∧
      graph.entries.lookup key' = some active ∧ graph.entries.lookup next' = some canonical' ∧
      canonical'.ancestorNode = some key' ∧ enough (tree.support ballots key') ∧
      tree.Descends next' next ∧ (next' = next ∨ ¬ enough (tree.support ballots next')) := by
  induction fuel generalizing key next canonical with
  | zero =>
    have hself : key ∈ upTo tree.height graph.entries key := Finset.mem_filter.mpr
        ⟨mem_keySet.mpr (hshaped.prev_mem hcanonical hedge), Nat.le_refl _⟩
    exact absurd (Finset.card_pos.mpr ⟨key, hself⟩) (by omega)
  | succ fuel ih =>
    have hkey := hshaped.prev_mem hcanonical hedge
    obtain ⟨active, hactive⟩ := exists_entry hkey
    obtain ⟨holds, hcondition, hiff⟩ := hdecides _ _ (hcounts key active hactive)
    cases holds with
    | true =>
      refine ⟨key, active, next, canonical, ?_, hactive, hcanonical, hedge, hiff.mp rfl, .refl,
        .inl rfl⟩
      simp only [ancestorMeeting, hactive, Run.expect, hcondition, bind, Except.bind, if_true]
      rfl
    | false =>
      have hlight : ¬ enough (tree.support ballots key) := by simpa using hiff
      have hbase : key ≠ graph.base := by
        rintro rfl
        exact hlight henough
      obtain ⟨prev, hprev, -⟩ := (hshaped.fitted hactive).edge hbase
      have hlt := card_upTo_lt tree.height hkey ((hshaped.fitted hactive).height_prev hprev)
      obtain ⟨key', active', next', canonical', hmeeting, hactive', hcanonical', hedge', hheavy,
        hdescends, hnext⟩ := ih hactive hprev (by omega)
      refine ⟨key', active', next', canonical', ?_, hactive', hcanonical', hedge', hheavy,
        hdescends.trans ((hshaped.fitted hcanonical).descends_prev hedge), .inr ?_⟩
      · simp only [ancestorMeeting, hactive, Run.expect, hcondition, hprev, hmeeting, bind,
          Except.bind, Bool.false_eq_true, if_false]
      · rcases hnext with rfl | hnext
        · exact hlight
        · exact hnext

omit [DecidableEq H] [VoteValue V] in
theorem getElem_blocksReverse {best number : UInt64} {block : H} {i : Nat}
    (hpath : tree.Path (key :: hashes)) (hends : (key :: hashes).getLast? = some last)
    (hbest : best.toNat = tree.height last)
    (hget : ((key :: hashes).reverse.zipIdx.map fun (hash, count) =>
      (hash, best - UInt64.ofNat count))[i]? = some (block, number)) :
    block ∈ key :: hashes ∧ number.toNat = tree.height block ∧
      tree.height block + i = tree.height last := by
  rw [List.getElem?_map, List.getElem?_zipIdx] at hget
  obtain ⟨⟨hash, count⟩, hfound, hsame⟩ := Option.map_eq_some_iff.mp hget
  obtain ⟨block', hblock, hpair⟩ := Option.map_eq_some_iff.mp hfound
  obtain ⟨rfl, rfl⟩ := Prod.mk.inj hpair
  obtain ⟨rfl, rfl⟩ := Prod.mk.inj hsame
  have hlt : i < (key :: hashes).length := by
    have hsize := (List.getElem?_eq_some_iff.mp hblock).1
    rwa [List.length_reverse] at hsize
  rw [List.getElem?_reverse hlt] at hblock
  have hheight := hpath.height_getElem hblock
  have hlast := hpath.height_last hends
  have hfits := best.toNat_lt
  simp only [List.length_cons] at hlt hheight
  have hcount : (UInt64.ofNat (0 + i)).toNat = i := by
    rw [UInt64.toNat_ofNat']
    omega
  refine ⟨List.mem_of_getElem? hblock, ?_, by omega⟩
  rw [UInt64.toNat_sub_of_le, hcount, hbest]
  · omega
  · rw [UInt64.le_iff_toNat_le, hcount, hbest]
    omega

omit [VoteValue V] in
theorem find_blocksReverse {best : UInt64} (hpath : tree.Path (key :: hashes))
    (hends : (key :: hashes).getLast? = some last) (hbest : best.toNat = tree.height last)
    {base : H} {known : H → Prop} (hfitted : Fitted tree base known next canonical)
    (hedge : canonical.ancestorNode = some key) :
    ∃ block number, ((key :: hashes).reverse.zipIdx.map fun (hash, count) =>
        (hash, best - UInt64.ofNat count)).find? (fun (hash, number) =>
          (canonical.inDirectAncestry hash number).getD false) = some (block, number) ∧
      block ∈ key :: hashes ∧ block ∈ canonical.ancestors ∧ number.toNat = tree.height block ∧
      ∀ other ∈ key :: hashes, other ∈ canonical.ancestors →
        tree.height other ≤ tree.height block := by
  let blocks := (key :: hashes).reverse.zipIdx.map fun (hash, count) =>
    (hash, best - UInt64.ofNat count)
  -- The test on a block of the list says whether it is on the edge.
  have htest : ∀ {i : Nat} {block : H} {number : UInt64}, blocks[i]? = some (block, number) →
      ((canonical.inDirectAncestry block number).getD false = true ↔
        block ∈ canonical.ancestors) := by
    intro i block number hget
    obtain ⟨-, hnumber, -⟩ := getElem_blocksReverse hpath hends hbest hget
    rw [← hfitted.inDirectAncestry_iff hnumber]
    cases canonical.inDirectAncestry block number <;> simp
  have hplace : ∀ other ∈ key :: hashes, ∃ (i : Nat) (number : UInt64),
      blocks[i]? = some (other, number) := by
    intro other hother
    obtain ⟨i, hi⟩ := List.mem_iff_getElem?.mp (List.mem_reverse.mpr hother)
    refine ⟨i, best - UInt64.ofNat (0 + i), ?_⟩
    simp only [blocks, List.getElem?_map, List.getElem?_zipIdx, hi, Option.map_some]
  obtain ⟨i, number, hkey⟩ := hplace key List.mem_cons_self
  have hsome : (blocks.find? fun (hash, number) =>
      (canonical.inDirectAncestry hash number).getD false).isSome :=
    List.find?_isSome.mpr ⟨(key, number), List.mem_of_getElem? hkey,
      (htest hkey).mpr (List.mem_of_getLast? hedge)⟩
  obtain ⟨⟨block, number'⟩, hfound⟩ := Option.isSome_iff_exists.mp hsome
  obtain ⟨hholds, before, after, hsplit, hbefore⟩ := List.find?_eq_some_iff_append.mp hfound
  have hget : blocks[before.length]? = some (block, number') := by
    rw [hsplit, List.getElem?_append_right (Nat.le_refl _), Nat.sub_self]
    rfl
  obtain ⟨hmem, hnumber, hheight⟩ := getElem_blocksReverse hpath hends hbest hget
  refine ⟨block, number', hfound, hmem, (htest hget).mp hholds, hnumber, ?_⟩
  intro other hother hheld
  obtain ⟨j, number'', hj⟩ := hplace other hother
  obtain ⟨-, -, hotherHeight⟩ := getElem_blocksReverse hpath hends hbest hj
  have hle : before.length ≤ j := by
    by_contra hlt
    have hholds := (htest hj).mpr hheld
    rw [hsplit, List.getElem?_append_left (by omega)] at hj
    have hnot := hbefore _ (List.mem_of_getElem? hj)
    simp [hholds] at hnot
  omega

omit [VoteValue V] in
theorem Merges.reaches {block : H} (hshaped : Shaped tree graph) (hmono : Monotone enough)
    (halone : tree.Uncontested enough ballots block)
    (hmerges : Merges tree graph enough ballots key hashes number last)
    (hcanonical : graph.entries.lookup next = some canonical)
    (hedge : canonical.ancestorNode = some key) (habove : tree.Descends key block)
    (hbelow : tree.Descends block next) (hne : block ≠ key)
    (henough : enough (tree.support ballots block)) (hwide : ¬ enough (tree.support ballots next) ∨
      ∃ other, other ≠ next ∧ Holder graph.entries block other) :
    block ∈ key :: hashes ∧ block ∈ canonical.ancestors := by
  have hkey := hshaped.prev_mem hcanonical hedge
  have hneNext : block ≠ next := by
    rintro rfl
    rcases hwide with hlight | ⟨other, -, hholder⟩
    · exact hlight henough
    · exact hholder.not_mem hshaped (mem_of_lookup hcanonical)
  have hinner := (hshaped.fitted hcanonical).mem_inner hedge habove hbelow hne hneNext
  have hmem := List.mem_of_getLast? hmerges.ends
  have hlast : tree.Descends key last := by
    rcases List.mem_cons.mp hmem with rfl | hmem
    · exact .refl
    · exact hmerges.path.descends hmem
  refine ⟨hmerges.path.mem_of_descends hmerges.ends habove ?_, List.mem_of_mem_dropLast hinner⟩
  rcases halone last (hmerges.heavy last hmem) with hafter | hbefore
  · by_contra hnot
    have hneLast : last ≠ block := by
      rintro rfl
      exact hnot .refl
    -- The search would have gone on to the child towards the block.
    obtain ⟨child, hchild, hrest⟩ := hafter.exists_child hneLast
    have hchildAbove : tree.Descends key child := hlast.trans (.step .refl hchild)
    have hheight : tree.height key < tree.height child := by
      have hle := hlast.height_le
      have hparent := tree.height_parent hchild
      omega
    have hholds : ∀ {other : H} {entry : Entry H V}, graph.entries.lookup other = some entry →
        entry.ancestorNode = some key → tree.Descends block other → block ≠ other →
        Holder graph.entries child other := by
      intro other entry hentry hprev hdescends hneOther
      refine ⟨entry, hentry, (hshaped.fitted hentry).mem_inner hprev hchildAbove
        (hrest.trans hdescends) ?_ ?_⟩
      · rintro rfl
        omega
      · rintro rfl
        exact hneOther (hdescends.antisymm hrest)
    have hchildHolder := hholds hcanonical hedge hbelow hneNext
    obtain ⟨only, honly, hheavy⟩ := hmerges.full child hchild (hchildHolder.not_mem hshaped)
      (hmono (Ancestry.support_le hrest) henough)
    obtain rfl := (honly next).mp hchildHolder
    rcases hwide with hlight | ⟨other, hother, hholder⟩
    · exact hlight hheavy
    · obtain ⟨entry, prev, hentry, hprev, -, -, -, hdescends, hlt, -⟩ := hholder.edge hshaped
      have hsame : prev = key :=
        Holder.prev_eq hshaped ⟨canonical, hcanonical, hinner⟩ hcanonical hedge hholder hentry hprev
      refine hother ((honly other).mp (hholds hentry (hsame ▸ hprev) hdescends ?_))
      rintro rfl
      omega
  · exact hbefore

theorem ancestorFrom_eq (htallies : Tallies tally) (hdecides : Decides condition tally enough)
    (hmono : Monotone enough) (hzero : ¬ enough 0) (h : Represents tree tally ballots graph)
    (henough : enough (tree.support ballots graph.base))
    (hcanonical : graph.entries.lookup next = some canonical)
    (hedge : canonical.ancestorNode = some key) :
    ∃ best number, ancestorFrom condition graph key canonical = .ok (some (best, number)) ∧
      number.toNat = tree.height best ∧ enough (tree.support ballots best) ∧
      tree.Descends best next ∧
      (∀ block, tree.Descends block next → enough (tree.support ballots block) →
        tree.Uncontested enough ballots block →
        (¬ enough (tree.support ballots next) ∨ tree.Descends block key ∨
          ∃ other, other ≠ next ∧ Holder graph.entries block other) →
        tree.Descends block best) := by
  have hfuel : (upTo tree.height graph.entries key).card ≤ graph.entries.keys.length := by
    rw [← card_keySet]
    exact Finset.card_filter_le _ _
  obtain ⟨key', active, next', canonical', hmeeting, hactive, hcanonical', hedge', hheavy,
    hdescends, hnext⟩ := ancestorMeeting_eq hdecides h.shaped h.counts henough hcanonical hedge hfuel
  obtain ⟨nodes, hashes, number, last, hsubchain, hbelow, hmerges⟩ :=
    ghostFindMergePoint_eq htallies hdecides hmono hzero h hactive hheavy
  have hfitted := h.shaped.fitted hcanonical'
  obtain ⟨best, number', hfind, hmem, hheld, hnumber, hbest⟩ :=
    find_blocksReverse hmerges.path hmerges.ends hmerges.number hfitted hedge'
  have hbestNext : tree.Descends best next' := hfitted.line.descends hheld
  refine ⟨best, number', ?_, hnumber, hmerges.heavy best hmem, hbestNext.trans hdescends, ?_⟩
  · simp only [ancestorFrom, hmeeting, hsubchain, bind, Except.bind]
    exact congrArg Except.ok hfind
  · intro block hblock hblockHeavy halone hwide
    have hblockNext : tree.Descends block next' := by
      rcases hnext with rfl | hlight
      · exact hblock
      · rcases hblock.comparable hdescends with habove | hafter
        · exact habove
        · exact absurd (hmono (Ancestry.support_le hafter) hblockHeavy) hlight
    have hwide' : ¬ enough (tree.support ballots next') ∨ tree.Descends block key' ∨
        ∃ other, other ≠ next' ∧ Holder graph.entries block other := by
      rcases hnext with rfl | hlight
      · obtain rfl := Option.some.inj (hcanonical.symm.trans hcanonical')
        obtain rfl := Option.some.inj (hedge.symm.trans hedge')
        exact hwide
      · exact .inl hlight
    have hstart : tree.Descends key' best := by
      rcases List.mem_cons.mp hmem with rfl | hmem
      · exact .refl
      · exact hmerges.path.descends hmem
    rcases hblockNext.comparable (hfitted.descends_prev hedge') with habove | hafter
    · exact habove.trans hstart
    · by_cases hsame : block = key'
      · exact hsame ▸ hstart
      · replace hwide' := hwide'.imp_right fun hwide =>
          hwide.resolve_left fun habove => hsame (habove.antisymm hafter)
        obtain ⟨hmemBlock, hheldBlock⟩ := hmerges.reaches h.shaped hmono halone hcanonical'
          hedge' hafter hblockNext hsame hblockHeavy hwide'
        exact hblockNext.of_height_le hbestNext (hbest block hmemBlock hheldBlock)

-- The best block at or above a block, or between it and the node that it is found by. No block
-- is left out that others with enough votes are on one line with.
theorem findAncestor_eq (htallies : Tallies tally) (hdecides : Decides condition tally enough)
    (hmono : Monotone enough) (hzero : ¬ enough 0) (h : Represents tree tally ballots graph)
    {order : List H → List H} (horder : ∀ heads, (order heads).Perm heads)
    (henough : enough (tree.support ballots graph.base)) (hbase : tree.Descends graph.base hash)
    (hnumber : number.toNat = tree.height hash)
    (hwide : hash ∈ graph.entries ∨ ∃ a b, a ≠ b ∧ Holder graph.entries hash a ∧
      Holder graph.entries hash b) :
    ∃ best number', findAncestor condition order graph hash number = .ok (some (best, number')) ∧
      number'.toNat = tree.height best ∧ enough (tree.support ballots best) ∧
      (tree.Descends best hash ∨ tree.Descends hash best) ∧
      (hash ∈ graph.entries → tree.Descends best hash) ∧
      (∀ block, tree.Descends block hash → enough (tree.support ballots block) →
        tree.Uncontested enough ballots block → tree.Descends block best) := by
  by_cases hmem : hash ∈ graph.entries
  · have hfound : findContainingNodes order graph hash number = none := if_pos hmem
    obtain ⟨node, hnode⟩ := exists_entry hmem
    obtain ⟨holds, hcondition, hiff⟩ := hdecides _ _ (h.counts hash node hnode)
    cases holds with
    | true =>
      refine ⟨hash, number, ?_, hnumber, hiff.mp rfl, .inl .refl, fun _ => .refl,
        fun block hblock _ _ => hblock⟩
      simp only [findAncestor, hfound, hnode, Run.expect, hcondition, bind, Except.bind, if_true]
      rfl
    | false =>
      have hlight : ¬ enough (tree.support ballots hash) := by simpa using hiff
      have hne : hash ≠ graph.base := by
        rintro rfl
        exact hlight henough
      obtain ⟨prev, hedge, -⟩ := (h.shaped.fitted hnode).edge hne
      obtain ⟨best, number', hbest, hnumber', hheavy, hdescends, hhighest⟩ :=
        ancestorFrom_eq htallies hdecides hmono hzero h henough hnode hedge
      refine ⟨best, number', ?_, hnumber', hheavy, .inl hdescends, fun _ => hdescends,
        fun block hblock hblockHeavy halone =>
          hhighest block hblock hblockHeavy halone (.inl hlight)⟩
      simp only [findAncestor, hfound, hnode, Run.expect, hcondition, hedge, bind, Except.bind,
        Bool.false_eq_true, if_false]
      exact hbest
  · obtain ⟨containing, hfound, -, hholders⟩ :=
      findContainingNodes_eq h.shaped horder hmem hnumber
    obtain ⟨a, b, hab, ha, hb⟩ := hwide.resolve_left hmem
    cases containing with
    | nil => exact absurd ((hholders a).mpr ha) (by simp)
    | cons first rest =>
      have hfirst := (hholders first).mp List.mem_cons_self
      obtain ⟨entry, prev, hentry, hedge, -, -, habove, hafter, -, -⟩ := hfirst.edge h.shaped
      obtain ⟨best, number', hbest, hnumber', hheavy, hdescends, hhighest⟩ :=
        ancestorFrom_eq htallies hdecides hmono hzero h henough hentry hedge
      refine ⟨best, number', ?_, hnumber', hheavy, hdescends.comparable hafter,
        fun hnode => absurd hnode hmem, fun block hblock hblockHeavy halone => ?_⟩
      · simp only [findAncestor, hfound, hentry, hedge, Run.expect, bind, Except.bind]
        exact hbest
      · refine hhighest block (hblock.trans hafter) hblockHeavy halone (.inr ?_)
        rcases hblock.comparable habove with hbefore | hbetween
        · exact .inl hbefore
        · by_cases hsame : block = prev
          · exact .inl (hsame ▸ .refl)
          · obtain ⟨other, hother, hholder⟩ : ∃ other, other ≠ first ∧
                Holder graph.entries hash other := by
              by_cases hafirst : a = first
              · exact ⟨b, fun hbfirst => hab (hafirst.trans hbfirst.symm), hb⟩
              · exact ⟨a, hafirst, ha⟩
            refine .inr ⟨other, hother, ?_⟩
            obtain ⟨entry', prev', hentry', hedge', -, -, -, hbelow, hlt, -⟩ :=
              hholder.edge h.shaped
            have hprevSame : prev' = prev :=
              Holder.prev_eq h.shaped hfirst hentry hedge hholder hentry' hedge'
            refine ⟨entry', hentry', (h.shaped.fitted hentry').mem_inner (hprevSame ▸ hedge')
              hbetween (hblock.trans hbelow) hsame ?_⟩
            rintro rfl
            have hle := hblock.height_le
            omega

omit [VoteValue V] in
-- A heaviest block without a node is where edges part: with one edge only, the block after it
-- would have all its votes.
theorem Represents.wide (h : Represents tree tally ballots graph) (hmono : Monotone enough)
    (hzero : ¬ enough 0) (hheaviest : tree.Heaviest enough ballots hash)
    (hbase : tree.Descends graph.base hash) (hnumber : number.toNat = tree.height hash) :
    hash ∈ graph.entries ∨ ∃ a b, a ≠ b ∧ Holder graph.entries hash a ∧
      Holder graph.entries hash b := by
  by_cases hmem : hash ∈ graph.entries
  · exact .inl hmem
  · obtain ⟨containing, -, hnodup, hholders⟩ :=
      findContainingNodes_eq h.shaped (fun heads => List.Perm.refl heads) hmem hnumber
    have hparts := (h.shaped.parts h.cast hmem hbase hnodup hholders).support_eq
    have hheavy := hheaviest.heavy
    match containing with
    | [] =>
      rw [hparts] at hheavy
      exact absurd hheavy hzero
    | [only] =>
      rw [List.map_singleton, List.sum_singleton] at hparts
      obtain ⟨-, -, -, -, -, -, -, hbelow, hlt, -⟩ :=
        ((hholders only).mp List.mem_cons_self).edge h.shaped
      have hsame := hheaviest.eq_of_descends hmono hbelow (hparts ▸ hheavy)
      exact absurd hlt (hsame ▸ Nat.lt_irrefl _)
    | a :: b :: rest =>
      refine .inr ⟨a, b, ?_, (hholders a).mp List.mem_cons_self,
        (hholders b).mp (List.mem_cons_of_mem _ List.mem_cons_self)⟩
      rintro rfl
      exact (List.nodup_cons.mp hnodup).1 List.mem_cons_self

end Ancestor

end Yeeroot.Grandpa.VoteGraph
