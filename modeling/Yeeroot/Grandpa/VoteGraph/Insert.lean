import Yeeroot.Grandpa.VoteGraph.Shaped

namespace Yeeroot.Grandpa.VoteGraph

variable {H V : Type} [DecidableEq H] {tree : Ancestry H} {graph : VoteGraph H V}

section Search

variable {hash : H} {number : UInt64}

-- The search goes on from every node that it has visited, or is just about to.
structure Explored (entries : Entries H V) (hash : H) (number : UInt64) (next : Option H)
    (found : List H × List H) : Prop where
  closed : ∀ key ∈ found.1, ∀ entry, entries.lookup key = some entry →
    entry.inDirectAncestry hash number = none →
    ∀ prev, entry.ancestorNode = some prev → prev ∈ found.1 ∨ next = some prev
  kept : ∀ key ∈ found.1, ∀ entry, entries.lookup key = some entry →
    entry.inDirectAncestry hash number = some true → key ∈ found.2

theorem Explored.visit {entries : Entries H V} {head : H} {next : Option H}
    {visited containing containing' : List H} {entry : Entry H V}
    (h : Explored entries hash number (some head) (visited, containing))
    (hentry : entries.lookup head = some entry)
    (hnext : entry.inDirectAncestry hash number = none →
      ∀ prev, entry.ancestorNode = some prev → next = some prev)
    (hkept : entry.inDirectAncestry hash number = some true → head ∈ containing')
    (hmore : containing ⊆ containing') :
    Explored entries hash number next (head :: visited, containing') where
  closed key hkey node hnode hnone prev hprev := by
    rcases List.mem_cons.mp hkey with rfl | hkey
    · obtain rfl := Option.some.inj (hentry.symm.trans hnode)
      exact .inr (hnext hnone prev hprev)
    · rcases h.closed key hkey node hnode hnone prev hprev with hprev | hprev
      · exact .inl (List.mem_cons_of_mem _ hprev)
      · exact .inl (Option.some.inj hprev ▸ List.mem_cons_self)
  kept key hkey node hnode htrue := by
    rcases List.mem_cons.mp hkey with rfl | hkey
    · obtain rfl := Option.some.inj (hentry.symm.trans hnode)
      exact hkept htrue
    · exact hmore (h.kept key hkey node hnode htrue)

theorem Explored.searchBack (hshaped : Shaped tree graph) {fuel : Nat} {head : H}
    {found : List H × List H} (h : Explored graph.entries hash number (some head) found)
    (hhead : head ∈ graph.entries)
    (hfuel : (upTo tree.height graph.entries head).card ≤ fuel) :
    Explored graph.entries hash number none
        (VoteGraph.searchBack graph.entries hash number fuel head found) ∧
      head ∈ (VoteGraph.searchBack graph.entries hash number fuel head found).1 ∧
      found.1 ⊆ (VoteGraph.searchBack graph.entries hash number fuel head found).1 := by
  induction fuel generalizing head found with
  | zero =>
    have hself : head ∈ upTo tree.height graph.entries head :=
      Finset.mem_filter.mpr ⟨mem_keySet.mpr hhead, Nat.le_refl _⟩
    exact absurd (Finset.card_pos.mpr ⟨head, hself⟩) (by omega)
  | succ fuel ih =>
    obtain ⟨visited, containing⟩ := found
    obtain ⟨entry, hentry⟩ := exists_entry hhead
    rw [VoteGraph.searchBack]
    simp only [hentry]
    split_ifs with hseen
    · refine ⟨⟨fun key hkey node hnode hnone prev hprev => ?_, h.kept⟩, hseen, List.Subset.refl _⟩
      rcases h.closed key hkey node hnode hnone prev hprev with hprev | hprev
      · exact .inl hprev
      · exact .inl (Option.some.inj hprev ▸ hseen)
    · cases hdirect : entry.inDirectAncestry hash number with
      | some held =>
        cases held with
        | true =>
          refine ⟨h.visit hentry (by simp [hdirect]) (fun _ => ?_)
            (List.subset_append_left _ _), List.mem_cons_self, List.subset_cons_self _ _⟩
          exact List.mem_append_right _ (List.mem_singleton_self head)
        | false =>
          exact ⟨h.visit hentry (by simp [hdirect]) (by simp [hdirect]) (List.Subset.refl _),
            List.mem_cons_self, List.subset_cons_self _ _⟩
      | none =>
        cases hprev : entry.ancestorNode with
        | none =>
          exact ⟨h.visit hentry (by simp [hprev]) (by simp [hdirect]) (List.Subset.refl _),
            List.mem_cons_self, List.subset_cons_self _ _⟩
        | some prev =>
          have hlt := card_upTo_lt tree.height hhead ((hshaped.fitted hentry).height_prev hprev)
          have hvisit : Explored graph.entries hash number (some prev)
              (head :: visited, containing) :=
            h.visit hentry (fun _ _ heq => by rw [← heq, hprev]) (by simp [hdirect])
              (List.Subset.refl _)
          obtain ⟨hclosed, -, hmore⟩ := ih hvisit (hshaped.prev_mem hentry hprev) (by omega)
          exact ⟨hclosed, hmore List.mem_cons_self,
            fun key hkey => hmore (List.mem_cons_of_mem _ hkey)⟩

-- Every node below the block is visited: a head is, and the edge of a node after it ends there.
theorem Explored.visited (hshaped : Shaped tree graph) {found : List H × List H}
    (h : Explored graph.entries hash number none found)
    (hheads : ∀ head ∈ graph.heads, head ∈ graph.entries → head ∈ found.1)
    (hnumber : number.toNat = tree.height hash) {key : H} (hkey : key ∈ graph.entries)
    (hbelow : tree.height hash < tree.height key) : key ∈ found.1 := by
  induction hcard : (downFrom tree.height graph.entries key).card using Nat.strong_induction_on
    generalizing key with
  | _ card ih =>
    obtain ⟨entry, hentry⟩ := exists_entry hkey
    cases hnext : entry.descendents with
    | nil => exact hheads key (hshaped.heads hentry hnext) hkey
    | cons next rest =>
      obtain ⟨node, hnode, hprev⟩ := (hshaped.linked hentry next).mp (by rw [hnext]; simp)
      have hheight := (hshaped.fitted hnode).height_prev hprev
      have hlt := card_downFrom_lt tree.height hkey hheight
      have hvisited := ih _ (by omega) (mem_of_lookup hnode) (by omega) rfl
      have hnone : node.inDirectAncestry hash number = none := by
        rw [Entry.inDirectAncestry, Option.map_eq_none_iff]
        cases hblock : node.ancestorBlock number with
        | none => rfl
        | some block =>
          obtain ⟨hmem, hblock⟩ := (hshaped.fitted hnode).ancestorBlock_eq_some.mp hblock
          rcases (mem_ancestors_iff hprev).mp hmem with rfl | hmem
          · omega
          · have hle := ((hshaped.fitted hnode).descends_inner hprev hmem).1.height_le
            omega
      exact (h.closed next hvisited node hnode hnone key hprev).resolve_right (by simp)

theorem Explored.searchHeads (hshaped : Shaped tree graph) (heads : List H)
    {found : List H × List H} (h : Explored graph.entries hash number none found) :
    let found' := heads.foldl (fun found head => VoteGraph.searchBack graph.entries hash number
      (graph.entries.keys.length + 1) head found) found
    Explored graph.entries hash number none found' ∧ found.1 ⊆ found'.1 ∧
      ∀ head ∈ heads, head ∈ graph.entries → head ∈ found'.1 := by
  induction heads generalizing found with
  | nil => exact ⟨h, List.Subset.refl _, by simp⟩
  | cons head heads ih =>
    by_cases hhead : head ∈ graph.entries
    · have hfuel : (upTo tree.height graph.entries head).card ≤
          graph.entries.keys.length + 1 := by
        have hle : (upTo tree.height graph.entries head).card ≤ (keySet graph.entries).card :=
          Finset.card_filter_le _ _
        rw [card_keySet] at hle
        omega
      have hstart : Explored graph.entries hash number (some head) found :=
        ⟨fun key hkey node hnode hnone prev hprev =>
          .inl ((h.closed key hkey node hnode hnone prev hprev).resolve_right (by simp)), h.kept⟩
      obtain ⟨hnext, hmem, hmore⟩ := hstart.searchBack hshaped hhead hfuel
      obtain ⟨hlast, hgrown, hheads⟩ := ih hnext
      refine ⟨hlast, fun k hk => hgrown (hmore hk), fun other hother hknown => ?_⟩
      rcases List.mem_cons.mp hother with rfl | hother
      · exact hgrown hmem
      · exact hheads other hother hknown
    · have hnone : graph.entries.lookup head = none := AList.lookup_eq_none.mpr hhead
      have hsame : VoteGraph.searchBack graph.entries hash number
          (graph.entries.keys.length + 1) head found = found := by
        simp only [VoteGraph.searchBack, hnone]
      obtain ⟨hlast, hgrown, hheads⟩ := ih h
      simp only [List.foldl_cons, hsame]
      refine ⟨hlast, hgrown, fun other hother hknown => ?_⟩
      rcases List.mem_cons.mp hother with rfl | hother
      · exact absurd hknown hhead
      · exact hheads other hother hknown

-- The nodes that are found are those whose edges hold the block, whatever order the heads
-- come in.
theorem findContainingNodes_eq (hshaped : Shaped tree graph) {order : List H → List H}
    (horder : ∀ heads, (order heads).Perm heads) (hnew : hash ∉ graph.entries)
    (hnumber : number.toNat = tree.height hash) :
    ∃ containing, findContainingNodes order graph hash number = some containing ∧
      containing.Nodup ∧ ∀ key, key ∈ containing ↔ Holder graph.entries hash key := by
  have hfound : findContainingNodes order graph hash number =
      some ((order graph.heads).foldl (fun found head => VoteGraph.searchBack graph.entries hash
        number (graph.entries.keys.length + 1) head found) ([], [])).2 := if_neg hnew
  have hstart : Explored graph.entries hash number none ([], []) := ⟨by simp, by simp⟩
  obtain ⟨-, hnodup, hcontains⟩ := findContainingNodes_spec hfound
  obtain ⟨hexplored, -, hheads⟩ := hstart.searchHeads hshaped (order graph.heads)
  refine ⟨_, hfound, hnodup, fun key => ⟨fun hkey => ?_, fun hholder => ?_⟩⟩
  · obtain ⟨entry, hentry, hdirect⟩ := hcontains key hkey
    rw [hshaped.holder_iff hentry hnew]
    exact ((hshaped.fitted hentry).inDirectAncestry_iff hnumber).mp hdirect
  · obtain ⟨entry, hentry, hmem⟩ := hholder
    have hmem' : hash ∈ entry.ancestors := List.mem_of_mem_dropLast hmem
    have hvisited := hexplored.visited hshaped
      (fun head hhead => hheads head ((horder _).mem_iff.mpr hhead)) hnumber
      (mem_of_lookup hentry) ((hshaped.fitted hentry).line.height_lt hmem')
    exact hexplored.kept key hvisited entry hentry
      (((hshaped.fitted hentry).inDirectAncestry_iff hnumber).mpr hmem')

end Search

section Link

variable {hash prev : H} {containing : List H} {new : Entry H V} {entries' : Entries H V}

-- What becomes of a node when another one is put in after the node `prev` and before those in
-- `containing`.
def relinked (hash prev : H) (containing : List H) (number : UInt64) (key : H)
    (entry : Entry H V) : Entry H V :=
  { entry with
    ancestors := if key ∈ containing then entry.ancestors.take (entry.number - number).toNat
      else entry.ancestors
    descendents := if key = prev then entry.descendents.filter (· ∉ containing) ++ [hash]
      else entry.descendents }

-- The new node is placed as the tree has it, and the others are linked to it.
structure Links (tree : Ancestry H) (graph : VoteGraph H V) (hash prev : H) (containing : List H)
    (new : Entry H V) (entries' : Entries H V) : Prop where
  fresh : hash ∉ graph.entries
  fitted : Fitted tree graph.base (· ∈ graph.entries) hash new
  edge : new.ancestorNode = some prev
  holders : ∀ key, key ∈ containing ↔ Holder graph.entries hash key
  nodup : containing.Nodup
  next : new.descendents = containing
  lookup : entries'.lookup hash = some new
  others : ∀ key, key ≠ hash → entries'.lookup key =
    (graph.entries.lookup key).map (relinked hash prev containing new.number key)

theorem Links.mem_iff (h : Links tree graph hash prev containing new entries') (key : H) :
    key ∈ entries' ↔ key ∈ graph.entries ∨ key = hash := by
  by_cases hkey : key = hash
  · simp [hkey, mem_of_lookup h.lookup]
  · rw [← AList.lookup_isSome, h.others key hkey, Option.isSome_map, AList.lookup_isSome]
    simp [hkey]

theorem Links.prev_mem (h : Links tree graph hash prev containing new entries')
    (hshaped : Shaped tree graph) : prev ∈ graph.entries := by
  have hne : hash ≠ graph.base := fun heq => h.fresh (heq ▸ hshaped.base)
  obtain ⟨prev', hprev', hmem⟩ := h.fitted.edge hne
  obtain rfl := Option.some.inj (h.edge.symm.trans hprev')
  exact hmem

theorem Links.holder_prev (h : Links tree graph hash prev containing new entries')
    (hshaped : Shaped tree graph) {key : H} (hkey : key ∈ containing) :
    ∃ entry, graph.entries.lookup key = some entry ∧ entry.ancestorNode = some prev ∧
      hash ∈ entry.ancestors ∧ tree.height hash < tree.height key := by
  obtain ⟨entry, prev', hentry, hprev', hinner, hmem, habove, -, hheight, hlast⟩ :=
    ((h.holders key).mp hkey).edge hshaped
  have hbefore : tree.Descends prev' prev :=
    h.fitted.nearest h.edge hmem habove fun heq => h.fresh (heq ▸ hmem)
  have hsame : prev' = prev :=
    hbefore.antisymm (hlast prev (h.prev_mem hshaped) (h.fitted.descends_prev h.edge))
  exact ⟨entry, hentry, hsame ▸ hprev', List.mem_of_mem_dropLast hinner, hheight⟩

theorem Links.cut (h : Links tree graph hash prev containing new entries')
    (hshaped : Shaped tree graph) {key : H} {entry : Entry H V} (hkey : key ∈ containing)
    (hentry : graph.entries.lookup key = some entry) :
    ∃ i, (entry.number - new.number).toNat = i + 1 ∧ entry.ancestors[i]? = some hash := by
  obtain ⟨entry', hentry', -, hmem, hheight⟩ := h.holder_prev hshaped hkey
  obtain rfl := Option.some.inj (hentry.symm.trans hentry')
  have hfitted := hshaped.fitted hentry
  have hget := hfitted.line.getElem_of_mem hmem
  refine ⟨tree.height key - tree.height hash - 1, ?_, hget⟩
  rw [UInt64.toNat_sub_of_le, hfitted.number, h.fitted.number]
  · omega
  · rw [UInt64.le_iff_toNat_le, hfitted.number, h.fitted.number]
    omega

theorem Links.ancestorNode (h : Links tree graph hash prev containing new entries')
    (hshaped : Shaped tree graph) (key next : H) :
    (∃ node, entries'.lookup next = some node ∧ node.ancestorNode = some key) ↔
      (next = hash ∧ key = prev) ∨ (next ∈ containing ∧ key = hash) ∨
      (next ∉ containing ∧ ∃ node, graph.entries.lookup next = some node ∧
        node.ancestorNode = some key) := by
  by_cases hnext : next = hash
  · subst hnext
    have hnone : graph.entries.lookup next = none := AList.lookup_eq_none.mpr h.fresh
    have hnot : next ∉ containing := fun hmem => by
      obtain ⟨entry, hentry, -⟩ := h.holder_prev hshaped hmem
      rw [hnone] at hentry
      cases hentry
    simp [h.lookup, h.edge, hnone, hnot, eq_comm]
  · rw [h.others next hnext]
    by_cases hmem : next ∈ containing
    · obtain ⟨entry, hentry, -⟩ := h.holder_prev hshaped hmem
      obtain ⟨i, hoffset, hi⟩ := h.cut hshaped hmem hentry
      have hnode : (relinked hash prev containing new.number next entry).ancestorNode =
          some hash := by
        simp only [relinked, if_pos hmem, Entry.ancestorNode, hoffset]
        rw [List.getLast?_take]
        simp [hi]
      simp [hentry, hnode, hmem, hnext, eq_comm]
    · have hsame : ∀ entry : Entry H V, (relinked hash prev containing new.number next
          entry).ancestorNode = entry.ancestorNode := by
        intro entry
        simp only [relinked, if_neg hmem, Entry.ancestorNode]
      simp [hmem, hnext, hsame]

theorem Links.fitted_others (h : Links tree graph hash prev containing new entries')
    (hshaped : Shaped tree graph) {key : H} {entry : Entry H V}
    (hentry : graph.entries.lookup key = some entry) :
    Fitted tree graph.base (fun k => k ∈ graph.entries ∨ k = hash) key
      (relinked hash prev containing new.number key entry) := by
  have hfitted := hshaped.fitted hentry
  by_cases hkey : key ∈ containing
  · obtain ⟨i, hoffset, hi⟩ := h.cut hshaped hkey hentry
    have hlt := (List.getElem?_eq_some_iff.mp hi).1
    have hancestors : (relinked hash prev containing new.number key entry).ancestors =
        entry.ancestors.take (i + 1) := by
      simp only [relinked, if_pos hkey, hoffset]
    refine ⟨hfitted.number, ?_, ?_, ?_, ?_⟩
    · rw [hancestors]
      exact hfitted.line.take _
    · intro heq
      rw [hfitted.root heq] at hlt
      exact absurd hlt (by simp)
    · refine fun _ => ⟨hash, ?_, .inr rfl⟩
      rw [Entry.ancestorNode, hancestors, List.getLast?_take]
      simp [hi]
    · intro block hblock
      rw [hancestors, List.dropLast_eq_take, List.length_take, List.take_take,
        show min (min (i + 1) entry.ancestors.length - 1) (i + 1) = i by omega] at hblock
      obtain ⟨j, hj⟩ := List.mem_iff_getElem?.mp hblock
      rw [List.getElem?_take] at hj
      split_ifs at hj with hji
      have hinner : block ∈ entry.ancestors.dropLast := by
        refine List.mem_of_getElem? (i := j) ?_
        rw [List.getElem?_dropLast, if_pos (by omega), hj]
      rintro (hmem | rfl)
      · exact hfitted.inner block hinner hmem
      · have hheight := hfitted.line.height_getElem hj
        have hheight' := hfitted.line.height_getElem hi
        omega
  · have hancestors : (relinked hash prev containing new.number key entry).ancestors =
        entry.ancestors := by
      simp only [relinked, if_neg hkey]
    have hmono : Fitted tree graph.base (fun k => k ∈ graph.entries ∨ k = hash) key entry := by
      refine hfitted.mono (fun k hk => .inl hk) fun block hblock hknown => ?_
      refine hknown.resolve_right ?_
      rintro rfl
      exact hkey ((h.holders key).mpr ⟨entry, hentry, hblock⟩)
    refine ⟨hmono.number, ?_, fun heq => ?_, fun hne => ?_, ?_⟩
    · rw [hancestors]
      exact hmono.line
    · rw [hancestors]
      exact hmono.root heq
    · rw [Entry.ancestorNode, hancestors]
      exact hmono.edge hne
    · rw [hancestors]
      exact hmono.inner

theorem Links.shaped (h : Links tree graph hash prev containing new entries')
    (hshaped : Shaped tree graph) {heads : List H}
    (hheads : ∀ key ∈ graph.heads, key = prev ∨ key ∈ heads)
    (hhead : containing = [] → hash ∈ heads) :
    Shaped tree { graph with entries := entries', heads := heads } := by
  -- A node of the new graph is the new one or has been one before.
  have hcases : ∀ {key entry}, entries'.lookup key = some entry →
      (key = hash ∧ entry = new) ∨ (key ≠ hash ∧ ∃ old, graph.entries.lookup key = some old ∧
        entry = relinked hash prev containing new.number key old) := by
    intro key entry hentry
    by_cases hkey : key = hash
    · subst hkey
      exact .inl ⟨rfl, Option.some.inj (hentry.symm.trans h.lookup)⟩
    · rw [h.others key hkey] at hentry
      obtain ⟨old, hold, hsame⟩ := Option.map_eq_some_iff.mp hentry
      exact .inr ⟨hkey, old, hold, hsame.symm⟩
  have hknown : (fun k => k ∈ entries') = fun k => k ∈ graph.entries ∨ k = hash :=
    funext fun k => propext (h.mem_iff k)
  constructor
  · exact (h.mem_iff _).mpr (.inl hshaped.base)
  · intro key entry hentry
    simp only [hknown]
    rcases hcases hentry with ⟨rfl, rfl⟩ | ⟨-, old, hold, rfl⟩
    · refine h.fitted.mono (fun k hk => .inl hk) fun block hblock hk => ?_
      refine hk.resolve_right ?_
      rintro rfl
      exact absurd (h.fitted.line.height_lt (List.mem_of_mem_dropLast hblock)) (Nat.lt_irrefl _)
    · exact h.fitted_others hshaped hold
  · intro key entry hentry
    rcases hcases hentry with ⟨rfl, rfl⟩ | ⟨-, old, hold, rfl⟩
    · exact h.next ▸ h.nodup
    · simp only [relinked]
      split_ifs with hkey
      · refine List.nodup_append.mpr ⟨(hshaped.nodup hold).filter _, List.nodup_singleton _, ?_⟩
        rintro next hnext other hother rfl
        obtain ⟨node, hnode, -⟩ := (hshaped.linked hold next).mp (List.mem_of_mem_filter hnext)
        exact h.fresh (List.mem_singleton.mp hother ▸ mem_of_lookup hnode)
      · exact hshaped.nodup hold
  · intro key entry hentry next
    rw [h.ancestorNode hshaped]
    rcases hcases hentry with ⟨rfl, rfl⟩ | ⟨hne, old, hold, rfl⟩
    · have hprev : key ≠ prev := fun heq => h.fresh (heq ▸ h.prev_mem hshaped)
      have hnone : ¬ ∃ node, graph.entries.lookup next = some node ∧
          node.ancestorNode = some key := by
        rintro ⟨node, hnode, hkey⟩
        exact h.fresh (hshaped.prev_mem hnode hkey)
      simp [h.next, hprev, hnone]
    · have hold' := hshaped.linked hold next
      simp only [relinked]
      by_cases hkey : key = prev
      · subst hkey
        simp only [if_true, List.mem_append, List.mem_filter, List.mem_singleton, hold',
          decide_eq_true_eq, hne, and_false, and_true, false_or]
        rw [or_comm, and_comm]
      · have hnot : next ∈ containing → ¬ ∃ node, graph.entries.lookup next = some node ∧
            node.ancestorNode = some key := by
          rintro hmem ⟨node, hnode, hnodeKey⟩
          obtain ⟨node', hnode', hprev, -⟩ := h.holder_prev hshaped hmem
          obtain rfl := Option.some.inj (hnode.symm.trans hnode')
          exact hkey (Option.some.inj (hnodeKey.symm.trans hprev))
        rw [if_neg hkey, hold']
        simp only [hkey, hne, and_false, false_or]
        exact ⟨fun hnode => ⟨fun hmem => hnot hmem hnode, hnode⟩, And.right⟩
  · intro key entry hentry hnone
    rcases hcases hentry with ⟨rfl, rfl⟩ | ⟨hne, old, hold, rfl⟩
    · exact hhead (h.next ▸ hnone)
    · simp only [relinked] at hnone
      split_ifs at hnone with hkey
      · exact absurd hnone (by simp)
      · exact (hheads key (hshaped.heads hold hnone)).resolve_left hkey

end Link

end Yeeroot.Grandpa.VoteGraph
