import Yeeroot.Grandpa.VoteGraph.Insert

namespace Yeeroot.Grandpa

-- The blocks that a chain knows of: it gives the way back to a base, or denies that there is one.
structure Chain.Follows {H : Type} (chain : Chain H) (tree : Ancestry H) : Prop where
  route : ∀ {base hash : H}, tree.Descends base hash → hash ≠ base →
    ∃ route, chain.ancestry base hash = .ok (.ok route) ∧ tree.Line (hash :: (route ++ [base]))
  stray : ∀ {base hash : H}, ¬ tree.Descends base hash →
    chain.ancestry base hash = .ok (.error .notDescendent)

namespace VoteGraph

variable {H V B : Type} {tree : Ancestry H} {graph : VoteGraph H V}

section Shape

-- All of an entry but its votes.
def entryShape (entry : Entry H V) : UInt64 × List H × List H :=
  (entry.number, entry.ancestors, entry.descendents)

theorem Fitted.congr {base key : H} {known known' : H → Prop} {entry entry' : Entry H V}
    (h : Fitted tree base known key entry) (hshape : entryShape entry' = entryShape entry)
    (hknown : ∀ k, known' k ↔ known k) : Fitted tree base known' key entry' := by
  obtain ⟨number, ancestors, descendents, vote⟩ := entry
  obtain ⟨number', ancestors', descendents', vote'⟩ := entry'
  obtain ⟨rfl, rfl, rfl⟩ : number' = number ∧ ancestors' = ancestors ∧
    descendents' = descendents := by simpa [entryShape] using hshape
  obtain rfl : known' = known := funext fun k => propext (hknown k)
  exact ⟨h.number, h.line, h.root, h.edge, h.inner⟩

variable [DecidableEq H]

def SameShape (entries entries' : Entries H V) : Prop :=
  ∀ key, (entries'.lookup key).map entryShape = (entries.lookup key).map entryShape

variable {entries entries' entries'' : Entries H V}

theorem SameShape.trans (h : SameShape entries entries') (h' : SameShape entries' entries'') :
    SameShape entries entries'' := fun key => (h' key).trans (h key)

theorem SameShape.mem_iff (h : SameShape entries entries') (key : H) :
    key ∈ entries' ↔ key ∈ entries := by
  rw [← AList.lookup_isSome, ← AList.lookup_isSome, ← Option.isSome_map (f := entryShape), h key,
    Option.isSome_map]

theorem SameShape.lookup (h : SameShape entries entries') {key : H} {entry' : Entry H V}
    (hentry : entries'.lookup key = some entry') :
    ∃ entry, entries.lookup key = some entry ∧ entryShape entry' = entryShape entry := by
  have hsome := h key
  rw [hentry] at hsome
  obtain ⟨entry, hentry', hshape⟩ := Option.map_eq_some_iff.mp hsome.symm
  exact ⟨entry, hentry', hshape.symm⟩

theorem SameShape.ancestorNode (h : SameShape entries entries') (key next : H) :
    (∃ node, entries'.lookup next = some node ∧ node.ancestorNode = some key) ↔
      ∃ node, entries.lookup next = some node ∧ node.ancestorNode = some key := by
  constructor
  · rintro ⟨node', hnode', hkey⟩
    obtain ⟨node, hnode, hshape⟩ := h.lookup hnode'
    simp only [entryShape, Prod.mk.injEq] at hshape
    refine ⟨node, hnode, ?_⟩
    rwa [Entry.ancestorNode, hshape.2.1] at hkey
  · rintro ⟨node, hnode, hkey⟩
    obtain ⟨node', hnode', hshape⟩ := SameShape.lookup (fun k => (h k).symm) hnode
    simp only [entryShape, Prod.mk.injEq] at hshape
    refine ⟨node', hnode', ?_⟩
    rwa [Entry.ancestorNode, hshape.2.1] at hkey

theorem Shaped.of_sameShape (h : Shaped tree graph) (hsame : SameShape graph.entries entries') :
    Shaped tree { graph with entries := entries' } := by
  constructor
  · exact (hsame.mem_iff _).mpr h.base
  · intro key entry' hentry'
    obtain ⟨entry, hentry, hshape⟩ := hsame.lookup hentry'
    exact (h.fitted hentry).congr hshape hsame.mem_iff
  · intro key entry' hentry'
    obtain ⟨entry, hentry, hshape⟩ := hsame.lookup hentry'
    simp only [entryShape, Prod.mk.injEq] at hshape
    exact hshape.2.2 ▸ h.nodup hentry
  · intro key entry' hentry' next
    obtain ⟨entry, hentry, hshape⟩ := hsame.lookup hentry'
    simp only [entryShape, Prod.mk.injEq] at hshape
    rw [hshape.2.2, h.linked hentry next]
    exact (hsame.ancestorNode key next).symm
  · intro key entry' hentry' hnone
    obtain ⟨entry, hentry, hshape⟩ := hsame.lookup hentry'
    simp only [entryShape, Prod.mk.injEq] at hshape
    exact h.heads hentry (hshape.2.2 ▸ hnone)

end Shape

variable [DecidableEq H] [VoteValue V]

-- What votes stand for: ballots, which are put together when votes are added.
structure Tallies (tally : V → Multiset B → Prop) : Prop where
  default : tally VoteValue.default 0
  add : ∀ {a b : V} {s t : Multiset B}, tally a s → tally b t →
    ∃ sum, VoteValue.addAssign a b = .ok sum ∧ tally sum (s + t)

omit [VoteValue V] in
def Counts (tally : V → Multiset B → Prop) (entries : Entries H V) (count : H → Multiset B) :
    Prop :=
  ∀ key entry, entries.lookup key = some entry → tally entry.cumulativeVote (count key)

variable {tally : V → Multiset B → Prop} {count count' : H → Multiset B}

omit [VoteValue V] in
theorem Counts.congr {entries : Entries H V} (h : Counts tally entries count)
    (hcount : ∀ key ∈ entries, count key = count' key) : Counts tally entries count' :=
  fun key entry hentry => hcount key (mem_of_lookup hentry) ▸ h key entry hentry

open Classical in
theorem accumulate_counts (htallies : Tallies tally) {vote : V} {cast : Multiset B}
    (hvote : tally vote cast) {fuel : Nat} {key : H} (hshaped : Shaped tree graph)
    (hcounts : Counts tally graph.entries count) (hkey : key ∈ graph.entries)
    (hfuel : (upTo tree.height graph.entries key).card ≤ fuel) :
    ∃ entries', accumulate vote fuel key graph.entries = .ok entries' ∧
      SameShape graph.entries entries' ∧
      Counts tally entries' fun k =>
        if tree.Descends k key then cast + count k else count k := by
  induction fuel generalizing key graph count with
  | zero =>
    have hself : key ∈ upTo tree.height graph.entries key :=
      Finset.mem_filter.mpr ⟨mem_keySet.mpr hkey, Nat.le_refl _⟩
    exact absurd (Finset.card_pos.mpr ⟨key, hself⟩) (by omega)
  | succ fuel ih =>
    obtain ⟨entry, hentry⟩ := exists_entry hkey
    have hfitted := hshaped.fitted hentry
    obtain ⟨sum, hsum, htally⟩ := htallies.add (hcounts key entry hentry) hvote
    let entries := graph.entries.insert key { entry with cumulativeVote := sum }
    have hsame : SameShape graph.entries entries := by
      intro k
      by_cases hk : k = key
      · rw [hk, AList.lookup_insert, hentry]
        rfl
      · rw [AList.lookup_insert_ne hk]
    have hcounts' : Counts tally entries
        (fun k => if k = key then cast + count k else count k) := by
      intro k node hnode
      dsimp only
      by_cases hk : k = key
      · rw [hk, AList.lookup_insert] at hnode
        rw [if_pos hk, hk, ← Option.some.inj hnode, add_comm]
        exact htally
      · rw [AList.lookup_insert_ne hk] at hnode
        rw [if_neg hk]
        exact hcounts k node hnode
    cases hprev : entry.ancestorNode with
    | none =>
      -- Without an edge this is the base, above which there is no other node.
      have hbase : key = graph.base := by
        by_contra hne
        obtain ⟨prev, hprev', -⟩ := hfitted.edge hne
        rw [hprev] at hprev'
        cases hprev'
      refine ⟨entries, ?_, hsame, hcounts'.congr fun k hk => if_congr ?_ rfl rfl⟩
      · simp only [accumulate, hentry, Run.expect, hsum, hprev, bind, Except.bind]
        rfl
      · constructor
        · rintro rfl
          exact .refl
        · intro hdescends
          exact hdescends.antisymm (hbase ▸ hshaped.descends_base ((hsame.mem_iff k).mp hk))
    | some prev =>
      have hheight := hfitted.height_prev hprev
      have hfuel' : (upTo tree.height entries prev).card ≤ fuel := by
        have hlt := card_upTo_lt tree.height hkey hheight
        rw [upTo, keySet_congr hsame.mem_iff]
        exact Nat.le_of_lt_succ (Nat.lt_of_lt_of_le hlt hfuel)
      obtain ⟨entries', haccumulate, hsame', hcounts''⟩ :=
        ih (hshaped.of_sameShape hsame) hcounts'
          ((hsame.mem_iff prev).mpr (hshaped.prev_mem hentry hprev)) hfuel'
      refine ⟨entries', ?_, hsame.trans hsame', hcounts''.congr fun k hk => ?_⟩
      · simp only [accumulate, hentry, Run.expect, hsum, hprev, bind, Except.bind]
        exact haccumulate
      · have hmem := (hsame.mem_iff k).mp ((hsame'.mem_iff k).mp hk)
        by_cases hkk : k = key
        · have hnot : ¬ tree.Descends k prev := by
            intro hdescends
            have hle := hdescends.height_le
            rw [hkk] at hle
            omega
          rw [if_neg hnot, if_pos hkk, if_pos (hkk ▸ .refl)]
        · have hiff : tree.Descends k prev ↔ tree.Descends k key :=
            ⟨fun h => h.trans (hfitted.descends_prev hprev),
              fun h => hfitted.nearest hprev hmem h hkk⟩
          rw [if_neg hkk, if_congr hiff rfl rfl]

omit [VoteValue V] in
open Classical in
theorem Links.counts {hash prev : H} {containing : List H} {new : Entry H V}
    {entries' : Entries H V} (h : Links tree graph hash prev containing new entries')
    (hcounts : Counts tally graph.entries count) {total : Multiset B}
    (hnew : tally new.cumulativeVote total) :
    Counts tally entries' fun k => if k = hash then total else count k := by
  intro key node hnode
  dsimp only
  by_cases hkey : key = hash
  · subst hkey
    rw [h.lookup] at hnode
    rwa [if_pos rfl, ← Option.some.inj hnode]
  · rw [h.others key hkey] at hnode
    obtain ⟨old, hold, rfl⟩ := Option.map_eq_some_iff.mp hnode
    rw [if_neg hkey]
    exact hcounts key old hold

section Branch

variable {hash prev : H} {number : UInt64} {containing : List H}

theorem foldlM_cutEdge_eq (htallies : Tallies tally) (hnodup : containing.Nodup)
    {entries : Entries H V}
    (hentries : ∀ key ∈ containing, ∃ entry, entries.lookup key = some entry ∧
      tally entry.cumulativeVote (count key) ∧ number ≤ entry.number ∧
      (entry.number - number).toNat ≤ entry.ancestors.length)
    (new : Entry H V) (prev? : Option H) {begun : Multiset B}
    (hbegun : tally new.cumulativeVote begun) :
    ∃ entries' sum, containing.foldlM (cutEdge number) (entries, some (new, prev?)) =
        .ok (entries', some ({ new with
          descendents := new.descendents ++ containing, cumulativeVote := sum }, prev?)) ∧
      tally sum (begun + (containing.map count).sum) ∧
      ∀ key, entries'.lookup key = (entries.lookup key).map fun entry =>
        { entry with ancestors := if key ∈ containing then
            entry.ancestors.take (entry.number - number).toNat else entry.ancestors } := by
  induction containing generalizing entries new begun with
  | nil =>
    refine ⟨entries, new.cumulativeVote, ?_, by simpa using hbegun, fun key => ?_⟩
    · rw [List.append_nil]
      rfl
    · simp
  | cons first rest ih =>
    obtain ⟨hfirst, hnodup⟩ := List.nodup_cons.mp hnodup
    obtain ⟨⟨entry, hentry, htally, hle, hoffset⟩, hrest⟩ := List.forall_mem_cons.mp hentries
    obtain ⟨sum, hsum, htallied⟩ := htallies.add hbegun htally
    let cut : Entry H V :=
      { entry with ancestors := entry.ancestors.take (entry.number - number).toNat }
    let next : Entry H V :=
      { new with descendents := new.descendents ++ [first], cumulativeVote := sum }
    have hcut : cutEdge number (entries, some (new, prev?)) first =
        .ok (entries.insert first cut, some (next, prev?)) := by
      simp only [cutEdge, hentry, Run.expect, bind, Except.bind, if_neg (UInt64.not_lt.mpr hle),
        if_neg (Nat.not_lt.mpr hoffset), Option.getD_some, hsum]
      rfl
    have hentries' : ∀ key ∈ rest, ∃ entry, (entries.insert first cut).lookup key = some entry ∧
        tally entry.cumulativeVote (count key) ∧ number ≤ entry.number ∧
        (entry.number - number).toNat ≤ entry.ancestors.length := by
      intro key hkey
      have hne : key ≠ first := fun heq => hfirst (heq ▸ hkey)
      rw [AList.lookup_insert_ne hne]
      exact hrest key hkey
    obtain ⟨entries', total, hfold, htotal, hlookup⟩ := ih hnodup hentries' next htallied
    refine ⟨entries', total, ?_, ?_, fun key => ?_⟩
    · rw [List.foldlM_cons, hcut]
      simp only [bind, Except.bind, hfold, next, List.append_assoc, List.singleton_append]
    · rwa [List.map_cons, List.sum_cons, ← add_assoc]
    · rw [hlookup]
      by_cases hkey : key = first
      · subst hkey
        simp [hentry, hfirst, cut]
      · rw [AList.lookup_insert_ne hkey]
        simp [hkey]

omit [VoteValue V] in
theorem Holder.fitted_rest (hshaped : Shaped tree graph) {key : H} {entry : Entry H V}
    (hholder : Holder graph.entries hash key) (hentry : graph.entries.lookup key = some entry)
    (hprev : entry.ancestorNode = some prev) (hnumber : number.toNat = tree.height hash)
    (next : List H) (vote : V) :
    number ≤ entry.number ∧ (entry.number - number).toNat ≤ entry.ancestors.length ∧
      (entry.ancestors.drop (entry.number - number).toNat).getLast? = some prev ∧
      Fitted tree graph.base (· ∈ graph.entries) hash
        ⟨number, entry.ancestors.drop (entry.number - number).toNat, next, vote⟩ := by
  have hnew := hholder.not_mem hshaped
  obtain ⟨entry', prev', hentry', hprev', hinner, hmem, habove, -, hheight, -⟩ :=
    hholder.edge hshaped
  obtain rfl := Option.some.inj (hentry.symm.trans hentry')
  obtain rfl := Option.some.inj (hprev.symm.trans hprev')
  have hfitted := hshaped.fitted hentry
  have hle : number ≤ entry.number := by
    rw [UInt64.le_iff_toNat_le, hfitted.number, hnumber]
    omega
  have hoffset : (entry.number - number).toNat = tree.height key - tree.height hash - 1 + 1 := by
    rw [UInt64.toNat_sub_of_le _ _ hle, hfitted.number, hnumber]
    omega
  have hlength : tree.height key - tree.height hash - 1 + 1 < entry.ancestors.length := by
    have hlast := hfitted.line.height_last hprev
    have hprevHeight := habove.height_lt fun heq => hnew (heq ▸ hmem)
    omega
  have hedge : (entry.ancestors.drop (entry.number - number).toNat).getLast? = some prev := by
    rw [hoffset, List.getLast?_drop, if_neg (by omega)]
    exact hprev
  refine ⟨hle, by omega, hedge, hnumber, ?_, fun heq => absurd (heq ▸ hshaped.base) hnew,
    fun _ => ⟨prev, hedge, hmem⟩, fun block hblock => hfitted.inner block ?_⟩
  · rw [hoffset]
    exact hfitted.line.drop (hfitted.line.getElem_of_mem (List.mem_of_mem_dropLast hinner))
  · have hne : entry.ancestors.drop (entry.number - number).toNat ≠ [] := by
      intro hnil
      rw [hnil] at hedge
      cases hedge
    rw [← List.take_append_drop (entry.number - number).toNat entry.ancestors,
      List.dropLast_append_of_ne_nil hne]
    exact List.mem_append_right _ hblock

open Classical in
theorem introduceBranch_counts (htallies : Tallies tally) (hshaped : Shaped tree graph)
    (hcounts : Counts tally graph.entries count) (hnew : hash ∉ graph.entries)
    (hnumber : number.toNat = tree.height hash) (hnodup : containing.Nodup)
    (hholders : ∀ key, key ∈ containing ↔ Holder graph.entries hash key)
    (hsome : containing ≠ []) :
    ∃ graph', introduceBranch graph containing hash number = .ok graph' ∧
      graph'.base = graph.base ∧ graph'.baseNumber = graph.baseNumber ∧ Shaped tree graph' ∧
      (∀ key, key ∈ graph'.entries ↔ key ∈ graph.entries ∨ key = hash) ∧
      Counts tally graph'.entries fun k =>
        if k = hash then (containing.map count).sum else count k := by
  obtain ⟨first, rest, rfl⟩ := List.exists_cons_of_ne_nil hsome
  -- The new node takes over the rest of the first edge.
  have hfirst := (hholders first).mp List.mem_cons_self
  obtain ⟨entry, prev, hentry, hprev, -, hprevMem, habove, -, -, -⟩ := hfirst.edge hshaped
  have hentries : ∀ key ∈ first :: rest, ∃ entry, graph.entries.lookup key = some entry ∧
      tally entry.cumulativeVote (count key) ∧ number ≤ entry.number ∧
      (entry.number - number).toNat ≤ entry.ancestors.length := by
    intro key hkey
    have hholder := (hholders key).mp hkey
    obtain ⟨entry, prev, hentry, hprev, -⟩ := hholder.edge hshaped
    obtain ⟨hle, hlength, -⟩ := hholder.fitted_rest hshaped hentry hprev hnumber [] VoteValue.default
    exact ⟨entry, hentry, hcounts key entry hentry, hle, hlength⟩
  let rest' := entry.ancestors.drop (entry.number - number).toNat
  obtain ⟨entries, sum, hfold, htally, hlookup⟩ := foldlM_cutEdge_eq htallies hnodup hentries
    ⟨number, rest', [], VoteValue.default⟩ (some prev) htallies.default
  let new : Entry H V := ⟨number, rest', first :: rest, sum⟩
  have hbegin : (first :: rest).foldlM (cutEdge number) (graph.entries, none) =
      .ok (entries, some (new, some prev)) := by
    refine Eq.trans ?_ hfold
    rw [List.foldlM_cons, List.foldlM_cons]
    simp only [cutEdge, hentry, hprev, Run.expect, bind, Except.bind, Option.getD_none,
      Option.getD_some, rest']
  obtain ⟨-, -, hedge, hfitted⟩ :=
    hfirst.fitted_rest hshaped hentry hprev hnumber (first :: rest) sum
  have hprevNot : prev ∉ first :: rest := by
    intro hmem
    obtain ⟨-, -, -, -, -, -, -, -, hheight, -⟩ := ((hholders prev).mp hmem).edge hshaped
    have hle := habove.height_le
    omega
  obtain ⟨node, hnode⟩ := exists_entry hprevMem
  have hnode' : entries.lookup prev = some node := by
    simp [hlookup, hnode, hprevNot]
  let kept := node.descendents.filter fun k => k ∉ first :: rest
  let entries' := (entries.insert prev { node with descendents := kept ++ [hash] }).insert hash new
  have hlinks : Links tree graph hash prev (first :: rest) new entries' := by
    refine ⟨hnew, hfitted, hedge, hholders, hnodup, rfl, AList.lookup_insert _, ?_⟩
    intro key hkey
    rw [AList.lookup_insert_ne hkey]
    by_cases hkeyPrev : key = prev
    · subst hkeyPrev
      rw [AList.lookup_insert, hnode]
      simp [relinked, hprevNot, kept]
    · rw [AList.lookup_insert_ne hkeyPrev, hlookup]
      refine congrArg (Option.map · _) (funext fun entry => ?_)
      simp only [relinked, if_neg hkeyPrev, new]
  have hfresh : hash ∉ entries.insert prev { node with descendents := kept ++ [hash] } := by
    rw [mem_insert_iff (mem_of_lookup hnode'), ← AList.lookup_isSome, hlookup, Option.isSome_map,
      AList.lookup_isSome]
    exact hnew
  refine ⟨{ graph with entries := entries' }, ?_, rfl, rfl,
    hlinks.shaped hshaped (fun key hkey => .inr hkey) (by simp), hlinks.mem_iff,
    hlinks.counts hcounts (by simpa using htally)⟩
  simp only [introduceBranch, hbegin, hnode', Run.expect, bind, Except.bind, pure, Except.pure]
  rw [if_neg hfresh]

end Branch

section Append

omit [VoteValue V]

theorem findSome_node {entries : Entries H V} {list : List H} {ancestor : H} {entry : Entry H V}
    {index : Nat} (h : list.zipIdx.findSome? (fun (ancestor, index) =>
      (entries.lookup ancestor).map fun entry => (ancestor, entry, index)) =
        some (ancestor, entry, index)) :
    ∀ i < index, ∀ block, list[i]? = some block → block ∉ entries := by
  obtain ⟨before, ⟨block, place⟩, after, hlist, hfound, hbefore⟩ := List.findSome?_eq_some_iff.mp h
  obtain ⟨entry', -, hsame⟩ := Option.map_eq_some_iff.mp hfound
  simp only [Prod.mk.injEq] at hsame
  obtain ⟨rfl, -, rfl⟩ := hsame
  have hplace : before.length = place := by
    have hget : list.zipIdx[before.length]? = some (block, place) := by
      rw [hlist, List.getElem?_append_right (Nat.le_refl _)]
      simp
    rw [List.getElem?_zipIdx, Option.map_eq_some_iff] at hget
    obtain ⟨found, -, hsame⟩ := hget
    simpa using (Prod.mk.inj hsame).2
  intro i hi other hother
  have hget : list.zipIdx[i]? = some (other, i) := by
    simp [List.getElem?_zipIdx, hother]
  rw [hlist, List.getElem?_append_left (by omega)] at hget
  have hnone := hbefore _ (List.mem_of_getElem? hget)
  exact AList.lookup_eq_none.mp (Option.map_eq_none_iff.mp hnone)

variable [VoteValue V] {hash : H} {number : UInt64}

open Classical in
theorem append_counts (htallies : Tallies tally) (hshaped : Shaped tree graph)
    (hcounts : Counts tally graph.entries count) (hnew : hash ∉ graph.entries)
    (hnumber : number.toNat = tree.height hash) {chain : Chain H} (hchain : chain.Follows tree)
    (hdescends : tree.Descends graph.base hash)
    (hnone : ∀ key, ¬ Holder graph.entries hash key) :
    ∃ graph', append chain graph hash number = .ok (.ok graph') ∧
      graph'.base = graph.base ∧ graph'.baseNumber = graph.baseNumber ∧ Shaped tree graph' ∧
      (∀ key, key ∈ graph'.entries ↔ key ∈ graph.entries ∨ key = hash) ∧
      Counts tally graph'.entries fun k => if k = hash then 0 else count k := by
  have hne : hash ≠ graph.base := fun heq => hnew (heq ▸ hshaped.base)
  obtain ⟨route, hroute, hline⟩ := hchain.route hdescends hne
  obtain ⟨ancestor, entry, index, hsearch, hentry, hindex⟩ :=
    firstAncestor_returns hshaped.base route
  have hlt : index < (route ++ [graph.base]).length := (List.getElem?_eq_some_iff.mp hindex).1
  have hfirst : ∀ i < index, ∀ block, (route ++ [graph.base])[i]? = some block →
      block ∉ graph.entries := by
    intro i hi block hblock
    refine findSome_node hsearch i hi block ?_
    rw [List.getElem?_append_left (by omega), hblock]
  let new : Entry H V :=
    ⟨number, (route ++ [graph.base]).take (index + 1), [], VoteValue.default⟩
  have hedge : new.ancestorNode = some ancestor := by
    simp only [new, Entry.ancestorNode]
    rw [List.getLast?_take]
    simp [hindex]
  have hfitted : Fitted tree graph.base (· ∈ graph.entries) hash new := by
    refine ⟨hnumber, hline.take _, fun heq => absurd heq hne,
      fun _ => ⟨ancestor, hedge, mem_of_lookup hentry⟩, fun block hblock => ?_⟩
    simp only [new] at hblock
    rw [List.dropLast_eq_take, List.length_take, List.take_take,
      show min (min (index + 1) (route ++ [graph.base]).length - 1) (index + 1) = index by
        omega] at hblock
    obtain ⟨i, hi⟩ := List.mem_iff_getElem?.mp hblock
    rw [List.getElem?_take] at hi
    split_ifs at hi with hlt
    exact hfirst i hlt block hi
  let entries' := (graph.entries.insert ancestor
    { entry with descendents := entry.descendents ++ [hash] }).insert hash new
  have hlinks : Links tree graph hash ancestor [] new entries' := by
    refine ⟨hnew, hfitted, hedge, by simp [hnone], List.nodup_nil, rfl, AList.lookup_insert _, ?_⟩
    intro key hkey
    rw [AList.lookup_insert_ne hkey]
    by_cases hkeyPrev : key = ancestor
    · subst hkeyPrev
      rw [AList.lookup_insert, hentry]
      simp [relinked]
    · have hsame : relinked (V := V) hash ancestor [] new.number key = id :=
        funext fun entry => by simp [relinked, hkeyPrev]
      rw [AList.lookup_insert_ne hkeyPrev, hsame, Option.map_id_fun, id]
  let erased := graph.heads.erase ancestor
  let heads := if hash ∈ erased then erased else erased ++ [hash]
  have hhead : hash ∈ heads := by
    unfold heads
    split_ifs with hmem
    · exact hmem
    · exact List.mem_append_right _ (List.mem_singleton_self hash)
  have hheads : ∀ key ∈ graph.heads, key = ancestor ∨ key ∈ heads := by
    intro key hkey
    by_cases hkeyPrev : key = ancestor
    · exact .inl hkeyPrev
    · have hmem : key ∈ erased := (List.mem_erase_of_ne hkeyPrev).mpr hkey
      unfold heads
      split_ifs
      · exact .inr hmem
      · exact .inr (List.mem_append_left _ hmem)
  refine ⟨{ graph with entries := entries', heads := heads }, ?_, rfl, rfl,
    hlinks.shaped hshaped hheads fun _ => hhead, hlinks.mem_iff,
    hlinks.counts hcounts htallies.default⟩
  simp only [append, hroute, bind, Except.bind, hsearch, hindex, Run.expect]
  rfl

end Append

-- A graph that stands for the ballots cast so far: every node has the votes of all blocks that
-- descend from it.
structure Represents (tree : Ancestry H) (tally : V → Multiset B → Prop)
    (ballots : Multiset (H × B)) (graph : VoteGraph H V) : Prop where
  shaped : Shaped tree graph
  baseNumber : graph.baseNumber.toNat = tree.height graph.base
  counts : Counts tally graph.entries (tree.support ballots)
  cast : ∀ ballot ∈ ballots, ballot.1 ∈ graph.entries

variable {ballots : Multiset (H × B)}

theorem represents_new (htallies : Tallies tally) {base : H} {number : UInt64}
    (hnumber : number.toNat = tree.height base) :
    Represents tree tally 0 (VoteGraph.new base number : VoteGraph H V) := by
  have hbase : (VoteGraph.new base number : VoteGraph H V).entries.lookup base =
      some ⟨number, [], [], VoteValue.default⟩ := AList.lookup_insert ∅
  have honly : ∀ {key entry}, (VoteGraph.new base number : VoteGraph H V).entries.lookup key =
      some entry → key = base ∧ entry = ⟨number, [], [], VoteValue.default⟩ := by
    intro key entry hentry
    have hmem : key ∈ [base] := mem_of_lookup hentry
    obtain rfl := List.mem_singleton.mp hmem
    exact ⟨rfl, Option.some.inj (hentry.symm.trans hbase)⟩
  refine ⟨⟨mem_of_lookup hbase, ?_, ?_, ?_, ?_⟩, hnumber, ?_, by simp⟩
  · intro key entry hentry
    obtain ⟨rfl, rfl⟩ := honly hentry
    exact ⟨hnumber, List.isChain_singleton _, fun _ => rfl, fun hne => absurd rfl hne, by simp⟩
  · intro key entry hentry
    obtain ⟨rfl, rfl⟩ := honly hentry
    exact List.nodup_nil
  · intro key entry hentry next
    obtain ⟨rfl, rfl⟩ := honly hentry
    simp only [List.not_mem_nil, false_iff]
    rintro ⟨node, hnode, hedge⟩
    obtain ⟨rfl, rfl⟩ := honly hnode
    cases hedge
  · intro key entry hentry _
    obtain ⟨rfl, rfl⟩ := honly hentry
    exact List.mem_singleton_self _
  · intro key entry hentry
    obtain ⟨rfl, rfl⟩ := honly hentry
    exact htallies.default

section Insert

variable {hash : H} {number : UInt64} {containing : List H}

theorem Represents.introduceBranch (htallies : Tallies tally)
    (h : Represents tree tally ballots graph) (hnew : hash ∉ graph.entries)
    (hdescends : tree.Descends graph.base hash) (hnumber : number.toNat = tree.height hash)
    (hnodup : containing.Nodup)
    (hholders : ∀ key, key ∈ containing ↔ Holder graph.entries hash key)
    (hsome : containing ≠ []) :
    ∃ placed, VoteGraph.introduceBranch graph containing hash number = .ok placed ∧
      placed.base = graph.base ∧ placed.baseNumber = graph.baseNumber ∧ hash ∈ placed.entries ∧
      Represents tree tally ballots placed := by
  have hparts := h.shaped.parts h.cast hnew hdescends hnodup hholders
  obtain ⟨placed, hbranch, hbase, hbaseNumber, hshaped, hmem, hcounts⟩ :=
    introduceBranch_counts htallies h.shaped h.counts hnew hnumber hnodup hholders hsome
  refine ⟨placed, hbranch, hbase, hbaseNumber, (hmem _).mpr (.inr rfl), hshaped, ?_,
    hcounts.congr fun key _ => ?_, fun ballot hballot => (hmem _).mpr (.inl (h.cast ballot hballot))⟩
  · rw [hbaseNumber, hbase]
    exact h.baseNumber
  · split_ifs with hkey
    · rw [hkey, hparts.support_eq]
    · rfl

theorem Represents.append (htallies : Tallies tally) (h : Represents tree tally ballots graph)
    (hnew : hash ∉ graph.entries) (hdescends : tree.Descends graph.base hash)
    (hnumber : number.toNat = tree.height hash) {chain : Chain H} (hchain : chain.Follows tree)
    (hnone : ∀ key, ¬ Holder graph.entries hash key) :
    ∃ placed, VoteGraph.append chain graph hash number = .ok (.ok placed) ∧
      placed.base = graph.base ∧ placed.baseNumber = graph.baseNumber ∧ hash ∈ placed.entries ∧
      Represents tree tally ballots placed := by
  have hparts := h.shaped.parts h.cast hnew hdescends List.nodup_nil (by simp [hnone])
  obtain ⟨placed, happend, hbase, hbaseNumber, hshaped, hmem, hcounts⟩ :=
    append_counts htallies h.shaped h.counts hnew hnumber hchain hdescends hnone
  refine ⟨placed, happend, hbase, hbaseNumber, (hmem _).mpr (.inr rfl), hshaped, ?_,
    hcounts.congr fun key _ => ?_, fun ballot hballot => (hmem _).mpr (.inl (h.cast ballot hballot))⟩
  · rw [hbaseNumber, hbase]
    exact h.baseNumber
  · split_ifs with hkey
    · rw [hkey, hparts.support_eq]
      rfl
    · rfl

theorem Represents.vote (htallies : Tallies tally) (h : Represents tree tally ballots graph)
    (hmem : hash ∈ graph.entries) {vote : V} {ballot : B} (hvote : tally vote {ballot}) :
    ∃ entries, accumulate vote graph.entries.keys.length hash graph.entries = .ok entries ∧
      Represents tree tally ((hash, ballot) ::ₘ ballots) { graph with entries := entries } := by
  classical
  have hfuel : (upTo tree.height graph.entries hash).card ≤ graph.entries.keys.length := by
    rw [← card_keySet]
    exact Finset.card_filter_le _ _
  obtain ⟨entries, haccumulate, hshape, hcounts⟩ :=
    accumulate_counts htallies hvote h.shaped h.counts hmem hfuel
  refine ⟨entries, haccumulate, h.shaped.of_sameShape hshape, h.baseNumber,
    hcounts.congr fun key _ => ?_, fun other hother => ?_⟩
  · rw [Ancestry.support_cons]
    split_ifs
    · rfl
    · rw [zero_add]
  · rw [hshape.mem_iff]
    rcases Multiset.mem_cons.mp hother with rfl | hother
    · exact hmem
    · exact h.cast other hother

-- One more vote. Neither the order of the heads nor the place of the block in the graph matters.
theorem Represents.insert (htallies : Tallies tally) (h : Represents tree tally ballots graph)
    {order : List H → List H} (horder : ∀ heads, (order heads).Perm heads) {chain : Chain H}
    (hchain : chain.Follows tree) (hdescends : tree.Descends graph.base hash)
    (hnumber : number.toNat = tree.height hash) {vote : V} {ballot : B}
    (hvote : tally vote {ballot}) :
    ∃ graph', VoteGraph.insert order chain graph hash number vote = .ok (.ok graph') ∧
      graph'.base = graph.base ∧ graph'.baseNumber = graph.baseNumber ∧
      Represents tree tally ((hash, ballot) ::ₘ ballots) graph' := by
  by_cases hnew : hash ∈ graph.entries
  · have hfound : findContainingNodes order graph hash number = none := if_pos hnew
    obtain ⟨entries, haccumulate, hrepresents⟩ := h.vote htallies hnew hvote
    refine ⟨{ graph with entries := entries }, ?_, rfl, rfl, hrepresents⟩
    simp only [VoteGraph.insert, hfound, pure, Except.pure, haccumulate, bind, Except.bind]
  · obtain ⟨containing, hfound, hnodup, hholders⟩ :=
      findContainingNodes_eq h.shaped horder hnew hnumber
    cases containing with
    | nil =>
      obtain ⟨placed, happend, hbase, hbaseNumber, hmem, hplaced⟩ :=
        h.append htallies hnew hdescends hnumber hchain
          (fun key hholder => by simpa using (hholders key).mpr hholder)
      obtain ⟨entries, haccumulate, hrepresents⟩ := hplaced.vote htallies hmem hvote
      refine ⟨{ placed with entries := entries }, ?_, hbase, hbaseNumber, hrepresents⟩
      simp only [VoteGraph.insert, hfound, happend, haccumulate, bind, Except.bind]
      rfl
    | cons first rest =>
      obtain ⟨placed, hbranch, hbase, hbaseNumber, hmem, hplaced⟩ :=
        h.introduceBranch htallies hnew hdescends hnumber hnodup hholders
          (List.cons_ne_nil first rest)
      obtain ⟨entries, haccumulate, hrepresents⟩ := hplaced.vote htallies hmem hvote
      refine ⟨{ placed with entries := entries }, ?_, hbase, hbaseNumber, hrepresents⟩
      simp only [VoteGraph.insert, hfound, hbranch, pure, Except.pure, haccumulate, bind,
        Except.bind]

end Insert

end VoteGraph

end Yeeroot.Grandpa
