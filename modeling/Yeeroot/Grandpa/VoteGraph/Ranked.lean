import Mathlib.Data.Finset.Card
import Yeeroot.Grandpa.VoteGraph
import Yeeroot.Overflow

namespace Yeeroot.Grandpa.VoteGraph

variable {H V : Type}

-- An entry in its place: depths fall along its ancestors, the last of which is a node, and
-- rise to its descendents. Only the base has no ancestors. The numbers that voters give to
-- blocks play no part in it.
structure Placed (depth : H → Nat) (base : H) (fits : V → Prop) (known : H → Prop) (key : H)
    (entry : Entry H V) : Prop where
  root : key = base → entry.ancestors = []
  edge : key ≠ base → ∃ prev, entry.ancestorNode = some prev ∧ known prev
  falling : (key :: entry.ancestors).Pairwise fun a b => depth b < depth a
  rising : ∀ descendent ∈ entry.descendents, known descendent ∧ depth key < depth descendent
  fits : fits entry.cumulativeVote

section Placed

variable {depth : H → Nat} {base : H} {fits : V → Prop} {known known' : H → Prop} {key : H}
  {entry : Entry H V}

theorem Placed.mono (h : Placed depth base fits known key entry)
    (hknown : ∀ k, known k → known' k) : Placed depth base fits known' key entry where
  root := h.root
  edge hkey := (h.edge hkey).imp fun _ hprev => ⟨hprev.1, hknown _ hprev.2⟩
  falling := h.falling
  rising descendent hmem := ⟨hknown _ (h.rising descendent hmem).1, (h.rising descendent hmem).2⟩
  fits := h.fits

theorem Placed.depth_lt (h : Placed depth base fits known key entry) {ancestor : H}
    (hmem : ancestor ∈ entry.ancestors) : depth ancestor < depth key :=
  (List.pairwise_cons.mp h.falling).1 ancestor hmem

theorem Placed.depth_ancestorNode (h : Placed depth base fits known key entry) {prev : H}
    (hprev : entry.ancestorNode = some prev) : depth prev < depth key :=
  h.depth_lt (List.mem_of_getLast? hprev)

theorem Placed.cut {nodes : H → Prop} {hash descendent : H} {entry : Entry H V}
    (hplaced : Placed depth base fits nodes descendent entry) (hnew : ¬ nodes hash)
    (hbase : nodes base) {i : Nat} (hi : entry.ancestors[i]? = some hash) (number : UInt64) :
    descendent ≠ base ∧ depth hash < depth descendent ∧
      Placed depth base fits (fun k => nodes k ∨ k = hash) descendent
        { entry with ancestors := entry.ancestors.take (i + 1) } ∧
      ∀ sum, fits sum → Placed depth base fits (fun k => nodes k ∨ k = hash) hash
        ⟨number, entry.ancestors.drop (i + 1), [], sum⟩ ∧
      (entry.ancestors.drop (i + 1)).getLast? = entry.ancestorNode := by
  have hlt : i < entry.ancestors.length := (List.getElem?_eq_some_iff.mp hi).1
  have hget : entry.ancestors[i] = hash := (List.getElem?_eq_some_iff.mp hi).2
  have hne : descendent ≠ base := by
    intro heq
    rw [hplaced.root heq] at hlt
    exact Nat.not_lt_zero _ hlt
  obtain ⟨prev, hprev, hnode⟩ := hplaced.edge hne
  have hdrop : entry.ancestors.drop i = hash :: entry.ancestors.drop (i + 1) := by
    rw [List.drop_eq_getElem_cons hlt, hget]
  have hlast : (entry.ancestors.drop (i + 1)).getLast? = some prev := by
    have hsuffix : (entry.ancestors.drop i).getLast? = some prev := by
      rw [List.getLast?_drop, if_neg (by omega)]
      exact hprev
    rw [hdrop, List.getLast?_cons] at hsuffix
    cases hrest : (entry.ancestors.drop (i + 1)).getLast? with
    | none =>
      rw [hrest] at hsuffix
      obtain rfl : hash = prev := Option.some.inj hsuffix
      exact absurd hnode hnew
    | some last =>
      rw [hrest] at hsuffix
      exact hsuffix
  refine ⟨hne, hplaced.depth_lt (List.mem_of_getElem? hi), ⟨fun heq => absurd heq hne,
    fun _ => ⟨hash, ?_, .inr rfl⟩, ?_, ?_, hplaced.fits⟩,
    fun sum hsum => ⟨⟨?_, ?_, ?_, ?_, hsum⟩, ?_⟩⟩
  · rw [Entry.ancestorNode, List.getLast?_take]
    simp [hi]
  · exact hplaced.falling.sublist ((List.take_sublist _ _).cons_cons descendent)
  · exact fun other hother => ⟨.inl (hplaced.rising other hother).1,
      (hplaced.rising other hother).2⟩
  · exact fun heq => absurd (heq ▸ hbase) hnew
  · exact fun _ => ⟨prev, hlast, .inl hnode⟩
  · have htail := (List.pairwise_cons.mp hplaced.falling).2.sublist (List.drop_sublist i _)
    rwa [hdrop] at htail
  · simp
  · rw [hlast, hprev]

end Placed

variable [DecidableEq H]

def Ranked (depth : H → Nat) (base : H) (fits : V → Prop) (known : H → Prop)
    (entries : Entries H V) : Prop :=
  ∀ key entry, entries.lookup key = some entry → Placed depth base fits known key entry

section Ranked

variable {depth : H → Nat} {base : H} {fits : V → Prop} {known known' : H → Prop}
  {entries : Entries H V} {key : H} {entry : Entry H V}

theorem Ranked.mono (h : Ranked depth base fits known entries)
    (hknown : ∀ k, known k → known' k) : Ranked depth base fits known' entries :=
  fun key entry hentry => (h key entry hentry).mono hknown

theorem Ranked.insert (h : Ranked depth base fits known entries)
    (hentry : Placed depth base fits known key entry) :
    Ranked depth base fits known (entries.insert key entry) := by
  intro other entry' hlookup
  by_cases hkey : other = key
  · subst hkey
    rw [AList.lookup_insert] at hlookup
    rwa [← Option.some.inj hlookup]
  · rw [AList.lookup_insert_ne hkey] at hlookup
    exact h other entry' hlookup

theorem exists_entry (h : key ∈ entries) : ∃ entry, entries.lookup key = some entry :=
  Option.isSome_iff_exists.mp (AList.lookup_isSome.mpr h)

theorem mem_of_lookup (h : entries.lookup key = some entry) : key ∈ entries :=
  AList.lookup_isSome.mp (by rw [h]; rfl)

theorem mem_insert_iff (h : key ∈ entries) (entry : Entry H V) (k : H) :
    k ∈ entries.insert key entry ↔ k ∈ entries := by
  rw [AList.mem_insert]
  exact or_iff_right_of_imp fun heq => heq ▸ h

end Ranked

-- How far a walk over the nodes can go on: the nodes that are not deeper than this one, and
-- those that are not higher.
section Walks

variable (depth : H → Nat) {entries entries' : Entries H V} {key next : H}

def keySet (entries : Entries H V) : Finset H := entries.keys.toFinset

def upTo (entries : Entries H V) (key : H) : Finset H :=
  (keySet entries).filter fun k => depth k ≤ depth key

def downFrom (entries : Entries H V) (key : H) : Finset H :=
  (keySet entries).filter fun k => depth key ≤ depth k

theorem mem_keySet : key ∈ keySet entries ↔ key ∈ entries := by
  rw [keySet, List.mem_toFinset, AList.mem_keys]

theorem keySet_congr (h : ∀ k, k ∈ entries' ↔ k ∈ entries) : keySet entries' = keySet entries := by
  ext k
  rw [mem_keySet, mem_keySet, h]

theorem card_keySet (entries : Entries H V) : (keySet entries).card = entries.keys.length :=
  List.toFinset_card_of_nodup entries.keys_nodup

theorem card_filter_lt {left left' : H → Prop} [DecidablePred left] [DecidablePred left']
    (hkey : key ∈ entries) (hleft : left key) (hless : ∀ k, left' k → left k)
    (hgone : ¬ left' key) :
    ((keySet entries).filter left').card < ((keySet entries).filter left).card := by
  apply Finset.card_lt_card
  refine (Finset.ssubset_iff_of_subset fun k hk => ?_).mpr ⟨key, ?_, ?_⟩
  · obtain ⟨hmem, hk⟩ := Finset.mem_filter.mp hk
    exact Finset.mem_filter.mpr ⟨hmem, hless k hk⟩
  · exact Finset.mem_filter.mpr ⟨mem_keySet.mpr hkey, hleft⟩
  · exact fun hk => hgone (Finset.mem_filter.mp hk).2

theorem card_upTo_lt (hkey : key ∈ entries) (hlt : depth next < depth key) :
    (upTo depth entries next).card < (upTo depth entries key).card :=
  card_filter_lt hkey (Nat.le_refl _) (fun _ hk => by omega) (by omega)

theorem card_downFrom_lt (hkey : key ∈ entries) (hlt : depth key < depth next) :
    (downFrom depth entries next).card < (downFrom depth entries key).card :=
  card_filter_lt hkey (Nat.le_refl _) (fun _ hk => by omega) (by omega)

end Walks

section Containing

variable {entries : Entries H V} {hash : H} {number : UInt64}

theorem index_of_inDirectAncestry {entry : Entry H V}
    (h : entry.inDirectAncestry hash number = some true) :
    number < entry.number ∧
      ∃ i, (entry.number - number).toNat = i + 1 ∧ entry.ancestors[i]? = some hash := by
  obtain ⟨ancestor, hancestor, heq⟩ := Option.map_eq_some_iff.mp h
  obtain rfl := of_decide_eq_true heq
  unfold Entry.ancestorBlock at hancestor
  split_ifs at hancestor with hle
  have hlt : number < entry.number := UInt64.not_le.mp hle
  have hne : entry.number - number ≠ 0 := by
    intro hzero
    have hsub := UInt64.toNat_sub_of_le entry.number number (UInt64.le_of_lt hlt)
    rw [UInt64.lt_iff_toNat_lt] at hlt
    rw [hzero, UInt64.toNat_zero] at hsub
    omega
  obtain ⟨hpos, hpred⟩ := toNat_sub_one hne
  exact ⟨hlt, _, by omega, hancestor⟩

-- The search finds each node once, and only nodes that have the block on their edge.
structure Found (entries : Entries H V) (hash : H) (number : UInt64)
    (found : List H × List H) : Prop where
  nodup : found.2.Nodup
  visited : found.2 ⊆ found.1
  contains : ∀ key ∈ found.2, ∃ entry, entries.lookup key = some entry ∧
    entry.inDirectAncestry hash number = some true

theorem Found.visit {visited containing : List H}
    (h : Found entries hash number (visited, containing)) (head : H) :
    Found entries hash number (head :: visited, containing) :=
  ⟨h.nodup, fun _ hkey => List.mem_cons_of_mem _ (h.visited hkey), h.contains⟩

theorem Found.searchBack {found : List H × List H} (h : Found entries hash number found)
    (fuel : Nat) (head : H) :
    Found entries hash number (VoteGraph.searchBack entries hash number fuel head found) := by
  induction fuel generalizing head found with
  | zero => exact h
  | succ fuel ih =>
    obtain ⟨visited, containing⟩ := found
    rw [VoteGraph.searchBack]
    split
    · exact h
    · next entry hentry =>
      split_ifs with hseen
      · exact h
      · split
        · next hdirect =>
          have hnew : head ∉ containing := fun hmem => hseen (h.visited hmem)
          refine ⟨List.nodup_append.mpr ⟨h.nodup, List.nodup_singleton head, ?_⟩, ?_, ?_⟩
          · rintro key hkey other hother rfl
            exact hnew (List.mem_singleton.mp hother ▸ hkey)
          · intro key hkey
            rcases List.mem_append.mp hkey with hkey | hkey
            · exact List.mem_cons_of_mem _ (h.visited hkey)
            · exact List.mem_singleton.mp hkey ▸ List.mem_cons_self
          · intro key hkey
            rcases List.mem_append.mp hkey with hkey | hkey
            · exact h.contains key hkey
            · exact List.mem_singleton.mp hkey ▸ ⟨entry, hentry, hdirect⟩
        · exact h.visit head
        · split
          · exact ih (h.visit head) _
          · exact h.visit head

theorem findContainingNodes_spec {order : List H → List H} {graph : VoteGraph H V}
    {containing : List H}
    (h : findContainingNodes order graph hash number = some containing) :
    hash ∉ graph.entries ∧ containing.Nodup ∧ ∀ key ∈ containing, ∃ entry,
      graph.entries.lookup key = some entry ∧ entry.inDirectAncestry hash number = some true := by
  unfold findContainingNodes at h
  split_ifs at h with hnew
  have hfound : ∀ (heads : List H) found, Found graph.entries hash number found →
      Found graph.entries hash number (heads.foldl (fun found head =>
        VoteGraph.searchBack graph.entries hash number (graph.entries.keys.length + 1) head
          found) found) := by
    intro heads
    induction heads with
    | nil => exact fun _ hfound => hfound
    | cons head heads ih => exact fun found hfound => ih _ (hfound.searchBack _ head)
  have hstart : Found graph.entries hash number ([], []) :=
    ⟨List.nodup_nil, List.Subset.refl _, by simp⟩
  have hend := hfound (order graph.heads) _ hstart
  rw [← Option.some.inj h]
  exact ⟨hnew, hend.nodup, hend.contains⟩

end Containing

variable [VoteValue V]

-- Votes that can always be added up.
structure AddsUp (fits : V → Prop) : Prop where
  default : fits VoteValue.default
  add : ∀ {a b : V}, fits a → fits b → ∃ sum, VoteValue.addAssign a b = .ok sum ∧ fits sum

section Accumulate

variable {depth : H → Nat} {base : H} {fits : V → Prop}

theorem accumulate_returns (hadds : AddsUp fits) {vote : V} (hvote : fits vote) {fuel : Nat}
    {key : H} {entries : Entries H V} (hranked : Ranked depth base fits (· ∈ entries) entries)
    (hkey : key ∈ entries) (hfuel : (upTo depth entries key).card ≤ fuel) {root : Entry H V}
    (hroot : entries.lookup base = some root) :
    ∃ entries' sum, accumulate vote fuel key entries = .ok entries' ∧
      Ranked depth base fits (· ∈ entries') entries' ∧
      VoteValue.addAssign root.cumulativeVote vote = .ok sum ∧
      entries'.lookup base = some { root with cumulativeVote := sum } := by
  induction fuel generalizing key entries with
  | zero =>
    have hself : key ∈ upTo depth entries key :=
      Finset.mem_filter.mpr ⟨mem_keySet.mpr hkey, Nat.le_refl _⟩
    exact absurd (Finset.card_pos.mpr ⟨key, hself⟩) (by omega)
  | succ fuel ih =>
    obtain ⟨entry, hentry⟩ := exists_entry hkey
    have hplaced := hranked key entry hentry
    obtain ⟨sum, hsum, hfits⟩ := hadds.add hplaced.fits hvote
    have hsame := mem_insert_iff hkey { entry with cumulativeVote := sum }
    have hplaced' : Placed depth base fits (· ∈ entries) key
        { entry with cumulativeVote := sum } :=
      ⟨hplaced.root, hplaced.edge, hplaced.falling, hplaced.rising, hfits⟩
    have hranked' := (hranked.insert hplaced').mono fun k hk => (hsame k).mpr hk
    by_cases hbase : key = base
    · subst hbase
      obtain rfl := Option.some.inj (hroot.symm.trans hentry)
      have hnode : root.ancestorNode = none := by
        rw [Entry.ancestorNode, hplaced.root rfl]
        rfl
      refine ⟨_, sum, ?_, hranked', hsum, AList.lookup_insert _⟩
      simp only [accumulate, hroot, Run.expect, hsum, hnode, bind, Except.bind]
      rfl
    · obtain ⟨prev, hnode, hprev⟩ := hplaced.edge hbase
      have hlt := card_upTo_lt depth hkey (hplaced.depth_ancestorNode hnode)
      have hroot' : (entries.insert key { entry with cumulativeVote := sum }).lookup base =
          some root := by
        rw [AList.lookup_insert_ne (Ne.symm hbase), hroot]
      have hfuel' : (upTo depth (entries.insert key { entry with cumulativeVote := sum })
          prev).card ≤ fuel := by
        rw [upTo, keySet_congr hsame]
        exact Nat.le_of_lt_succ (Nat.lt_of_lt_of_le hlt hfuel)
      obtain ⟨entries', total, haccumulate, hrest⟩ :=
        ih hranked' ((hsame prev).mpr hprev) hfuel' hroot'
      refine ⟨entries', total, ?_, hrest⟩
      simp only [accumulate, hentry, Run.expect, hsum, hnode, bind, Except.bind]
      exact haccumulate

end Accumulate

section Branch

variable {depth : H → Nat} {base : H} {fits : V → Prop} {nodes : H → Prop} {hash : H}
  {number : UInt64}

-- The new node as far as it has been put together, with the node before it.
def Produced (depth : H → Nat) (base : H) (fits : V → Prop) (known : H → Prop) (hash : H)
    (produced : Option (Entry H V × Option H)) : Prop :=
  ∀ new prev?, produced = some (new, prev?) →
    Placed depth base fits known hash new ∧ prev? = new.ancestorNode

theorem cutEdge_returns (hadds : AddsUp fits) (hnew : ¬ nodes hash) (hbase : nodes base)
    {entries : Entries H V} {produced : Option (Entry H V × Option H)} {descendent : H}
    {entry : Entry H V} (hlookup : entries.lookup descendent = some entry)
    (hnode : nodes descendent) (hplaced : Placed depth base fits nodes descendent entry)
    (hdirect : entry.inDirectAncestry hash number = some true)
    (hproduced : Produced depth base fits (fun k => nodes k ∨ k = hash) hash produced) :
    descendent ≠ base ∧ ∃ cut new,
      cutEdge number (entries, produced) descendent =
        .ok (entries.insert descendent cut, some (new, new.ancestorNode)) ∧
      Placed depth base fits (fun k => nodes k ∨ k = hash) descendent cut ∧
      Placed depth base fits (fun k => nodes k ∨ k = hash) hash new := by
  obtain ⟨hlt, i, hoffset, hi⟩ := index_of_inDirectAncestry hdirect
  obtain ⟨hne, hdepth, hcut, hrest⟩ := hplaced.cut hnew hbase hi number
  have hlength : i < entry.ancestors.length := (List.getElem?_eq_some_iff.mp hi).1
  obtain ⟨hfresh, hlast⟩ := hrest _ hadds.default
  -- The new node is begun here, or was begun at an earlier edge.
  obtain ⟨new, hbegun, hplacedNew⟩ : ∃ new : Entry H V,
      (produced.getD (⟨number, entry.ancestors.drop (i + 1), [], VoteValue.default⟩,
        entry.ancestorNode)) = (new, new.ancestorNode) ∧
      Placed depth base fits (fun k => nodes k ∨ k = hash) hash new := by
    cases produced with
    | none => exact ⟨_, Prod.ext rfl hlast.symm, hfresh⟩
    | some state =>
      obtain ⟨hplaced, hprev⟩ := hproduced state.1 state.2 rfl
      exact ⟨state.1, Prod.ext rfl hprev, hplaced⟩
  obtain ⟨sum, hsum, hfits⟩ := hadds.add hplacedNew.fits hplaced.fits
  refine ⟨hne, { entry with ancestors := entry.ancestors.take (i + 1) },
    { new with descendents := new.descendents ++ [descendent], cumulativeVote := sum }, ?_, hcut,
    hplacedNew.root, hplacedNew.edge, hplacedNew.falling, ?_, hfits⟩
  · simp only [cutEdge, hlookup, Run.expect, bind, Except.bind, hoffset,
      if_neg (UInt64.not_lt.mpr (UInt64.le_of_lt hlt)),
      if_neg (show ¬ entry.ancestors.length < i + 1 by omega), hbegun, hsum]
    rfl
  · intro other hother
    rcases List.mem_append.mp hother with hother | hother
    · exact hplacedNew.rising other hother
    · rw [List.mem_singleton.mp hother]
      exact ⟨.inl hnode, hdepth⟩

theorem foldlM_cutEdge_returns (hadds : AddsUp fits) (hnew : ¬ nodes hash) (hbase : nodes base)
    {descendents : List H} (hnodup : descendents.Nodup) {entries : Entries H V}
    {produced : Option (Entry H V × Option H)}
    (hranked : Ranked depth base fits (fun k => nodes k ∨ k = hash) entries)
    (hedges : ∀ key ∈ descendents, nodes key ∧ ∃ entry, entries.lookup key = some entry ∧
      Placed depth base fits nodes key entry ∧ entry.inDirectAncestry hash number = some true)
    (hproduced : Produced depth base fits (fun k => nodes k ∨ k = hash) hash produced)
    (hsome : descendents ≠ [] ∨ produced ≠ none) :
    ∃ entries' new, descendents.foldlM (cutEdge number) (entries, produced) =
        .ok (entries', some (new, new.ancestorNode)) ∧
      Ranked depth base fits (fun k => nodes k ∨ k = hash) entries' ∧
      (∀ k, k ∈ entries' ↔ k ∈ entries) ∧ entries'.lookup base = entries.lookup base ∧
      Placed depth base fits (fun k => nodes k ∨ k = hash) hash new := by
  induction descendents generalizing entries produced with
  | nil =>
    obtain ⟨state, rfl⟩ := Option.ne_none_iff_exists'.mp (hsome.resolve_left (by simp))
    obtain ⟨hplaced, hprev⟩ := hproduced state.1 state.2 rfl
    refine ⟨entries, state.1, ?_, hranked, fun _ => Iff.rfl, rfl, hplaced⟩
    rw [← hprev]
    rfl
  | cons descendent descendents ih =>
    obtain ⟨hfirst, hrest⟩ := List.nodup_cons.mp hnodup
    obtain ⟨⟨hnode, entry, hlookup, hplaced, hdirect⟩, hedges⟩ := List.forall_mem_cons.mp hedges
    obtain ⟨hne, cut, new, hcut, hplacedCut, hplacedNew⟩ :=
      cutEdge_returns hadds hnew hbase hlookup hnode hplaced hdirect hproduced
    have hedges' : ∀ key ∈ descendents, nodes key ∧ ∃ entry,
        (entries.insert descendent cut).lookup key = some entry ∧
        Placed depth base fits nodes key entry ∧
        entry.inDirectAncestry hash number = some true := by
      intro key hkey
      have hother : key ≠ descendent := fun heq => hfirst (heq ▸ hkey)
      rw [AList.lookup_insert_ne hother]
      exact hedges key hkey
    have hproduced' : Produced depth base fits (fun k => nodes k ∨ k = hash) hash
        (some (new, new.ancestorNode)) := by
      rintro _ _ heq
      obtain ⟨rfl, rfl⟩ := Prod.mk.inj (Option.some.inj heq)
      exact ⟨hplacedNew, rfl⟩
    obtain ⟨entries', last, hfold, hranked', hsame, hroot, hlast⟩ := ih hrest
      (hranked.insert hplacedCut) hedges' hproduced' (.inr (by simp))
    refine ⟨entries', last, ?_, hranked', fun k => ?_, ?_, hlast⟩
    · rw [List.foldlM_cons, hcut]
      exact hfold
    · rw [hsame, mem_insert_iff (mem_of_lookup hlookup)]
    · rw [hroot, AList.lookup_insert_ne (Ne.symm hne)]

end Branch

-- A graph whose entries are in their places, with the sum of the votes that the base has.
structure Good (depth : H → Nat) (fits : V → Prop) (total : V) (graph : VoteGraph H V) :
    Prop where
  ranked : Ranked depth graph.base fits (· ∈ graph.entries) graph.entries
  root : ∃ entry, graph.entries.lookup graph.base = some entry ∧ entry.cumulativeVote = total

section Insert

variable {depth : H → Nat} {fits : V → Prop} {total : V} {graph : VoteGraph H V} {hash : H}
  {number : UInt64}

theorem good_new (hadds : AddsUp fits) (base : H) (number : UInt64) :
    Good depth fits VoteValue.default (VoteGraph.new base number) := by
  have hlookup : (VoteGraph.new base number : VoteGraph H V).entries.lookup base =
      some ⟨number, [], [], VoteValue.default⟩ := AList.lookup_insert ∅
  refine ⟨fun key entry hentry => ?_, _, hlookup, rfl⟩
  have hmem : key ∈ [base] := mem_of_lookup hentry
  obtain rfl := List.mem_singleton.mp hmem
  rw [← Option.some.inj (hlookup.symm.trans hentry)]
  exact ⟨fun _ => rfl, fun hne => absurd rfl hne, by simp, by simp, hadds.default⟩

omit [VoteValue V] in
theorem Good.link {entries : Entries H V} {root node new : Entry H V} {prev : H} {kept : List H}
    (hranked : Ranked depth graph.base fits (fun k => k ∈ graph.entries ∨ k = hash) entries)
    (hsame : ∀ k, k ∈ entries ↔ k ∈ graph.entries)
    (hroot : entries.lookup graph.base = some root) (htotal : root.cumulativeVote = total)
    (hnode : entries.lookup prev = some node) (hkept : kept ⊆ node.descendents)
    (hne : hash ≠ graph.base) (hdepth : depth prev < depth hash)
    (hplaced : Placed depth graph.base fits (fun k => k ∈ graph.entries ∨ k = hash) hash new)
    (heads : List H) :
    Good depth fits total { graph with
      entries := (entries.insert prev { node with descendents := kept ++ [hash] }).insert hash new
      heads := heads } := by
  have hplacedNode := hranked prev node hnode
  have hplacedPrev : Placed depth graph.base fits (fun k => k ∈ graph.entries ∨ k = hash) prev
      { node with descendents := kept ++ [hash] } := by
    refine ⟨hplacedNode.root, hplacedNode.edge, hplacedNode.falling, ?_, hplacedNode.fits⟩
    intro other hother
    rcases List.mem_append.mp hother with hother | hother
    · exact hplacedNode.rising other (hkept hother)
    · rw [List.mem_singleton.mp hother]
      exact ⟨.inr rfl, hdepth⟩
  constructor
  · refine ((hranked.insert hplacedPrev).insert hplaced).mono fun k hk => ?_
    rw [AList.mem_insert, mem_insert_iff (mem_of_lookup hnode), hsame]
    exact hk.symm
  · by_cases hprev : prev = graph.base
    · rw [hprev, hroot] at hnode
      obtain rfl := Option.some.inj hnode
      refine ⟨{ root with descendents := kept ++ [hash] }, ?_, htotal⟩
      rw [AList.lookup_insert_ne (Ne.symm hne), hprev, AList.lookup_insert]
    · refine ⟨root, ?_, htotal⟩
      rw [AList.lookup_insert_ne (Ne.symm hne), AList.lookup_insert_ne (Ne.symm hprev), hroot]

theorem introduceBranch_returns (hadds : AddsUp fits) (hgood : Good depth fits total graph)
    (hnew : hash ∉ graph.entries) {containing : List H} (hsome : containing ≠ [])
    (hnodup : containing.Nodup)
    (hcontains : ∀ key ∈ containing, ∃ entry, graph.entries.lookup key = some entry ∧
      entry.inDirectAncestry hash number = some true) :
    ∃ graph', introduceBranch graph containing hash number = .ok graph' ∧
      graph'.base = graph.base ∧ hash ∈ graph'.entries ∧ Good depth fits total graph' := by
  obtain ⟨root, hroot, htotal⟩ := hgood.root
  have hedges : ∀ key ∈ containing, key ∈ graph.entries ∧ ∃ entry,
      graph.entries.lookup key = some entry ∧
      Placed depth graph.base fits (· ∈ graph.entries) key entry ∧
      entry.inDirectAncestry hash number = some true := by
    intro key hkey
    obtain ⟨entry, hentry, hdirect⟩ := hcontains key hkey
    exact ⟨mem_of_lookup hentry, entry, hentry, hgood.ranked key entry hentry, hdirect⟩
  have hnone : Produced depth graph.base fits (fun k => k ∈ graph.entries ∨ k = hash) hash
      (none : Option (Entry H V × Option H)) := fun _ _ heq => by cases heq
  obtain ⟨entries, new, hfold, hranked, hsame, hbase, hplaced⟩ := foldlM_cutEdge_returns hadds
    hnew (mem_of_lookup hroot) hnodup (hgood.ranked.mono fun k hk => Or.inl hk) hedges
    hnone (.inl hsome)
  -- The node before the new one is an old node.
  have hne : hash ≠ graph.base := fun heq => hnew (heq ▸ mem_of_lookup hroot)
  obtain ⟨prev, hprev, hknown⟩ := hplaced.edge hne
  have hdepth := hplaced.depth_ancestorNode hprev
  have hold : prev ∈ entries := by
    rw [hsame]
    refine hknown.resolve_right fun heq => ?_
    rw [heq] at hdepth
    exact Nat.lt_irrefl _ hdepth
  obtain ⟨node, hnode⟩ := exists_entry hold
  let kept := node.descendents.filter fun k => k ∉ new.descendents
  have hfresh : hash ∉ entries.insert prev { node with descendents := kept ++ [hash] } := by
    rw [mem_insert_iff hold, hsame]
    exact hnew
  refine ⟨{ graph with entries :=
    (entries.insert prev { node with descendents := kept ++ [hash] }).insert hash new },
    ?_, rfl, (AList.mem_insert _).mpr (.inl rfl),
    .link hranked hsame (hbase.trans hroot) htotal hnode (List.filter_subset_self _) hne hdepth
      hplaced graph.heads⟩
  simp only [introduceBranch, hfold, hprev, hnode, Run.expect, bind, Except.bind, pure,
    Except.pure]
  rw [if_neg hfresh]

-- The way from a block to the base, along which the depths fall.
def Routed (depth : H → Nat) (chain : Chain H) (base hash : H) : Prop :=
  ∃ route, chain.ancestry base hash = .ok (.ok route) ∧
    (hash :: (route ++ [base])).Pairwise fun a b => depth b < depth a

omit [VoteValue V] in
-- The base is on the way, so the search for a node ends before the base that is looked up last.
theorem firstAncestor_returns {entries : Entries H V} {base : H} (hbase : base ∈ entries)
    (route : List H) : ∃ ancestor entry index,
      ((route ++ [base]) ++ [base]).zipIdx.findSome? (fun (ancestor, index) =>
        (entries.lookup ancestor).map fun entry => (ancestor, entry, index)) =
          some (ancestor, entry, index) ∧
      entries.lookup ancestor = some entry ∧ (route ++ [base])[index]? = some ancestor := by
  obtain ⟨root, hroot⟩ := exists_entry hbase
  let search : H × Nat → Option (H × Entry H V × Nat) := fun (ancestor, index) =>
    (entries.lookup ancestor).map fun entry => (ancestor, entry, index)
  have hsome : ((route ++ [base]).zipIdx.findSome? search).isSome := by
    rw [List.findSome?_isSome_iff]
    refine ⟨(base, route.length), ?_, by simp [search, hroot]⟩
    rw [List.mem_zipIdx_iff_getElem?]
    simp
  obtain ⟨result, hresult⟩ := Option.isSome_iff_exists.mp hsome
  obtain ⟨⟨ancestor, index⟩, hmem, hfound⟩ := List.exists_of_findSome?_eq_some hresult
  obtain ⟨entry, hentry, rfl⟩ := Option.map_eq_some_iff.mp hfound
  refine ⟨ancestor, entry, index, ?_, hentry, List.mem_zipIdx_iff_getElem?.mp hmem⟩
  rw [List.zipIdx_append, List.findSome?_append]
  exact congrArg (Option.or · _) hresult

theorem append_returns (hadds : AddsUp fits) (hgood : Good depth fits total graph)
    (hnew : hash ∉ graph.entries) {chain : Chain H}
    (hrouted : Routed depth chain graph.base hash) (number : UInt64) :
    ∃ graph', append chain graph hash number = .ok (.ok graph') ∧ graph'.base = graph.base ∧
      hash ∈ graph'.entries ∧ Good depth fits total graph' := by
  obtain ⟨route, hroute, hfalling⟩ := hrouted
  obtain ⟨root, hroot, htotal⟩ := hgood.root
  obtain ⟨ancestor, entry, index, hsearch, hentry, hindex⟩ :=
    firstAncestor_returns (mem_of_lookup hroot) route
  have hne : hash ≠ graph.base := fun heq => hnew (heq ▸ mem_of_lookup hroot)
  have hdepth : depth ancestor < depth hash :=
    (List.pairwise_cons.mp hfalling).1 ancestor (List.mem_of_getElem? hindex)
  let node : Entry H V := ⟨number, (route ++ [graph.base]).take (index + 1), [], VoteValue.default⟩
  have hplaced : Placed depth graph.base fits (fun k => k ∈ graph.entries ∨ k = hash) hash
      node := by
    refine ⟨fun heq => absurd heq hne, fun _ => ⟨ancestor, ?_, .inl (mem_of_lookup hentry)⟩, ?_,
      by simp [node], hadds.default⟩
    · rw [Entry.ancestorNode, List.getLast?_take]
      simp [hindex]
    · exact hfalling.sublist ((List.take_sublist _ _).cons_cons hash)
  let heads := graph.heads.erase ancestor
  refine ⟨{ graph with
    entries := (graph.entries.insert ancestor
      { entry with descendents := entry.descendents ++ [hash] }).insert hash node
    heads := if hash ∈ heads then heads else heads ++ [hash] }, ?_, rfl,
    (AList.mem_insert _).mpr (.inl rfl),
    .link (hgood.ranked.mono fun k hk => .inl hk) (fun k => Iff.rfl) hroot htotal hentry
      (List.Subset.refl _) hne hdepth hplaced _⟩
  simp only [append, hroute, bind, Except.bind, hsearch, hindex, Run.expect]
  rfl

theorem vote_returns (hadds : AddsUp fits) (hgood : Good depth fits total graph)
    (hmem : hash ∈ graph.entries) {vote : V} (hvote : fits vote) :
    ∃ entries sum, accumulate vote graph.entries.keys.length hash graph.entries = .ok entries ∧
      VoteValue.addAssign total vote = .ok sum ∧
      Good depth fits sum { graph with entries := entries } := by
  obtain ⟨root, hroot, htotal⟩ := hgood.root
  have hfuel : (upTo depth graph.entries hash).card ≤ graph.entries.keys.length := by
    rw [← card_keySet]
    exact Finset.card_filter_le _ _
  obtain ⟨entries, sum, haccumulate, hranked, hsum, hlookup⟩ :=
    accumulate_returns hadds hvote hgood.ranked hmem hfuel hroot
  exact ⟨entries, sum, haccumulate, htotal ▸ hsum, hranked, _, hlookup, rfl⟩

theorem insert_returns (hadds : AddsUp fits) (hgood : Good depth fits total graph)
    {chain : Chain H} (hrouted : hash ≠ graph.base → Routed depth chain graph.base hash)
    {vote : V} (hvote : fits vote) (order : List H → List H) (number : UInt64) :
    ∃ graph' sum, VoteGraph.insert order chain graph hash number vote = .ok (.ok graph') ∧
      graph'.base = graph.base ∧ VoteValue.addAssign total vote = .ok sum ∧
      Good depth fits sum graph' := by
  cases hfound : findContainingNodes order graph hash number with
  | none =>
    have hmem : hash ∈ graph.entries := by
      by_contra hnot
      rw [findContainingNodes, if_neg hnot] at hfound
      cases hfound
    obtain ⟨entries, sum, haccumulate, hrest⟩ := vote_returns hadds hgood hmem hvote
    refine ⟨{ graph with entries := entries }, sum, ?_, rfl, hrest⟩
    simp only [VoteGraph.insert, hfound, pure, Except.pure, haccumulate, bind, Except.bind]
  | some containing =>
    obtain ⟨hnew, hnodup, hcontains⟩ := findContainingNodes_spec hfound
    cases containing with
    | nil =>
      have hne : hash ≠ graph.base := by
        intro heq
        obtain ⟨root, hroot, -⟩ := hgood.root
        exact hnew (heq ▸ mem_of_lookup hroot)
      obtain ⟨graph', happend, hbase, hmem, hgood'⟩ :=
        append_returns hadds hgood hnew (hrouted hne) number
      obtain ⟨entries, sum, haccumulate, hrest⟩ := vote_returns hadds hgood' hmem hvote
      refine ⟨{ graph' with entries := entries }, sum, ?_, hbase, hrest⟩
      simp only [VoteGraph.insert, hfound, happend, haccumulate, bind, Except.bind]
      rfl
    | cons first rest =>
      obtain ⟨graph', hbranch, hbase, hmem, hgood'⟩ := introduceBranch_returns hadds hgood
        hnew (List.cons_ne_nil first rest) hnodup hcontains
      obtain ⟨entries, sum, haccumulate, hrest⟩ := vote_returns hadds hgood' hmem hvote
      refine ⟨{ graph' with entries := entries }, sum, ?_, hbase, hrest⟩
      simp only [VoteGraph.insert, hfound, hbranch, pure, Except.pure, haccumulate, bind,
        Except.bind]

end Insert

end Yeeroot.Grandpa.VoteGraph
