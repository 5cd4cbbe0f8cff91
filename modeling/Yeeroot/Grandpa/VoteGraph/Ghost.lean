import Yeeroot.Grandpa.VoteGraph.Ranked

namespace Yeeroot.Grandpa.VoteGraph

variable {H V : Type} [DecidableEq H] [VoteValue V] {depth : H → Nat} {fits : V → Prop}
  {condition : V → Run Bool}

omit [VoteValue V] in
theorem nextDescendent_returns {entries : Entries H V}
    (hdecides : ∀ vote, fits vote → ∃ holds, condition vote = .ok holds)
    (hfits : ∀ key entry, entries.lookup key = some entry → fits entry.cumulativeVote)
    (constrain : Option (H × UInt64)) {keys : List H} (hkeys : ∀ key ∈ keys, key ∈ entries) :
    ∃ next, nextDescendent condition entries constrain keys = .ok next ∧
      ∀ key node, next = some (key, node) → key ∈ keys ∧ entries.lookup key = some node := by
  induction keys with
  | nil => exact ⟨none, rfl, fun key node hnext => by cases hnext⟩
  | cons key keys ih =>
    obtain ⟨next, hnext, hspec⟩ := ih fun k hk => hkeys k (List.mem_cons_of_mem _ hk)
    have hrest : ∀ k node, next = some (k, node) →
        k ∈ key :: keys ∧ entries.lookup k = some node := fun k node heq =>
      ⟨List.mem_cons_of_mem _ (hspec k node heq).1, (hspec k node heq).2⟩
    obtain ⟨entry, hentry⟩ := exists_entry (hkeys key List.mem_cons_self)
    obtain ⟨holds, hholds⟩ := hdecides _ (hfits key entry hentry)
    simp only [nextDescendent, hentry, Run.expect, hholds, hnext, bind, Except.bind]
    cases entry.follows constrain with
    | false => exact ⟨next, rfl, hrest⟩
    | true =>
      cases holds with
      | false => exact ⟨next, rfl, hrest⟩
      | true =>
        refine ⟨_, rfl, fun k node heq => ?_⟩
        cases heq
        exact ⟨List.mem_cons_self, hentry⟩

omit [VoteValue V] in
-- A descendent is deeper than its node, so there are fewer nodes from there on.
theorem descend_returns {entries : Entries H V} {base : H}
    (hdecides : ∀ vote, fits vote → ∃ holds, condition vote = .ok holds)
    (hranked : Ranked depth base fits (· ∈ entries) entries) {fuel : Nat} {key : H}
    {node : Entry H V} (hnode : entries.lookup key = some node)
    (hfuel : (downFrom depth entries key).card ≤ fuel) (constrain : Option (H × UInt64)) :
    ∃ last lastNode constrain',
      descend condition entries fuel key node constrain = .ok (last, lastNode, constrain') ∧
      entries.lookup last = some lastNode := by
  induction fuel generalizing key node constrain with
  | zero =>
    have hself : key ∈ downFrom depth entries key :=
      Finset.mem_filter.mpr ⟨mem_keySet.mpr (mem_of_lookup hnode), Nat.le_refl _⟩
    exact absurd (Finset.card_pos.mpr ⟨key, hself⟩) (by omega)
  | succ fuel ih =>
    have hplaced := hranked key node hnode
    obtain ⟨next, hnext, hspec⟩ := nextDescendent_returns hdecides
      (fun k entry hentry => (hranked k entry hentry).fits) constrain
      (fun k hk => (hplaced.rising k hk).1)
    simp only [descend, hnext, bind, Except.bind]
    match next, hspec with
    | none, _ => exact ⟨key, node, constrain, rfl, hnode⟩
    | some (key', node'), hspec =>
      obtain ⟨hkey', hnode'⟩ := hspec key' node' rfl
      have hlt := card_downFrom_lt depth (mem_of_lookup hnode) (hplaced.rising key' hkey').2
      exact ih hnode' (by omega) none

theorem mergeVotes_returns (hadds : AddsUp fits)
    (hdecides : ∀ vote, fits vote → ∃ holds, condition vote = .ok holds) (number : UInt64)
    {nodes : List (Entry H V)} (hnodes : ∀ node ∈ nodes, fits node.cumulativeVote)
    {blocks : AList fun _ : H => V} (hblocks : ∀ block vote, blocks.lookup block = some vote →
      fits vote) : ∃ best, mergeVotes condition number nodes blocks = .ok best := by
  have hinsert : ∀ {blocks : AList fun _ : H => V} {block : H} {vote : V},
      (∀ block vote, blocks.lookup block = some vote → fits vote) → fits vote →
      ∀ b v, (blocks.insert block vote).lookup b = some v → fits v := by
    intro blocks block vote hblocks hvote b v hlookup
    by_cases hb : b = block
    · rw [hb, AList.lookup_insert] at hlookup
      exact Option.some.inj hlookup ▸ hvote
    · rw [AList.lookup_insert_ne hb] at hlookup
      exact hblocks b v hlookup
  induction nodes generalizing blocks with
  | nil => exact ⟨none, rfl⟩
  | cons node nodes ih =>
    have hnode := hnodes node List.mem_cons_self
    have hrest := fun n hn => hnodes n (List.mem_cons_of_mem _ hn)
    simp only [mergeVotes]
    cases node.ancestorBlock number with
    | none => exact ih hrest hblocks
    | some block =>
      cases hlookup : blocks.lookup block with
      | none =>
        simp only [hlookup]
        exact ih hrest (hinsert hblocks hnode)
      | some vote =>
        obtain ⟨sum, hsum, hfits⟩ := hadds.add (hblocks block vote hlookup) hnode
        obtain ⟨holds, hholds⟩ := hdecides sum hfits
        simp only [hlookup, hsum, hholds, bind, Except.bind]
        cases holds with
        | true => exact ⟨_, rfl⟩
        | false => exact ih hrest (hinsert hblocks hfits)

theorem mergePoints_returns (hadds : AddsUp fits)
    (hdecides : ∀ vote, fits vote → ∃ holds, condition vote = .ok holds) (baseNumber : UInt64)
    (fuel : Nat) (offset best : UInt64) {nodes : List (Entry H V)}
    (hnodes : ∀ node ∈ nodes, fits node.cumulativeVote) :
    ∃ hashes number, mergePoints condition baseNumber fuel offset best nodes =
      .ok (hashes, number) := by
  induction fuel generalizing offset best nodes with
  | zero => exact ⟨[], best, rfl⟩
  | succ fuel ih =>
    have hnone : ∀ block vote, (∅ : AList fun _ : H => V).lookup block = some vote →
        fits vote := fun block vote hlookup => by cases hlookup
    obtain ⟨merged, hmerged⟩ :=
      mergeVotes_returns hadds hdecides (baseNumber + (offset + 1)) hnodes hnone
    simp only [mergePoints, hmerged, bind, Except.bind]
    cases merged with
    | none => exact ⟨[], best, rfl⟩
    | some hash =>
      have hkept : ∀ node ∈ nodes.filter fun node => node.follows (some (hash, best + 1)),
          fits node.cumulativeVote := fun node hnode =>
        hnodes node (List.mem_of_mem_filter hnode)
      obtain ⟨hashes, number, hrest⟩ := ih (offset + 1) (best + 1) hkept
      simp only [hrest]
      exact ⟨_, _, rfl⟩

theorem ghostFindMergePoint_returns (hadds : AddsUp fits)
    (hdecides : ∀ vote, fits vote → ∃ holds, condition vote = .ok holds) {total : V}
    {graph : VoteGraph H V} (hgood : Good depth fits total graph) {key : H} {node : Entry H V}
    (hnode : graph.entries.lookup key = some node) (constrain : Option (H × UInt64)) :
    ∃ chain best, ghostFindMergePoint condition graph key node constrain = .ok chain ∧
      chain.best = some best := by
  have hpresent : ∀ hash ∈ node.descendents, Run.Returns (Run.expect
      (graph.entries.lookup hash) "descendents always present in node storage; qed") := by
    intro hash hhash
    obtain ⟨entry, hentry⟩ := exists_entry ((hgood.ranked key node hnode).rising hash hhash).1
    exact ⟨entry, by rw [hentry]; rfl⟩
  obtain ⟨nodes, hnodes⟩ := Run.returns_mapM hpresent
  have hfits : ∀ other ∈ nodes.filter fun other => other.follows constrain,
      fits other.cumulativeVote := by
    intro other hother
    obtain ⟨i, hi⟩ := List.mem_iff_getElem?.mp (List.mem_of_mem_filter hother)
    rcases Run.getElem?_of_mapM hnodes i with ⟨-, hnone⟩ | ⟨hash, result, -, hresult, hfound⟩
    · rw [hi] at hnone
      cases hnone
    · obtain rfl := Option.some.inj (hi.symm.trans hresult)
      exact (hgood.ranked hash other ((Run.expect_eq_ok _ _ _).mp hfound)).fits
  let kept := nodes.filter fun other => other.follows constrain
  obtain ⟨hashes, number, hpoints⟩ := mergePoints_returns hadds hdecides node.number
    ((kept.map fun other => other.ancestors.length).sum + 1) 0 node.number hfits
  simp only [ghostFindMergePoint, hnodes, bind, Except.bind, kept] at hpoints ⊢
  refine ⟨⟨key :: hashes, number⟩, ((key :: hashes).getLast (by simp), number),
    by rw [hpoints]; rfl, ?_⟩
  rw [Subchain.best, List.getLast?_eq_some_getLast (List.cons_ne_nil key hashes)]
  rfl

theorem findGhost_returns (hadds : AddsUp fits)
    (hdecides : ∀ vote, fits vote → ∃ holds, condition vote = .ok holds) {total : V}
    {graph : VoteGraph H V} (hgood : Good depth fits total graph)
    (htotal : condition total = .ok true) (order : List H → List H) :
    ∃ best, findGhost condition order graph none = .ok (some best) := by
  obtain ⟨root, hroot, rfl⟩ := hgood.root
  have hfuel : (downFrom depth graph.entries graph.base).card ≤ graph.entries.keys.length := by
    rw [← card_keySet]
    exact Finset.card_filter_le _ _
  obtain ⟨last, node, constrain, hdescend, hnode⟩ :=
    descend_returns hdecides hgood.ranked hroot hfuel none
  obtain ⟨chain, best, hchain, hbest⟩ :=
    ghostFindMergePoint_returns hadds hdecides hgood hnode constrain
  refine ⟨best, ?_⟩
  simp only [findGhost, hroot, Run.expect, htotal, hdescend, hchain, hbest, bind, Except.bind,
    pure, Except.pure]
  rfl

end Yeeroot.Grandpa.VoteGraph
