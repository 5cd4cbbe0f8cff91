import Yeeroot.Grandpa.VoteGraph.Count

namespace Yeeroot.Grandpa.VoteGraph

variable {H V B : Type}

-- A condition on votes that tells whether their ballots are enough.
def Decides (condition : V → Run Bool) (tally : V → Multiset B → Prop)
    (enough : Multiset B → Prop) : Prop :=
  ∀ vote ballots, tally vote ballots →
    ∃ holds, condition vote = .ok holds ∧ (holds = true ↔ enough ballots)

variable {condition : V → Run Bool} {tally : V → Multiset B → Prop}
  {enough : Multiset B → Prop}

variable [DecidableEq H]

section Descend

variable {tree : Ancestry H} {graph : VoteGraph H V} {count : H → Multiset B}

theorem nextDescendent_eq (hdecides : Decides condition tally enough) {entries : Entries H V}
    (hcounts : Counts tally entries count) {keys : List H} (hkeys : ∀ key ∈ keys, key ∈ entries)
    (constrain : Option (H × UInt64)) :
    ∃ next, nextDescendent condition entries constrain keys = .ok next ∧
      (∀ key node, next = some (key, node) → key ∈ keys ∧ entries.lookup key = some node ∧
        node.follows constrain = true ∧ enough (count key)) ∧
      (next = none → ∀ key ∈ keys, ∀ node, entries.lookup key = some node →
        node.follows constrain = true → ¬ enough (count key)) := by
  induction keys with
  | nil => exact ⟨none, rfl, by simp, by simp⟩
  | cons key keys ih =>
    obtain ⟨next, hnext, hsome, hnone⟩ := ih fun k hk => hkeys k (List.mem_cons_of_mem _ hk)
    obtain ⟨entry, hentry⟩ := exists_entry (hkeys key List.mem_cons_self)
    obtain ⟨holds, hholds, hiff⟩ := hdecides _ _ (hcounts key entry hentry)
    -- The rest decides if this node is passed over.
    have hrest : (entry.follows constrain = true → ¬ enough (count key)) →
        (∀ k node, next = some (k, node) → k ∈ key :: keys ∧ entries.lookup k = some node ∧
          node.follows constrain = true ∧ enough (count k)) ∧
        (next = none → ∀ k ∈ key :: keys, ∀ node, entries.lookup k = some node →
          node.follows constrain = true → ¬ enough (count k)) := by
      intro hpassed
      refine ⟨fun k node heq => ?_, fun heq k hk node hnode hfollows => ?_⟩
      · obtain ⟨hmem, hfound⟩ := hsome k node heq
        exact ⟨List.mem_cons_of_mem _ hmem, hfound⟩
      · rcases List.mem_cons.mp hk with rfl | hk
        · obtain rfl := Option.some.inj (hentry.symm.trans hnode)
          exact hpassed hfollows
        · exact hnone heq k hk node hnode hfollows
    simp only [nextDescendent, hentry, Run.expect, hholds, hnext, bind, Except.bind]
    cases hfollows : entry.follows constrain with
    | false => exact ⟨next, rfl, hrest (by simp [hfollows])⟩
    | true =>
      cases holds with
      | false => exact ⟨next, rfl, hrest fun _ => by simpa using hiff⟩
      | true =>
        refine ⟨some (key, entry), rfl, fun k node heq => ?_, by simp⟩
        obtain ⟨rfl, rfl⟩ := Prod.mk.inj (Option.some.inj heq)
        exact ⟨List.mem_cons_self, hentry, hfollows, hiff.mp rfl⟩

theorem descend_eq (hdecides : Decides condition tally enough) (hshaped : Shaped tree graph)
    (hcounts : Counts tally graph.entries count) {fuel : Nat} {key : H} {node : Entry H V}
    (hnode : graph.entries.lookup key = some node) (henough : enough (count key))
    (hfuel : (downFrom tree.height graph.entries key).card ≤ fuel)
    (constrain : Option (H × UInt64)) :
    ∃ last lastNode constrain',
      descend condition graph.entries fuel key node constrain = .ok (last, lastNode, constrain') ∧
      graph.entries.lookup last = some lastNode ∧ enough (count last) ∧
      ((last = key ∧ constrain' = constrain) ∨
        (constrain' = none ∧ ∃ first entry, graph.entries.lookup first = some entry ∧
          entry.ancestorNode = some key ∧ entry.follows constrain = true ∧
          tree.Descends first last)) ∧
      ∀ next ∈ lastNode.descendents, ∀ entry, graph.entries.lookup next = some entry →
        entry.follows constrain' = true → ¬ enough (count next) := by
  induction fuel generalizing key node constrain with
  | zero =>
    have hself : key ∈ downFrom tree.height graph.entries key :=
      Finset.mem_filter.mpr ⟨mem_keySet.mpr (mem_of_lookup hnode), Nat.le_refl _⟩
    exact absurd (Finset.card_pos.mpr ⟨key, hself⟩) (by omega)
  | succ fuel ih =>
    have hkeys : ∀ next ∈ node.descendents, next ∈ graph.entries := by
      intro next hnext
      obtain ⟨entry, hentry, -⟩ := (hshaped.linked hnode next).mp hnext
      exact mem_of_lookup hentry
    obtain ⟨next, hnext, hsome, hnone⟩ := nextDescendent_eq hdecides hcounts hkeys constrain
    simp only [descend, hnext, bind, Except.bind]
    cases next with
    | none => exact ⟨key, node, constrain, rfl, hnode, henough, .inl ⟨rfl, rfl⟩, hnone rfl⟩
    | some found =>
      obtain ⟨first, entry⟩ := found
      obtain ⟨hmem, hentry, hfollows, hfirst⟩ := hsome first entry rfl
      obtain ⟨entry', hentry', hprev⟩ := (hshaped.linked hnode first).mp hmem
      obtain rfl := Option.some.inj (hentry.symm.trans hentry')
      have hlt := card_downFrom_lt tree.height (mem_of_lookup hnode)
        ((hshaped.fitted hentry).height_prev hprev)
      obtain ⟨last, lastNode, constrain', hdescend, hlast, henough', hpath, hlight⟩ :=
        ih hentry hfirst (by omega) none
      refine ⟨last, lastNode, constrain', hdescend, hlast, henough', .inr ⟨?_, first, entry,
        hentry, hprev, hfollows, ?_⟩, hlight⟩
      · rcases hpath with ⟨-, hconstrain⟩ | ⟨hconstrain, -⟩
        · exact hconstrain
        · exact hconstrain
      · rcases hpath with ⟨rfl, -⟩ | ⟨-, second, entry', hsecond, hedge, -, hdescends⟩
        · exact .refl
        · exact ((hshaped.fitted hsecond).descends_prev hedge).trans hdescends

end Descend

variable [VoteValue V]

section MergeVotes

variable {count : H → Multiset B} {number : UInt64}

-- Nodes with their keys; those that have the block at this number on their edges.
def together (nodes : List (H × Entry H V)) (number : UInt64) (block : H) :
    List (H × Entry H V) :=
  nodes.filter fun node => node.2.ancestorBlock number = some block

def totalCount (count : H → Multiset B) (nodes : List (H × Entry H V)) : Multiset B :=
  (nodes.map fun node => count node.1).sum

omit [VoteValue V] in
theorem together_append (seen rest : List (H × Entry H V)) (block : H) :
    together (seen ++ rest) number block = together seen number block ++
      together rest number block := List.filter_append ..

omit [VoteValue V] in
theorem together_cons (node : H × Entry H V) (rest : List (H × Entry H V)) (block : H) :
    together (node :: rest) number block =
      if node.2.ancestorBlock number = some block then node :: together rest number block
      else together rest number block := by
  unfold together
  rw [List.filter_cons]
  simp only [decide_eq_true_eq]

omit [DecidableEq H] [VoteValue V] in
theorem totalCount_append (nodes nodes' : List (H × Entry H V)) :
    totalCount count (nodes ++ nodes') = totalCount count nodes + totalCount count nodes' := by
  simp [totalCount]

-- The votes of the nodes that were seen, block by block.
def Merged (tally : V → Multiset B → Prop) (count : H → Multiset B) (number : UInt64)
    (seen : List (H × Entry H V)) (blocks : AList fun _ : H => V) : Prop :=
  ∀ block, (blocks.lookup block = none ∧ together seen number block = []) ∨
    ∃ vote, blocks.lookup block = some vote ∧ together seen number block ≠ [] ∧
      tally vote (totalCount count (together seen number block))

omit [VoteValue V] in
theorem Merged.insert {seen : List (H × Entry H V)} {blocks : AList fun _ : H => V}
    (h : Merged tally count number seen blocks) {node : H × Entry H V} {block : H} {vote : V}
    (hblock : node.2.ancestorBlock number = some block)
    (hvote : tally vote (totalCount count (together seen number block) + count node.1)) :
    Merged tally count number (seen ++ [node]) (blocks.insert block vote) := by
  intro other
  rw [together_append, together_cons]
  by_cases hother : other = block
  · subst hother
    rw [if_pos hblock]
    refine .inr ⟨vote, AList.lookup_insert _, by simp, ?_⟩
    rw [totalCount_append]
    simpa [totalCount, together] using hvote
  · have hne : node.2.ancestorBlock number ≠ some other := by
      rw [hblock]
      exact fun heq => hother (Option.some.inj heq).symm
    rw [if_neg hne, AList.lookup_insert_ne hother]
    simpa [together] using h other

-- A block is found as soon as two nodes or more have enough together.
theorem mergeVotes_eq (htallies : Tallies tally) (hdecides : Decides condition tally enough)
    (hmono : Monotone enough) {seen rest : List (H × Entry H V)}
    (hrest : ∀ node ∈ rest, tally node.2.cumulativeVote (count node.1))
    {blocks : AList fun _ : H => V} (hmerged : Merged tally count number seen blocks) :
    ∃ best, mergeVotes condition number (rest.map Prod.snd) blocks = .ok best ∧
      (∀ block, best = some block → together (seen ++ rest) number block ≠ [] ∧
        enough (totalCount count (together (seen ++ rest) number block))) ∧
      (best = none → ∀ block, together rest number block ≠ [] →
        2 ≤ (together (seen ++ rest) number block).length →
        ¬ enough (totalCount count (together (seen ++ rest) number block))) := by
  induction rest generalizing seen blocks with
  | nil => exact ⟨none, rfl, by simp, by simp [together]⟩
  | cons node rest ih =>
    obtain ⟨hnode, hrest⟩ := List.forall_mem_cons.mp hrest
    rw [List.append_cons]
    simp only [List.map_cons, mergeVotes]
    cases hblock : node.2.ancestorBlock number with
    | none =>
      have hsame : Merged tally count number (seen ++ [node]) blocks := by
        intro block
        rw [together_append, together_cons, hblock]
        simpa [together] using hmerged block
      obtain ⟨best, hbest, hsome, hnone⟩ := ih hrest hsame
      refine ⟨best, hbest, hsome, fun heq block => ?_⟩
      rw [together_cons, hblock, if_neg (by simp)]
      exact hnone heq block
    | some block =>
      have hcons : together (node :: rest) number block = node :: together rest number block := by
        rw [together_cons, if_pos hblock]
      have hother : ∀ other, other ≠ block → together (node :: rest) number other =
          together rest number other := by
        intro other hne
        rw [together_cons, hblock, if_neg fun heq => hne (Option.some.inj heq).symm]
      rcases hmerged block with ⟨hlookup, hseen⟩ | ⟨vote, hlookup, hseen, htally⟩
      · have hfirst : tally node.2.cumulativeVote
            (totalCount count (together seen number block) + count node.1) := by
          rw [hseen]
          simpa [totalCount] using hnode
        obtain ⟨best, hbest, hsome, hnone⟩ := ih hrest (hmerged.insert hblock hfirst)
        simp only [hlookup]
        refine ⟨best, hbest, hsome, fun heq other hmem hlength => ?_⟩
        by_cases hne : other = block
        · subst hne
          refine hnone heq other (fun hnil => ?_) hlength
          rw [together_append, together_append, hseen, together_cons, if_pos hblock, hnil]
            at hlength
          simp [together] at hlength
        · rw [hother other hne] at hmem
          exact hnone heq other hmem hlength
      · obtain ⟨sum, hsum, hadded⟩ := htallies.add htally hnode
        obtain ⟨holds, hholds, hiff⟩ := hdecides sum _ hadded
        have hsofar : totalCount count (together seen number block) + count node.1 =
            totalCount count (together (seen ++ [node]) number block) := by
          rw [together_append, together_cons, if_pos hblock, totalCount_append]
          simp [totalCount, together]
        simp only [hlookup, hsum, hholds, bind, Except.bind]
        cases holds with
        | true =>
          refine ⟨some block, rfl, fun other heq => ?_, by simp⟩
          obtain rfl := Option.some.inj heq
          rw [together_append _ rest]
          refine ⟨by simp [together_append, hseen], ?_⟩
          rw [totalCount_append, ← hsofar]
          exact hmono (Multiset.le_add_right _ _) (hiff.mp rfl)
        | false =>
          obtain ⟨best, hbest, hsome, hnone⟩ := ih hrest (hmerged.insert hblock hadded)
          refine ⟨best, hbest, hsome, fun heq other hmem hlength => ?_⟩
          by_cases hne : other = block
          · subst hne
            by_cases hnil : together rest number other = []
            · rw [together_append _ rest, hnil, List.append_nil, ← hsofar]
              simpa using hiff
            · exact hnone heq other hnil hlength
          · rw [hother other hne] at hmem
            exact hnone heq other hmem hlength

end MergeVotes

section Below

omit [VoteValue V]

variable {tree : Ancestry H} {graph : VoteGraph H V} {ballots : Multiset (H × B)}
  {key current block : H} {nodes : List (H × Entry H V)} {number : UInt64}

-- The nodes after a node that descend from a block between it and them.
structure Below (tree : Ancestry H) (graph : VoteGraph H V) (key current : H)
    (nodes : List (H × Entry H V)) : Prop where
  nodup : (nodes.map Prod.fst).Nodup
  mem_iff : ∀ next entry, (next, entry) ∈ nodes ↔ graph.entries.lookup next = some entry ∧
    entry.ancestorNode = some key ∧ tree.Descends current next
  above : tree.Descends key current
  nearest : ∀ node ∈ graph.entries, tree.Descends node current → tree.Descends node key

theorem Below.height_lt (hbelow : Below tree graph key current nodes) (hshaped : Shaped tree graph)
    {next : H} {entry : Entry H V} (hmem : (next, entry) ∈ nodes) :
    tree.height current < tree.height next := by
  obtain ⟨hentry, hedge, hdescends⟩ := (hbelow.mem_iff next entry).mp hmem
  have hprev := (hshaped.fitted hentry).height_prev hedge
  refine hdescends.height_lt ?_
  rintro rfl
  have hle := (hbelow.nearest current (mem_of_lookup hentry) .refl).height_le
  omega

theorem Below.ancestorBlock_iff (hbelow : Below tree graph key current nodes)
    (hshaped : Shaped tree graph) {next : H} {entry : Entry H V} (hmem : (next, entry) ∈ nodes)
    (hnumber : number.toNat = tree.height block) (hheight : tree.height key < tree.height block) :
    entry.ancestorBlock number = some block ↔
      tree.Descends key block ∧ tree.Descends block next ∧ block ≠ next := by
  obtain ⟨hentry, hedge, -⟩ := (hbelow.mem_iff next entry).mp hmem
  have hfitted := hshaped.fitted hentry
  have hne : block ≠ key := by
    rintro rfl
    omega
  rw [hfitted.ancestorBlock_eq_some]
  constructor
  · rintro ⟨hblock, -⟩
    have hinner := ((mem_ancestors_iff hedge).mp hblock).resolve_left hne
    obtain ⟨habove, hdescends, hlt⟩ := hfitted.descends_inner hedge hinner
    refine ⟨habove, hdescends, ?_⟩
    rintro rfl
    omega
  · rintro ⟨habove, hdescends, hneNext⟩
    exact ⟨(mem_ancestors_iff hedge).mpr
      (.inr (hfitted.mem_inner hedge habove hdescends hne hneNext)), hnumber⟩

theorem Below.child (hbelow : Below tree graph key current nodes) (hshaped : Shaped tree graph)
    (hchild : tree.parent block = some current) (hblock : block ∉ graph.entries)
    (hnumber : number.toNat = tree.height block) :
    Below tree graph key block (together nodes number block) := by
  have hparent := tree.height_parent hchild
  have hcurrent : tree.Descends current block := .step .refl hchild
  have hheight : tree.height key < tree.height block := by
    have hle := hbelow.above.height_le
    omega
  refine ⟨hbelow.nodup.sublist (List.filter_sublist.map _), fun next entry => ?_,
    hbelow.above.trans hcurrent, fun node hnode hdescends => ?_⟩
  · rw [together, List.mem_filter, decide_eq_true_eq]
    constructor
    · rintro ⟨hmem, hheld⟩
      obtain ⟨hentry, hedge, -⟩ := (hbelow.mem_iff next entry).mp hmem
      exact ⟨hentry, hedge,
        ((hbelow.ancestorBlock_iff hshaped hmem hnumber hheight).mp hheld).2.1⟩
    · rintro ⟨hentry, hedge, hdescends⟩
      have hmem : (next, entry) ∈ nodes :=
        (hbelow.mem_iff next entry).mpr ⟨hentry, hedge, hcurrent.trans hdescends⟩
      refine ⟨hmem, (hbelow.ancestorBlock_iff hshaped hmem hnumber hheight).mpr
        ⟨hbelow.above.trans hcurrent, hdescends, ?_⟩⟩
      rintro rfl
      exact hblock (mem_of_lookup hentry)
  · have hne : node ≠ block := fun heq => hblock (heq ▸ hnode)
    exact hbelow.nearest node hnode (hdescends.of_parent hne hchild)

theorem Below.holder_iff (hbelow : Below tree graph key current nodes)
    (hshaped : Shaped tree graph) (hkey : key ∈ graph.entries) (hcurrent : current ∉ graph.entries)
    (next : H) : next ∈ nodes.map Prod.fst ↔ Holder graph.entries current next := by
  constructor
  · intro hnext
    obtain ⟨⟨next, entry⟩, hmem, rfl⟩ := List.mem_map.mp hnext
    obtain ⟨hentry, hedge, hdescends⟩ := (hbelow.mem_iff next entry).mp hmem
    refine ⟨entry, hentry, (hshaped.fitted hentry).mem_inner hedge hbelow.above hdescends ?_ ?_⟩
    · exact fun heq => hcurrent (heq ▸ hkey)
    · exact fun heq => hcurrent (heq ▸ mem_of_lookup hentry)
  · intro hholder
    obtain ⟨entry, prev, hentry, hedge, -, hprev, habove, hdescends, -, hlast⟩ :=
      hholder.edge hshaped
    have hsame : prev = key :=
      (hbelow.nearest prev hprev habove).antisymm (hlast key hkey hbelow.above)
    exact List.mem_map.mpr ⟨(next, entry),
      (hbelow.mem_iff next entry).mpr ⟨hentry, hsame ▸ hedge, hdescends⟩, rfl⟩

theorem Below.support_eq (hbelow : Below tree graph key current nodes)
    (hshaped : Shaped tree graph) (hcast : ∀ ballot ∈ ballots, ballot.1 ∈ graph.entries)
    (hkey : key ∈ graph.entries) (hcurrent : current ∉ graph.entries) :
    tree.support ballots current = totalCount (tree.support ballots) nodes := by
  have hbase := (hshaped.descends_base hkey).trans hbelow.above
  have hparts := hshaped.parts hcast hcurrent hbase hbelow.nodup
    (hbelow.holder_iff hshaped hkey hcurrent)
  rw [hparts.support_eq, totalCount, List.map_map]
  rfl

theorem mapM_lookup {entries : Entries H V} (message : String) {keys : List H}
    (hkeys : ∀ key ∈ keys, key ∈ entries) :
    ∃ nodes : List (H × Entry H V),
      keys.mapM (fun key => Run.expect (entries.lookup key) message) =
        .ok (nodes.map Prod.snd) ∧
      nodes.map Prod.fst = keys ∧ ∀ node ∈ nodes, entries.lookup node.1 = some node.2 := by
  induction keys with
  | nil => exact ⟨[], rfl, rfl, by simp⟩
  | cons key keys ih =>
    obtain ⟨hkey, hrest⟩ := List.forall_mem_cons.mp hkeys
    obtain ⟨nodes, hnodes, hnames, hlookup⟩ := ih hrest
    obtain ⟨entry, hentry⟩ := exists_entry hkey
    refine ⟨(key, entry) :: nodes, ?_, by rw [List.map_cons, hnames],
      List.forall_mem_cons.mpr ⟨hentry, hlookup⟩⟩
    rw [List.mapM_cons, hentry, hnodes]
    rfl

theorem Shaped.descendents_below (hshaped : Shaped tree graph) {node : Entry H V}
    (hnode : graph.entries.lookup key = some node) (message : String) :
    ∃ nodes : List (H × Entry H V),
      node.descendents.mapM (fun key => Run.expect (graph.entries.lookup key) message) =
        .ok (nodes.map Prod.snd) ∧
      Below tree graph key key nodes := by
  have hkeys : ∀ next ∈ node.descendents, next ∈ graph.entries := by
    intro next hnext
    obtain ⟨entry, hentry, -⟩ := (hshaped.linked hnode next).mp hnext
    exact mem_of_lookup hentry
  obtain ⟨nodes, hnodes, hnames, hlookup⟩ := mapM_lookup message hkeys
  refine ⟨nodes, hnodes, by rw [hnames]; exact hshaped.nodup hnode, fun next entry => ?_, .refl,
    fun _ _ hdescends => hdescends⟩
  constructor
  · intro hmem
    have hnext : next ∈ node.descendents := hnames ▸ List.mem_map_of_mem hmem
    have hentry := hlookup _ hmem
    obtain ⟨entry', hentry', hedge⟩ := (hshaped.linked hnode next).mp hnext
    obtain rfl := Option.some.inj (hentry.symm.trans hentry')
    exact ⟨hentry, hedge, (hshaped.fitted hentry).descends_prev hedge⟩
  · rintro ⟨hentry, hedge, -⟩
    have hnext : next ∈ nodes.map Prod.fst := by
      rw [hnames]
      exact (hshaped.linked hnode next).mpr ⟨entry, hentry, hedge⟩
    obtain ⟨⟨next, entry'⟩, hmem, rfl⟩ := List.mem_map.mp hnext
    obtain rfl := Option.some.inj (hentry.symm.trans (hlookup _ hmem))
    exact hmem

theorem Below.follows (hbelow : Below tree graph key key nodes) (hshaped : Shaped tree graph)
    (hkey : key ∈ graph.entries) (hblock : block ∉ graph.entries)
    (habove : tree.Descends key block)
    (hnearest : ∀ node ∈ graph.entries, tree.Descends node block → tree.Descends node key)
    (hnumber : number.toNat = tree.height block) :
    Below tree graph key block
      (nodes.filter fun node => node.2.follows (some (block, number))) := by
  refine ⟨hbelow.nodup.sublist (List.filter_sublist.map _), fun next entry => ?_, habove, hnearest⟩
  have hfollows : ∀ {entry : Entry H V}, graph.entries.lookup next = some entry →
      (entry.follows (some (block, number)) = true ↔ block ∈ entry.ancestors) := by
    intro entry hentry
    rw [← (hshaped.fitted hentry).inDirectAncestry_iff hnumber, Entry.follows]
    cases entry.inDirectAncestry block number <;> simp
  rw [List.mem_filter]
  constructor
  · rintro ⟨hmem, hheld⟩
    obtain ⟨hentry, hedge, -⟩ := (hbelow.mem_iff next entry).mp hmem
    exact ⟨hentry, hedge, (hshaped.fitted hentry).line.descends ((hfollows hentry).mp hheld)⟩
  · rintro ⟨hentry, hedge, hdescends⟩
    refine ⟨(hbelow.mem_iff next entry).mpr
      ⟨hentry, hedge, (hshaped.fitted hentry).descends_prev hedge⟩, (hfollows hentry).mpr ?_⟩
    refine (mem_ancestors_iff hedge).mpr (.inr
      ((hshaped.fitted hentry).mem_inner hedge habove hdescends ?_ ?_))
    · exact fun heq => hblock (heq ▸ hkey)
    · exact fun heq => hblock (heq ▸ mem_of_lookup hentry)

end Below

section MergePoints

variable {tree : Ancestry H} {graph : VoteGraph H V} {ballots : Multiset (H × B)}
  {key current : H} {node : Entry H V} {nodes : List (H × Entry H V)} {offset best : UInt64}

-- The blocks that the search goes through. It stops before a block with enough votes only if
-- these are the votes of a single node.
structure Merges (tree : Ancestry H) (graph : VoteGraph H V) (enough : Multiset B → Prop)
    (ballots : Multiset (H × B)) (current : H) (hashes : List H) (number : UInt64) (last : H) :
    Prop where
  path : tree.Path (current :: hashes)
  ends : (current :: hashes).getLast? = some last
  heavy : ∀ block ∈ current :: hashes, enough (tree.support ballots block)
  inner : ∀ block ∈ hashes, block ∉ graph.entries
  number : number.toNat = tree.height last
  full : ∀ child, tree.parent child = some last → child ∉ graph.entries →
    enough (tree.support ballots child) →
    ∃ only, (∀ next, Holder graph.entries child next ↔ next = only) ∧
      enough (tree.support ballots only)

theorem numbers_succ {number : UInt64} {height : Nat}
    (hheight : height = number.toNat + offset.toNat) (hbest : best.toNat = height)
    (hlt : height + 1 < 2 ^ 64) :
    (offset + 1).toNat = offset.toNat + 1 ∧ (number + (offset + 1)).toNat = height + 1 ∧
      (best + 1).toNat = height + 1 := by
  have hone : (1 : UInt64).toNat = 1 := rfl
  have hoffset : (offset + 1).toNat = offset.toNat + 1 := by
    rw [UInt64.toNat_add, hone, Nat.mod_eq_of_lt (by omega)]
  refine ⟨hoffset, ?_, ?_⟩
  · rw [UInt64.toNat_add, hoffset, Nat.mod_eq_of_lt (by omega)]
    omega
  · rw [UInt64.toNat_add, hone, hbest, Nat.mod_eq_of_lt hlt]

omit [VoteValue V] in
theorem Below.stops (hbelow : Below tree graph key current nodes) (hshaped : Shaped tree graph)
    (hcast : ∀ ballot ∈ ballots, ballot.1 ∈ graph.entries) (hkey : key ∈ graph.entries)
    (hzero : ¬ enough 0) (hbest : best.toNat = tree.height current)
    (henough : enough (tree.support ballots current))
    (hlight : nodes ≠ [] → ∃ number : UInt64, number.toNat = tree.height current + 1 ∧
      ∀ block, 2 ≤ (together nodes number block).length →
        ¬ enough (totalCount (tree.support ballots) (together nodes number block))) :
    Merges tree graph enough ballots current [] best current := by
  refine ⟨List.isChain_singleton _, rfl, by simpa using henough, by simp, hbest,
    fun child hchild hnew hsupport => ?_⟩
  have hparent := tree.height_parent hchild
  -- The nodes below the child, whatever number it is found by.
  obtain ⟨below, hchildBelow, hcount⟩ : ∃ below, Below tree graph key child below ∧
      (2 ≤ below.length → ¬ enough (totalCount (tree.support ballots) below)) := by
    by_cases hnil : nodes = []
    · subst hnil
      refine ⟨[], ⟨List.nodup_nil, fun next entry => ?_, hbelow.above.trans (.step .refl hchild),
        fun other hother hdescends => ?_⟩, by simp⟩
      · refine iff_of_false (by simp) ?_
        rintro ⟨hentry, hedge, hdescends⟩
        have hmem := (hbelow.mem_iff next entry).mpr
          ⟨hentry, hedge, .trans (.step .refl hchild) hdescends⟩
        cases hmem
      · have hne : other ≠ child := fun heq => hnew (heq ▸ hother)
        exact hbelow.nearest other hother (hdescends.of_parent hne hchild)
    · obtain ⟨number, hnumber, hlight⟩ := hlight hnil
      exact ⟨_, hbelow.child hshaped hchild hnew (by omega), hlight child⟩
  have hholders := hchildBelow.holder_iff hshaped hkey hnew
  rw [hchildBelow.support_eq hshaped hcast hkey hnew] at hsupport
  match below, hcount, hholders, hsupport with
  | [], _, _, hsupport => exact absurd hsupport hzero
  | [(only, entry)], _, hholders, hsupport =>
    refine ⟨only, fun next => ?_, by simpa [totalCount] using hsupport⟩
    rw [← hholders]
    simp
  | _ :: _ :: _, hcount, _, hsupport => exact absurd hsupport (hcount (by simp))

omit [VoteValue V] in
theorem Below.found (hbelow : Below tree graph key current nodes) (hshaped : Shaped tree graph)
    {number : UInt64} {block : H} (hnumber : number.toNat = tree.height current + 1)
    (hheld : together nodes number block ≠ []) :
    block ∉ graph.entries ∧ tree.parent block = some current := by
  obtain ⟨⟨next, entry⟩, hmem⟩ := List.exists_mem_of_ne_nil _ hheld
  rw [together, List.mem_filter, decide_eq_true_eq] at hmem
  obtain ⟨hentry, hedge, hdescends⟩ := (hbelow.mem_iff next entry).mp hmem.1
  have hfitted := hshaped.fitted hentry
  obtain ⟨hancestor, hblock⟩ := hfitted.ancestorBlock_eq_some.mp hmem.2
  have hkey := hbelow.above.height_le
  refine ⟨hfitted.inner block (((mem_ancestors_iff hedge).mp hancestor).resolve_left ?_), ?_⟩
  · rintro rfl
    omega
  · have hcurrent : tree.Descends current block :=
      hdescends.of_height_le (hfitted.line.descends hancestor) (by omega)
    obtain ⟨child, hchild, hrest⟩ := hcurrent.exists_child (by rintro rfl; omega)
    have hparent := tree.height_parent hchild
    obtain rfl := hrest.eq_of_height_le (by omega)
    exact hchild

omit [VoteValue V] in
theorem filter_follows (nodes : List (H × Entry H V)) (block : H) {number number' : UInt64}
    (hsame : number = number') :
    nodes.filter ((fun node => node.follows (some (block, number))) ∘ Prod.snd) =
      together nodes number' block := by
  subst hsame
  refine List.filter_congr fun other _ => ?_
  simp only [Function.comp, Entry.follows, Entry.inDirectAncestry]
  cases other.2.ancestorBlock number <;> simp

theorem mergePoints_eq (htallies : Tallies tally) (hdecides : Decides condition tally enough)
    (hmono : Monotone enough) (hzero : ¬ enough 0) (h : Represents tree tally ballots graph)
    (hnode : graph.entries.lookup key = some node) {fuel : Nat}
    (hbelow : Below tree graph key current nodes)
    (hheight : tree.height current = tree.height key + offset.toNat)
    (hbest : best.toNat = tree.height current) (henough : enough (tree.support ballots current))
    (hfuel : ∀ next ∈ nodes, next.2.ancestors.length ≤ offset.toNat + fuel) :
    ∃ hashes number last, mergePoints condition node.number fuel offset best
        (nodes.map Prod.snd) = .ok (hashes, number) ∧
      Merges tree graph enough ballots current hashes number last := by
  have hkey := mem_of_lookup hnode
  have hlength : ∀ next entry, (next, entry) ∈ nodes →
      entry.ancestors.length + tree.height key = tree.height next ∧
        tree.height next < 2 ^ 64 := by
    intro next entry hmem
    obtain ⟨hentry, hedge, -⟩ := (hbelow.mem_iff next entry).mp hmem
    have hlast := (h.shaped.fitted hentry).line.height_last hedge
    have hnumber := (h.shaped.fitted hentry).number
    have hlt := entry.number.toNat_lt
    omega
  induction fuel generalizing current nodes offset best with
  | zero =>
    refine ⟨[], best, current, rfl, hbelow.stops h.shaped h.cast hkey hzero hbest henough ?_⟩
    intro hne
    obtain ⟨⟨next, entry⟩, hmem⟩ := List.exists_mem_of_ne_nil _ hne
    have hlt := hbelow.height_lt h.shaped hmem
    have hle := hfuel _ hmem
    have hsum := (hlength next entry hmem).1
    simp only at hle
    omega
  | succ fuel ih =>
    have htallied : ∀ next ∈ nodes, tally next.2.cumulativeVote (tree.support ballots next.1) :=
      fun next hmem => h.counts _ _ ((hbelow.mem_iff _ _).mp hmem).1
    have hempty : Merged tally (tree.support ballots) (node.number + (offset + 1)) []
        (∅ : AList fun _ : H => V) := fun block => .inl ⟨rfl, rfl⟩
    obtain ⟨found, hfound, hsome, hnone⟩ := mergeVotes_eq htallies hdecides hmono htallied hempty
    rw [List.nil_append] at hsome hnone
    simp only [mergePoints, hfound, bind, Except.bind]
    -- A node that is left is higher, so the next number is one as well.
    have hnumbers : nodes ≠ [] → (offset + 1).toNat = offset.toNat + 1 ∧
        (node.number + (offset + 1)).toNat = tree.height current + 1 ∧
        (best + 1).toNat = tree.height current + 1 := by
      intro hne
      obtain ⟨⟨next, entry⟩, hmem⟩ := List.exists_mem_of_ne_nil _ hne
      have hlt := hbelow.height_lt h.shaped hmem
      have hbound := (hlength next entry hmem).2
      rw [← (h.shaped.fitted hnode).number] at hheight
      exact numbers_succ hheight hbest (by omega)
    cases found with
    | none =>
      refine ⟨[], best, current, rfl,
        hbelow.stops h.shaped h.cast hkey hzero hbest henough fun hne => ?_⟩
      refine ⟨_, (hnumbers hne).2.1, fun block htwo => hnone rfl block (fun hnil => ?_) htwo⟩
      rw [hnil] at htwo
      simp at htwo
    | some block =>
      obtain ⟨hheld, hcounted⟩ := hsome block rfl
      have hne : nodes ≠ [] := by
        rintro rfl
        exact hheld rfl
      obtain ⟨hoffset, hnumber, hbestNext⟩ := hnumbers hne
      obtain ⟨hnew, hchild⟩ := hbelow.found h.shaped hnumber hheld
      have hparent := tree.height_parent hchild
      have hnext := hbelow.child h.shaped hchild hnew (hnumber.trans hparent.symm)
      have hkept := filter_follows nodes block
        (UInt64.toNat_inj.mp (hbestNext.trans hnumber.symm))
      have henough' : enough (tree.support ballots block) := by
        rw [hnext.support_eq h.shaped h.cast hkey hnew]
        exact hcounted
      have hfuel' : ∀ other ∈ together nodes (node.number + (offset + 1)) block,
          other.2.ancestors.length ≤ (offset + 1).toNat + fuel := by
        intro other hother
        have hle := hfuel other (List.mem_of_mem_filter hother)
        omega
      obtain ⟨hashes, number, last, hpoints, hmerges⟩ := ih hnext
        (by rw [hparent, hheight, hoffset, Nat.add_assoc]) (hbestNext.trans hparent.symm)
        henough' hfuel' fun other entry hmem =>
          hlength other entry (List.mem_of_mem_filter hmem)
      refine ⟨block :: hashes, number, last, ?_, ?_, ?_, ?_, ?_, hmerges.number, hmerges.full⟩
      · simp only [List.filter_map, hkept, hpoints]
        rfl
      · exact List.isChain_cons_cons.mpr ⟨hchild, hmerges.path⟩
      · rw [List.getLast?_cons_cons]
        exact hmerges.ends
      · exact List.forall_mem_cons.mpr ⟨henough, hmerges.heavy⟩
      · exact List.forall_mem_cons.mpr ⟨hnew, hmerges.inner⟩

end MergePoints

end Yeeroot.Grandpa.VoteGraph
