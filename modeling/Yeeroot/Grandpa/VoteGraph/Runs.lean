import Yeeroot.Grandpa.VoteGraph.Best

namespace Yeeroot.Grandpa.VoteGraph

variable {H V B : Type}

-- A vote that the graph is given, and the order in which its heads are iterated meanwhile.
structure Cast (H V : Type) where
  order : List H → List H
  hash : H
  number : UInt64
  vote : V

def insertAll [DecidableEq H] [VoteValue V] (chain : Chain H) :
    List (Cast H V) → VoteGraph H V → Run (Except Error (VoteGraph H V))
  | [], graph => .ok (.ok graph)
  | cast :: casts, graph => do
    match ← VoteGraph.insert cast.order chain graph cast.hash cast.number cast.vote with
    | .error error => return .error error
    | .ok graph => insertAll chain casts graph

-- A vote for a block of the tree that is not above the base, which counts as the ballot.
structure Cast.Counts (tree : Ancestry H) (base : H) (tally : V → Multiset B → Prop)
    (cast : Cast H V) (ballot : H × B) : Prop where
  order : ∀ heads, (cast.order heads).Perm heads
  target : cast.hash = ballot.1
  descends : tree.Descends base ballot.1
  number : cast.number.toNat = tree.height ballot.1
  tallied : tally cast.vote {ballot.2}

-- Votes that a graph gets from its environment, and the ballots that they stand for.
structure Polled (tree : Ancestry H) (chain : Chain H) (tally : V → Multiset B → Prop)
    (base : H × UInt64) (casts : List (Cast H V)) (ballots : List (H × B)) : Prop where
  follows : chain.Follows tree
  number : base.2.toNat = tree.height base.1
  counts : List.Forall₂ (Cast.Counts tree base.1 tally) casts ballots

section Insert

variable [DecidableEq H] [VoteValue V] {tree : Ancestry H} {chain : Chain H}
  {tally : V → Multiset B → Prop} {base : H × UInt64} {casts : List (Cast H V)}
  {ballots : List (H × B)} {graph : VoteGraph H V}

-- By induction over the votes, with the ballots that were counted before.
theorem Represents.insertAll (htallies : Tallies tally) (hchain : chain.Follows tree)
    {before : Multiset (H × B)} (h : Represents tree tally before graph) {root : H}
    (hroot : graph.base = root)
    (hcounts : List.Forall₂ (Cast.Counts tree root tally) casts ballots) :
    ∃ graph', VoteGraph.insertAll chain casts graph = .ok (.ok graph') ∧
      graph'.base = root ∧ Represents tree tally ((ballots : Multiset _) + before) graph' := by
  induction hcounts generalizing graph before with
  | nil => exact ⟨graph, rfl, hroot, by simpa using h⟩
  | @cons cast ballot casts ballots hcast hcasts ih =>
    obtain ⟨middle, hinsert, hbase, -, hmiddle⟩ := h.insert htallies hcast.order hchain
      (hroot ▸ hcast.descends) hcast.number hcast.tallied
    obtain ⟨graph', hall, hbase', hgraph'⟩ := ih hmiddle (hbase.trans hroot)
    refine ⟨graph', ?_, hbase', ?_⟩
    · simp only [VoteGraph.insertAll, hcast.target, hinsert, bind, Except.bind]
      exact hall
    · have hcons : (((ballot :: ballots : List _) : Multiset (H × B)) + before) =
          (ballots : Multiset _) + ballot ::ₘ before := by
        rw [← Multiset.cons_coe, Multiset.cons_add, Multiset.add_cons]
      rw [hcons]
      exact hgraph'

theorem Polled.represents (htallies : Tallies tally)
    (h : Polled tree chain tally base casts ballots) :
    ∃ graph, insertAll chain casts (VoteGraph.new base.1 base.2 : VoteGraph H V) =
        .ok (.ok graph) ∧
      graph.base = base.1 ∧ Represents tree tally (ballots : Multiset _) graph := by
  obtain ⟨graph, hrun, hbase, hrepresents⟩ :=
    (represents_new htallies h.number).insertAll htallies h.follows rfl h.counts
  exact ⟨graph, hrun, hbase, by simpa using hrepresents⟩

theorem Polled.represents_of_run (htallies : Tallies tally)
    (h : Polled tree chain tally base casts ballots)
    (hrun : insertAll chain casts (VoteGraph.new base.1 base.2) = .ok (.ok graph)) :
    graph.base = base.1 ∧ Represents tree tally (ballots : Multiset _) graph := by
  obtain ⟨graph', hrun', hgraph'⟩ := h.represents htallies
  obtain rfl := Except.ok.inj (Except.ok.inj (hrun.symm.trans hrun'))
  exact hgraph'

end Insert

section Ghost

variable [DecidableEq H] [VoteValue V] {tree : Ancestry H} {chain chain' : Chain H}
  {tally : V → Multiset B → Prop} {base : H × UInt64} {casts casts' : List (Cast H V)}
  {ballots ballots' : List (H × B)} {graph graph' : VoteGraph H V} {condition : V → Run Bool}
  {enough : Multiset B → Prop} {order order' : List H → List H}

-- What a search for the best block gives.
structure FindsGhost (tree : Ancestry H) (enough : Multiset B → Prop)
    (ballots : Multiset (H × B)) (base : H) (ghost : Option (H × UInt64)) : Prop where
  none_iff : ghost = none ↔ ¬ enough (tree.support ballots base)
  found : ∀ best number, ghost = some (best, number) → number.toNat = tree.height best ∧
    tree.Descends base best ∧ tree.Heaviest enough ballots best

omit [DecidableEq H] [VoteValue V] in
theorem FindsGhost.unique {votes : Multiset (H × B)} {root : H} {ghost ghost' : Option (H × UInt64)}
    (hmono : Monotone enough)
    (hline : ∀ block, enough (tree.support votes block) → tree.Uncontested enough votes block)
    (h : FindsGhost tree enough votes root ghost)
    (h' : FindsGhost tree enough votes root ghost') : ghost' = ghost := by
  cases ghost with
  | none => exact h'.none_iff.mpr (h.none_iff.mp rfl)
  | some best =>
    cases ghost' with
    | none => exact absurd (h.none_iff.mpr (h'.none_iff.mp rfl)) (by simp)
    | some best' =>
      obtain ⟨hnumber, -, hbest⟩ := h.found best.1 best.2 rfl
      obtain ⟨hnumber', -, hbest'⟩ := h'.found best'.1 best'.2 rfl
      have hsame : best'.1 = best.1 := by
        rcases hline best.1 hbest.heavy best'.1 hbest'.heavy with hbefore | hafter
        · exact hbest'.eq_of_descends hmono hbefore hbest.heavy
        · exact (hbest.eq_of_descends hmono hafter hbest'.heavy).symm
      have hnumbers : best'.2 = best.2 := UInt64.toNat_inj.mp (by rw [hnumber, hnumber', hsame])
      exact congrArg some (Prod.ext hsame hnumbers)

theorem Represents.findsGhost (htallies : Tallies tally) (hdecides : Decides condition tally enough)
    (hmono : Monotone enough) (hzero : ¬ enough 0) {votes : Multiset (H × B)}
    (h : Represents tree tally votes graph) (horder : ∀ heads, (order heads).Perm heads)
    {start : Option (H × UInt64)}
    (hstart : ∀ hash number, start = some (hash, number) → tree.Descends graph.base hash ∧
      number.toNat = tree.height hash ∧ enough (tree.support votes hash)) :
    ∃ ghost, findGhost condition order graph start = .ok ghost ∧
      FindsGhost tree enough votes graph.base ghost := by
  by_cases henough : enough (tree.support votes graph.base)
  · obtain ⟨best, number, hghost, hnumber, hbase, -, hheaviest⟩ :=
      findGhost_eq htallies hdecides hmono hzero h horder henough hstart
    refine ⟨some (best, number), hghost, by simp [henough], ?_⟩
    rintro _ _ heq
    obtain ⟨rfl, rfl⟩ := Prod.mk.inj (Option.some.inj heq)
    exact ⟨hnumber, hbase, hheaviest⟩
  · -- There is no start then, and the root already fails.
    cases start with
    | some start =>
      obtain ⟨hbase, -, hheavy⟩ := hstart start.1 start.2 rfl
      exact absurd (hmono (Ancestry.support_le hbase) hheavy) henough
    | none =>
      obtain ⟨root, hroot⟩ := exists_entry h.shaped.base
      obtain ⟨holds, hcondition, hiff⟩ := hdecides _ _ (h.counts _ root hroot)
      obtain rfl : holds = false := by simpa [henough] using hiff
      refine ⟨none, ?_, by simp [henough], by simp⟩
      simp only [findGhost, hroot, Run.expect, hcondition, pure, Except.pure, bind, Except.bind]
      rfl

theorem Polled.findsGhost (htallies : Tallies tally) (hdecides : Decides condition tally enough)
    (hmono : Monotone enough) (hzero : ¬ enough 0)
    (h : Polled tree chain tally base casts ballots)
    (hrun : insertAll chain casts (VoteGraph.new base.1 base.2) = .ok (.ok graph))
    (horder : ∀ heads, (order heads).Perm heads) :
    ∃ ghost, findGhost condition order graph none = .ok ghost ∧
      FindsGhost tree enough (ballots : Multiset _) base.1 ghost := by
  obtain ⟨hbase, hrepresents⟩ := h.represents_of_run htallies hrun
  rw [← hbase]
  exact hrepresents.findsGhost htallies hdecides hmono hzero horder fun _ _ hsome => by cases hsome

end Ghost

end Yeeroot.Grandpa.VoteGraph
