import Yeeroot.Ancestry.Paths
import Yeeroot.Grandpa.VoteGraph.Rebase
import Yeeroot.Grandpa.VoteGraph.Weights

namespace Yeeroot.Grandpa.VoteGraph

section Sample

-- A chain whose blocks are told by the ways to them.
def pathChain (α : Type) [DecidableEq α] : Chain (List α) where
  ancestry base block := .ok
    (if base <:+ block then .ok (Ancestry.between base block) else .error .notDescendent)

theorem pathChain_follows {α : Type} [DecidableEq α] :
    (pathChain α).Follows (Ancestry.paths α) where
  route := by
    intro base block hdescends hne
    have hsuffix := Ancestry.paths_descends_iff.mp hdescends
    refine ⟨Ancestry.between base block, ?_, Ancestry.line_between hsuffix hne⟩
    simp only [pathChain, if_pos hsuffix]
  stray := by
    intro base block hstray
    have hsuffix := mt Ancestry.paths_descends_iff.mpr hstray
    simp only [pathChain, if_neg hsuffix]

-- Four voters, one of whom may be faulty.
def fourVoters : List (Nat × UInt64) := [(0, 1), (1, 1), (2, 1), (3, 1)]

theorem electorate_four : Electorate fourVoters := ⟨by decide, by decide⟩

def voterCast (ballot : VoteKind × Fin 4 × List Bool) : Cast (List Bool) VoteWeight where
  order heads := heads
  hash := ballot.2.2
  number := ballot.2.2.length.toUInt64
  vote := (Bitfield.setBit .blank (ballot.1.bit ballot.2.1) 4).toOption.getD .blank

def ballotOf (ballot : VoteKind × Fin 4 × List Bool) : List Bool × Nat :=
  (ballot.2.2, ballot.1.bit ballot.2.1)

theorem counts_four {base : List Bool} (ballots : List (VoteKind × Fin 4 × List Bool))
    (hfits : ∀ ballot ∈ ballots, base <:+ ballot.2.2 ∧ ballot.2.2.length < 2 ^ 64) :
    List.Forall₂ (Cast.Counts (Ancestry.paths Bool) base (Bitfield.Tally 4))
      (ballots.map voterCast) (ballots.map ballotOf) := by
  rw [List.forall₂_map_left_iff, List.forall₂_map_right_iff, List.forall₂_same]
  intro ballot hballot
  obtain ⟨hsuffix, hlength⟩ := hfits ballot hballot
  refine ⟨fun heads => .refl heads, rfl, Ancestry.paths_descends_iff.mpr hsuffix,
    Nat.mod_eq_of_lt hlength, ?_⟩
  have hblank : Bitfield.Sized 4 .blank := rfl
  obtain ⟨marked, hmarked, hsized, hholds⟩ :=
    Bitfield.setBit_holds hblank ballot.2.1.isLt ballot.1
  have hvote : (voterCast ballot).vote = marked := by
    simp only [voterCast, hmarked]
    rfl
  rw [hvote]
  refine ⟨hsized, fun bit => ?_⟩
  rw [hholds, Multiset.mem_singleton]
  exact or_iff_left Bitfield.not_holds_blank

theorem polled_four (ballots : List (VoteKind × Fin 4 × List Bool))
    (hlength : ∀ ballot ∈ ballots, ballot.2.2.length < 2 ^ 64) :
    Polled (Ancestry.paths Bool) (pathChain Bool) (Bitfield.Tally 4) ([], 0)
      (ballots.map voterCast) (ballots.map ballotOf) where
  follows := pathChain_follows
  number := rfl
  counts := counts_four ballots fun ballot hballot =>
    ⟨List.nil_suffix, hlength ballot hballot⟩

-- Enough of them agree on a block, or on one of another branch.
def agreed : List (VoteKind × Fin 4 × List Bool) :=
  [(.prevote, 0, [true]), (.prevote, 1, [true]), (.prevote, 2, [false, true]),
    (.precommit, 0, [true]), (.precommit, 1, [true]), (.precommit, 2, [])]

def opposed : List (VoteKind × Fin 4 × List Bool) :=
  [(.prevote, 3, [false]), (.prevote, 2, [false]), (.prevote, 1, [false])]

def fourGraph (ballots : List (VoteKind × Fin 4 × List Bool)) :
    Run (Except Error (VoteGraph (List Bool) VoteWeight)) :=
  insertAll (pathChain Bool) (ballots.map voterCast) (VoteGraph.new [] 0)

def fourQuorum (kind : VoteKind) : VoteWeight → Run Bool :=
  VoteWeight.hasQuorum .blank (VoterSet.fromIter fourVoters) kind

theorem findGhost_agreed {graph : VoteGraph (List Bool) VoteWeight}
    (hrun : fourGraph agreed = .ok (.ok graph)) :
    findGhost (fourQuorum .prevote) (fun heads => heads) graph none = .ok (some ([true], 1)) := by
  obtain rfl := Except.ok.inj (Except.ok.inj hrun)
  rfl

theorem fourQuorum_decides (kind : VoteKind) :
    Decides (fourQuorum kind) (Bitfield.Tally 4) (Reaches fourVoters .blank kind) := by
  have hblank : Bitfield.Sized fourVoters.length .blank := rfl
  exact VoteWeight.hasQuorum_decides electorate_four hblank kind

theorem weightIn_marked_blank (kind : VoteKind) :
    VoterSet.weightIn fourVoters (Marked fourVoters .blank kind 0) = 0 := by
  have hnone : ∀ id ∈ VoterSet.ids fourVoters, Marked fourVoters .blank kind 0 id ↔ False := by
    refine fun id _ => ⟨?_, False.elim⟩
    rintro ⟨info, -, hbit | hheld⟩
    · exact Multiset.notMem_zero _ hbit
    · exact Bitfield.not_holds_blank hheld
  rw [VoterSet.weightIn, Ancestry.weightOf_congr hnone]
  simp [Ancestry.weightOf]

theorem not_reaches_four (kind : VoteKind) : ¬ Reaches fourVoters .blank kind 0 := by
  rw [Reaches, weightIn_marked_blank]
  decide

end Sample

section Votes

variable {H V B : Type} [DecidableEq H] [VoteValue V] {tree : Ancestry H} {chain chain' : Chain H}
  {tally : V → Multiset B → Prop} {base : H × UInt64} {casts casts' : List (Cast H V)}
  {ballots ballots' : List (H × B)} {graph graph' : VoteGraph H V} {condition : V → Run Bool}
  {enough : Multiset B → Prop} {order order' : List H → List H} {early late : List (H × B)}
  {newBase : H}

-- Votes in any order, for blocks on any edges and whatever order the heads are in, are taken
-- without a panic or an error. Each voted block becomes a node, and a node has the votes for
-- itself and all its descendants, each once.
theorem insertAll_counts (htallies : Tallies tally)
    (h : Polled tree chain tally base casts ballots) :
    ∃ graph, insertAll chain casts (VoteGraph.new base.1 base.2 : VoteGraph H V) =
        .ok (.ok graph) ∧
      (∀ ballot ∈ ballots, ballot.1 ∈ graph.entries) ∧
      ∀ key entry, graph.entries.lookup key = some entry →
        entry.number.toNat = tree.height key ∧
          tally entry.cumulativeVote (tree.support (ballots : Multiset _) key) := by
  obtain ⟨graph, hrun, -, hrepresents⟩ := h.represents htallies
  exact ⟨graph, hrun, fun ballot hballot => hrepresents.cast ballot (Multiset.mem_coe.mpr hballot),
    fun key entry hentry => ⟨(hrepresents.shaped.fitted hentry).number,
      hrepresents.counts key entry hentry⟩⟩

theorem insertAll_counts_agreed :
    ∃ graph, fourGraph agreed = .ok (.ok graph) ∧
      ∀ key entry, graph.entries.lookup key = some entry →
        entry.number.toNat = key.length ∧ Bitfield.Tally 4 entry.cumulativeVote
          ((Ancestry.paths Bool).support (agreed.map ballotOf : Multiset _) key) := by
  obtain ⟨graph, hrun, -, hcounts⟩ :=
    insertAll_counts (Bitfield.tallies 4) (polled_four agreed (by decide))
  exact ⟨graph, hrun, hcounts⟩

-- The ghost of a graph that has got votes in any order: there is none if the base has not enough
-- votes, and else it is a block with enough of them none of whose children has enough.
theorem findGhost_heaviest (htallies : Tallies tally) (hdecides : Decides condition tally enough)
    (hmono : Monotone enough) (hzero : ¬ enough 0)
    (h : Polled tree chain tally base casts ballots)
    (hrun : insertAll chain casts (VoteGraph.new base.1 base.2) = .ok (.ok graph))
    (horder : ∀ heads, (order heads).Perm heads) :
    ∃ ghost, findGhost condition order graph none = .ok ghost ∧
      (ghost = none ↔ ¬ enough (tree.support (ballots : Multiset _) base.1)) ∧
      ∀ best number, ghost = some (best, number) → number.toNat = tree.height best ∧
        tree.Descends base.1 best ∧ tree.Heaviest enough (ballots : Multiset _) best := by
  obtain ⟨ghost, hghost, hfinds⟩ := h.findsGhost htallies hdecides hmono hzero hrun horder
  exact ⟨ghost, hghost, hfinds.none_iff, hfinds.found⟩

theorem findGhost_heaviest_agreed :
    ∃ graph, fourGraph agreed = .ok (.ok graph) ∧
      findGhost (fourQuorum .prevote) (fun heads => heads) graph none =
        .ok (some ([true], 1)) ∧
      (Ancestry.paths Bool).Heaviest (Reaches fourVoters .blank .prevote)
        (agreed.map ballotOf : Multiset _) [true] := by
  have hpolled := polled_four agreed (by decide)
  obtain ⟨graph, hrun, -⟩ := hpolled.represents (Bitfield.tallies 4)
  have hvalue := findGhost_agreed hrun
  obtain ⟨ghost, hghost, -, hfound⟩ := findGhost_heaviest (Bitfield.tallies 4)
    (fourQuorum_decides .prevote) (reaches_mono _ _ _) (not_reaches_four .prevote) hpolled hrun
    fun heads => .refl heads
  obtain rfl := Except.ok.inj (hvalue.symm.trans hghost)
  exact ⟨graph, hrun, hvalue, (hfound [true] 1 rfl).2.2⟩

-- The search from the ghost of earlier votes gives what a search from the base gives, if the
-- blocks with enough votes are on one line.
theorem findGhost_resumes (htallies : Tallies tally) (hdecides : Decides condition tally enough)
    (hmono : Monotone enough) (hzero : ¬ enough 0)
    (h : Polled tree chain tally base casts ballots)
    (h' : Polled tree chain' tally base (casts ++ casts') (ballots ++ ballots'))
    (hline : ∀ block, enough (tree.support ((ballots ++ ballots' : List _) : Multiset _) block) →
      tree.Uncontested enough ((ballots ++ ballots' : List _) : Multiset _) block)
    (hrun : insertAll chain casts (VoteGraph.new base.1 base.2) = .ok (.ok graph))
    (hrun' : insertAll chain' (casts ++ casts') (VoteGraph.new base.1 base.2) = .ok (.ok graph'))
    (horder : ∀ heads, (order heads).Perm heads) (horder' : ∀ heads, (order' heads).Perm heads)
    {ghost : Option (H × UInt64)} (hghost : findGhost condition order graph none = .ok ghost) :
    findGhost condition order' graph' ghost = findGhost condition order graph' none := by
  obtain ⟨before, hbefore, hfinds⟩ := h.findsGhost htallies hdecides hmono hzero hrun horder
  obtain rfl := Except.ok.inj (hghost.symm.trans hbefore)
  obtain ⟨hbase, hrepresents⟩ := h'.represents_of_run htallies hrun'
  have hstart : ∀ hash number, ghost = some (hash, number) → tree.Descends graph'.base hash ∧
      number.toNat = tree.height hash ∧
        enough (tree.support ((ballots ++ ballots' : List _) : Multiset _) hash) := by
    intro hash number hsome
    obtain ⟨hnumber, hdescends, hheaviest⟩ := hfinds.found hash number hsome
    refine ⟨hbase.symm ▸ hdescends, hnumber, hmono ?_ hheaviest.heavy⟩
    exact Ancestry.support_mono (Multiset.coe_le.mpr (List.sublist_append_left _ _).subperm) hash
  obtain ⟨resumed, hresumed, hfinds'⟩ :=
    hrepresents.findsGhost htallies hdecides hmono hzero horder' hstart
  rw [hbase] at hfinds'
  obtain ⟨fresh, hfresh, hfinds''⟩ := h'.findsGhost htallies hdecides hmono hzero hrun' horder
  rw [hresumed, hfresh, hfinds''.unique hmono hline hfinds']

theorem findGhost_resumes_agreed :
    ∃ graph graph', fourGraph agreed = .ok (.ok graph) ∧
      fourGraph (agreed ++ [(.prevote, 3, [false, true])]) = .ok (.ok graph') ∧
      findGhost (fourQuorum .prevote) List.reverse graph' (some ([true], 1)) =
        findGhost (fourQuorum .prevote) (fun heads => heads) graph' none := by
  have hpolled := polled_four agreed (by decide)
  have hlater := polled_four (agreed ++ [(.prevote, 3, [false, true])]) (by decide)
  obtain ⟨graph, hrun, -⟩ := hpolled.represents (Bitfield.tallies 4)
  obtain ⟨graph', hrun', -⟩ := hlater.represents (Bitfield.tallies 4)
  have hvalue := findGhost_agreed hrun
  refine ⟨graph, graph', hrun, hrun', ?_⟩
  rw [List.map_append, List.map_append] at hlater
  rw [List.map_append] at hrun'
  refine findGhost_resumes (Bitfield.tallies 4) (fourQuorum_decides .prevote)
    (reaches_mono _ _ _) (not_reaches_four .prevote) hpolled hlater (fun block hblock => ?_) hrun
    hrun' (fun heads => .refl heads) (fun heads => List.reverse_perm heads) hvalue
  exact reaches_uncontested electorate_four (by decide) (by decide)
    (by rw [weightIn_marked_blank]; exact Nat.zero_le _) hblock

-- The best ancestor of a ghost under another condition. It is on one line with the ghost, and
-- every block up to the ghost with enough votes, which others with enough are on one line
-- with, is at or above it.
theorem findAncestor_highest {condition' : V → Run Bool} {enough' : Multiset B → Prop}
    (htallies : Tallies tally) (hdecides : Decides condition tally enough)
    (hmono : Monotone enough) (hzero : ¬ enough 0)
    (hdecides' : Decides condition' tally enough') (hmono' : Monotone enough')
    (hzero' : ¬ enough' 0) (h : Polled tree chain tally base casts ballots)
    (hrun : insertAll chain casts (VoteGraph.new base.1 base.2) = .ok (.ok graph))
    (horder : ∀ heads, (order heads).Perm heads) (horder' : ∀ heads, (order' heads).Perm heads)
    {ghost : H} {number : UInt64}
    (hghost : findGhost condition order graph none = .ok (some (ghost, number)))
    (henough : enough' (tree.support (ballots : Multiset _) base.1)) :
    ∃ best number', findAncestor condition' order' graph ghost number =
        .ok (some (best, number')) ∧
      number'.toNat = tree.height best ∧ enough' (tree.support (ballots : Multiset _) best) ∧
      (tree.Descends best ghost ∨ tree.Descends ghost best) ∧
      ∀ block, tree.Descends block ghost → enough' (tree.support (ballots : Multiset _) block) →
        tree.Uncontested enough' (ballots : Multiset _) block → tree.Descends block best := by
  obtain ⟨hbase, hrepresents⟩ := h.represents_of_run htallies hrun
  obtain ⟨found, hfound, hfinds⟩ := h.findsGhost htallies hdecides hmono hzero hrun horder
  obtain rfl := Except.ok.inj (hghost.symm.trans hfound)
  obtain ⟨hnumber, hdescends, hheaviest⟩ := hfinds.found ghost number rfl
  rw [← hbase] at hdescends henough
  have hwide := hrepresents.wide hmono hzero hheaviest hdescends hnumber
  obtain ⟨best, number', hbest, hnumber', hheavy, hline, -, hhighest⟩ :=
    findAncestor_eq htallies hdecides' hmono' hzero' hrepresents horder' henough hdescends
      hnumber hwide
  exact ⟨best, number', hbest, hnumber', hheavy, hline, hhighest⟩

-- Two of the three precommits are for the ghost, and the third is for the base.
theorem findAncestor_highest_agreed :
    ∃ graph, fourGraph agreed = .ok (.ok graph) ∧
      findAncestor (fourQuorum .precommit) (fun heads => heads) graph [true] 1 =
        .ok (some ([], 0)) ∧
      Reaches fourVoters .blank .precommit
        ((Ancestry.paths Bool).support (agreed.map ballotOf : Multiset _) []) := by
  have hpolled := polled_four agreed (by decide)
  obtain ⟨graph, hrun, -⟩ := hpolled.represents (Bitfield.tallies 4)
  have hvalues :
      findGhost (fourQuorum .precommit) (fun heads => heads) graph none = .ok (some ([], 0)) ∧
      findAncestor (fourQuorum .precommit) (fun heads => heads) graph [true] 1 =
        .ok (some ([], 0)) := by
    obtain rfl := Except.ok.inj (Except.ok.inj hrun)
    exact ⟨rfl, rfl⟩
  obtain ⟨hprecommits, hancestor⟩ := hvalues
  obtain ⟨ghost, hfound, hfinds⟩ := hpolled.findsGhost (Bitfield.tallies 4)
    (fourQuorum_decides .precommit) (reaches_mono _ _ _) (not_reaches_four .precommit) hrun
    fun heads => .refl heads
  obtain rfl := Except.ok.inj (hprecommits.symm.trans hfound)
  obtain ⟨best, number, hbest, -, hheavy, -⟩ := findAncestor_highest (Bitfield.tallies 4)
    (fourQuorum_decides .prevote) (reaches_mono _ _ _) (not_reaches_four .prevote)
    (fourQuorum_decides .precommit) (reaches_mono _ _ _) (not_reaches_four .precommit) hpolled
    hrun (fun heads => .refl heads) (fun heads => .refl heads) (findGhost_agreed hrun)
    (not_not.mp (mt hfinds.none_iff.mpr (by simp)))
  obtain ⟨rfl, rfl⟩ := Prod.mk.inj (Option.some.inj (Except.ok.inj (hancestor.symm.trans hbest)))
  exact ⟨graph, hrun, hancestor, hheavy⟩

-- Votes, a base further up the chain, and votes again: no vote is lost or counted twice, and votes
-- for blocks between the two bases are taken.
theorem adjustBase_keeps_votes (htallies : Tallies tally)
    (h : Polled tree chain tally base casts early) {proof : List H}
    (hline : tree.Line (base.1 :: proof)) (hlast : proof.getLast? = some newBase)
    (hcounts : List.Forall₂ (Cast.Counts tree newBase tally) casts' late)
    (hrun : insertAll chain casts (VoteGraph.new base.1 base.2) = .ok (.ok graph)) :
    ∃ moved graph', adjustBase graph proof = .ok moved ∧ moved.base = newBase ∧
      insertAll chain casts' moved = .ok (.ok graph') ∧
      (∀ ballot ∈ early ++ late, ballot.1 ∈ graph'.entries) ∧
      ∀ key entry, graph'.entries.lookup key = some entry →
        entry.number.toNat = tree.height key ∧
          tally entry.cumulativeVote (tree.support ((early ++ late : List _) : Multiset _) key) := by
  obtain ⟨hbase, hrepresents⟩ := h.represents_of_run htallies hrun
  obtain ⟨moved, hmoved, hmovedBase, hrepresents'⟩ :=
    hrepresents.adjustBase (hbase.symm ▸ hline) hlast
  obtain ⟨graph', hrun', -, hgraph'⟩ :=
    hrepresents'.insertAll htallies h.follows hmovedBase hcounts
  have hall : ((late : Multiset (H × B)) + (early : Multiset _)) =
      ((early ++ late : List _) : Multiset _) := by
    rw [add_comm, Multiset.coe_add]
  rw [hall] at hgraph'
  exact ⟨moved, graph', hmoved, hmovedBase, hrun',
    fun ballot hballot => hgraph'.cast ballot (Multiset.mem_coe.mpr hballot),
    fun key entry hentry => ⟨(hgraph'.shaped.fitted hentry).number,
      hgraph'.counts key entry hentry⟩⟩

-- The base moves from a child of the root to the root, and a vote for another child follows.
theorem adjustBase_keeps_votes_root :
    ∃ graph moved graph',
      insertAll (pathChain Bool) [voterCast (.prevote, 0, [false, true])]
        (VoteGraph.new [true] 1) = .ok (.ok graph) ∧
      adjustBase graph [[]] = .ok moved ∧ moved.base = [] ∧
      insertAll (pathChain Bool) [voterCast (.prevote, 1, [false])] moved = .ok (.ok graph') ∧
      ∀ key entry, graph'.entries.lookup key = some entry → entry.number.toNat = key.length ∧
        Bitfield.Tally 4 entry.cumulativeVote ((Ancestry.paths Bool).support
          ([ballotOf (.prevote, 0, [false, true]), ballotOf (.prevote, 1, [false])] :
            Multiset _) key) := by
  have hpolled : Polled (Ancestry.paths Bool) (pathChain Bool) (Bitfield.Tally 4) ([true], 1)
      [voterCast (.prevote, 0, [false, true])] [ballotOf (.prevote, 0, [false, true])] :=
    ⟨pathChain_follows, rfl, counts_four [(.prevote, 0, [false, true])] (by decide)⟩
  have hlate : List.Forall₂ (Cast.Counts (Ancestry.paths Bool) [] (Bitfield.Tally 4))
      [voterCast (.prevote, 1, [false])] [ballotOf (.prevote, 1, [false])] :=
    counts_four [(.prevote, 1, [false])] (by decide)
  have hline : (Ancestry.paths Bool).Line [[true], []] :=
    List.isChain_cons_cons.mpr ⟨rfl, List.isChain_singleton _⟩
  obtain ⟨graph, hrun, -⟩ := hpolled.represents (Bitfield.tallies 4)
  obtain ⟨moved, graph', hmoved, hbase, hrun', -, hcounts⟩ :=
    adjustBase_keeps_votes (Bitfield.tallies 4) hpolled hline rfl hlate hrun
  exact ⟨graph, moved, graph', hrun, hmoved, hbase, hrun', hcounts⟩

end Votes

section Quorum

variable {Id H : Type} [DecidableEq Id] [DecidableEq H] {voters : List (Id × UInt64)}
  {tree : Ancestry H} {chain chain' : Chain H} {base base' : H × UInt64}
  {casts casts' : List (Cast H VoteWeight)} {ballots ballots' : List (H × Nat)}
  {graph graph' : VoteGraph H VoteWeight} {equivocators equivocators' : Bitfield}
  {kind : VoteKind} {order order' : List H → List H}

theorem Polled.findsQuorumGhost (helectorate : Electorate voters)
    (hsized : Bitfield.Sized voters.length equivocators)
    (hlight : VoterSet.weightIn voters (Marked voters equivocators kind 0) <
      VoterSet.quorum voters)
    (h : Polled tree chain (Bitfield.Tally voters.length) base casts ballots)
    (hrun : insertAll chain casts (VoteGraph.new base.1 base.2) = .ok (.ok graph))
    (horder : ∀ heads, (order heads).Perm heads) :
    ∃ ghost,
      findGhost (VoteWeight.hasQuorum equivocators (VoterSet.fromIter voters) kind) order graph
        none = .ok ghost ∧
      FindsGhost tree (Reaches voters equivocators kind) (ballots : Multiset _) base.1 ghost :=
  h.findsGhost (Bitfield.tallies voters.length)
    (VoteWeight.hasQuorum_decides helectorate hsized kind) (reaches_mono _ _ _)
    (Nat.not_le.mpr hlight) hrun horder

-- Nodes that have counted the same votes, one of each voter and kind, have the same ghost,
-- whatever the order of the votes and of the hash sets was.
theorem quorumGhost_order_free (helectorate : Electorate voters)
    (hpos : 0 < VoterSet.quorum voters)
    (hsized : Bitfield.Sized voters.length equivocators)
    (hfaulty : VoterSet.weightIn voters (Marked voters equivocators kind 0) ≤
      VoterSet.weightSum voters - VoterSet.quorum voters)
    (honce : (ballots.map Prod.snd).Nodup) (hsame : ballots'.Perm ballots)
    (h : Polled tree chain (Bitfield.Tally voters.length) base casts ballots)
    (h' : Polled tree chain' (Bitfield.Tally voters.length) base casts' ballots')
    (hrun : insertAll chain casts (VoteGraph.new base.1 base.2) = .ok (.ok graph))
    (hrun' : insertAll chain' casts' (VoteGraph.new base.1 base.2) = .ok (.ok graph'))
    (horder : ∀ heads, (order heads).Perm heads) (horder' : ∀ heads, (order' heads).Perm heads) :
    findGhost (VoteWeight.hasQuorum equivocators (VoterSet.fromIter voters) kind) order' graph'
        none =
      findGhost (VoteWeight.hasQuorum equivocators (VoterSet.fromIter voters) kind) order graph
        none := by
  have hlight : VoterSet.weightIn voters (Marked voters equivocators kind 0) <
      VoterSet.quorum voters := by
    have hquorum := helectorate.quorum_spec hpos
    omega
  obtain ⟨ghost, hghost, hfinds⟩ := h.findsQuorumGhost helectorate hsized hlight hrun horder
  obtain ⟨ghost', hghost', hfinds'⟩ := h'.findsQuorumGhost helectorate hsized hlight hrun' horder'
  rw [Multiset.coe_eq_coe.mpr hsame] at hfinds'
  rw [hghost, hghost', hfinds.unique (reaches_mono _ _ _)
    (fun block hblock => reaches_uncontested helectorate hpos honce hfaulty hblock) hfinds']

theorem quorumGhost_order_free_agreed :
    ∃ graph graph', fourGraph agreed = .ok (.ok graph) ∧
      fourGraph agreed.reverse = .ok (.ok graph') ∧
      findGhost (fourQuorum .prevote) List.reverse graph' none =
        findGhost (fourQuorum .prevote) (fun heads => heads) graph none := by
  have hpolled := polled_four agreed (by decide)
  have hpolled' := polled_four agreed.reverse (by decide)
  obtain ⟨graph, hrun, -⟩ := hpolled.represents (Bitfield.tallies 4)
  obtain ⟨graph', hrun', -⟩ := hpolled'.represents (Bitfield.tallies 4)
  exact ⟨graph, graph', hrun, hrun', quorumGhost_order_free electorate_four (by decide) rfl
    (by rw [weightIn_marked_blank]; exact Nat.zero_le _) (by decide)
    ((List.reverse_perm agreed).map ballotOf) hpolled hpolled' hrun hrun'
    (fun heads => .refl heads) fun heads => List.reverse_perm heads⟩

-- If two nodes have ghosts on different branches, then the voters that one of them holds for
-- equivocators, or whose votes for different blocks the two have counted, have more weight than
-- is tolerated.
theorem quorumGhosts_conflict (helectorate : Electorate voters)
    (hpos : 0 < VoterSet.quorum voters)
    (hsized : Bitfield.Sized voters.length equivocators)
    (hsized' : Bitfield.Sized voters.length equivocators')
    (hlight : VoterSet.weightIn voters (Marked voters equivocators kind 0) <
      VoterSet.quorum voters)
    (hlight' : VoterSet.weightIn voters (Marked voters equivocators' kind 0) <
      VoterSet.quorum voters)
    (h : Polled tree chain (Bitfield.Tally voters.length) base casts ballots)
    (h' : Polled tree chain' (Bitfield.Tally voters.length) base' casts' ballots')
    (hrun : insertAll chain casts (VoteGraph.new base.1 base.2) = .ok (.ok graph))
    (hrun' : insertAll chain' casts' (VoteGraph.new base'.1 base'.2) = .ok (.ok graph'))
    (horder : ∀ heads, (order heads).Perm heads) (horder' : ∀ heads, (order' heads).Perm heads)
    {a b : H} {number number' : UInt64}
    (ha : findGhost (VoteWeight.hasQuorum equivocators (VoterSet.fromIter voters) kind) order graph
      none = .ok (some (a, number)))
    (hb : findGhost (VoteWeight.hasQuorum equivocators' (VoterSet.fromIter voters) kind) order'
      graph' none = .ok (some (b, number')))
    (hab : ¬ tree.Descends a b) (hba : ¬ tree.Descends b a) :
    VoterSet.weightSum voters - VoterSet.quorum voters < VoterSet.weightIn voters
      (Conflicts voters kind equivocators equivocators' ballots ballots') := by
  obtain ⟨ghost, hghost, hfinds⟩ := h.findsQuorumGhost helectorate hsized hlight hrun horder
  obtain ⟨ghost', hghost', hfinds'⟩ :=
    h'.findsQuorumGhost helectorate hsized' hlight' hrun' horder'
  obtain rfl := Except.ok.inj (ha.symm.trans hghost)
  obtain rfl := Except.ok.inj (hb.symm.trans hghost')
  exact reaches_conflicts helectorate hpos hab hba (hfinds.found a number rfl).2.2.heavy
    (hfinds'.found b number' rfl).2.2.heavy

theorem quorumGhosts_conflict_opposed :
    VoterSet.weightSum fourVoters - VoterSet.quorum fourVoters < VoterSet.weightIn fourVoters
      (Conflicts fourVoters .prevote .blank .blank (agreed.map ballotOf)
        (opposed.map ballotOf)) := by
  have hpolled := polled_four agreed (by decide)
  have hpolled' := polled_four opposed (by decide)
  obtain ⟨graph, hrun, -⟩ := hpolled.represents (Bitfield.tallies 4)
  obtain ⟨graph', hrun', -⟩ := hpolled'.represents (Bitfield.tallies 4)
  have hghost' : findGhost (fourQuorum .prevote) (fun heads => heads) graph' none =
      .ok (some ([false], 1)) := by
    obtain rfl := Except.ok.inj (Except.ok.inj hrun')
    rfl
  have hlight : VoterSet.weightIn fourVoters (Marked fourVoters .blank .prevote 0) <
      VoterSet.quorum fourVoters := by
    rw [weightIn_marked_blank]
    decide
  exact quorumGhosts_conflict electorate_four (by decide) rfl rfl hlight hlight hpolled hpolled'
    hrun hrun' (fun heads => .refl heads) (fun heads => .refl heads) (findGhost_agreed hrun)
    hghost' (by decide) (by decide)

end Quorum

end Yeeroot.Grandpa.VoteGraph
