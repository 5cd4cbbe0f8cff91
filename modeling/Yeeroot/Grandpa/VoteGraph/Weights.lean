import Yeeroot.Grandpa.VoteGraph.Bits
import Yeeroot.Grandpa.VoteGraph.Runs

namespace Yeeroot.Grandpa

variable {Id H : Type} [DecidableEq Id] {voters : List (Id × UInt64)}

-- Voters with different names whose weights add up.
structure Electorate (voters : List (Id × UInt64)) : Prop where
  distinct : (voters.map Prod.fst).Nodup
  fits : VoterSet.weightSum voters < 2 ^ 64

theorem Electorate.quorum_spec (h : Electorate voters) (hpos : 0 < VoterSet.quorum voters) :
    2 * (VoterSet.weightSum voters - VoterSet.quorum voters) < VoterSet.quorum voters := by
  rw [VoterSet.quorum, VoterSet.threshold_fromIter, toNat_threshold,
    VoterSet.toNat_totalWeight h.fits, faulty] at hpos ⊢
  omega

-- A voter whose bit is set in a field or among the equivocators.
def Marked (voters : List (Id × UInt64)) (equivocators : Bitfield) (kind : VoteKind)
    (bits : Multiset Nat) (id : Id) : Prop :=
  ∃ info, (VoterSet.fromIter voters).info id = some info ∧
    (kind.bit info.canonIdx ∈ bits ∨
      Bitfield.Holds voters.length equivocators (kind.bit info.canonIdx))

theorem Marked.mono {equivocators : Bitfield} {kind : VoteKind} {bits bits' : Multiset Nat} {id : Id}
    (hle : bits ≤ bits') (h : Marked voters equivocators kind bits id) :
    Marked voters equivocators kind bits' id := by
  obtain ⟨info, hinfo, hmarked⟩ := h
  exact ⟨info, hinfo, hmarked.imp_left fun hmem => Multiset.mem_of_le hle hmem⟩

-- Enough votes of a kind, those of the equivocators among them.
def Reaches (voters : List (Id × UInt64)) (equivocators : Bitfield) (kind : VoteKind)
    (bits : Multiset Nat) : Prop :=
  VoterSet.quorum voters ≤ VoterSet.weightIn voters (Marked voters equivocators kind bits)

theorem reaches_mono (voters : List (Id × UInt64)) (equivocators : Bitfield) (kind : VoteKind) :
    Monotone (Reaches voters equivocators kind) := fun _ _ hle h =>
  Nat.le_trans h (Ancestry.weightOf_mono fun _ _ hmarked => hmarked.mono hle)

section Conditions

theorem VoteWeight.totalWeight_eq (helectorate : Electorate voters)
    {weight : VoteWeight} {equivocators : Bitfield} {bits : Multiset Nat}
    (htally : Bitfield.Tally voters.length weight bits)
    (hsized : Bitfield.Sized voters.length equivocators) :
    ∃ both, weight.totalWeight equivocators (VoterSet.fromIter voters) = .ok both ∧
      ∀ kind : VoteKind,
        (kind.of both).toNat = VoterSet.weightIn voters (Marked voters equivocators kind bits) := by
  obtain ⟨merged, hmerged, hbits⟩ := Bitfield.merge_of_sized htally.1 hsized
  refine ⟨_, ?_, fun kind => toNat_totalWeight_eq helectorate.distinct helectorate.fits
    (Bitfield.sized_merge htally.1 hsized hbits) kind fun id info hinfo => ?_⟩
  · simp only [VoteWeight.totalWeight, hmerged]
    rfl
  · rw [Bitfield.holds_merge htally.1 hsized hbits, htally.2]
    constructor
    · intro h
      exact ⟨info, hinfo, h⟩
    · rintro ⟨info', hinfo', h⟩
      obtain rfl := Option.some.inj (hinfo.symm.trans hinfo')
      exact h

-- The condition that a round puts to the votes of a node.
def VoteWeight.hasQuorum (equivocators : Bitfield) (voters : VoterSet Id) (kind : VoteKind)
    (weight : VoteWeight) : Run Bool := do
  let both ← weight.totalWeight equivocators voters
  return decide (voters.threshold ≤ kind.of both)

theorem VoteWeight.hasQuorum_decides (helectorate : Electorate voters) {equivocators : Bitfield}
    (hsized : Bitfield.Sized voters.length equivocators) (kind : VoteKind) :
    VoteGraph.Decides (VoteWeight.hasQuorum equivocators (VoterSet.fromIter voters) kind)
      (Bitfield.Tally voters.length) (Reaches voters equivocators kind) := by
  intro weight bits htally
  obtain ⟨both, htotal, hboth⟩ := VoteWeight.totalWeight_eq helectorate htally hsized
  refine ⟨decide ((VoterSet.fromIter voters).threshold ≤ kind.of both), ?_, ?_⟩
  · simp only [VoteWeight.hasQuorum, htotal, bind, Except.bind]
    rfl
  · rw [decide_eq_true_iff, UInt64.le_iff_toNat_le, Reaches, ← hboth kind]

end Conditions

section Safety

variable {tree : Ancestry H} {equivocators equivocators' : Bitfield} {kind : VoteKind}
  {ballots ballots' : List (H × Nat)} {a b : H}

-- A voter who is an equivocator for one of two nodes, or whose votes that the nodes have
-- counted are for different blocks.
def Conflicts (voters : List (Id × UInt64)) (kind : VoteKind) (equivocators equivocators' : Bitfield)
    (ballots ballots' : List (H × Nat)) (id : Id) : Prop :=
  ∃ info, (VoterSet.fromIter voters).info id = some info ∧
    (Bitfield.Holds voters.length equivocators (kind.bit info.canonIdx) ∨
      Bitfield.Holds voters.length equivocators' (kind.bit info.canonIdx) ∨
      ∃ block block', block ≠ block' ∧ (block, kind.bit info.canonIdx) ∈ ballots ∧
        (block', kind.bit info.canonIdx) ∈ ballots')

theorem Marked.conflicts {id : Id} (hab : ¬ tree.Descends a b) (hba : ¬ tree.Descends b a)
    (h : Marked voters equivocators kind (tree.support (ballots : Multiset _) a) id)
    (h' : Marked voters equivocators' kind (tree.support (ballots' : Multiset _) b) id) :
    Conflicts voters kind equivocators equivocators' ballots ballots' id := by
  obtain ⟨info, hinfo, hmarked⟩ := h
  obtain ⟨info', hinfo', hmarked'⟩ := h'
  obtain rfl := Option.some.inj (hinfo.symm.trans hinfo')
  refine ⟨info, hinfo, ?_⟩
  rcases hmarked with hbit | hfaulty
  · rcases hmarked' with hbit' | hfaulty'
    · obtain ⟨block, hblock, hdescends⟩ := Ancestry.mem_support.mp hbit
      obtain ⟨block', hblock', hdescends'⟩ := Ancestry.mem_support.mp hbit'
      refine .inr (.inr ⟨block, block', ?_, hblock, hblock'⟩)
      rintro rfl
      exact (hdescends.comparable hdescends').elim hab hba
    · exact .inr (.inl hfaulty')
  · exact .inl hfaulty

-- With quorums for blocks of two branches, the voters who conflict have more weight than is
-- tolerated.
theorem reaches_conflicts (helectorate : Electorate voters) (hpos : 0 < VoterSet.quorum voters)
    (hab : ¬ tree.Descends a b) (hba : ¬ tree.Descends b a)
    (ha : Reaches voters equivocators kind (tree.support (ballots : Multiset _) a))
    (hb : Reaches voters equivocators' kind (tree.support (ballots' : Multiset _) b)) :
    VoterSet.weightSum voters - VoterSet.quorum voters < VoterSet.weightIn voters
      (Conflicts voters kind equivocators equivocators' ballots ballots') := by
  have hsum := Ancestry.weightOf_or_add_and (VoterSet.ids voters) (VoterSet.fromIter voters).weight
    (Marked voters equivocators kind (tree.support (ballots : Multiset _) a))
    (Marked voters equivocators' kind (tree.support (ballots' : Multiset _) b))
  have hall := VoterSet.weightIn_le helectorate.distinct fun id =>
    Marked voters equivocators kind (tree.support (ballots : Multiset _) a) id ∨
      Marked voters equivocators' kind (tree.support (ballots' : Multiset _) b) id
  have hboth : VoterSet.weightIn voters (fun id =>
      Marked voters equivocators kind (tree.support (ballots : Multiset _) a) id ∧
        Marked voters equivocators' kind (tree.support (ballots' : Multiset _) b) id) ≤
      VoterSet.weightIn voters
        (Conflicts voters kind equivocators equivocators' ballots ballots') :=
    Ancestry.weightOf_mono fun id _ h => h.1.conflicts hab hba h.2
  have hquorum := helectorate.quorum_spec hpos
  unfold Reaches at ha hb
  unfold VoterSet.weightIn at ha hb hall hboth ⊢
  omega

-- Each voter has one vote in the graph: blocks with a quorum are on one line.
theorem reaches_uncontested (helectorate : Electorate voters) (hpos : 0 < VoterSet.quorum voters)
    (honce : (ballots.map Prod.snd).Nodup)
    (hfaulty : VoterSet.weightIn voters (Marked voters equivocators kind 0) ≤
      VoterSet.weightSum voters - VoterSet.quorum voters)
    (ha : Reaches voters equivocators kind (tree.support (ballots : Multiset _) a)) :
    tree.Uncontested (Reaches voters equivocators kind) (ballots : Multiset _) a := by
  intro b hb
  by_contra hapart
  obtain ⟨hba, hab⟩ := not_or.mp hapart
  have hconflict := reaches_conflicts helectorate hpos hab hba ha hb
  refine absurd (Nat.lt_of_lt_of_le hconflict ?_) (Nat.not_lt.mpr hfaulty)
  refine Ancestry.weightOf_mono fun id _ hconflicts => ?_
  obtain ⟨info, hinfo, hheld | hheld | ⟨block, block', hne, hblock, hblock'⟩⟩ := hconflicts
  · exact ⟨info, hinfo, .inr hheld⟩
  · exact ⟨info, hinfo, .inr hheld⟩
  · exact absurd (congrArg Prod.fst (List.inj_on_of_nodup_map honce hblock hblock' rfl)) hne

end Safety

end Yeeroot.Grandpa
