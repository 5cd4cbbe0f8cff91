import Yeeroot.Grandpa.Round.Tally
import Yeeroot.Grandpa.VoteGraph.Ghost

namespace Yeeroot.Grandpa

namespace Bitfield

def Sized (nVoters : Nat) (field : Bitfield) : Prop :=
  (field.bits nVoters).length = (withVoters nVoters).length

theorem zipWith_or_replicate (bits : List Bool) {size : Nat} (h : bits.length = size) :
    List.zipWith (· || ·) bits (List.replicate size false) = bits := by
  apply List.ext_getElem
  · simp [h]
  · simp

variable {nVoters : Nat} {left right : Bitfield}

theorem merge_of_sized (hleft : Sized nVoters left) (hright : Sized nVoters right) :
    ∃ merged, left.merge right = .ok merged ∧
      merged.bits nVoters = List.zipWith (· || ·) (left.bits nVoters) (right.bits nVoters) := by
  have hblank : ∀ bits : List Bool, bits.length = (withVoters nVoters).length →
      List.zipWith (· || ·) bits (withVoters nVoters) = bits := by
    intro bits hbits
    rw [withVoters, List.length_replicate] at hbits
    exact zipWith_or_replicate bits hbits
  cases left with
  | blank =>
    cases right with
    | blank => exact ⟨.blank, rfl, (hblank _ hleft).symm⟩
    | live bits =>
      refine ⟨.live bits, rfl, ?_⟩
      rw [List.zipWith_comm_of_comm fun a b => Bool.or_comm a b]
      exact (hblank _ hright).symm
  | live bits =>
    cases right with
    | blank => exact ⟨.live bits, rfl, (hblank _ hleft).symm⟩
    | live bits' =>
      have hlen : bits.length = bits'.length := Eq.trans hleft hright.symm
      exact ⟨_, if_neg (not_not.mpr hlen), rfl⟩

theorem sized_merge {merged : Bitfield} (hleft : Sized nVoters left) (hright : Sized nVoters right)
    (h : merged.bits nVoters =
      List.zipWith (· || ·) (left.bits nVoters) (right.bits nVoters)) :
    Sized nVoters merged := by
  rw [Sized, h, List.length_zipWith, hleft, hright, Nat.min_self]

theorem addsUp_sized (nVoters : Nat) : VoteGraph.AddsUp (Sized nVoters) where
  default := rfl
  add hleft hright := by
    obtain ⟨merged, hmerged, hbits⟩ := merge_of_sized hleft hright
    refine ⟨merged, ?_, sized_merge hleft hright hbits⟩
    simp only [VoteValue.addAssign, hmerged]
    rfl

theorem zipWith_or_of_covered {a b : List Bool} (hlen : a.length = b.length)
    (h : ∀ i : Nat, b[i]? = some true → a[i]? = some true) : List.zipWith (· || ·) a b = a := by
  apply List.ext_getElem
  · simp [hlen]
  · intro i _ ha
    have hb : i < b.length := hlen ▸ ha
    rw [List.getElem_zipWith]
    cases hbit : b[i] with
    | false => simp
    | true =>
      have hset := h i (by rw [List.getElem?_eq_getElem hb, hbit])
      rw [List.getElem?_eq_getElem ha] at hset
      simp [Option.some.inj hset]

end Bitfield

theorem VoteGraph.isEqualOrDescendentOf_of_routed {H : Type} [DecidableEq H] {depth : H → Nat}
    {chain : Chain H} {base hash : H} (h : hash ≠ base → Routed depth chain base hash) :
    chain.isEqualOrDescendentOf base hash = .ok true := by
  unfold Chain.isEqualOrDescendentOf
  split_ifs with heq
  · rfl
  · obtain ⟨route, hroute, -⟩ := h (Ne.symm heq)
    rw [hroute]
    rfl

section Replay

variable {Id H S : Type} [DecidableEq Id]
variable {round : Round Id H S} {id : Id} {info : VoterInfo} {chain chain' : Chain H}
  {order : List H → List H}

-- A round whose votes could all be placed: the base has the bit of every voter that was
-- counted, the equivocators among them.
structure Weighed (voters : List (Id × UInt64)) (depth : H → Nat) (base : H) [DecidableEq H]
    (total : Bitfield) (round : Round Id H S) : Prop where
  set : round.voters = VoterSet.fromIter voters
  size : round.bitfieldContext.nVoters = voters.length
  base : round.graph.base = base
  good : VoteGraph.Good depth (Bitfield.Sized voters.length) total round.graph
  bit : ∀ id info, (VoterSet.fromIter voters).info id = some info →
    (total.bits voters.length)[info.canonIdx * 2 + 1]? =
      some (round.precommit.votes.lookup id).isSome
  sized : Bitfield.Sized voters.length round.bitfieldContext.equivocators
  covered : ∀ i : Nat, (round.bitfieldContext.equivocators.bits voters.length)[i]? = some true →
    (total.bits voters.length)[i]? = some true
  weighed : (total.totalWeight fun idx =>
    ((VoterSet.fromIter voters).weightByIndex idx).getD 0).2 = round.precommit.currentWeight

-- Rounds that have counted the same votes.
structure Twin (round twin : Round Id H S) : Prop where
  voters : twin.voters = round.voters
  precommit : twin.precommit = round.precommit
  context : twin.bitfieldContext = round.bitfieldContext

variable {voters : List (Id × UInt64)} {depth : H → Nat} {base : H} {total : Bitfield}

variable [DecidableEq H] [DecidableEq S]

omit [DecidableEq S] in
theorem Weighed.total_sized (h : Weighed voters depth base total round) :
    Bitfield.Sized voters.length total := by
  obtain ⟨entry, hentry, htotal⟩ := h.good.root
  exact htotal ▸ (h.good.ranked _ _ hentry).fits

omit [DecidableEq S] in
theorem weighed_new (base : H) (number : UInt64) : Weighed voters depth base .blank
    (Round.new (VoterSet.fromIter voters) (base, number) : Round Id H S) where
  set := rfl
  size := rfl
  base := rfl
  good := VoteGraph.good_new (Bitfield.addsUp_sized _) base number
  bit _ _ hinfo :=
    getElem?_withVoters (List.getElem?_eq_some_iff.mp (VoterSet.getElem?_of_info hinfo)).1
  sized := rfl
  covered _ h := h
  weighed := rfl

omit [DecidableEq S] in
theorem Weighed.counted (h : Weighed voters depth base total round)
    (hinfo : (VoterSet.fromIter voters).info id = some info)
    (hunseen : round.precommit.votes.lookup id = none) (votes : VoteMultiplicity (Precommit H) S)
    {graph : VoteGraph H VoteWeight} (hbase : graph.base = base)
    (hgood : VoteGraph.Good depth (Bitfield.Sized voters.length)
      (.live ((total.bits voters.length).set (info.canonIdx * 2 + 1) true)) graph) :
    Weighed voters depth base
      (.live ((total.bits voters.length).set (info.canonIdx * 2 + 1) true))
      { round with
        graph := graph
        precommit := ⟨round.precommit.votes.insert id votes,
          round.precommit.currentWeight + info.weight⟩ } := by
  have hlt : info.canonIdx * 2 + 1 < (total.bits voters.length).length := by
    rw [h.total_sized]
    exact bit_lt hinfo
  have hfalse := h.bit id info hinfo
  rw [hunseen] at hfalse
  refine ⟨h.set, h.size, hbase, hgood, ?_, h.sized, ?_, ?_⟩
  · intro other info' hinfo'
    by_cases hother : other = id
    · subst hother
      obtain rfl := Option.some.inj (hinfo.symm.trans hinfo')
      rw [AList.lookup_insert, Bitfield.bits, List.getElem?_set_self hlt]
      rfl
    · rw [AList.lookup_insert_ne hother, Bitfield.bits,
        List.getElem?_set_ne (bit_ne hother hinfo hinfo')]
      exact h.bit other info' hinfo'
  · intro i hi
    rw [Bitfield.bits, List.getElem?_set, if_pos hlt]
    split_ifs
    · rfl
    · exact h.covered i hi
  · have hweighed := h.weighed
    rw [Bitfield.totalWeight_eq _ voters.length] at hweighed
    rw [Bitfield.totalWeight, Bitfield.weigh_set _ _ hfalse, hweighed, Nat.zero_add,
      weightByIndex_of_info hinfo]

theorem Weighed.single (h : Weighed voters depth base total round) {vote : Precommit H}
    (hrouted : vote.targetHash ≠ base → VoteGraph.Routed depth chain base vote.targetHash)
    (hinfo : (VoterSet.fromIter voters).info id = some info)
    (hunseen : round.precommit.votes.lookup id = none) (order : List H → List H) (signature : S) :
    ∃ graph total', round.importPrecommit order chain vote id signature =
        .ok (.ok (false, { round with
          graph := graph
          precommit := ⟨round.precommit.votes.insert id (.single vote signature),
            round.precommit.currentWeight + info.weight⟩ })) ∧
      Weighed voters depth base total' { round with
        graph := graph
        precommit := ⟨round.precommit.votes.insert id (.single vote signature),
          round.precommit.currentWeight + info.weight⟩ } := by
  have hbit : round.bitfieldContext.precommitBitfield info =
      .ok (.live ((Bitfield.withVoters voters.length).set (info.canonIdx * 2 + 1) true)) := by
    rw [BitfieldContext.precommitBitfield, h.size]
    exact Bitfield.setBit_of_lt (bit_lt hinfo)
  have hvote : Bitfield.Sized voters.length
      (.live ((Bitfield.withVoters voters.length).set (info.canonIdx * 2 + 1) true)) :=
    List.length_set
  obtain ⟨graph, sum, hinsert, hbase, hsum, hgood⟩ :=
    VoteGraph.insert_returns (Bitfield.addsUp_sized _) h.good
      (by rw [h.base]; exact hrouted) hvote order vote.targetNumber
  simp only [VoteValue.addAssign, Bitfield.merge_set h.total_sized] at hsum
  obtain rfl := Except.ok.inj hsum
  exact ⟨graph, _, Round.importPrecommit_first signature (by rw [h.set]; exact hinfo) hunseen
    hbit hinsert, h.counted hinfo hunseen _ (hbase.trans h.base) hgood⟩

omit [DecidableEq S] in
theorem Weighed.equivocated (h : Weighed voters depth base total round)
    (hinfo : (VoterSet.fromIter voters).info id = some info)
    (hseen : (round.precommit.votes.lookup id).isSome) (votes : VoteMultiplicity (Precommit H) S)
    {context : BitfieldContext}
    (hcontext : round.bitfieldContext.equivocatedPrecommit info = .ok context) :
    Weighed voters depth base total { round with
      precommit := { round.precommit with votes := round.precommit.votes.insert id votes }
      bitfieldContext := context } := by
  have hsized := h.sized
  have hlt : info.canonIdx * 2 + 1 <
      (round.bitfieldContext.equivocators.bits voters.length).length := by
    rw [hsized]
    exact bit_lt hinfo
  rw [BitfieldContext.equivocatedPrecommit, h.size, Bitfield.setBit_of_lt hlt] at hcontext
  obtain rfl := Except.ok.inj hcontext
  constructor
  · exact h.set
  · rfl
  · exact h.base
  · exact h.good
  · intro other info' hinfo'
    rw [h.bit other info' hinfo']
    by_cases hother : other = id
    · rw [hother, AList.lookup_insert, hseen]
      rfl
    · rw [AList.lookup_insert_ne hother]
  · exact Eq.trans List.length_set hsized
  · intro i hi
    rw [Bitfield.bits, List.getElem?_set] at hi
    split_ifs at hi with heq
    · rw [← heq, h.bit id info hinfo, hseen]
    · exact h.covered i hi
  · exact h.weighed

theorem Weighed.importPrecommit {round twin round' : Round Id H S} {vote : Precommit H}
    {signature : S} {equivocation : Bool}
    (himport : round.importPrecommit order chain vote id signature =
      .ok (.ok (equivocation, round'))) (h : Weighed voters depth base total twin)
    (htwin : Twin round twin)
    (hrouted : vote.targetHash ≠ base → VoteGraph.Routed depth chain' base vote.targetHash)
    (order' : List H → List H) :
    ∃ twin' total', twin.importPrecommit order' chain' vote id signature =
        .ok (.ok (equivocation, twin')) ∧
      Twin round' twin' ∧ Weighed voters depth base total' twin' := by
  obtain ⟨hvoters, hprecommit, hcontext⟩ := htwin
  have hcases := Round.importPrecommit_eq_ok himport
  rw [← hvoters, ← hprecommit, ← hcontext] at hcases
  rcases hcases with ⟨rfl, rfl, hignored⟩ | ⟨info, votes, precommit, hinfo, hadd,
    ⟨rfl, hunseen, graph, rfl⟩ | ⟨rfl, hseen, context, hmarked, rfl⟩⟩
  · refine ⟨twin, total, ?_, ⟨hvoters, hprecommit, hcontext⟩, h⟩
    unfold Round.importPrecommit
    cases hinfo : twin.voters.info id with
    | none => rfl
    | some info => simp only [hignored info hinfo]
  · have hinfo' := hinfo
    rw [h.set] at hinfo'
    obtain ⟨graph', total', htwin, hweighed⟩ := h.single hrouted hinfo' hunseen order' signature
    refine ⟨_, total', htwin, ⟨rfl, ?_, rfl⟩, hweighed⟩
    rcases VoteTracker.addVote_eq_some hadd with ⟨-, rfl, rfl⟩ | ⟨_, _, hseen, _⟩
    · rfl
    · rw [hunseen] at hseen
      cases hseen
  · have hinfo' := hinfo
    rw [h.set] at hinfo'
    rcases VoteTracker.addVote_eq_some hadd with ⟨hunseen, _⟩ | ⟨v, s, -, rfl, rfl⟩
    · rw [hunseen] at hseen
      cases hseen
    · have hweighed := h.equivocated hinfo' hseen (.equivocated (v, s) (vote, signature)) hmarked
      refine ⟨{ twin with precommit := _, bitfieldContext := context }, total, ?_,
        ⟨rfl, rfl, rfl⟩, hweighed⟩
      simp only [Round.importPrecommit, hinfo, hadd, hmarked, Except.toOption, Run.expect, bind,
        Except.bind]
      rfl

theorem Weighed.importPrecommits {precommits : List (SignedPrecommit H S Id)}
    {equivocated : List Id} {round twin round' : Round Id H S}
    (himports : Grandpa.importPrecommits order chain precommits equivocated round =
      .ok (.ok (some round'))) (h : Weighed voters depth base total twin) (htwin : Twin round twin)
    (hrouted : ∀ signed ∈ precommits, signed.precommit.targetHash ≠ base →
      VoteGraph.Routed depth chain' base signed.precommit.targetHash) (order' : List H → List H) :
    ∃ twin' total', Grandpa.importPrecommits order' chain' precommits equivocated twin =
        .ok (.ok (some twin')) ∧
      Twin round' twin' ∧ Weighed voters depth base total' twin' := by
  induction precommits generalizing equivocated round twin total with
  | nil =>
    simp only [Grandpa.importPrecommits, Except.ok.injEq, Option.some.injEq] at himports
    exact ⟨twin, total, rfl, himports ▸ htwin, h⟩
  | cons signed precommits ih =>
    obtain ⟨hfirst, hrest⟩ := List.forall_mem_cons.mp hrouted
    obtain ⟨equivocation, next, himported, honce, himports⟩ :=
      importPrecommits_cons_eq_ok.mp himports
    obtain ⟨twin', total', hstep, htwin', hweighed⟩ :=
      h.importPrecommit himported htwin hfirst order'
    obtain ⟨twin'', total'', hrun, hlast⟩ := ih himports hweighed htwin' hrest
    exact ⟨twin'', total'',
      importPrecommits_cons_eq_ok.mpr ⟨equivocation, twin', hstep, honce, hrun⟩, hlast⟩

omit [DecidableEq S] in
theorem Weighed.precommitGhost (h : Weighed voters depth base total round)
    (hreached : round.voters.threshold ≤ round.precommit.currentWeight) (order : List H → List H) :
    ∃ ghost, round.precommitGhost order = .ok (some ghost) := by
  have hsized := h.total_sized
  have hweigh : ∀ vote, Bitfield.Sized voters.length vote → ∃ merged : Bitfield,
      VoteWeight.totalWeight vote round.bitfieldContext.equivocators round.voters =
        .ok (merged.totalWeight fun idx => (round.voters.weightByIndex idx).getD 0) ∧
      merged.bits voters.length = List.zipWith (· || ·) (vote.bits voters.length)
        (round.bitfieldContext.equivocators.bits voters.length) := by
    intro vote hvote
    obtain ⟨merged, hmerged, hbits⟩ := Bitfield.merge_of_sized hvote h.sized
    refine ⟨merged, ?_, hbits⟩
    rw [VoteWeight.totalWeight, hmerged]
    rfl
  rw [Round.precommitGhost, if_pos hreached]
  refine VoteGraph.findGhost_returns (Bitfield.addsUp_sized _) (fun vote hvote => ?_) h.good ?_
    order
  · obtain ⟨merged, hmerged, -⟩ := hweigh vote hvote
    rw [hmerged]
    exact ⟨_, rfl⟩
  · obtain ⟨merged, hmerged, hbits⟩ := hweigh total hsized
    have hlen : (total.bits voters.length).length =
        (round.bitfieldContext.equivocators.bits voters.length).length :=
      Eq.trans hsized h.sized.symm
    rw [Bitfield.zipWith_or_of_covered hlen h.covered] at hbits
    have hweight : (merged.totalWeight fun idx => (round.voters.weightByIndex idx).getD 0).2 =
        round.precommit.currentWeight := by
      rw [Bitfield.totalWeight_eq _ voters.length, hbits, ← Bitfield.totalWeight_eq, h.set]
      exact h.weighed
    rw [hmerged]
    simp only [bind, Except.bind, hweight, hreached, decide_true]
    rfl

-- A commit that was accepted once is accepted by whoever can place its votes.
theorem validateCommit_replay {commit : Commit H S Id} {ghost : H × UInt64}
    (h : validateCommit order chain commit (VoterSet.fromIter voters) = .ok (.ok (some ghost)))
    (hrouted : ∀ signed ∈ commit.precommits, signed.precommit.targetHash ≠ commit.targetHash →
      VoteGraph.Routed depth chain' commit.targetHash signed.precommit.targetHash)
    (order' : List H → List H) :
    ∃ ghost', validateCommit order' chain' commit (VoterSet.fromIter voters) =
      .ok (.ok (some ghost')) := by
  obtain ⟨hchecked, round, himported, hghost⟩ := validateCommit_cases h
  obtain ⟨twin, total, htwins, htwin, hweighed⟩ :=
    (weighed_new commit.targetHash commit.targetNumber).importPrecommits himported
      ⟨rfl, rfl, rfl⟩ hrouted order'
  have hreached : twin.voters.threshold ≤ twin.precommit.currentWeight := by
    rw [htwin.voters, htwin.precommit]
    exact Round.threshold_le_of_ghost hghost
  obtain ⟨ghost', hghost'⟩ := hweighed.precommitGhost hreached order'
  have hinOrder : (commit.precommits.allM fun signed =>
      if commit.targetNumber ≤ signed.precommit.targetNumber then
        chain'.isEqualOrDescendentOf commit.targetHash signed.precommit.targetHash
      else pure false) = .ok true := by
    refine allM_of_forall fun signed hsigned => ?_
    rw [if_pos (hchecked signed hsigned).1]
    exact VoteGraph.isEqualOrDescendentOf_of_routed (hrouted signed hsigned)
  refine ⟨ghost', ?_⟩
  simp only [validateCommit, hinOrder, htwins, hghost', bind, Except.bind]
  rfl

end Replay

end Yeeroot.Grandpa
