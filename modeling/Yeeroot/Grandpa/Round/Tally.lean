import Yeeroot.Grandpa.Round.Lemmas

namespace Yeeroot.Grandpa

-- Commits whose precommits are all for their own target. The vote graph stays the base
-- alone, and the bits of the voters are added to it one by one.
namespace Bitfield

def bits (nVoters : Nat) : Bitfield → List Bool
  | .blank => withVoters nVoters
  | .live bits => bits

theorem lt_length_withVoters {idx nVoters : Nat} (h : idx < nVoters) :
    idx * 2 + 1 < (withVoters nVoters).length := by
  rw [withVoters, List.length_replicate]
  omega

theorem setBit_of_lt {field : Bitfield} {bit nVoters : Nat}
    (h : bit < (field.bits nVoters).length) :
    field.setBit bit nVoters = .ok (.live ((field.bits nVoters).set bit true)) := by
  cases field with
  | blank =>
    rw [bits] at h
    simp [setBit, setLiveBit, bits, h]
  | live bits =>
    rw [Bitfield.bits] at h
    simp [setBit, setLiveBit, Bitfield.bits, h]

theorem zipWith_or_set (bits : List Bool) {size idx : Nat} (h : bits.length = size) :
    List.zipWith (· || ·) bits ((List.replicate size false).set idx true) = bits.set idx true := by
  apply List.ext_getElem
  · simp [h]
  · intro i _ _
    by_cases hi : idx = i
    · subst hi
      simp
    · simp [List.getElem_set_ne hi]

theorem merge_set {field : Bitfield} {nVoters idx : Nat}
    (h : (field.bits nVoters).length = (withVoters nVoters).length) :
    field.merge (.live ((withVoters nVoters).set idx true)) =
      .ok (.live ((field.bits nVoters).set idx true)) := by
  cases field with
  | blank => rfl
  | live bits =>
    have hlen : bits.length = ((withVoters nVoters).set idx true).length := by
      rw [List.length_set]
      exact h
    rw [merge, if_neg (not_not.mpr hlen)]
    rw [withVoters, List.length_replicate] at h
    rw [withVoters, zipWith_or_set bits h]
    rfl

theorem weigh_replicate (lookup : Nat → UInt64) (start size : Nat) :
    weigh lookup start (List.replicate size false) = (0, 0) := by
  induction size using Nat.twoStepInduction generalizing start with
  | zero => rfl
  | one => rfl
  | more size ih _ => simp [List.replicate_succ, weigh, ih]

theorem totalWeight_eq (field : Bitfield) (nVoters : Nat) (lookup : Nat → UInt64) :
    field.totalWeight lookup = weigh lookup 0 (field.bits nVoters) := by
  cases field with
  | blank => exact (weigh_replicate lookup 0 _).symm
  | live bits => rfl

theorem weigh_set (lookup : Nat → UInt64) (start : Nat) {idx : Nat} {bits : List Bool}
    (h : bits[idx * 2 + 1]? = some false) :
    (weigh lookup start (bits.set (idx * 2 + 1) true)).2 =
      (weigh lookup start bits).2 + lookup (start + idx) := by
  induction idx generalizing bits start with
  | zero =>
    match bits, h with
    | prevoted :: precommitted :: bits, h =>
      obtain rfl := Option.some.inj h
      simp [weigh, UInt64.add_comm]
  | succ idx ih =>
    match bits, h with
    | prevoted :: precommitted :: bits, h =>
      have hindex : (idx + 1) * 2 + 1 = idx * 2 + 1 + 1 + 1 := by omega
      rw [hindex] at h ⊢
      have htail : bits[idx * 2 + 1]? = some false := h
      have hrest := ih (start + 1) htail
      have hstart : start + 1 + idx = start + (idx + 1) := by omega
      simp only [List.set_cons_succ, weigh, hrest, hstart, UInt64.add_assoc]

end Bitfield

theorem VoteGraph.insert_base {H V : Type} [DecidableEq H] [VoteValue V] (order : List H → List H)
    (chain : Chain H) {graph : VoteGraph H V} {hash : H} (number : UInt64) {entry : Entry H V}
    {vote merged : V} (hentries : graph.entries = AList.singleton hash entry)
    (hancestors : entry.ancestors = [])
    (hmerged : VoteValue.addAssign entry.cumulativeVote vote = .ok merged) :
    VoteGraph.insert order chain graph hash number vote = .ok (.ok { graph with
      entries := AList.singleton hash { entry with cumulativeVote := merged } }) := by
  have hmem : hash ∈ graph.entries := by
    rw [hentries]
    exact AList.mem_keys.mpr (by simp)
  have hfound : findContainingNodes order graph hash number = none := by
    rw [findContainingNodes, if_pos hmem]
  have hkeys : graph.entries.keys.length = 1 := by
    rw [hentries]
    rfl
  have hlookup : graph.entries.lookup hash = some entry := by
    rw [hentries]
    exact AList.lookup_insert ∅
  have hnode : entry.ancestorNode = none := by
    rw [Entry.ancestorNode, hancestors]
    rfl
  have haccumulate : accumulate vote graph.entries.keys.length hash graph.entries =
      .ok (AList.singleton hash { entry with cumulativeVote := merged }) := by
    simp only [hkeys, accumulate, hlookup, Run.expect, hmerged, hnode, bind, Except.bind]
    rw [hentries, AList.insert_singleton_eq]
    rfl
  simp only [VoteGraph.insert, hfound, haccumulate, pure, Except.pure, bind, Except.bind]

theorem VoteGraph.findGhost_base {H V : Type} [DecidableEq H] [VoteValue V]
    {condition : V → Run Bool} (order : List H → List H) {graph : VoteGraph H V}
    {entry : Entry H V} (hentries : graph.entries = AList.singleton graph.base entry)
    (hdescendents : entry.descendents = []) (hcondition : condition entry.cumulativeVote = .ok true) :
    findGhost condition order graph none = .ok (some (graph.base, entry.number)) := by
  have hkeys : graph.entries.keys.length = 1 := by
    rw [hentries]
    rfl
  have hlookup : graph.entries.lookup graph.base = some entry := by
    rw [hentries]
    exact AList.lookup_insert ∅
  have hdescend : descend condition graph.entries 1 graph.base entry none =
      .ok (graph.base, entry, none) := by
    rw [descend, hdescendents]
    rfl
  have hmerge : ghostFindMergePoint condition graph graph.base entry none =
      .ok ⟨[graph.base], entry.number⟩ := by
    rw [ghostFindMergePoint, hdescendents]
    rfl
  simp only [findGhost, hlookup, Run.expect, hcondition, hkeys, hdescend, hmerge, if_true, pure,
    Except.pure, bind, Except.bind, Subchain.best, List.getLast?_singleton, Option.map_some]

section Tally

variable {Id H S : Type} [DecidableEq Id] [DecidableEq H] [DecidableEq S]
variable {id : Id} {info : VoterInfo} {order : List H → List H} {round : Round Id H S}
  {done : List Id} {field : Bitfield}

-- The round after precommits of these voters for its base.
structure Tallied (voters : List (Id × UInt64)) (target : Precommit H) (done : List Id)
    (field : Bitfield) (round : Round Id H S) : Prop where
  set : round.voters = VoterSet.fromIter voters
  context : round.bitfieldContext = ⟨voters.length, .blank⟩
  base : round.graph.base = target.targetHash
  entries : round.graph.entries =
    AList.singleton target.targetHash ⟨target.targetNumber, [], [], field⟩
  unseen : ∀ id, id ∉ done → round.precommit.votes.lookup id = none
  sized : (field.bits voters.length).length = (Bitfield.withVoters voters.length).length
  unset : ∀ id info, id ∉ done → (VoterSet.fromIter voters).info id = some info →
    (field.bits voters.length)[info.canonIdx * 2 + 1]? = some false
  weighed : (field.totalWeight fun idx =>
    ((VoterSet.fromIter voters).weightByIndex idx).getD 0).2 = round.precommit.currentWeight
  summed : round.precommit.currentWeight.toNat =
    (done.map (VoterSet.fromIter voters).weight).sum % 2 ^ 64

variable {voters : List (Id × UInt64)} {target : Precommit H}

omit [DecidableEq Id] in
theorem getElem?_withVoters {idx : Nat} (h : idx < voters.length) :
    (Bitfield.withVoters voters.length)[idx * 2 + 1]? = some false := by
  have hlt := Bitfield.lt_length_withVoters h
  rw [Bitfield.withVoters, List.length_replicate] at hlt
  rw [Bitfield.withVoters, List.getElem?_replicate, if_pos hlt]

theorem bit_lt (hinfo : (VoterSet.fromIter voters).info id = some info) :
    info.canonIdx * 2 + 1 < (Bitfield.withVoters voters.length).length :=
  Bitfield.lt_length_withVoters
    (List.getElem?_eq_some_iff.mp (VoterSet.getElem?_of_info hinfo)).1

theorem bit_ne {id other : Id} {info info' : VoterInfo} (hne : other ≠ id)
    (hinfo : (VoterSet.fromIter voters).info id = some info)
    (hinfo' : (VoterSet.fromIter voters).info other = some info') :
    info.canonIdx * 2 + 1 ≠ info'.canonIdx * 2 + 1 := by
  intro heq
  have hsame : info.canonIdx = info'.canonIdx := by omega
  have hidx := VoterSet.getElem?_of_info hinfo
  rw [hsame, VoterSet.getElem?_of_info hinfo'] at hidx
  exact hne (Prod.mk.inj (Option.some.inj hidx)).1

theorem weightByIndex_of_info (hinfo : (VoterSet.fromIter voters).info id = some info) :
    ((VoterSet.fromIter voters).weightByIndex info.canonIdx).getD 0 = info.weight := by
  simp only [VoterSet.weightByIndex, VoterSet.fromIter, VoterSet.getElem?_of_info hinfo]
  rfl

omit [DecidableEq H] [DecidableEq S] in
theorem tallied_new : Tallied voters target [] .blank
    (Round.new (VoterSet.fromIter voters) (target.targetHash, target.targetNumber) :
      Round Id H S) where
  set := rfl
  context := rfl
  base := rfl
  entries := rfl
  unseen _ _ := rfl
  sized := rfl
  unset id info _ hinfo := by
    have hidx := VoterSet.getElem?_of_info hinfo
    exact getElem?_withVoters (List.getElem?_eq_some_iff.mp hidx).1
  weighed := rfl
  summed := rfl

theorem Round.importPrecommit_first {chain : Chain H} {vote : Precommit H} {bit : Bitfield}
    {graph : VoteGraph H VoteWeight} (signature : S) (hinfo : round.voters.info id = some info)
    (hunseen : round.precommit.votes.lookup id = none)
    (hbit : round.bitfieldContext.precommitBitfield info = .ok bit)
    (hinsert : VoteGraph.insert order chain round.graph vote.targetHash vote.targetNumber bit =
      .ok (.ok graph)) :
    round.importPrecommit order chain vote id signature = .ok (.ok (false, { round with
      graph := graph
      precommit := ⟨round.precommit.votes.insert id (.single vote signature),
        round.precommit.currentWeight + info.weight⟩ })) := by
  have hadd : round.precommit.addVote id vote signature info.weight =
      some (.single vote signature, ⟨round.precommit.votes.insert id (.single vote signature),
        round.precommit.currentWeight + info.weight⟩) := by
    rw [VoteTracker.addVote, hunseen]
  simp only [importPrecommit, hinfo, hadd, hbit, Except.toOption, Run.expect, bind, Except.bind,
    hinsert]
  rfl

theorem Tallied.importPrecommit {chain : Chain H} (h : Tallied voters target done field round)
    (hnew : id ∉ done) (hinfo : (VoterSet.fromIter voters).info id = some info) (signature : S) :
    ∃ field' round', round.importPrecommit order chain target id signature =
        .ok (.ok (false, round')) ∧ Tallied voters target (id :: done) field' round' := by
  have hbit : round.bitfieldContext.precommitBitfield info =
      .ok (.live ((Bitfield.withVoters voters.length).set (info.canonIdx * 2 + 1) true)) := by
    rw [h.context]
    exact Bitfield.setBit_of_lt (bit_lt hinfo)
  have hmerged : VoteValue.addAssign field
      (.live ((Bitfield.withVoters voters.length).set (info.canonIdx * 2 + 1) true)) =
        .ok (.live ((field.bits voters.length).set (info.canonIdx * 2 + 1) true)) := by
    simp only [VoteValue.addAssign, Bitfield.merge_set h.sized]
    rfl
  have hinsert := VoteGraph.insert_base order chain target.targetNumber h.entries rfl hmerged
  have himport := Round.importPrecommit_first signature (by rw [h.set]; exact hinfo)
    (h.unseen id hnew) hbit
    (VoteGraph.insert_base order chain target.targetNumber h.entries rfl hmerged)
  refine ⟨.live ((field.bits voters.length).set (info.canonIdx * 2 + 1) true), _, himport, ?_⟩
  have hfalse := h.unset id info hnew hinfo
  constructor
  · exact h.set
  · exact h.context
  · exact h.base
  · rfl
  · intro other hother
    obtain ⟨hne, hother⟩ := not_or.mp (List.mem_cons.not.mp hother)
    rw [AList.lookup_insert_ne hne]
    exact h.unseen other hother
  · rw [Bitfield.bits, List.length_set]
    exact h.sized
  · intro other info' hother hinfo'
    obtain ⟨hne, hother⟩ := not_or.mp (List.mem_cons.not.mp hother)
    rw [Bitfield.bits, List.getElem?_set_ne (bit_ne hne hinfo hinfo')]
    exact h.unset other info' hother hinfo'
  · have hweighed := h.weighed
    rw [Bitfield.totalWeight_eq _ voters.length] at hweighed
    rw [Bitfield.totalWeight, Bitfield.weigh_set _ _ hfalse, hweighed, Nat.zero_add,
      weightByIndex_of_info hinfo]
  · have hweight : (VoterSet.fromIter voters).weight id = info.weight.toNat := by
      rw [VoterSet.weight, hinfo]
      rfl
    rw [UInt64.toNat_add, h.summed, List.map_cons, List.sum_cons, hweight, Nat.mod_add_mod,
      Nat.add_comm]

theorem Tallied.importPrecommits (order : List H → List H) (chain : Chain H)
    (precommits : List (SignedPrecommit H S Id)) (h : Tallied voters target done field round)
    (htarget : ∀ signed ∈ precommits, signed.precommit = target)
    (hvoter : ∀ signed ∈ precommits, ∃ info, (VoterSet.fromIter voters).info signed.id = some info)
    (hdistinct : (precommits.map SignedPrecommit.id).Nodup)
    (hnew : ∀ signed ∈ precommits, signed.id ∉ done) (equivocated : List Id) :
    ∃ field' round', Grandpa.importPrecommits order chain precommits equivocated round =
        .ok (.ok (some round')) ∧
      Tallied voters target ((precommits.map SignedPrecommit.id).reverse ++ done) field' round' := by
  induction precommits generalizing done field round with
  | nil => exact ⟨field, round, rfl, h⟩
  | cons signed precommits ih =>
    obtain ⟨htarget, htargets⟩ := List.forall_mem_cons.mp htarget
    obtain ⟨⟨info, hinfo⟩, hvoters⟩ := List.forall_mem_cons.mp hvoter
    obtain ⟨hnew, hnews⟩ := List.forall_mem_cons.mp hnew
    obtain ⟨hfirst, hrest⟩ := List.nodup_cons.mp hdistinct
    obtain ⟨field', next, himport, hnext⟩ := h.importPrecommit hnew hinfo signed.signature
    have hnews' : ∀ other ∈ precommits, other.id ∉ signed.id :: done := by
      intro other hother hmem
      rcases List.mem_cons.mp hmem with heq | hmem
      · exact hfirst (heq ▸ List.mem_map_of_mem hother)
      · exact hnews other hother hmem
    obtain ⟨field'', last, hlast, htallied⟩ := ih hnext htargets hvoters hrest hnews'
    refine ⟨field'', last, ?_, ?_⟩
    · rw [Grandpa.importPrecommits, htarget, himport]
      exact hlast
    · rw [List.map_cons, List.reverse_cons, List.append_assoc]
      exact htallied

omit [DecidableEq S] in
theorem Tallied.precommitGhost (h : Tallied voters target done field round)
    (hreached : round.voters.threshold ≤ round.precommit.currentWeight) :
    round.precommitGhost order = .ok (some (target.targetHash, target.targetNumber)) := by
  have hmerge : Bitfield.merge field .blank = .ok field := by cases field <;> rfl
  have hentries := h.entries
  rw [← h.base] at hentries
  have hweighed : VoteWeight.totalWeight field round.bitfieldContext.equivocators round.voters =
      .ok (field.totalWeight fun idx => (round.voters.weightByIndex idx).getD 0) := by
    rw [VoteWeight.totalWeight, h.context, hmerge]
    rfl
  have hweight : (field.totalWeight fun idx => (round.voters.weightByIndex idx).getD 0).2 =
      round.precommit.currentWeight := by
    rw [h.set]
    exact h.weighed
  rw [Round.precommitGhost, if_pos hreached, VoteGraph.findGhost_base order hentries rfl, h.base]
  simp only [hweighed, hweight, hreached, bind, Except.bind, decide_true]
  rfl

theorem allM_of_forall {α : Type} {p : α → Run Bool} {items : List α}
    (h : ∀ item ∈ items, p item = .ok true) : items.allM p = .ok true := by
  induction items with
  | nil => rfl
  | cons first items ih =>
    obtain ⟨hfirst, hrest⟩ := List.forall_mem_cons.mp h
    rw [List.allM, hfirst]
    exact ih hrest

-- A commit is valid if distinct voters of enough weight have precommitted to its target.
theorem validateCommit_of_votes (order : List H → List H) (chain : Chain H)
    {commit : Commit H S Id}
    (htarget : ∀ signed ∈ commit.precommits,
      signed.precommit = ⟨commit.targetHash, commit.targetNumber⟩)
    (hvoter : ∀ signed ∈ commit.precommits,
      ∃ info, (VoterSet.fromIter voters).info signed.id = some info)
    (hdistinct : (commit.precommits.map SignedPrecommit.id).Nodup)
    (hfits : ((commit.precommits.map SignedPrecommit.id).map
      (VoterSet.fromIter voters).weight).sum < 2 ^ 64)
    (hreached : (VoterSet.fromIter voters).threshold.toNat ≤
      ((commit.precommits.map SignedPrecommit.id).map (VoterSet.fromIter voters).weight).sum) :
    validateCommit order chain commit (VoterSet.fromIter voters) =
      .ok (.ok (some (commit.targetHash, commit.targetNumber))) := by
  have hstart : Tallied voters ⟨commit.targetHash, commit.targetNumber⟩ [] .blank
      (Round.new (VoterSet.fromIter voters) (commit.targetHash, commit.targetNumber) :
        Round Id H S) := tallied_new
  obtain ⟨field, round, himport, htallied⟩ := hstart.importPrecommits order chain
    commit.precommits htarget hvoter hdistinct (fun _ _ => List.not_mem_nil) []
  have hinOrder : (commit.precommits.allM fun signed =>
      if commit.targetNumber ≤ signed.precommit.targetNumber then
        chain.isEqualOrDescendentOf commit.targetHash signed.precommit.targetHash
      else pure false) = .ok true := by
    apply allM_of_forall
    intro signed hsigned
    simp [htarget signed hsigned, Chain.isEqualOrDescendentOf]
  have hweight : round.voters.threshold ≤ round.precommit.currentWeight := by
    rw [UInt64.le_iff_toNat_le, htallied.summed, htallied.set, List.append_nil, List.map_reverse,
      List.sum_reverse, Nat.mod_eq_of_lt hfits]
    exact hreached
  simp only [validateCommit, hinOrder, himport, htallied.precommitGhost hweight, bind, Except.bind,
    if_true]
  rfl

end Tally

end Yeeroot.Grandpa
