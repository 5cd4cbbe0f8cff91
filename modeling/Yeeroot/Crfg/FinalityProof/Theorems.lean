import Mathlib.Algebra.BigOperators.Group.Finset.Basic
import Mathlib.Data.Finset.Powerset
import Yeeroot.Crfg.FinalityProof
import Yeeroot.Crfg.Justification.Theorems
import Yeeroot.Crfg.NewChange.Theorems
import Yeeroot.Grandpa.Round.Tally

namespace Yeeroot.Crfg

open Scale Grandpa

theorem sum_count {ι : Type} [DecidableEq ι] [BEq ι] [LawfulBEq ι] (names : List ι) :
    ∑ id ∈ names.toFinset, names.count id = names.length := by
  obtain rfl : ‹BEq ι› = instBEqOfDecidableEq := lawful_beq_subsingleton _ _
  exact List.sum_toFinset_count_eq_length names

-- What the runtime stores and what it signals in the same block.
section Stored

variable {σ : Type}

theorem onFinalize_updateAuthorities (st : State σ) (info : SessionKey) (blockNumber : UInt64)
    (hnumber : st.system.blockNumber = blockNumber) :
    onFinalize blockNumber (updateAuthorities .inherent info st).state =
      { st.depositLog (.authoritiesChangeSignal 0 (nextAuthorities st.crfg.authorities info)) with
        crfg := ⟨nextAuthorities st.crfg.authorities info, none⟩ } := by
  subst hnumber
  simp [updateAuthorities, Outcome.done, onFinalize, nextAuthorities, State.depositLog]

-- Every entry counts one, and there are few of them.
structure UnitWeights (authorities : List (AuthorityId × UInt64)) : Prop where
  weight : ∀ author ∈ authorities, author.2 = 1
  fits : authorities.length < 2 ^ 64

theorem unitWeights_storedAuthorities (infos : List SessionKey) :
    UnitWeights (storedAuthorities infos) := by
  induction infos using List.reverseRecOn with
  | nil => exact ⟨fun _ hmem => absurd hmem List.not_mem_nil, Nat.two_pow_pos 64⟩
  | append_singleton infos info ih =>
    rw [storedAuthorities, List.foldl_append]
    change UnitWeights (nextAuthorities (storedAuthorities infos) info)
    refine ⟨fun author hmem => ?_, ?_⟩
    · rcases List.mem_append.mp hmem with hmem | hmem
      · exact ih.weight author (trimAuthorities_subset _ hmem)
      · rw [List.mem_singleton.mp hmem]
    · have hlen := length_trimAuthorities (storedAuthorities infos)
      rw [MAX_AUTHORITIES_SIZE] at hlen
      rw [nextAuthorities, List.length_append, List.length_singleton]
      omega

end Stored

-- The aggregated list names every author once and counts its entries.
section Aggregate

variable {authorities : List (AuthorityId × UInt64)}

theorem weightsOf_unit (h : UnitWeights authorities) (id : AuthorityId) :
    weightsOf id authorities = List.replicate ((authorities.map Prod.fst).count id) 1 := by
  refine List.eq_replicate_iff.mpr ⟨length_weightsOf id authorities, fun weight hweight => ?_⟩
  obtain ⟨author, hauthor, rfl⟩ := List.mem_map.mp hweight
  rw [h.weight author (List.mem_of_mem_filter hauthor)]
  rfl

theorem keepsWeight_unit (h : UnitWeights authorities) :
    KeepsWeight authorities (aggregateAuthorities authorities) := by
  apply keepsWeight_of_counts
  intro id _
  have hle := List.count_le_length (l := authorities.map Prod.fst) (a := id)
  have hfits := h.fits
  rw [List.length_map] at hle
  rw [weightsOf_unit h, List.tail_replicate, List.length_replicate, List.sum_replicate_nat,
    List.sum_replicate_nat]
  omega

theorem weight_aggregateAuthorities (h : UnitWeights authorities) :
    ∀ entry ∈ aggregateAuthorities authorities,
      entry.2.toNat = (authorities.map Prod.fst).count entry.1 := by
  intro entry hentry
  rw [(keepsWeight_unit h).weight entry hentry, weightsOf_unit h, List.sum_replicate_nat,
    Nat.mul_one]

theorem fullVoters_weight (h : UnitWeights authorities) {id : AuthorityId}
    (hid : id ∈ authorities.map Prod.fst) :
    (fullVoters authorities).weight id = (authorities.map Prod.fst).count id := by
  obtain ⟨entry, hentry, rfl⟩ := List.mem_map.mp (mem_aggregateAuthorities.mpr hid)
  rw [fullVoters, VoterSet.weight_fromIter nodup_aggregateAuthorities hentry,
    weight_aggregateAuthorities h entry hentry]

theorem lightVoters_weight (h : UnitWeights authorities) (id : AuthorityId) :
    (lightVoters authorities).weight id ≤ 1 := by
  rw [VoterSet.weight]
  cases hinfo : (lightVoters authorities).info id with
  | none => exact Nat.zero_le 1
  | some info =>
    have hmem := List.mem_of_getElem? (VoterSet.getElem?_of_info hinfo)
    have hunit : info.weight = 1 := h.weight _ hmem
    rw [Option.map_some, hunit]
    rfl

theorem weightSum_unit (h : UnitWeights authorities) :
    VoterSet.weightSum authorities = authorities.length := by
  have hones : authorities.map (fun voter => voter.2.toNat) = authorities.map fun _ => 1 :=
    List.map_congr_left fun author hmem => by rw [h.weight author hmem]; rfl
  rw [VoterSet.weightSum, hones, List.map_const', List.sum_replicate_nat, Nat.mul_one]

theorem weightSum_aggregateAuthorities (h : UnitWeights authorities) :
    VoterSet.weightSum (aggregateAuthorities authorities) = authorities.length :=
  (keepsWeight_unit h).sum.trans (weightSum_unit h)

def quorum (count : Nat) : Nat := count - faulty count

theorem toNat_threshold_of_weightSum {voters : List (AuthorityId × UInt64)} {count : Nat}
    (hsum : VoterSet.weightSum voters = count) (hfits : count < 2 ^ 64) :
    (VoterSet.fromIter voters).threshold.toNat = quorum count := by
  rw [VoterSet.threshold_fromIter, toNat_threshold,
    VoterSet.toNat_totalWeight (by rw [hsum]; exact hfits), hsum, quorum]

end Aggregate

-- With a repeated author fewer voters than the threshold can have the weight of it.
theorem exists_small_quorum {ι : Type} [DecidableEq ι] [BEq ι] [LawfulBEq ι] {names : List ι} (h : ¬ names.Nodup) :
    ∃ signers ⊆ names.toFinset, signers.card < quorum names.length ∧
      quorum names.length ≤ ∑ id ∈ signers, names.count id := by
  obtain ⟨repeated, hrepeated⟩ : ∃ id, 1 < names.count id := by
    rw [List.nodup_iff_count_le_one] at h
    push Not at h
    exact h
  have hmem : repeated ∈ names.toFinset :=
    List.mem_toFinset.mpr (List.count_pos_iff.mp (by omega))
  have htwo : 2 ≤ names.length := hrepeated.trans_le List.count_le_length
  have hquorum : 2 ≤ quorum names.length ∧ quorum names.length ≤ names.length := by
    rw [quorum, faulty]
    omega
  by_cases hfew : names.toFinset.card < quorum names.length
  · refine ⟨names.toFinset, Finset.Subset.refl _, hfew, ?_⟩
    rw [sum_count]
    exact hquorum.2
  · obtain ⟨signers, hin, hsub, hcard⟩ := Finset.exists_subsuperset_card_eq
      (Finset.singleton_subset_iff.mpr hmem)
      (show ({repeated} : Finset ι).card ≤ quorum names.length - 1 by
        rw [Finset.card_singleton]
        omega)
      (show quorum names.length - 1 ≤ names.toFinset.card by omega)
    have hin := Finset.singleton_subset_iff.mp hin
    refine ⟨signers, hsub, by omega, ?_⟩
    have hothers : (signers.erase repeated).card ≤
        ∑ id ∈ signers.erase repeated, names.count id := by
      rw [Finset.card_eq_sum_ones]
      refine Finset.sum_le_sum fun id hid => ?_
      exact List.count_pos_iff.mpr (List.mem_toFinset.mp (hsub (Finset.mem_of_mem_erase hid)))
    rw [Finset.card_erase_of_mem hin, hcard] at hothers
    rw [← Finset.add_sum_erase signers _ hin]
    omega

section Accept

variable {Hd : Type} (host : Host Hd)
variable {just : CrfgJustification Hd}

theorem visitedHashes_of_target (setId : UInt64) (chain : Chain H256)
    (precommits : List (SignedPrecommit H256 Signature AuthorityId)) (h : ∀ signed ∈ precommits,
      signed.precommit = ⟨just.commit.targetHash, just.commit.targetNumber⟩ ∧
      host.ed25519Verify signed.signature
        (localizedPayload just.round setId (.precommit signed.precommit)) signed.id = true) :
    just.visitedHashes host setId chain precommits [] = .ok (.ok []) := by
  induction precommits with
  | nil => rfl
  | cons signed precommits ih =>
    obtain ⟨⟨htarget, hsigned⟩, hrest⟩ := List.forall_mem_cons.mp h
    rw [CrfgJustification.visitedHashes, checkMessageSig_single, hsigned,
      if_neg (by simp), if_pos (by rw [htarget]), ih hrest]

theorem verify_of_votes {setId : UInt64} {voters : List (AuthorityId × UInt64)}
    (hancestries : just.votesAncestries = []) (hsigned : ∀ signed ∈ just.commit.precommits,
      signed.precommit = ⟨just.commit.targetHash, just.commit.targetNumber⟩ ∧
      host.ed25519Verify signed.signature
        (localizedPayload just.round setId (.precommit signed.precommit)) signed.id = true)
    (hvoter : ∀ signed ∈ just.commit.precommits,
      ∃ info, (VoterSet.fromIter voters).info signed.id = some info)
    (hdistinct : (just.commit.precommits.map SignedPrecommit.id).Nodup)
    (hfits : ((just.commit.precommits.map SignedPrecommit.id).map
      (VoterSet.fromIter voters).weight).sum < 2 ^ 64)
    (hreached : (VoterSet.fromIter voters).threshold.toNat ≤
      ((just.commit.precommits.map SignedPrecommit.id).map
        (VoterSet.fromIter voters).weight).sum) :
    just.verify host setId (VoterSet.fromIter voters) = .ok (.ok ()) := by
  have hvalid := validateCommit_of_votes host.headOrder
    ((AncestryChain.new host just.votesAncestries).chain host)
    (fun signed hmem => (hsigned signed hmem).1) hvoter hdistinct hfits hreached
  have hvisited := visitedHashes_of_target host setId
    ((AncestryChain.new host just.votesAncestries).chain host) just.commit.precommits hsigned
  simp only [CrfgJustification.verify, hvalid, hvisited, bind, Except.bind]
  rw [hancestries]
  rfl

-- The authors of a list can sign.
def CanSign (authorities : List (AuthorityId × UInt64)) : Prop :=
  ∀ id ∈ authorities.map Prod.fst, ∀ payload, ∃ signature,
    host.ed25519Verify signature payload id = true

variable {authorities : List (AuthorityId × UInt64)}

theorem exists_precommits {signers : Finset AuthorityId} (hsign : CanSign host authorities)
    (hsigners : signers ⊆ (authorities.map Prod.fst).toFinset) (round setId : UInt64)
    (vote : Precommit H256) :
    ∃ precommits : List (SignedPrecommit H256 Signature AuthorityId),
      precommits.map SignedPrecommit.id = signers.toList ∧
      ∀ signed ∈ precommits, signed.precommit = vote ∧
        host.ed25519Verify signed.signature
          (localizedPayload round setId (.precommit signed.precommit)) signed.id = true := by
  have hexists : ∀ id : AuthorityId, ∃ signature, id ∈ signers →
      host.ed25519Verify signature (localizedPayload round setId (.precommit vote)) id = true := by
    intro id
    by_cases hid : id ∈ signers
    · obtain ⟨signature, hsignature⟩ := hsign id (List.mem_toFinset.mp (hsigners hid))
        (localizedPayload round setId (.precommit vote))
      exact ⟨signature, fun _ => hsignature⟩
    · exact ⟨filled 64 0, fun hid' => absurd hid' hid⟩
  choose signature hsignature using hexists
  refine ⟨signers.toList.map fun id => ⟨vote, signature id, id⟩, ?_, ?_⟩
  · rw [List.map_map]
    exact List.map_id _
  · intro signed hmem
    obtain ⟨id, hid, rfl⟩ := List.mem_map.mp hmem
    exact ⟨rfl, hsignature id (Finset.mem_toList.mp hid)⟩

theorem lightVoters_rejects {setId : UInt64} (h : UnitWeights authorities)
    (hfew : (just.commit.precommits.map SignedPrecommit.id).toFinset.card <
      quorum authorities.length) :
    just.verify host setId (lightVoters authorities) ≠ .ok (.ok ()) := by
  intro haccepted
  obtain ⟨_, tracker, hcounted, hreached⟩ := counted_of_verify host haccepted
  have hsigners : tracker.signers ⊆ (just.commit.precommits.map SignedPrecommit.id).toFinset := by
    intro id hid
    obtain ⟨signed, hsigned, rfl⟩ := hcounted.hasSigned id hid
    exact List.mem_toFinset.mpr (List.mem_map_of_mem hsigned)
  have hweight : ∑ id ∈ tracker.signers, (lightVoters authorities).weight id ≤
      tracker.signers.card := by
    rw [Finset.card_eq_sum_ones]
    exact Finset.sum_le_sum fun id _ => lightVoters_weight h id
  have hthreshold : (lightVoters authorities).threshold.toNat = quorum authorities.length :=
    toNat_threshold_of_weightSum (weightSum_unit h) h.fits
  have hle := (UInt64.le_iff_toNat_le.mp hreached).trans hcounted.weighed
  have hcard := Finset.card_le_card hsigners
  omega

theorem exists_accepted_by_full (h : UnitWeights authorities) (hsign : CanSign host authorities)
    (hrepeated : ¬ (authorities.map Prod.fst).Nodup) (round setId : UInt64)
    (vote : Precommit H256) :
    ∃ just : CrfgJustification Hd, just.round = round ∧ just.commit.targetHash = vote.targetHash ∧
      just.verify host setId (fullVoters authorities) = .ok (.ok ()) ∧
      just.verify host setId (lightVoters authorities) ≠ .ok (.ok ()) := by
  obtain ⟨signers, hsigners, hfew, henough⟩ := exists_small_quorum hrepeated
  rw [List.length_map] at hfew henough
  obtain ⟨precommits, hids, hprecommits⟩ := exists_precommits host hsign hsigners round setId vote
  refine ⟨⟨round, ⟨vote.targetHash, vote.targetNumber, precommits⟩, []⟩, rfl, rfl, ?_, ?_⟩
  · have hsum : ((precommits.map SignedPrecommit.id).map (fullVoters authorities).weight).sum =
        ∑ id ∈ signers, (authorities.map Prod.fst).count id := by
      rw [hids, Finset.sum_map_toList]
      exact Finset.sum_congr rfl fun id hid =>
        fullVoters_weight h (List.mem_toFinset.mp (hsigners hid))
    have hall : ∑ id ∈ signers, (authorities.map Prod.fst).count id ≤ authorities.length := by
      have hle := Finset.sum_le_sum_of_subset (f := (authorities.map Prod.fst).count) hsigners
      rw [sum_count, List.length_map] at hle
      exact hle
    apply verify_of_votes host rfl hprecommits
    · intro signed hmem
      have hid : signed.id ∈ signers.toList := hids ▸ List.mem_map_of_mem hmem
      have hlisted := List.mem_toFinset.mp (hsigners (Finset.mem_toList.mp hid))
      obtain ⟨entry, hentry, hname⟩ := List.mem_map.mp (mem_aggregateAuthorities.mpr hlisted)
      obtain ⟨idx, hinfo⟩ := VoterSet.info_fromIter nodup_aggregateAuthorities hentry
      exact ⟨_, hname ▸ hinfo⟩
    · rw [hids]
      exact signers.nodup_toList
    · exact lt_of_eq_of_lt hsum (hall.trans_lt h.fits)
    · rw [toNat_threshold_of_weightSum (weightSum_aggregateAuthorities h) h.fits]
      exact henough.trans_eq hsum.symm
  · apply lightVoters_rejects host h
    rw [hids, Finset.toList_toFinset]
    exact hfew

end Accept

theorem pairHost_canSign (authorities : List (AuthorityId × UInt64)) :
    CanSign pairHost authorities :=
  fun id _ payload => ⟨signWith id payload, decide_eq_true rfl⟩

theorem doCheckFinalityProof_eq_ok {Hd : Type} {host : Host Hd} {light : LightHost Hd}
    {parentHeader : Hd} {block : UInt64 × H256} {setId : UInt64} {remoteProof : Bytes}
    {path : List Hd}
    (h : doCheckFinalityProof host light parentHeader block setId remoteProof = .ok (.ok path)) :
    ∃ proof encoded authorities rest, light.decodeProof remoteProof = some proof ∧
      light.checkExecutionProof proof.justification.commit.targetHash parentHeader = .ok encoded ∧
      decodeVec decodeAuthority encoded = some (authorities, rest) ∧
      proof.justification.verify host setId (lightVoters authorities) = .ok (.ok ()) := by
  unfold doCheckFinalityProof at h
  split at h
  · simp at h
  rename_i proof hproof
  split at h
  · simp at h
  split_ifs at h
  · simp at h
  · simp at h
  split at h
  · simp at h
  rename_i encoded hencoded
  split at h
  · simp at h
  rename_i authorities rest hauthorities
  simp only [Run.bind_eq_ok] at h
  obtain ⟨verified, hverified, h⟩ := h
  cases verified with
  | error error => exact absurd ((Run.pure_eq_ok _ _).mp h) (by simp)
  | ok => exact ⟨proof, encoded, authorities, rest, hproof, hencoded, hauthorities, hverified⟩

-- A light client and a full node accept the same justifications exactly if no author is
-- listed twice.
theorem light_and_full_agree_iff (infos : List SessionKey) :
    (∀ (Hd : Type) (host : Host Hd) (just : CrfgJustification Hd) (setId : UInt64),
      just.verify host setId (fullVoters (storedAuthorities infos)) = .ok (.ok ()) ↔
        just.verify host setId (lightVoters (storedAuthorities infos)) = .ok (.ok ())) ↔
    ((storedAuthorities infos).map Prod.fst).Nodup := by
  constructor
  · intro h
    by_contra hrepeated
    obtain ⟨just, _, _, hfull, hlight⟩ := exists_accepted_by_full pairHost
      (unitWeights_storedAuthorities infos) (pairHost_canSign _) hrepeated 1 0 ⟨filled 32 1, 1⟩
    exact hlight ((h _ pairHost just 0).mp hfull)
  · intro hdistinct Hd host just setId
    rw [fullVoters, aggregateAuthorities_eq_self hdistinct, lightVoters]

-- The first two blocks have the same author, who alone signs the second.
theorem repeated_author_splits :
    storedAuthorities [filled 32 9, filled 32 9] = [(filled 32 9, 1), (filled 32 9, 1)] ∧
    (votesFor (filled 32 1) [filled 32 9]).verify pairHost 0
      (fullVoters (storedAuthorities [filled 32 9, filled 32 9])) = .ok (.ok ()) ∧
    (votesFor (filled 32 1) [filled 32 9]).verify pairHost 0
        (lightVoters (storedAuthorities [filled 32 9, filled 32 9])) =
      .ok (.error (.badJustification "invalid commit in CRFG justification")) := by
  refine ⟨rfl, ?_, ?_⟩
  · decide +kernel
  · decide +kernel

end Yeeroot.Crfg
