import Yeeroot.Crfg.Justification
import Yeeroot.Grandpa.Round.Lemmas
import Yeeroot.Scale.Codec

namespace Yeeroot.Crfg

open Scale Grandpa

variable {Hd : Type} (host : Host Hd)
variable {just : CrfgJustification Hd} {setId : UInt64}

-- The block is the target, or descends from it through these headers.
inductive DescendsVia (headers : List Hd) (target : H256) : H256 → Prop where
  | target : DescendsVia headers target target
  | step {header : Hd} (supplied : header ∈ headers)
      (below : DescendsVia headers target (host.parentHash header)) :
      DescendsVia headers target (host.headerHash header)

def SignedIn (setId : UInt64) (just : CrfgJustification Hd) (id : AuthorityId)
    (signed : SignedPrecommit H256 Signature AuthorityId) : Prop :=
  signed ∈ just.commit.precommits ∧ signed.id = id ∧
    host.ed25519Verify signed.signature
      (localizedPayload just.round setId (.precommit signed.precommit)) id = true

theorem mem_of_lookup_foldl (headers : List Hd) {hash : H256} {header : Hd}
    (ancestry : AncestryChain Hd)
    (h : (headers.foldl (fun ancestry header => ancestry.insert (host.headerHash header) header)
      ancestry).lookup hash = some header) :
    ancestry.lookup hash = some header ∨ header ∈ headers ∧ host.headerHash header = hash := by
  induction headers generalizing ancestry with
  | nil => exact .inl h
  | cons first headers ih =>
    rcases ih _ h with hfound | ⟨hmem, hhash⟩
    · by_cases hfirst : hash = host.headerHash first
      · rw [hfirst, AList.lookup_insert, Option.some.injEq] at hfound
        exact .inr ⟨hfound ▸ List.mem_cons_self, hfound ▸ hfirst.symm⟩
      · rw [AList.lookup_insert_ne hfirst] at hfound
        exact .inl hfound
    · exact .inr ⟨List.mem_cons_of_mem _ hmem, hhash⟩

theorem mem_of_lookup_ancestry (headers : List Hd) {hash : H256} {header : Hd}
    (h : (AncestryChain.new host headers).lookup hash = some header) :
    header ∈ headers ∧ host.headerHash header = hash := by
  rcases mem_of_lookup_foldl host headers ∅ h with hempty | hfound
  · exact absurd hempty (by simp)
  · exact hfound

theorem descendsVia_of_walk (headers : List Hd) (target : H256) (fuel : Nat) (block : H256)
    (route : List H256) {result : List H256}
    (h : AncestryChain.walk host (AncestryChain.new host headers) target fuel block route =
      .ok (.ok result)) :
    DescendsVia host headers target block := by
  induction fuel generalizing block route with
  | zero =>
    unfold AncestryChain.walk at h
    split_ifs at h with hbase
    · exact hbase ▸ .target
    · simp [unending] at h
  | succ fuel ih =>
    unfold AncestryChain.walk at h
    split_ifs at h with hbase
    · exact hbase ▸ .target
    · simp only at h
      cases hlookup : (AncestryChain.new host headers).lookup block with
      | none => simp [hlookup] at h
      | some header =>
        simp only [hlookup] at h
        obtain ⟨hmem, rfl⟩ := mem_of_lookup_ancestry host headers hlookup
        exact .step hmem (ih _ _ h)

theorem descendsVia_of_isEqualOrDescendentOf {headers : List Hd} {target block : H256}
    (h : ((AncestryChain.new host headers).chain host).isEqualOrDescendentOf target block =
      .ok true) :
    DescendsVia host headers target block := by
  unfold Chain.isEqualOrDescendentOf at h
  split_ifs at h with hsame
  · exact hsame ▸ .target
  · simp only [Run.bind_eq_ok] at h
    obtain ⟨route, hroute, h⟩ := h
    cases route with
    | error error =>
      cases error
      exact absurd ((Run.pure_eq_ok _ _).mp h) (by simp)
    | ok route => exact descendsVia_of_walk host headers target _ block [] hroute

theorem checkMessageSig_single (message : Message) (id : AuthorityId) (signature : Signature)
    (round setId : UInt64) :
    checkMessageSig host message [id] [signature] round setId =
      host.ed25519Verify signature (localizedPayload round setId message) id := by
  simp [checkMessageSig]

theorem signed_of_visitedHashes {chain : Chain H256}
    (precommits : List (SignedPrecommit H256 Signature AuthorityId)) {visited result : List H256}
    (h : just.visitedHashes host setId chain precommits visited = .ok (.ok result)) :
    ∀ signed ∈ precommits, host.ed25519Verify signed.signature
      (localizedPayload just.round setId (.precommit signed.precommit)) signed.id = true := by
  induction precommits generalizing visited with
  | nil => simp
  | cons signed precommits ih =>
    simp only [CrfgJustification.visitedHashes, checkMessageSig_single] at h
    split_ifs at h with hinvalid hsame
    · simp at h
    · exact List.forall_mem_cons.mpr ⟨by simpa using hinvalid, ih h⟩
    · simp only [Run.bind_eq_ok] at h
      obtain ⟨route, _, h⟩ := h
      cases route with
      | error error =>
        cases error
        exact absurd ((Run.pure_eq_ok _ _).mp h) (by simp)
      | ok route => exact List.forall_mem_cons.mpr ⟨by simpa using hinvalid, ih h⟩

theorem counted_of_verify {voters : VoterSet AuthorityId}
    (h : just.verify host setId voters = .ok (.ok ())) :
    (∀ signed ∈ just.commit.precommits, SignedIn host setId just signed.id signed ∧
      DescendsVia host just.votesAncestries just.commit.targetHash signed.precommit.targetHash) ∧
    ∃ tracker : VoteTracker AuthorityId (Precommit H256) Signature,
      Counted voters just.commit.precommits tracker ∧ voters.threshold ≤ tracker.currentWeight := by
  simp only [CrfgJustification.verify, Run.bind_eq_ok] at h
  obtain ⟨validated, hvalidated, h⟩ := h
  obtain error | _ | ghost := validated
  · exact absurd ((Run.pure_eq_ok _ _).mp h) (by simp)
  · exact absurd ((Run.pure_eq_ok _ _).mp h) (by simp)
  · simp only [Run.bind_eq_ok] at h
    obtain ⟨visited, hvisited, h⟩ := h
    cases visited with
    | error error => exact absurd ((Run.pure_eq_ok _ _).mp h) (by simp)
    | ok visited =>
      obtain ⟨hdescend, hcounted⟩ := validateCommit_eq_ok hvalidated
      refine ⟨fun signed hsigned => ⟨⟨hsigned, rfl, ?_⟩, ?_⟩, hcounted⟩
      · exact signed_of_visitedHashes host _ hvisited signed hsigned
      · exact descendsVia_of_isEqualOrDescendentOf host (hdescend signed hsigned)

-- An accepted justification comes with a quorum of the voter set for its target.
theorem justification_sound {just : CrfgJustification Hd} {setId : UInt64}
    {voters : List (AuthorityId × UInt64)}
    (haccepted : just.verify host setId (VoterSet.fromIter voters) = .ok (.ok ())) :
    ∃ quorum ⊆ VoterSet.ids voters,
      (∀ id ∈ quorum, ∃ signed, SignedIn host setId just id signed ∧
        DescendsVia host just.votesAncestries just.commit.targetHash
          signed.precommit.targetHash) ∧
      (VoterSet.fromIter voters).threshold.toNat =
        (VoterSet.fromIter voters).totalWeight.toNat -
          ((VoterSet.fromIter voters).totalWeight.toNat - 1) / 3 ∧
      (VoterSet.fromIter voters).threshold.toNat ≤
        ∑ id ∈ quorum, (VoterSet.fromIter voters).weight id := by
  obtain ⟨hprecommits, tracker, hcounted, hreached⟩ := counted_of_verify host haccepted
  refine ⟨tracker.signers, fun id hid => ?_, fun id hid => ?_, toNat_threshold _, ?_⟩
  · obtain ⟨info, hinfo⟩ := hcounted.isVoter id hid
    exact VoterSet.mem_ids_of_info hinfo
  · obtain ⟨signed, hsigned, rfl⟩ := hcounted.hasSigned id hid
    exact ⟨signed, hprecommits signed hsigned⟩
  · exact (UInt64.le_iff_toNat_le.mp hreached).trans hcounted.weighed

-- A signature scheme to run the checks with: a vote with its round and set id has 57 bytes,
-- so all of them are signed.
def signWith (id : AuthorityId) (payload : Bytes) : Signature :=
  ⟨(id.val.take 7 ++ payload ++ List.replicate 64 0).take 64, by
    simp only [List.length_take, List.length_append, List.length_replicate]
    omega⟩

def pairHost : Host (H256 × H256) where
  headerCodec := .prod (.fixed 32) (.fixed 32)
  headerHash := Prod.fst
  parentHash := Prod.snd
  headerNumber _ := 0
  ed25519Verify signature payload id := signature = signWith id payload
  headOrder := id

def votes (votes : List (AuthorityId × Precommit H256)) :
    List (SignedPrecommit H256 Signature AuthorityId) :=
  votes.map fun (id, precommit) =>
    ⟨precommit, signWith id (localizedPayload 1 0 (.precommit precommit)), id⟩

-- Three of four voters, one of them for the child of the target.
def threeVotes : CrfgJustification (H256 × H256) :=
  ⟨1, ⟨filled 32 1, 1, votes [(filled 32 9, ⟨filled 32 1, 1⟩), (filled 32 8, ⟨filled 32 2, 2⟩),
    (filled 32 7, ⟨filled 32 1, 1⟩)]⟩, [(filled 32 2, filled 32 1)]⟩

def fourVoters : List (AuthorityId × UInt64) :=
  [(filled 32 9, 1), (filled 32 8, 1), (filled 32 7, 1), (filled 32 6, 1)]

theorem justification_sound_three :
    threeVotes.verify pairHost 0 (VoterSet.fromIter fourVoters) = .ok (.ok ()) ∧
    ∃ quorum ⊆ VoterSet.ids fourVoters,
      (∀ id ∈ quorum, ∃ signed, SignedIn pairHost 0 threeVotes id signed ∧
        DescendsVia pairHost threeVotes.votesAncestries (filled 32 1)
          signed.precommit.targetHash) ∧
      3 ≤ ∑ id ∈ quorum, (VoterSet.fromIter fourVoters).weight id := by
  have haccepted : threeVotes.verify pairHost 0 (VoterSet.fromIter fourVoters) = .ok (.ok ()) := by
    decide +kernel
  obtain ⟨quorum, hvoters, hsigned, _, hweight⟩ := justification_sound pairHost haccepted
  exact ⟨haccepted, quorum, hvoters, hsigned, hweight⟩

def hasSigned (setId : UInt64) (just : CrfgJustification Hd) (id : AuthorityId) : Bool :=
  just.commit.precommits.any fun signed => signed.id = id &&
    host.ed25519Verify signed.signature
      (localizedPayload just.round setId (.precommit signed.precommit)) id

theorem hasSigned_of_signedIn {id : AuthorityId}
    {signed : SignedPrecommit H256 Signature AuthorityId} (h : SignedIn host setId just id signed) :
    hasSigned host setId just id = true := by
  obtain ⟨hmem, rfl, hvalid⟩ := h
  exact List.any_eq_true.mpr ⟨signed, hmem, by simp [hvalid]⟩

-- The voters with a valid signature in both justifications.
def signedBoth (setId : UInt64) (voters : List (AuthorityId × UInt64))
    (just just' : CrfgJustification Hd) : Finset AuthorityId :=
  (VoterSet.ids voters).filter fun id =>
    hasSigned host setId just id = true ∧ hasSigned host setId just' id = true

-- Two accepted justifications share more than the faulty weight, whatever their targets are.
-- A set without weight has no faulty weight to exceed, and one whose weights overflow has a
-- threshold below its quorums.
theorem accountable_overlap {just just' : CrfgJustification Hd} {setId : UInt64}
    {voters : List (AuthorityId × UInt64)} (hdistinct : (voters.map Prod.fst).Nodup)
    (hpos : 0 < VoterSet.weightSum voters) (hfits : VoterSet.weightSum voters < 2 ^ 64)
    (haccepted : just.verify host setId (VoterSet.fromIter voters) = .ok (.ok ()))
    (haccepted' : just'.verify host setId (VoterSet.fromIter voters) = .ok (.ok ())) :
    (VoterSet.weightSum voters - 1) / 3 + 1 ≤
      ∑ id ∈ signedBoth host setId voters just just', (VoterSet.fromIter voters).weight id := by
  obtain ⟨hprecommits, tracker, hcounted, hreached⟩ := counted_of_verify host haccepted
  obtain ⟨hprecommits', tracker', hcounted', hreached'⟩ := counted_of_verify host haccepted'
  have hvoters {tracker : VoteTracker AuthorityId (Precommit H256) Signature}
      {precommits : List (SignedPrecommit H256 Signature AuthorityId)}
      (hcounted : Counted (VoterSet.fromIter voters) precommits tracker) :
      tracker.signers ⊆ VoterSet.ids voters := fun id hid => by
    obtain ⟨info, hinfo⟩ := hcounted.isVoter id hid
    exact VoterSet.mem_ids_of_info hinfo
  have hboth : tracker.signers ∩ tracker'.signers ⊆ signedBoth host setId voters just just' := by
    intro id hid
    obtain ⟨hin, hin'⟩ := Finset.mem_inter.mp hid
    obtain ⟨signed, hsigned, hname⟩ := hcounted.hasSigned id hin
    obtain ⟨signed', hsigned', hname'⟩ := hcounted'.hasSigned id hin'
    exact Finset.mem_filter.mpr ⟨hvoters hcounted hin,
      hname ▸ hasSigned_of_signedIn host (hprecommits signed hsigned).1,
      hname' ▸ hasSigned_of_signedIn host (hprecommits' signed' hsigned').1⟩
  have hoverlap := sum_add_sum_le_sum_inter (VoterSet.fromIter voters).weight (hvoters hcounted)
    (hvoters hcounted')
  have hquorum := (UInt64.le_iff_toNat_le.mp hreached).trans hcounted.weighed
  have hquorum' := (UInt64.le_iff_toNat_le.mp hreached').trans hcounted'.weighed
  have hshared := Finset.sum_le_sum_of_subset (f := (VoterSet.fromIter voters).weight) hboth
  rw [VoterSet.threshold_fromIter, toNat_threshold, VoterSet.toNat_totalWeight hfits, faulty]
    at hquorum hquorum'
  rw [VoterSet.sum_weight_fromIter hdistinct] at hoverlap
  omega

-- A justification with votes for its own target only, and one for its sibling.
def votesFor (target : H256) (signers : List AuthorityId) : CrfgJustification (H256 × H256) :=
  ⟨1, ⟨target, 1, votes (signers.map fun id => (id, ⟨target, 1⟩))⟩, []⟩

theorem accountable_overlap_two :
    (votesFor (filled 32 1) [filled 32 9, filled 32 8, filled 32 7]).verify pairHost 0
      (VoterSet.fromIter fourVoters) = .ok (.ok ()) ∧
    (votesFor (filled 32 2) [filled 32 8, filled 32 7, filled 32 6]).verify pairHost 0
      (VoterSet.fromIter fourVoters) = .ok (.ok ()) ∧
    2 ≤ ∑ id ∈ signedBoth pairHost 0 fourVoters
        (votesFor (filled 32 1) [filled 32 9, filled 32 8, filled 32 7])
        (votesFor (filled 32 2) [filled 32 8, filled 32 7, filled 32 6]),
      (VoterSet.fromIter fourVoters).weight id := by
  have haccepted : (votesFor (filled 32 1) [filled 32 9, filled 32 8, filled 32 7]).verify pairHost
      0 (VoterSet.fromIter fourVoters) = .ok (.ok ()) := by
    decide +kernel
  have haccepted' : (votesFor (filled 32 2) [filled 32 8, filled 32 7, filled 32 6]).verify pairHost
      0 (VoterSet.fromIter fourVoters) = .ok (.ok ()) := by
    decide +kernel
  exact ⟨haccepted, haccepted', accountable_overlap pairHost (by decide +kernel)
    (by decide) (by decide) haccepted haccepted'⟩

theorem descendsVia_iff {headers : List Hd} {target block : H256} :
    DescendsVia host headers target block ↔ block = target ∨ ∃ header ∈ headers,
      host.headerHash header = block ∧
        DescendsVia host headers target (host.parentHash header) := by
  constructor
  · intro h
    cases h with
    | target => exact .inl rfl
    | step supplied below => exact .inr ⟨_, supplied, rfl, below⟩
  · intro h
    rcases h with rfl | ⟨header, supplied, rfl, below⟩
    · exact .target
    · exact .step supplied below

theorem not_descendsVia_sibling {first second parent : H256} (hne : second ≠ first)
    (hfirst : parent ≠ first) (hsecond : parent ≠ second) :
    ¬ DescendsVia pairHost [(first, parent), (second, parent)] first second := by
  have hparent : ¬ DescendsVia pairHost [(first, parent), (second, parent)] first parent := by
    rw [descendsVia_iff]
    simp [pairHost, hfirst, hfirst.symm, hsecond.symm]
  rw [descendsVia_iff]
  intro h
  rcases h with h | ⟨header, hmem, _, hbelow⟩
  · exact hne h
  · simp only [List.mem_cons, List.not_mem_nil, or_false] at hmem
    rcases hmem with rfl | rfl <;> exact hparent hbelow

-- A voter without weight, and three whose weights add up to one in 64 bits.
def weightless : List (AuthorityId × UInt64) := [(filled 32 9, 0)]

def overflowing : List (AuthorityId × UInt64) :=
  [(filled 32 9, 0x8000000000000000), (filled 32 8, 0x8000000000000000), (filled 32 7, 1)]

-- Justifications for two children of block 0 are accepted, and the voters in both have too
-- little weight.
def Diverges (voters : List (AuthorityId × UInt64)) (signers signers' : List AuthorityId) : Prop :=
  voters ≠ [] ∧ (voters.map Prod.fst).Nodup ∧
  (votesFor (filled 32 1) signers).verify pairHost 0 (VoterSet.fromIter voters) = .ok (.ok ()) ∧
  (votesFor (filled 32 2) signers').verify pairHost 0 (VoterSet.fromIter voters) = .ok (.ok ()) ∧
  ∑ id ∈ signedBoth pairHost 0 voters (votesFor (filled 32 1) signers)
      (votesFor (filled 32 2) signers'), (VoterSet.fromIter voters).weight id <
    (VoterSet.weightSum voters - 1) / 3 + 1

theorem branches_without_overlap :
    ¬ DescendsVia pairHost [(filled 32 1, zero256), (filled 32 2, zero256)] (filled 32 1)
      (filled 32 2) ∧
    ¬ DescendsVia pairHost [(filled 32 2, zero256), (filled 32 1, zero256)] (filled 32 2)
      (filled 32 1) ∧
    Diverges weightless [] [] ∧ Diverges overflowing [filled 32 7] [filled 32 9] := by
  refine ⟨not_descendsVia_sibling (by decide) (by decide) (by decide),
    not_descendsVia_sibling (by decide) (by decide) (by decide), ?_, ?_⟩
  · exact ⟨by simp [weightless], by decide, by decide +kernel, by decide +kernel,
      by decide +kernel⟩
  · exact ⟨by simp [overflowing], by decide +kernel, by decide +kernel, by decide +kernel,
      by decide +kernel⟩

end Yeeroot.Crfg
