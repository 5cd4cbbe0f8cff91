import Yeeroot.Grandpa.Round
import Yeeroot.Grandpa.Voters.Lemmas

namespace Yeeroot.Grandpa

section Tracker

variable {Id Vote S : Type} [DecidableEq Id]

def VoteTracker.signers (tracker : VoteTracker Id Vote S) : Finset Id :=
  tracker.votes.keys.toFinset

theorem VoteTracker.mem_signers {tracker : VoteTracker Id Vote S} {id : Id} :
    id ∈ tracker.signers ↔ id ∈ tracker.votes := by
  simp [signers, AList.mem_keys]

theorem toFinset_keys_insert {α : Type} {β : α → Type} [DecidableEq α] (a : α) (b : β a)
    (s : AList β) : (s.insert a b).keys.toFinset = insert a s.keys.toFinset := by
  ext key
  by_cases hkey : key = a
  · simp [hkey, AList.keys_insert]
  · simp [hkey, AList.keys_insert, List.mem_erase_of_ne]

variable [DecidableEq Vote] [DecidableEq S]

theorem VoteTracker.addVote_eq_some {tracker tracker' : VoteTracker Id Vote S} {id : Id}
    {vote : Vote} {signature : S} {weight : UInt64} {votes : VoteMultiplicity Vote S}
    (h : tracker.addVote id vote signature weight = some (votes, tracker')) :
    (tracker.votes.lookup id = none ∧ votes = .single vote signature ∧
      tracker' = ⟨tracker.votes.insert id votes, tracker.currentWeight + weight⟩) ∨
    (∃ v s, tracker.votes.lookup id = some (.single v s) ∧
      votes = .equivocated (v, s) (vote, signature) ∧
      tracker' = { tracker with votes := tracker.votes.insert id votes }) := by
  unfold addVote at h
  cases hlookup : tracker.votes.lookup id with
  | none =>
    simp only [hlookup, Option.some.injEq, Prod.mk.injEq] at h
    obtain ⟨rfl, rfl⟩ := h
    exact .inl ⟨rfl, rfl, rfl⟩
  | some seen =>
    cases seen with
    | single v s =>
      simp only [hlookup] at h
      split_ifs at h
      simp only [Option.some.injEq, Prod.mk.injEq] at h
      obtain ⟨rfl, rfl⟩ := h
      exact .inr ⟨v, s, rfl, rfl, rfl⟩
    | equivocated first second =>
      simp only [hlookup] at h
      split_ifs at h

theorem VoteTracker.addVote_cases {tracker tracker' : VoteTracker Id Vote S} {id : Id} {vote : Vote}
    {signature : S} {weight : UInt64} {votes : VoteMultiplicity Vote S}
    (h : tracker.addVote id vote signature weight = some (votes, tracker')) :
    (id ∉ tracker.signers ∧ tracker'.signers = insert id tracker.signers ∧
      tracker'.currentWeight = tracker.currentWeight + weight) ∨
    (tracker'.signers = tracker.signers ∧ tracker'.currentWeight = tracker.currentWeight) := by
  rcases addVote_eq_some h with ⟨hlookup, _, rfl⟩ | ⟨v, s, hlookup, _, rfl⟩
  · refine .inl ⟨fun hmem => ?_, toFinset_keys_insert _ _ _, rfl⟩
    exact AList.lookup_eq_none.mp hlookup (mem_signers.mp hmem)
  · have hmem : id ∈ tracker.signers :=
      mem_signers.mpr (AList.lookup_isSome.mp (by rw [hlookup]; rfl))
    refine .inr ⟨?_, rfl⟩
    rw [signers, toFinset_keys_insert]
    exact Finset.insert_eq_of_mem hmem

end Tracker

section Import

variable {Id H S : Type} [DecidableEq Id]
variable {voters : VoterSet Id} {round round' : Round Id H S} {ghost : H × UInt64}

-- What the tracker of a round stands for: its voters are of the set, each has signed one
-- of the precommits, and its weight is not more than theirs.
structure Counted (voters : VoterSet Id) (precommits : List (SignedPrecommit H S Id))
    (tracker : VoteTracker Id (Precommit H) S) : Prop where
  isVoter : ∀ id ∈ tracker.signers, ∃ info, voters.info id = some info
  hasSigned : ∀ id ∈ tracker.signers, ∃ signed ∈ precommits, signed.id = id
  weighed : tracker.currentWeight.toNat ≤ ∑ id ∈ tracker.signers, voters.weight id

theorem counted_new (voters : VoterSet Id) (precommits : List (SignedPrecommit H S Id)) :
    Counted voters precommits VoteTracker.new where
  isVoter id hid := by simp [VoteTracker.signers, VoteTracker.new] at hid
  hasSigned id hid := by simp [VoteTracker.signers, VoteTracker.new] at hid
  weighed := by simp [VoteTracker.new]

variable [DecidableEq H] [DecidableEq S] {order : List H → List H} {chain : Chain H}

theorem Counted.addVote {precommits : List (SignedPrecommit H S Id)}
    {tracker tracker' : VoteTracker Id (Precommit H) S}
    (hcounted : Counted voters precommits tracker) {signed : SignedPrecommit H S Id}
    (hsigned : signed ∈ precommits) {info : VoterInfo} (hinfo : voters.info signed.id = some info)
    {votes : VoteMultiplicity (Precommit H) S}
    (h : tracker.addVote signed.id signed.precommit signed.signature info.weight =
      some (votes, tracker')) :
    Counted voters precommits tracker' := by
  rcases VoteTracker.addVote_cases h with ⟨hfirst, hsigners, hweight⟩ | ⟨hsigners, hweight⟩
  · refine ⟨fun id hid => ?_, fun id hid => ?_, ?_⟩
    · rcases Finset.mem_insert.mp (hsigners ▸ hid) with rfl | hid
      · exact ⟨info, hinfo⟩
      · exact hcounted.isVoter id hid
    · rcases Finset.mem_insert.mp (hsigners ▸ hid) with rfl | hid
      · exact ⟨signed, hsigned, rfl⟩
      · exact hcounted.hasSigned id hid
    · have hown : voters.weight signed.id = info.weight.toNat := by
        simp [VoterSet.weight, hinfo]
      have hle := hcounted.weighed
      rw [hsigners, hweight, Finset.sum_insert hfirst, hown, UInt64.toNat_add]
      have hmod := Nat.mod_le (tracker.currentWeight.toNat + info.weight.toNat) (2 ^ 64)
      omega
  · exact ⟨hsigners ▸ hcounted.isVoter, hsigners ▸ hcounted.hasSigned,
      hsigners ▸ hweight ▸ hcounted.weighed⟩

theorem Round.importPrecommit_eq_ok {vote : Precommit H} {signer : Id} {signature : S}
    {equivocation : Bool}
    (h : round.importPrecommit order chain vote signer signature =
      .ok (.ok (equivocation, round'))) :
    (equivocation = false ∧ round' = round ∧ ∀ info, round.voters.info signer = some info →
      round.precommit.addVote signer vote signature info.weight = none) ∨
    ∃ info votes precommit, round.voters.info signer = some info ∧
      round.precommit.addVote signer vote signature info.weight = some (votes, precommit) ∧
      ((equivocation = false ∧ round.precommit.votes.lookup signer = none ∧
        ∃ graph, round' = { round with graph := graph, precommit := precommit }) ∨
      (equivocation = true ∧ (round.precommit.votes.lookup signer).isSome ∧
        ∃ context, round.bitfieldContext.equivocatedPrecommit info = .ok context ∧
          round' = { round with precommit := precommit, bitfieldContext := context })) := by
  unfold importPrecommit at h
  cases hinfo : round.voters.info signer with
  | none =>
    simp only [hinfo, Except.ok.injEq, Prod.mk.injEq] at h
    obtain ⟨rfl, rfl⟩ := h
    exact .inl ⟨rfl, rfl, fun _ hsome => by cases hsome⟩
  | some info =>
    simp only [hinfo] at h
    cases hadd : round.precommit.addVote signer vote signature info.weight with
    | none =>
      simp only [hadd, Except.ok.injEq, Prod.mk.injEq] at h
      obtain ⟨rfl, rfl⟩ := h
      exact .inl ⟨rfl, rfl, fun _ hsome => Option.some.inj hsome ▸ hadd⟩
    | some added =>
      obtain ⟨votes, precommit⟩ := added
      refine .inr ⟨info, votes, precommit, rfl, hadd, ?_⟩
      rcases VoteTracker.addVote_eq_some hadd with ⟨hunseen, rfl, _⟩ | ⟨v, s, hseen, rfl, _⟩
      · simp only [hadd, Run.bind_eq_ok] at h
        obtain ⟨weight, _, inserted, _, h⟩ := h
        cases inserted with
        | error error => exact absurd ((Run.pure_eq_ok _ _).mp h) (by simp)
        | ok graph =>
          have hround := (Run.pure_eq_ok _ _).mp h
          simp only [Except.ok.injEq, Prod.mk.injEq] at hround
          exact .inl ⟨hround.1, hunseen, graph, hround.2⟩
      · simp only [hadd, Run.bind_eq_ok] at h
        obtain ⟨context, hcontext, h⟩ := h
        have hround := (Run.pure_eq_ok _ _).mp h
        simp only [Except.ok.injEq, Prod.mk.injEq] at hround
        refine .inr ⟨hround.1, by rw [hseen]; rfl, context, ?_, hround.2⟩
        cases hmarked : round.bitfieldContext.equivocatedPrecommit info with
        | error error =>
          rw [hmarked] at hcontext
          cases hcontext
        | ok marked =>
          rw [hmarked] at hcontext
          exact congrArg _ (Except.ok.inj hcontext)

theorem importPrecommits_cons_eq_ok {signed : SignedPrecommit H S Id}
    {precommits : List (SignedPrecommit H S Id)} {equivocated : List Id} :
    importPrecommits order chain (signed :: precommits) equivocated round =
        .ok (.ok (some round')) ↔
      ∃ equivocation next,
        round.importPrecommit order chain signed.precommit signed.id signed.signature =
          .ok (.ok (equivocation, next)) ∧
        (equivocation = true → signed.id ∉ equivocated) ∧
        importPrecommits order chain precommits
          (if equivocation then signed.id :: equivocated else equivocated) next =
            .ok (.ok (some round')) := by
  simp only [importPrecommits, Run.bind_eq_ok]
  constructor
  · rintro ⟨imported, himported, h⟩
    cases imported with
    | error error => exact absurd ((Run.pure_eq_ok _ _).mp h) (by simp)
    | ok imported =>
      obtain ⟨equivocation, next⟩ := imported
      refine ⟨equivocation, next, himported, ?_⟩
      cases equivocation with
      | false => exact ⟨by simp, h⟩
      | true =>
        simp only at h
        split_ifs at h with hagain
        · exact absurd ((Run.pure_eq_ok _ _).mp h) (by simp)
        · exact ⟨fun _ => hagain, h⟩
  · rintro ⟨equivocation, next, himported, hfirst, h⟩
    refine ⟨_, himported, ?_⟩
    cases equivocation with
    | false => exact h
    | true =>
      simp only [if_neg (hfirst rfl)]
      exact h

theorem importPrecommits_counted (voters : VoterSet Id) (all : List (SignedPrecommit H S Id))
    (precommits : List (SignedPrecommit H S Id)) (hall : precommits ⊆ all) (equivocated : List Id)
    (hvoters : round.voters = voters) (hcounted : Counted voters all round.precommit)
    (h : importPrecommits order chain precommits equivocated round = .ok (.ok (some round'))) :
    round'.voters = voters ∧ Counted voters all round'.precommit := by
  induction precommits generalizing equivocated round with
  | nil =>
    simp only [importPrecommits, Except.ok.injEq, Option.some.injEq] at h
    exact h ▸ ⟨hvoters, hcounted⟩
  | cons signed precommits ih =>
    obtain ⟨hsigned, hrest⟩ := List.cons_subset.mp hall
    obtain ⟨equivocation, next, himported, -, h⟩ := importPrecommits_cons_eq_ok.mp h
    obtain ⟨hsame, hnext⟩ : next.voters = voters ∧ Counted voters all next.precommit := by
      rcases Round.importPrecommit_eq_ok himported with ⟨-, rfl, -⟩ |
        ⟨info, votes, precommit, hinfo, hadd, ⟨-, -, graph, rfl⟩ | ⟨-, -, context, -, rfl⟩⟩
      · exact ⟨hvoters, hcounted⟩
      · exact ⟨hvoters, hcounted.addVote hsigned (hvoters ▸ hinfo) hadd⟩
      · exact ⟨hvoters, hcounted.addVote hsigned (hvoters ▸ hinfo) hadd⟩
    exact ih hrest _ hsame hnext h

theorem allM_eq_ok {α : Type} {p : α → Run Bool} {items : List α} (h : items.allM p = .ok true) :
    ∀ item ∈ items, p item = .ok true := by
  induction items with
  | nil => simp
  | cons first items ih =>
    simp only [List.allM, Run.bind_eq_ok] at h
    obtain ⟨holds, hfirst, h⟩ := h
    cases holds with
    | false => exact absurd ((Run.pure_eq_ok _ _).mp h) (by simp)
    | true =>
      intro item hitem
      rcases List.mem_cons.mp hitem with rfl | hitem
      · exact hfirst
      · exact ih h item hitem

omit [DecidableEq S] in
theorem Round.threshold_le_of_ghost (h : round.precommitGhost order = .ok (some ghost)) :
    round.voters.threshold ≤ round.precommit.currentWeight := by
  unfold precommitGhost at h
  split_ifs at h with hreached
  · exact hreached
  · simp at h

theorem validateCommit_cases {commit : Commit H S Id}
    (h : validateCommit order chain commit voters = .ok (.ok (some ghost))) :
    (∀ signed ∈ commit.precommits, commit.targetNumber ≤ signed.precommit.targetNumber ∧
      chain.isEqualOrDescendentOf commit.targetHash signed.precommit.targetHash = .ok true) ∧
    ∃ round, importPrecommits order chain commit.precommits []
        (Round.new voters (commit.targetHash, commit.targetNumber)) = .ok (.ok (some round)) ∧
      round.precommitGhost order = .ok (some ghost) := by
  simp only [validateCommit, Run.bind_eq_ok] at h
  obtain ⟨inOrder, hinOrder, h⟩ := h
  cases inOrder with
  | false => exact absurd ((Run.pure_eq_ok _ _).mp h) (by simp)
  | true =>
    simp only [if_true, Run.bind_eq_ok] at h
    obtain ⟨imported, himported, h⟩ := h
    obtain error | _ | round := imported
    · exact absurd ((Run.pure_eq_ok _ _).mp h) (by simp)
    · exact absurd ((Run.pure_eq_ok _ _).mp h) (by simp)
    · simp only [Run.bind_eq_ok] at h
      obtain ⟨found, hfound, h⟩ := h
      obtain rfl := Except.ok.inj ((Run.pure_eq_ok _ _).mp h)
      refine ⟨fun signed hsigned => ?_, round, himported, hfound⟩
      have hchecked := allM_eq_ok hinOrder signed hsigned
      split_ifs at hchecked with hnumber
      · exact ⟨hnumber, hchecked⟩
      · exact absurd ((Run.pure_eq_ok _ _).mp hchecked) (by simp)

-- The weight of the distinct voters behind a valid commit reaches the threshold, and their
-- precommits are for the target or its descendents.
theorem validateCommit_eq_ok {commit : Commit H S Id}
    (h : validateCommit order chain commit voters = .ok (.ok (some ghost))) :
    (∀ signed ∈ commit.precommits,
      chain.isEqualOrDescendentOf commit.targetHash signed.precommit.targetHash = .ok true) ∧
    ∃ tracker : VoteTracker Id (Precommit H) S, Counted voters commit.precommits tracker ∧
      voters.threshold ≤ tracker.currentWeight := by
  obtain ⟨hchecked, round, himported, hghost⟩ := validateCommit_cases h
  obtain ⟨hvoters, hcounted⟩ := importPrecommits_counted voters commit.precommits
    commit.precommits (List.Subset.refl _) [] rfl (counted_new voters _) himported
  have hreached := Round.threshold_le_of_ghost hghost
  exact ⟨fun signed hsigned => (hchecked signed hsigned).2, round.precommit, hcounted,
    hvoters ▸ hreached⟩

end Import

end Yeeroot.Grandpa
