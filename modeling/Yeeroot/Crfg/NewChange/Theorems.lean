import Mathlib.Algebra.BigOperators.Group.Finset.Piecewise
import Yeeroot.Crfg.NewChange
import Yeeroot.Grandpa.Voters.Lemmas
import Yeeroot.Runtime.Dispatch

namespace Yeeroot.Crfg

open Grandpa

variable {authorities : List (AuthorityId × UInt64)}
variable {polymer : List (AuthorityId × UInt64)}

theorem addAuthor_of_mem {author : AuthorityId × UInt64} (h : author.1 ∈ polymer.map Prod.fst) :
    (addAuthor author polymer).map Prod.fst = polymer.map Prod.fst := by
  induction polymer with
  | nil => cases h
  | cons first polymer ih =>
    rw [addAuthor]
    split_ifs with hfirst
    · rfl
    · rcases List.mem_cons.mp h with heq | h
      · exact absurd heq.symm hfirst
      · rw [List.map_cons, ih h, List.map_cons]

theorem addAuthor_of_notMem {author : AuthorityId × UInt64} (h : author.1 ∉ polymer.map Prod.fst) :
    addAuthor author polymer = polymer ++ [author] := by
  induction polymer with
  | nil => rfl
  | cons first polymer ih =>
    obtain ⟨hfirst, hrest⟩ := not_or.mp (List.mem_cons.not.mp h)
    rw [addAuthor, if_neg (Ne.symm hfirst), ih hrest, List.cons_append]

theorem aggregateAuthorities_concat (author : AuthorityId × UInt64) :
    aggregateAuthorities (authorities ++ [author]) =
      addAuthor author (aggregateAuthorities authorities) := by
  rw [aggregateAuthorities, List.foldl_append]
  rfl

theorem aggregateAuthorities_eq_self (h : (authorities.map Prod.fst).Nodup) :
    aggregateAuthorities authorities = authorities := by
  induction authorities using List.reverseRecOn with
  | nil => rfl
  | append_singleton authorities author ih =>
    rw [List.map_append, List.map_singleton] at h
    obtain ⟨hdistinct, _, hnew⟩ := List.nodup_append.mp h
    have hnotMem : author.1 ∉ authorities.map Prod.fst :=
      fun hmem => hnew _ hmem _ (List.mem_singleton_self _) rfl
    rw [aggregateAuthorities_concat, ih hdistinct, addAuthor_of_notMem hnotMem]

theorem mem_aggregateAuthorities {id : AuthorityId} :
    id ∈ (aggregateAuthorities authorities).map Prod.fst ↔ id ∈ authorities.map Prod.fst := by
  induction authorities using List.reverseRecOn with
  | nil => rfl
  | append_singleton authorities author ih =>
    rw [aggregateAuthorities_concat, List.map_append, List.mem_append, List.map_singleton,
      List.mem_singleton]
    by_cases hmem : author.1 ∈ (aggregateAuthorities authorities).map Prod.fst
    · rw [addAuthor_of_mem hmem, ih]
      constructor
      · exact Or.inl
      · intro h
        rcases h with h | rfl
        · exact h
        · exact ih.mp hmem
    · rw [addAuthor_of_notMem hmem, List.map_append, List.mem_append, ih, List.map_singleton,
        List.mem_singleton]

theorem nodup_aggregateAuthorities :
    ((aggregateAuthorities authorities).map Prod.fst).Nodup := by
  induction authorities using List.reverseRecOn with
  | nil => exact List.nodup_nil
  | append_singleton authorities author ih =>
    rw [aggregateAuthorities_concat]
    by_cases hmem : author.1 ∈ (aggregateAuthorities authorities).map Prod.fst
    · rw [addAuthor_of_mem hmem]
      exact ih
    · rw [addAuthor_of_notMem hmem, List.map_append, List.map_singleton]
      exact List.concat_eq_append ▸ ih.concat hmem

theorem mem_addAuthor {author entry : AuthorityId × UInt64}
    (hdistinct : (polymer.map Prod.fst).Nodup) (hmem : author.1 ∈ polymer.map Prod.fst)
    (h : entry ∈ addAuthor author polymer) :
    entry ∈ polymer ∧ entry.1 ≠ author.1 ∨
      ∃ weight, (author.1, weight) ∈ polymer ∧ entry = (author.1, weight + 1) := by
  induction polymer with
  | nil => cases hmem
  | cons first polymer ih =>
    obtain ⟨hnew, hdistinct⟩ := List.nodup_cons.mp hdistinct
    rw [addAuthor] at h
    split_ifs at h with hfirst
    · rcases List.mem_cons.mp h with rfl | h
      · exact .inr ⟨first.2, by rw [← hfirst]; exact List.mem_cons_self, by rw [hfirst]⟩
      · refine .inl ⟨List.mem_cons_of_mem _ h, fun hsame => hnew ?_⟩
        rw [hfirst, ← hsame]
        exact List.mem_map_of_mem h
    · rcases List.mem_cons.mp h with rfl | h
      · exact .inl ⟨List.mem_cons_self, hfirst⟩
      · have hmem : author.1 ∈ polymer.map Prod.fst := by
          rcases List.mem_cons.mp hmem with heq | hmem
          · exact absurd heq.symm hfirst
          · exact hmem
        rcases ih hdistinct hmem h with ⟨hin, hne⟩ | ⟨weight, hin, rfl⟩
        · exact .inl ⟨List.mem_cons_of_mem _ hin, hne⟩
        · exact .inr ⟨weight, List.mem_cons_of_mem _ hin, rfl⟩

theorem ids_aggregateAuthorities :
    VoterSet.ids (aggregateAuthorities authorities) = VoterSet.ids authorities := by
  ext id
  simp only [VoterSet.ids, List.mem_toFinset]
  exact mem_aggregateAuthorities

def weightsOf (id : AuthorityId) (authorities : List (AuthorityId × UInt64)) : List Nat :=
  (authorities.filter fun author => author.1 = id).map fun author => author.2.toNat

theorem weightsOf_concat (id : AuthorityId) (author : AuthorityId × UInt64) :
    weightsOf id (authorities ++ [author]) =
      weightsOf id authorities ++ if author.1 = id then [author.2.toNat] else [] := by
  rw [weightsOf, List.filter_append, List.map_append]
  split_ifs with hid <;> simp [weightsOf, hid]

theorem length_weightsOf (id : AuthorityId) (authorities : List (AuthorityId × UInt64)) :
    (weightsOf id authorities).length = (authorities.map Prod.fst).count id := by
  rw [weightsOf, List.length_map, List.count_eq_length_filter, List.filter_map, List.length_map]
  congr 2
  funext author
  simp [beq_eq_decide]

theorem weightsOf_eq_nil_iff {id : AuthorityId} :
    weightsOf id authorities = [] ↔ id ∉ authorities.map Prod.fst := by
  rw [← List.length_eq_zero_iff, length_weightsOf, List.count_eq_zero]

-- What an author gets for its weights: the first of them, and one for every other.
def counted (weights : List Nat) : Nat := (weights.headD 0 + weights.tail.length) % 2 ^ 64

theorem counted_concat {weights : List Nat} (h : weights ≠ []) (weight : Nat) :
    counted (weights ++ [weight]) = (counted weights + 1) % 2 ^ 64 := by
  cases weights with
  | nil => exact absurd rfl h
  | cons first weights =>
    simp only [counted, List.cons_append, List.headD_cons, List.tail_cons, List.length_append,
      List.length_singleton]
    omega

-- The loop's invariant, over the part of the list that has been read.
theorem toNat_aggregateAuthorities :
    ∀ entry ∈ aggregateAuthorities authorities,
      entry.2.toNat = counted (weightsOf entry.1 authorities) := by
  induction authorities using List.reverseRecOn with
  | nil => exact fun _ hmem => absurd hmem List.not_mem_nil
  | append_singleton authorities author ih =>
    intro entry hentry
    rw [aggregateAuthorities_concat] at hentry
    rw [weightsOf_concat]
    by_cases hmem : author.1 ∈ (aggregateAuthorities authorities).map Prod.fst
    · rcases mem_addAuthor nodup_aggregateAuthorities hmem hentry with
        ⟨hin, hne⟩ | ⟨weight, hin, rfl⟩
      · rw [if_neg (Ne.symm hne), List.append_nil, ih entry hin]
      · have hsome := weightsOf_eq_nil_iff.not_left.mpr (mem_aggregateAuthorities.mp hmem)
        have hweight : weight.toNat = counted (weightsOf author.1 authorities) := ih _ hin
        rw [if_pos rfl, counted_concat hsome, UInt64.toNat_add, hweight]
        rfl
    · rw [addAuthor_of_notMem hmem, List.mem_append, List.mem_singleton] at hentry
      rcases hentry with hin | rfl
      · have hne : author.1 ≠ entry.1 := fun hsame => hmem (hsame ▸ List.mem_map_of_mem hin)
        rw [if_neg hne, List.append_nil, ih entry hin]
      · have hnone := weightsOf_eq_nil_iff.mpr (mem_aggregateAuthorities.not.mp hmem)
        have hlt := entry.2.toNat_lt
        rw [if_pos rfl, hnone, List.nil_append]
        simp [counted, Nat.mod_eq_of_lt hlt]

theorem counted_eq_sum_iff (weights : List Nat) :
    counted weights = weights.sum ↔
      weights.sum < 2 ^ 64 ∧ weights.tail.length % 2 ^ 64 = weights.tail.sum := by
  cases weights with
  | nil => simp [counted]
  | cons first weights =>
    simp only [counted, List.headD_cons, List.tail_cons, List.sum_cons]
    omega

theorem sum_weightsOf {names : Finset AuthorityId}
    (h : ∀ author ∈ authorities, author.1 ∈ names) :
    ∑ id ∈ names, (weightsOf id authorities).sum = VoterSet.weightSum authorities := by
  induction authorities with
  | nil => simp [weightsOf, VoterSet.weightSum]
  | cons author authorities ih =>
    obtain ⟨hauthor, hrest⟩ := List.forall_mem_cons.mp h
    have hsum : ∀ id, (weightsOf id (author :: authorities)).sum =
        (if author.1 = id then author.2.toNat else 0) + (weightsOf id authorities).sum := by
      intro id
      rw [weightsOf, List.filter_cons]
      split_ifs <;> simp_all [weightsOf]
    rw [Finset.sum_congr rfl fun id _ => hsum id, Finset.sum_add_distrib, ih hrest,
      Finset.sum_ite_eq, if_pos hauthor, VoterSet.weightSum, VoterSet.weightSum, List.map_cons,
      List.sum_cons]

theorem weightSum_of_weights (h : ∀ entry ∈ aggregateAuthorities authorities,
      entry.2.toNat = (weightsOf entry.1 authorities).sum) :
    VoterSet.weightSum (aggregateAuthorities authorities) = VoterSet.weightSum authorities := by
  have hweight : ∀ id ∈ VoterSet.ids authorities,
      (VoterSet.fromIter (aggregateAuthorities authorities)).weight id =
        (weightsOf id authorities).sum := by
    intro id hid
    obtain ⟨entry, hentry, rfl⟩ := List.mem_map.mp
      (mem_aggregateAuthorities.mpr (List.mem_toFinset.mp hid))
    rw [VoterSet.weight_fromIter nodup_aggregateAuthorities hentry, h entry hentry]
  have hnames : ∀ author ∈ authorities, author.1 ∈ VoterSet.ids authorities :=
    fun author hauthor => List.mem_toFinset.mpr (List.mem_map_of_mem hauthor)
  rw [← VoterSet.sum_weight_fromIter nodup_aggregateAuthorities, ids_aggregateAuthorities,
    Finset.sum_congr rfl hweight, sum_weightsOf hnames]

-- What an aggregated list should keep of a list of authorities.
structure KeepsWeight (authorities aggregated : List (AuthorityId × UInt64)) : Prop where
  distinct : (aggregated.map Prod.fst).Nodup
  names : ∀ id, id ∈ aggregated.map Prod.fst ↔ id ∈ authorities.map Prod.fst
  weight : ∀ entry ∈ aggregated, entry.2.toNat = (weightsOf entry.1 authorities).sum
  sum : VoterSet.weightSum aggregated = VoterSet.weightSum authorities
  total : (VoterSet.fromIter aggregated).totalWeight = (VoterSet.fromIter authorities).totalWeight
  threshold : (VoterSet.fromIter aggregated).threshold = (VoterSet.fromIter authorities).threshold

theorem keepsWeight_of_counts (h : ∀ id ∈ authorities.map Prod.fst,
      (weightsOf id authorities).sum < 2 ^ 64 ∧
        (weightsOf id authorities).tail.length % 2 ^ 64 = (weightsOf id authorities).tail.sum) :
    KeepsWeight authorities (aggregateAuthorities authorities) := by
  have hweight : ∀ entry ∈ aggregateAuthorities authorities,
      entry.2.toNat = (weightsOf entry.1 authorities).sum := by
    intro entry hentry
    rw [toNat_aggregateAuthorities entry hentry, counted_eq_sum_iff]
    exact h _ (mem_aggregateAuthorities.mp (List.mem_map_of_mem hentry))
  have hsum := weightSum_of_weights hweight
  have htotal : (VoterSet.fromIter (aggregateAuthorities authorities)).totalWeight =
      (VoterSet.fromIter authorities).totalWeight := by
    rw [← UInt64.toNat_inj, VoterSet.toNat_totalWeight_mod, VoterSet.toNat_totalWeight_mod, hsum]
  exact ⟨nodup_aggregateAuthorities, fun _ => mem_aggregateAuthorities, hweight, hsum, htotal,
    by rw [VoterSet.threshold_fromIter, htotal, VoterSet.threshold_fromIter]⟩

-- An author's entries after its first one have to weigh as much as there are of them.
theorem aggregate_keeps_weight_iff (authorities : List (AuthorityId × UInt64)) :
    KeepsWeight authorities (aggregateAuthorities authorities) ↔
      ∀ id ∈ authorities.map Prod.fst, (weightsOf id authorities).sum < 2 ^ 64 ∧
        (weightsOf id authorities).tail.length % 2 ^ 64 = (weightsOf id authorities).tail.sum := by
  refine ⟨fun h id hid => ?_, keepsWeight_of_counts⟩
  obtain ⟨entry, hentry, rfl⟩ := List.mem_map.mp (mem_aggregateAuthorities.mpr hid)
  rw [← counted_eq_sum_iff, ← toNat_aggregateAuthorities entry hentry]
  exact h.weight entry hentry

-- A forced change may name a key twice and give it any weights.
def repeatedKey : List (AuthorityId × UInt64) := [(filled 32 1, 1), (filled 32 1, 5)]

theorem forced_change_loses_weight :
    (∀ st : State Unit, (forceUpdateAuthorities .root repeatedKey 0 st).state =
      st.depositLog (.forcedAuthoritiesChangeSignal 0 0 repeatedKey)) ∧
    aggregateAuthorities repeatedKey = [(filled 32 1, 2)] ∧
    (weightsOf (filled 32 1) repeatedKey).sum = 6 ∧
    (VoterSet.fromIter (aggregateAuthorities repeatedKey)).totalWeight = 2 ∧
    (VoterSet.fromIter repeatedKey).totalWeight = 6 ∧
    (VoterSet.fromIter (aggregateAuthorities repeatedKey)).threshold = 2 ∧
    (VoterSet.fromIter repeatedKey).threshold = 5 ∧
    ¬ KeepsWeight repeatedKey (aggregateAuthorities repeatedKey) := by
  refine ⟨fun _ => rfl, by decide +kernel, by decide +kernel, by decide +kernel, by decide +kernel,
    by decide +kernel, by decide +kernel, ?_⟩
  intro h
  exact absurd h.sum (by decide +kernel)

end Yeeroot.Crfg
