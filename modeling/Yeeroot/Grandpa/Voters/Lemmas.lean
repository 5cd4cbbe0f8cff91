import Mathlib.Algebra.BigOperators.Group.Finset.Basic
import Mathlib.Algebra.BigOperators.Group.List.Lemmas
import Mathlib.Algebra.Order.BigOperators.Group.Finset
import Yeeroot.Grandpa.Voters
import Yeeroot.Overflow

namespace Yeeroot.Grandpa

theorem sum_add_sum_le_sum_inter {ι : Type} [DecidableEq ι] (weight : ι → Nat)
    {whole left right : Finset ι} (hleft : left ⊆ whole) (hright : right ⊆ whole) :
    ∑ i ∈ left, weight i + ∑ i ∈ right, weight i ≤
      ∑ i ∈ whole, weight i + ∑ i ∈ left ∩ right, weight i := by
  rw [← Finset.sum_union_inter]
  exact Nat.add_le_add_right (Finset.sum_le_sum_of_subset (Finset.union_subset hleft hright)) _

-- The weight that is allowed to be faulty.
def faulty (totalWeight : Nat) : Nat := (totalWeight - 1) / 3

theorem toNat_threshold (totalWeight : UInt64) :
    (threshold totalWeight).toNat = totalWeight.toNat - faulty totalWeight.toNat := by
  have hlt := totalWeight.toNat_lt
  have hfaulty : ((if totalWeight = 0 then 0 else totalWeight - 1) / 3).toNat =
      faulty totalWeight.toNat := by
    rw [UInt64.toNat_div, show (3 : UInt64).toNat = 3 from rfl, faulty]
    split_ifs with hzero
    · simp [hzero]
    · rw [(toNat_sub_one hzero).2]
  rw [threshold, UInt64.toNat_sub_of_le _ _ ?_, hfaulty]
  rw [UInt64.le_iff_toNat_le, hfaulty, faulty]
  omega

namespace VoterSet

variable {Id : Type} [DecidableEq Id]
variable {id : Id} {info : VoterInfo} {voters : List (Id × UInt64)}

def totalWeight (set : VoterSet Id) : UInt64 := (set.voters.map Prod.snd).foldl (· + ·) 0

def weight (set : VoterSet Id) (id : Id) : Nat :=
  ((set.info id).map fun info => info.weight.toNat).getD 0

def ids (voters : List (Id × UInt64)) : Finset Id := (voters.map Prod.fst).toFinset

def weightSum (voters : List (Id × UInt64)) : Nat := (voters.map fun voter => voter.2.toNat).sum

theorem threshold_fromIter (voters : List (Id × UInt64)) :
    (fromIter voters).threshold = Grandpa.threshold (fromIter voters).totalWeight := rfl

theorem lookup_foldl_of_notMem (voters : List ((Id × UInt64) × Nat))
    (hid : id ∉ voters.map fun voter => voter.1.1) (weights : AList fun _ : Id => VoterInfo) :
    (voters.foldl (fun weights ((id, weight), idx) => weights.insert id ⟨idx, weight⟩)
      weights).lookup id = weights.lookup id := by
  induction voters generalizing weights with
  | nil => rfl
  | cons voter voters ih =>
    simp only [List.map_cons, List.mem_cons, not_or] at hid
    rw [List.foldl_cons, ih hid.2, AList.lookup_insert_ne hid.1]

theorem lookup_foldl_of_mem (voters : List ((Id × UInt64) × Nat))
    (hdistinct : (voters.map fun voter => voter.1.1).Nodup) {weight : UInt64} {idx : Nat}
    (hmem : ((id, weight), idx) ∈ voters) (weights : AList fun _ : Id => VoterInfo) :
    (voters.foldl (fun weights ((id, weight), idx) => weights.insert id ⟨idx, weight⟩)
      weights).lookup id = some ⟨idx, weight⟩ := by
  induction voters generalizing weights with
  | nil => simp at hmem
  | cons voter voters ih =>
    simp only [List.map_cons, List.nodup_cons] at hdistinct
    rw [List.foldl_cons]
    rcases List.mem_cons.mp hmem with rfl | hmem
    · rw [lookup_foldl_of_notMem voters hdistinct.1, AList.lookup_insert]
    · exact ih hdistinct.2 hmem _

omit [DecidableEq Id] in
theorem map_name_zipIdx (voters : List (Id × UInt64)) :
    (voters.zipIdx.map fun voter => voter.1.1) = voters.map Prod.fst := by
  have hfirst : (fun voter : (Id × UInt64) × Nat => voter.1.1) = Prod.fst ∘ Prod.fst := rfl
  rw [hfirst, ← List.map_map, List.zipIdx_map_fst]

theorem mem_of_lookup_foldl (voters : List ((Id × UInt64) × Nat))
    {weights : AList fun _ : Id => VoterInfo} (hnew : weights.lookup id = none)
    (h : (voters.foldl (fun weights ((id, weight), idx) => weights.insert id ⟨idx, weight⟩)
      weights).lookup id = some info) :
    ((id, info.weight), info.canonIdx) ∈ voters := by
  induction voters using List.reverseRecOn with
  | nil => exact absurd (hnew.symm.trans h) (by simp)
  | append_singleton voters voter ih =>
    rw [List.foldl_append, List.foldl_cons, List.foldl_nil] at h
    by_cases hid : id = voter.1.1
    · subst hid
      rw [AList.lookup_insert] at h
      obtain rfl := Option.some.inj h
      simp
    · rw [AList.lookup_insert_ne hid] at h
      exact List.mem_append_left _ (ih h)

theorem getElem?_of_info (h : (fromIter voters).info id = some info) :
    voters[info.canonIdx]? = some (id, info.weight) :=
  List.mem_zipIdx_iff_getElem?.mp (mem_of_lookup_foldl voters.zipIdx (by simp) h)

theorem mem_ids_of_info (h : (fromIter voters).info id = some info) : id ∈ ids voters := by
  have hmem := List.mem_of_getElem? (getElem?_of_info h)
  rw [ids, List.mem_toFinset]
  exact List.mem_map_of_mem hmem

theorem info_fromIter (hdistinct : (voters.map Prod.fst).Nodup) {weight : UInt64}
    (hmem : (id, weight) ∈ voters) :
    ∃ idx, (fromIter voters).info id = some ⟨idx, weight⟩ := by
  obtain ⟨idx, hidx⟩ := List.mem_iff_getElem?.mp hmem
  have hzip : ((id, weight), idx) ∈ voters.zipIdx := List.mem_zipIdx_iff_getElem?.mpr hidx
  exact ⟨idx, lookup_foldl_of_mem voters.zipIdx (map_name_zipIdx voters ▸ hdistinct) hzip ∅⟩

theorem weight_fromIter (hdistinct : (voters.map Prod.fst).Nodup) {weight : UInt64}
    (hmem : (id, weight) ∈ voters) :
    (fromIter voters).weight id = weight.toNat := by
  obtain ⟨idx, hinfo⟩ := info_fromIter hdistinct hmem
  rw [VoterSet.weight, hinfo]
  rfl

theorem sum_weight_fromIter (hdistinct : (voters.map Prod.fst).Nodup) :
    ∑ id ∈ ids voters, (fromIter voters).weight id = weightSum voters := by
  rw [ids, List.sum_toFinset _ hdistinct, List.map_map, weightSum]
  congr 1
  refine List.map_congr_left fun voter hvoter => ?_
  exact weight_fromIter hdistinct hvoter

theorem toNat_foldl_add (weights : List UInt64) (start : UInt64) :
    (weights.foldl (· + ·) start).toNat =
      (start.toNat + (weights.map UInt64.toNat).sum) % 2 ^ 64 := by
  induction weights generalizing start with
  | nil =>
    have hlt := start.toNat_lt
    simp [Nat.mod_eq_of_lt hlt]
  | cons weight weights ih =>
    rw [List.foldl_cons, ih, UInt64.toNat_add, List.map_cons, List.sum_cons, Nat.mod_add_mod,
      Nat.add_assoc]

theorem toNat_totalWeight_mod (voters : List (Id × UInt64)) :
    (fromIter voters).totalWeight.toNat = weightSum voters % 2 ^ 64 := by
  have hmap : (voters.map Prod.snd).map UInt64.toNat = voters.map fun voter => voter.2.toNat :=
    List.map_map ..
  rw [totalWeight, toNat_foldl_add]
  simp only [fromIter, hmap, UInt64.toNat_zero, Nat.zero_add, weightSum]

theorem toNat_totalWeight (hfits : weightSum voters < 2 ^ 64) :
    (fromIter voters).totalWeight.toNat = weightSum voters := by
  rw [toNat_totalWeight_mod, Nat.mod_eq_of_lt hfits]

end VoterSet

end Yeeroot.Grandpa
