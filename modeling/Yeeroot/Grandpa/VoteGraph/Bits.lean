import Mathlib.Algebra.BigOperators.Fin
import Yeeroot.Ancestry.Weight
import Yeeroot.Grandpa.Round.Replay
import Yeeroot.Grandpa.VoteGraph.Best

namespace Yeeroot.Grandpa

inductive VoteKind where
  | prevote
  | precommit
  deriving DecidableEq

namespace VoteKind

def bit : VoteKind → Nat → Nat
  | .prevote, idx => idx * 2
  | .precommit, idx => idx * 2 + 1

def of {α : Type} : VoteKind → α × α → α
  | .prevote, both => both.1
  | .precommit, both => both.2

variable {kind kind' : VoteKind} {idx idx' : Nat}

theorem bit_succ : kind.bit (idx + 1) = kind.bit idx + 1 + 1 := by
  cases kind <;> simp only [bit] <;> omega

theorem bit_le (kind : VoteKind) (idx : Nat) : kind.bit idx ≤ idx * 2 + 1 := by
  cases kind <;> simp only [bit] <;> omega

end VoteKind

namespace Bitfield

def Holds (nVoters : Nat) (field : Bitfield) (bit : Nat) : Prop :=
  (field.bits nVoters)[bit]? = some true

variable {nVoters bit : Nat} {field left right merged : Bitfield}

theorem not_holds_blank : ¬ Holds nVoters .blank bit := by
  intro h
  rw [Holds, bits, withVoters, List.getElem?_replicate] at h
  split_ifs at h
  cases h

theorem holds_merge (hleft : Sized nVoters left) (hright : Sized nVoters right)
    (h : merged.bits nVoters = List.zipWith (· || ·) (left.bits nVoters) (right.bits nVoters)) :
    Holds nVoters merged bit ↔ Holds nVoters left bit ∨ Holds nVoters right bit := by
  have hlen : (left.bits nVoters).length = (right.bits nVoters).length := hleft.trans hright.symm
  rw [Holds, Holds, Holds, h, List.getElem?_zipWith]
  rcases Nat.lt_or_ge bit (left.bits nVoters).length with hlt | hge
  · rw [List.getElem?_eq_getElem hlt, List.getElem?_eq_getElem (hlen ▸ hlt)]
    simp
  · rw [List.getElem?_eq_none hge, List.getElem?_eq_none (hlen ▸ hge)]
    simp

theorem setBit_holds (hsized : Sized nVoters field) {idx : Nat} (hidx : idx < nVoters)
    (kind : VoteKind) :
    ∃ marked, field.setBit (kind.bit idx) nVoters = .ok marked ∧ Sized nVoters marked ∧
      ∀ bit, Holds nVoters marked bit ↔ bit = kind.bit idx ∨ Holds nVoters field bit := by
  have hlt : kind.bit idx < (field.bits nVoters).length := by
    have hbit := kind.bit_le idx
    have hwords := lt_length_withVoters hidx
    have hsame := hsized
    rw [Sized] at hsame
    omega
  refine ⟨_, setBit_of_lt hlt, ?_, fun bit => ?_⟩
  · rw [Sized, bits, List.length_set]
    exact hsized
  · have hlive : Holds nVoters (.live ((field.bits nVoters).set (kind.bit idx) true)) bit ↔
        ((field.bits nVoters).set (kind.bit idx) true)[bit]? = some true := Iff.rfl
    rw [hlive]
    by_cases hbit : bit = kind.bit idx
    · subst hbit
      simp [hlt]
    · simp [Holds, List.getElem?_set_ne (Ne.symm hbit), hbit]

-- The bits of a field as what was voted.
def Tally (nVoters : Nat) (field : Bitfield) (cast : Multiset Nat) : Prop :=
  Sized nVoters field ∧ ∀ bit, Holds nVoters field bit ↔ bit ∈ cast

theorem tallies (nVoters : Nat) : VoteGraph.Tallies (Tally nVoters) where
  default := ⟨rfl, fun bit => by simp [not_holds_blank, VoteValue.default]⟩
  add {left right s t} hleft hright := by
    obtain ⟨merged, hmerged, hbits⟩ := merge_of_sized hleft.1 hright.1
    refine ⟨merged, ?_, sized_merge hleft.1 hright.1 hbits, fun bit => ?_⟩
    · simp only [VoteValue.addAssign, hmerged]
      rfl
    · rw [holds_merge hleft.1 hright.1 hbits, hleft.2, hright.2, Multiset.mem_add]

theorem toNat_weigh (kind : VoteKind) (lookup : Nat → UInt64) (size : Nat) {start : Nat}
    {bits : List Bool} (hlength : bits.length = size * 2) :
    (kind.of (weigh lookup start bits)).toNat =
      (∑ i ∈ Finset.range size,
        if bits[kind.bit i]? = some true then (lookup (start + i)).toNat else 0) % 2 ^ 64 := by
  induction size generalizing start bits with
  | zero =>
    obtain rfl := List.length_eq_zero_iff.mp hlength
    cases kind <;> rfl
  | succ size ih =>
    obtain ⟨prevoted, rest, rfl⟩ := List.exists_cons_of_length_pos (by omega : 0 < bits.length)
    rw [List.length_cons] at hlength
    obtain ⟨precommitted, rest, rfl⟩ :=
      List.exists_cons_of_length_pos (by omega : 0 < rest.length)
    have hrest : rest.length = size * 2 := by
      rw [List.length_cons] at hlength
      omega
    have hfirst : (kind.of (weigh lookup start (prevoted :: precommitted :: rest))) =
        (if (prevoted :: precommitted :: rest)[kind.bit 0]? = some true then lookup start else 0) +
          kind.of (weigh lookup (start + 1) rest) := by
      cases kind <;> simp [VoteKind.of, VoteKind.bit, weigh]
    have hlater : ∀ i, (prevoted :: precommitted :: rest)[kind.bit (i + 1)]? =
        rest[kind.bit i]? := fun i => by rw [VoteKind.bit_succ]; rfl
    have hindex : ∀ i, start + 1 + i = start + (i + 1) := fun i => by omega
    rw [hfirst, UInt64.toNat_add, ih hrest, Nat.add_mod_mod, Finset.sum_range_succ', Nat.add_comm]
    simp only [hlater, hindex, Nat.add_zero, apply_ite UInt64.toNat, UInt64.toNat_zero]

end Bitfield

section Voters

variable {Id : Type} [DecidableEq Id] {voters : List (Id × UInt64)}

theorem VoterSet.info_of_getElem? (hdistinct : (voters.map Prod.fst).Nodup) {idx : Nat} {id : Id}
    {weight : UInt64} (h : voters[idx]? = some (id, weight)) :
    (fromIter voters).info id = some ⟨idx, weight⟩ :=
  lookup_foldl_of_mem voters.zipIdx (map_name_zipIdx voters ▸ hdistinct)
    (List.mem_zipIdx_iff_getElem?.mpr h) ∅

-- The weight that a decision takes.
abbrev VoterSet.quorum (voters : List (Id × UInt64)) : Nat := (fromIter voters).threshold.toNat

noncomputable abbrev VoterSet.weightIn (voters : List (Id × UInt64)) (p : Id → Prop) : Nat :=
  Ancestry.weightOf (ids voters) (fromIter voters).weight p

theorem VoterSet.weightIn_le (hdistinct : (voters.map Prod.fst).Nodup) (p : Id → Prop) :
    weightIn voters p ≤ weightSum voters := by
  rw [← sum_weight_fromIter hdistinct]
  exact Ancestry.weightOf_le_sum _ _ p

theorem toNat_totalWeight_eq (hdistinct : (voters.map Prod.fst).Nodup)
    (hfits : VoterSet.weightSum voters < 2 ^ 64) {field : Bitfield}
    (hsized : Bitfield.Sized voters.length field) (kind : VoteKind) {p : Id → Prop}
    (hp : ∀ id info, (VoterSet.fromIter voters).info id = some info →
      (Bitfield.Holds voters.length field (kind.bit info.canonIdx) ↔ p id)) :
    (kind.of (field.totalWeight fun idx =>
        ((VoterSet.fromIter voters).weightByIndex idx).getD 0)).toNat =
      VoterSet.weightIn voters p := by
  classical
  have hlength : (field.bits voters.length).length = (voters.length * 2 + 63) / 64 * 32 * 2 := by
    have hsame := hsized
    rw [Bitfield.Sized, Bitfield.withVoters, List.length_replicate] at hsame
    omega
  have hmany : voters.length ≤ (voters.length * 2 + 63) / 64 * 32 := by omega
  rw [Bitfield.totalWeight_eq _ voters.length, Bitfield.toNat_weigh kind _ _ hlength]
  have hsum : (∑ i ∈ Finset.range ((voters.length * 2 + 63) / 64 * 32),
      if (field.bits voters.length)[kind.bit i]? = some true then
        (((VoterSet.fromIter voters).weightByIndex (0 + i)).getD 0).toNat else 0) =
      VoterSet.weightIn voters p := by
    rw [← Finset.sum_subset (Finset.range_subset_range.mpr hmany) ?_, Finset.sum_range,
      VoterSet.weightIn, Ancestry.weightOf, VoterSet.ids, List.sum_toFinset _ hdistinct, List.map_map,
      ← Fin.sum_univ_fun_getElem]
    · refine Finset.sum_congr rfl fun i _ => ?_
      have hvoter : voters[i.1]? = some (voters[i.1].1, voters[i.1].2) :=
        List.getElem?_eq_getElem i.2
      have hinfo := VoterSet.info_of_getElem? hdistinct hvoter
      have hiff := hp _ _ hinfo
      have hown := weightByIndex_of_info hinfo
      have hweight := VoterSet.weight_fromIter hdistinct (List.mem_of_getElem? hvoter)
      rw [Bitfield.Holds] at hiff
      simp only [hiff, Nat.zero_add, hown, hweight, Function.comp_apply]
    · intro i _ hout
      have hnone : voters[i]? = none :=
        List.getElem?_eq_none (Nat.not_lt.mp fun hlt => hout (Finset.mem_range.mpr hlt))
      simp [VoterSet.weightByIndex, VoterSet.fromIter, hnone]
  rw [hsum]
  exact Nat.mod_eq_of_lt (Nat.lt_of_le_of_lt (VoterSet.weightIn_le hdistinct p) hfits)

end Voters

end Yeeroot.Grandpa
