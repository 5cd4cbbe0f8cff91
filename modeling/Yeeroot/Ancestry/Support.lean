import Mathlib.Algebra.BigOperators.Group.Multiset.Basic
import Mathlib.Data.Multiset.Filter
import Mathlib.Order.Monotone.Defs
import Yeeroot.Ancestry.Line

namespace Yeeroot.Ancestry

variable {B V : Type} (blocks : Ancestry B)

-- Ballots cast for blocks. A ballot supports its block and all ancestors of it.
open Classical in
noncomputable def support (ballots : Multiset (B × V)) (block : B) : Multiset V :=
  (ballots.filter fun ballot => blocks.Descends block ballot.1).map Prod.snd

section Support

variable {blocks} {ballots : Multiset (B × V)} {a b : B}

theorem support_zero (block : B) : blocks.support (0 : Multiset (B × V)) block = 0 := rfl

open Classical in
theorem support_cons (ballot : B × V) (ballots : Multiset (B × V)) (block : B) :
    blocks.support (ballot ::ₘ ballots) block =
      (if blocks.Descends block ballot.1 then {ballot.2} else 0) +
        blocks.support ballots block := by
  unfold support
  rw [Multiset.filter_cons, Multiset.map_add]
  split_ifs with h
  · rw [Multiset.map_singleton]
  · rw [Multiset.map_zero]

theorem support_le (h : blocks.Descends a b) :
    blocks.support ballots b ≤ blocks.support ballots a := by
  classical
  exact Multiset.map_le_map (Multiset.monotone_filter_right _ fun _ hballot => h.trans hballot)

theorem support_mono {ballots' : Multiset (B × V)} (h : ballots ≤ ballots') (block : B) :
    blocks.support ballots block ≤ blocks.support ballots' block := by
  classical
  exact Multiset.map_le_map (Multiset.filter_le_filter _ h)

theorem mem_support {v : V} :
    v ∈ blocks.support ballots a ↔ ∃ block, (block, v) ∈ ballots ∧ blocks.Descends a block := by
  classical
  simp only [support, Multiset.mem_map, Multiset.mem_filter]
  constructor
  · rintro ⟨⟨block, _⟩, ⟨hmem, hdescends⟩, rfl⟩
    exact ⟨block, hmem, hdescends⟩
  · rintro ⟨block, hmem, hdescends⟩
    exact ⟨(block, v), ⟨hmem, hdescends⟩, rfl⟩

-- Blocks below another one that share no descendant and leave out no ballot.
structure Parts (blocks : Ancestry B) (ballots : Multiset (B × V)) (block : B) (parts : List B) :
    Prop where
  below : ∀ part ∈ parts, blocks.Descends block part
  nodup : parts.Nodup
  apart : ∀ part ∈ parts, ∀ other ∈ parts, ∀ leaf, blocks.Descends part leaf →
    blocks.Descends other leaf → part = other
  covers : ∀ ballot ∈ ballots, blocks.Descends block ballot.1 →
    ∃ part ∈ parts, blocks.Descends part ballot.1

open Classical in
theorem sum_ite_of_apart {parts : List B} (hnodup : parts.Nodup) {leaf : B} {v : V}
    (hapart : ∀ part ∈ parts, ∀ other ∈ parts, blocks.Descends part leaf →
      blocks.Descends other leaf → part = other) :
    (parts.map fun part => if blocks.Descends part leaf then ({v} : Multiset V) else 0).sum =
      if ∃ part ∈ parts, blocks.Descends part leaf then {v} else 0 := by
  induction parts with
  | nil => simp
  | cons part parts ih =>
    obtain ⟨hfirst, hnodup⟩ := List.nodup_cons.mp hnodup
    have hrest := ih hnodup fun p hp q hq =>
      hapart p (List.mem_cons_of_mem _ hp) q (List.mem_cons_of_mem _ hq)
    rw [List.map_cons, List.sum_cons, hrest]
    by_cases hpart : blocks.Descends part leaf
    · have hnone : ¬ ∃ other ∈ parts, blocks.Descends other leaf := by
        rintro ⟨other, hother, hleaf⟩
        have heq := hapart part List.mem_cons_self other (List.mem_cons_of_mem _ hother) hpart hleaf
        exact hfirst (heq ▸ hother)
      rw [if_pos hpart, if_neg hnone, if_pos ⟨part, List.mem_cons_self, hpart⟩, add_zero]
    · simp [hpart]

theorem Parts.tail {ballot : B × V} {parts : List B}
    (h : Parts blocks (ballot ::ₘ ballots) a parts) : Parts blocks ballots a parts where
  below := h.below
  nodup := h.nodup
  apart := h.apart
  covers other hother := h.covers other (Multiset.mem_cons_of_mem hother)

theorem Parts.support_eq {parts : List B} (h : Parts blocks ballots a parts) :
    blocks.support ballots a = (parts.map (blocks.support ballots)).sum := by
  classical
  induction ballots using Multiset.induction with
  | empty =>
    have hzero : blocks.support (0 : Multiset (B × V)) = fun _ => 0 := funext support_zero
    rw [hzero, List.sum_map_zero]
  | cons ballot ballots ih =>
    have hleaf : (∃ part ∈ parts, blocks.Descends part ballot.1) ↔
        blocks.Descends a ballot.1 := by
      constructor
      · rintro ⟨part, hpart, hdescends⟩
        exact (h.below part hpart).trans hdescends
      · exact h.covers ballot (Multiset.mem_cons_self _ _)
    have hcases := sum_ite_of_apart (v := ballot.2) h.nodup
      fun part hpart other hother => h.apart part hpart other hother ballot.1
    calc blocks.support (ballot ::ₘ ballots) a
        = (if blocks.Descends a ballot.1 then {ballot.2} else 0) + blocks.support ballots a :=
          support_cons ballot ballots a
      _ = (parts.map fun part => if blocks.Descends part ballot.1 then {ballot.2} else 0).sum +
            (parts.map (blocks.support ballots)).sum := by
          rw [hcases, ih h.tail, if_congr hleaf rfl rfl]
      _ = (parts.map (blocks.support (ballot ::ₘ ballots))).sum := by
          rw [← List.sum_map_add]
          exact congrArg List.sum (List.map_congr_left fun part _ =>
            (support_cons ballot ballots part).symm)

end Support

-- A block with enough support none of whose children has enough.
structure Heaviest (enough : Multiset V → Prop) (ballots : Multiset (B × V)) (block : B) :
    Prop where
  heavy : enough (blocks.support ballots block)
  best : ∀ child, blocks.parent child = some block → ¬ enough (blocks.support ballots child)

-- All blocks with enough support are on one line with this one.
def Uncontested (enough : Multiset V → Prop) (ballots : Multiset (B × V)) (block : B) : Prop :=
  ∀ other, enough (blocks.support ballots other) →
    blocks.Descends other block ∨ blocks.Descends block other

section Heaviest

variable {blocks} {enough : Multiset V → Prop} {ballots : Multiset (B × V)} {a b : B}

theorem Heaviest.eq_of_descends (hmono : Monotone enough) (h : blocks.Heaviest enough ballots a)
    (hab : blocks.Descends a b) (hb : enough (blocks.support ballots b)) : a = b := by
  by_contra hne
  obtain ⟨child, hchild, hdescends⟩ := hab.exists_child hne
  exact h.best child hchild (hmono (support_le hdescends) hb)

end Heaviest

end Yeeroot.Ancestry
