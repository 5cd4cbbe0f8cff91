import Mathlib.Data.List.Infix
import Yeeroot.Ancestry.Line

namespace Yeeroot.Ancestry

variable {α : Type}

-- The tree whose blocks are the ways to them, the last step first.
def paths (α : Type) : Ancestry (List α) where
  parent := List.tail?
  height := List.length
  height_parent := by
    intro block parent' h
    cases block with
    | nil => cases h
    | cons step rest =>
      obtain rfl := Option.some.inj h
      rfl

theorem paths_descends_iff {a b : List α} : (paths α).Descends a b ↔ a <:+ b := by
  constructor
  · intro h
    induction h with
    | refl => exact List.suffix_refl a
    | @step parent block above child ih =>
      cases block with
      | nil => cases child
      | cons step rest =>
        obtain rfl := Option.some.inj child
        exact ih.trans (List.suffix_cons step rest)
  · intro h
    induction b with
    | nil =>
      obtain rfl := List.suffix_nil.mp h
      exact .refl
    | cons step rest ih =>
      rcases List.suffix_cons_iff.mp h with rfl | hrest
      · exact .refl
      · exact .step (ih hrest) rfl

instance [DecidableEq α] (a b : List α) : Decidable ((paths α).Descends a b) :=
  decidable_of_iff _ paths_descends_iff.symm

-- What lies between two blocks, from the lower one back.
def between [DecidableEq α] (base : List α) : List α → List (List α)
  | [] => []
  | _ :: rest => if rest = base then [] else rest :: between base rest

theorem line_between [DecidableEq α] {base block : List α} (h : base <:+ block)
    (hne : block ≠ base) : (paths α).Line (block :: (between base block ++ [base])) := by
  induction block with
  | nil => exact absurd (List.suffix_nil.mp h).symm hne
  | cons step rest ih =>
    have hrest := (List.suffix_cons_iff.mp h).resolve_left (Ne.symm hne)
    rw [between]
    split_ifs with hbase
    · subst hbase
      exact List.isChain_cons_cons.mpr ⟨rfl, List.isChain_singleton _⟩
    · exact List.isChain_cons_cons.mpr ⟨rfl, ih hrest hbase⟩

end Yeeroot.Ancestry
