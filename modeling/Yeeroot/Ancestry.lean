namespace Yeeroot

-- Blocks that point to their parents, with heights that count the steps.
structure Ancestry (B : Type) where
  parent : B → Option B
  height : B → Nat
  height_parent : ∀ {block parent' : B}, parent block = some parent' →
    height block = height parent' + 1

namespace Ancestry

variable {B : Type} (blocks : Ancestry B)

-- The block is the base or has the base among its ancestors.
inductive Descends (base : B) : B → Prop where
  | refl : Descends base base
  | step {parent block : B} (above : Descends base parent)
      (child : blocks.parent block = some parent) : Descends base block

variable {blocks} {a b c : B}

theorem Descends.trans (hab : blocks.Descends a b) (hbc : blocks.Descends b c) :
    blocks.Descends a c := by
  induction hbc with
  | refl => exact hab
  | step _ child ih => exact .step ih child

theorem Descends.height_le (h : blocks.Descends a b) : blocks.height a ≤ blocks.height b := by
  induction h with
  | refl => exact Nat.le_refl _
  | step _ child ih =>
    have hheight := blocks.height_parent child
    omega

theorem Descends.eq_of_height_le (h : blocks.Descends a b)
    (hheight : blocks.height b ≤ blocks.height a) : a = b := by
  cases h with
  | refl => rfl
  | step above child =>
    have hle := above.height_le
    have hparent := blocks.height_parent child
    omega

theorem Descends.of_parent (h : blocks.Descends a c) (hne : a ≠ c)
    (hparent : blocks.parent c = some b) : blocks.Descends a b := by
  cases h with
  | refl => exact absurd rfl hne
  | step above child =>
    obtain rfl := Option.some.inj (child.symm.trans hparent)
    exact above

theorem Descends.exists_child (h : blocks.Descends a b) (hne : a ≠ b) :
    ∃ c, blocks.parent c = some a ∧ blocks.Descends c b := by
  induction h with
  | refl => exact absurd rfl hne
  | @step parent block above child ih =>
    by_cases hparent : a = parent
    · subst hparent
      exact ⟨block, child, .refl⟩
    · obtain ⟨c, hc, hpath⟩ := ih hparent
      exact ⟨c, hc, .step hpath child⟩

theorem Descends.or_descends (ha : blocks.Descends a c) (hb : blocks.Descends b c) :
    blocks.Descends a b ∨ blocks.Descends b a := by
  induction hb with
  | refl => exact .inl ha
  | @step parent block above child ih =>
    by_cases hsame : a = block
    · subst hsame
      exact .inr (.step above child)
    · exact ih (ha.of_parent hsame child)

section Decide

variable [DecidableEq B]

variable (blocks) in
def descendsWithin (base : B) : Nat → B → Bool
  | 0, block => decide (base = block)
  | steps + 1, block =>
    decide (base = block) || (blocks.parent block).any (descendsWithin base steps)

theorem descendsWithin_iff {steps : Nat} (h : blocks.height b ≤ steps) :
    blocks.descendsWithin a steps b = true ↔ blocks.Descends a b := by
  induction steps generalizing b with
  | zero =>
    rw [descendsWithin, decide_eq_true_iff]
    refine ⟨fun heq => heq ▸ .refl, fun hdescends => hdescends.eq_of_height_le (by omega)⟩
  | succ steps ih =>
    rw [descendsWithin, Bool.or_eq_true, decide_eq_true_iff, Option.any_eq_true]
    constructor
    · rintro (rfl | ⟨parent, hparent, hwithin⟩)
      · exact .refl
      · have hheight := blocks.height_parent hparent
        exact .step ((ih (by omega)).mp hwithin) hparent
    · intro hdescends
      cases hdescends with
      | refl => exact .inl rfl
      | step above child =>
        have hheight := blocks.height_parent child
        exact .inr ⟨_, child, (ih (by omega)).mpr above⟩

abbrev decidableDescends : Decidable (blocks.Descends a b) :=
  decidable_of_iff _ (descendsWithin_iff (Nat.le_refl (blocks.height b)))

end Decide

end Ancestry

end Yeeroot
