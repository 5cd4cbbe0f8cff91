namespace Yeeroot.Transition

variable {S L O : Type}

-- Runs of a labelled step relation that emits outputs. Every label taken meets
-- the guard in the state it is taken from.
inductive Reaches (step : S → L → S → List O → Prop) (guard : S → L → Prop) :
    S → List O → S → Prop where
  | refl (s : S) : Reaches step guard s [] s
  | tail {s s' s'' : S} {l : L} {outs out : List O} (run : Reaches step guard s outs s')
      (allowed : guard s' l) (taken : step s' l s'' out) : Reaches step guard s (outs ++ out) s''

theorem Reaches.invariant {step : S → L → S → List O → Prop} {guard : S → L → Prop}
    {s s' : S} {outs : List O} (h : Reaches step guard s outs s') (inv : List O → S → Prop)
    (hinit : inv [] s)
    (hstep : ∀ outs s' l s'' out, inv outs s' → guard s' l → step s' l s'' out →
      inv (outs ++ out) s'') :
    inv outs s' := by
  induction h with
  | refl => exact hinit
  | tail _ allowed taken ih => exact hstep _ _ _ _ _ ih allowed taken

end Yeeroot.Transition
