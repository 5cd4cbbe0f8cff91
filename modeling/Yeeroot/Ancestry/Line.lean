import Mathlib.Data.List.Chain
import Yeeroot.Ancestry

namespace Yeeroot.Ancestry

variable {B : Type} {blocks : Ancestry B} {a b c : B}

theorem Descends.antisymm (h : blocks.Descends a b) (h' : blocks.Descends b a) : a = b :=
  h.eq_of_height_le h'.height_le

theorem Descends.of_height_le (ha : blocks.Descends a c) (hb : blocks.Descends b c)
    (hheight : blocks.height a ≤ blocks.height b) : blocks.Descends a b := by
  induction hb with
  | refl => exact ha
  | @step parent block above child ih =>
    have hne : a ≠ block := by
      rintro rfl
      have hparent := blocks.height_parent child
      have hle := above.height_le
      omega
    exact ih (ha.of_parent hne child)

theorem Descends.comparable (ha : blocks.Descends a c) (hb : blocks.Descends b c) :
    blocks.Descends a b ∨ blocks.Descends b a := by
  rcases Nat.le_total (blocks.height a) (blocks.height b) with hle | hle
  · exact .inl (ha.of_height_le hb hle)
  · exact .inr (hb.of_height_le ha hle)

theorem Descends.height_lt (h : blocks.Descends a b) (hne : a ≠ b) :
    blocks.height a < blocks.height b := by
  by_contra hge
  exact hne (h.eq_of_height_le (by omega))

-- Each block of the list is the parent of the one before it.
def Line (blocks : Ancestry B) (list : List B) : Prop :=
  list.IsChain fun child parent => blocks.parent child = some parent

namespace Line

variable {l l' : List B} {i : Nat}

theorem tail (h : blocks.Line (a :: l)) : blocks.Line l := List.IsChain.tail h

theorem parent (h : blocks.Line (a :: b :: l)) : blocks.parent a = some b :=
  (List.isChain_cons_cons.mp h).1

theorem take (h : blocks.Line (a :: l)) (n : Nat) : blocks.Line (a :: l.take n) :=
  List.IsChain.take h (n + 1)

theorem drop (h : blocks.Line (a :: l)) (hi : l[i]? = some b) :
    blocks.Line (b :: l.drop (i + 1)) := by
  obtain ⟨hlt, rfl⟩ := List.getElem?_eq_some_iff.mp hi
  rw [← List.drop_eq_getElem_cons hlt]
  exact List.IsChain.drop h.tail i

theorem descends (h : blocks.Line (a :: l)) (hb : b ∈ l) : blocks.Descends b a := by
  induction l generalizing a with
  | nil => cases hb
  | cons c l ih =>
    rcases List.mem_cons.mp hb with rfl | hb
    · exact .step .refl h.parent
    · exact .step (ih h.tail hb) h.parent

theorem height_getElem (h : blocks.Line (a :: l)) (hi : l[i]? = some b) :
    blocks.height b + i + 1 = blocks.height a := by
  induction l generalizing a i with
  | nil => simp at hi
  | cons c l ih =>
    have hparent := blocks.height_parent h.parent
    cases i with
    | zero =>
      obtain rfl := Option.some.inj hi
      omega
    | succ i =>
      have hrest := ih h.tail hi
      omega

theorem height_lt (h : blocks.Line (a :: l)) (hb : b ∈ l) : blocks.height b < blocks.height a := by
  obtain ⟨i, hi⟩ := List.mem_iff_getElem?.mp hb
  have hheight := h.height_getElem hi
  omega

theorem height_last (h : blocks.Line (a :: l)) (hb : l.getLast? = some b) :
    blocks.height b + l.length = blocks.height a := by
  rw [List.getLast?_eq_getElem?] at hb
  have hlt := (List.getElem?_eq_some_iff.mp hb).1
  have hheight := h.height_getElem hb
  omega

theorem getElem_of_mem (h : blocks.Line (a :: l)) (hb : b ∈ l) :
    l[blocks.height a - blocks.height b - 1]? = some b := by
  obtain ⟨i, hi⟩ := List.mem_iff_getElem?.mp hb
  have hheight := h.height_getElem hi
  rwa [show blocks.height a - blocks.height b - 1 = i by omega]

theorem mem_of_descends (h : blocks.Line (a :: l)) (hc : l.getLast? = some c)
    (hcb : blocks.Descends c b) (hba : blocks.Descends b a) : b = a ∨ b ∈ l := by
  induction l generalizing a with
  | nil => cases hc
  | cons d l ih =>
    by_cases hne : b = a
    · exact .inl hne
    · have hbd := hba.of_parent hne h.parent
      refine .inr ?_
      cases l with
      | nil =>
        obtain rfl := Option.some.inj hc
        exact List.mem_singleton.mpr (hbd.antisymm hcb)
      | cons e l =>
        rw [List.getLast?_cons_cons] at hc
        exact List.mem_cons.mpr (ih h.tail hc hbd)

end Line

-- Each block of the list is a child of the one before it.
def Path (blocks : Ancestry B) (list : List B) : Prop :=
  list.IsChain fun parent child => blocks.parent child = some parent

namespace Path

variable {l : List B} {i : Nat}

theorem tail (h : blocks.Path (a :: l)) : blocks.Path l := List.IsChain.tail h

theorem parent (h : blocks.Path (a :: b :: l)) : blocks.parent b = some a :=
  (List.isChain_cons_cons.mp h).1

theorem descends (h : blocks.Path (a :: l)) (hb : b ∈ l) : blocks.Descends a b := by
  induction l generalizing a with
  | nil => cases hb
  | cons c l ih =>
    have hac : blocks.Descends a c := .step .refl h.parent
    rcases List.mem_cons.mp hb with rfl | hb
    · exact hac
    · exact hac.trans (ih h.tail hb)

theorem height_getElem (h : blocks.Path (a :: l)) (hi : (a :: l)[i]? = some b) :
    blocks.height b = blocks.height a + i := by
  induction l generalizing a i with
  | nil =>
    obtain ⟨hlt, rfl⟩ := List.getElem?_eq_some_iff.mp hi
    simp at hlt
    simp [hlt]
  | cons c l ih =>
    have hparent := blocks.height_parent h.parent
    cases i with
    | zero =>
      obtain rfl := Option.some.inj hi
      rfl
    | succ i =>
      have hrest := ih h.tail hi
      omega

theorem height_last (h : blocks.Path (a :: l)) (hc : (a :: l).getLast? = some c) :
    blocks.height c = blocks.height a + l.length := by
  rw [List.getLast?_eq_getElem?] at hc
  have hheight := h.height_getElem hc
  simpa using hheight

theorem mem_of_descends (h : blocks.Path (a :: l)) (hc : (a :: l).getLast? = some c)
    (hab : blocks.Descends a b) (hbc : blocks.Descends b c) : b ∈ a :: l := by
  induction l generalizing a with
  | nil =>
    obtain rfl := Option.some.inj hc
    exact List.mem_singleton.mpr (hbc.antisymm hab)
  | cons d l ih =>
    by_cases hne : a = b
    · exact hne ▸ List.mem_cons_self
    · have hdc : blocks.Descends d c := by
        rw [List.getLast?_cons_cons] at hc
        rcases List.mem_cons.mp (List.mem_of_getLast? hc) with rfl | hmem
        · exact .refl
        · exact h.tail.descends hmem
      have hlt := hab.height_lt hne
      have hparent := blocks.height_parent h.parent
      rw [List.getLast?_cons_cons] at hc
      exact List.mem_cons_of_mem _ (ih h.tail hc (hdc.of_height_le hbc (by omega)))

end Path

end Yeeroot.Ancestry
