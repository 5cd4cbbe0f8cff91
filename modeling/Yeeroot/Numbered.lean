import Mathlib.Data.List.Range

namespace Yeeroot

variable {α : Type}

-- A list whose keys count up by one.
def Numbered (key : α → Nat) (first : Nat) (l : List α) : Prop :=
  l.map key = List.range' first l.length

namespace Numbered

variable {key : α → Nat} {first : Nat} {x : α} {l l' : List α}

theorem nil (key : α → Nat) (first : Nat) : Numbered key first [] := rfl

theorem cons_iff : Numbered key first (x :: l) ↔ key x = first ∧ Numbered key (first + 1) l := by
  simp [Numbered, List.range'_succ]

theorem append_iff : Numbered key first (l ++ l') ↔
    Numbered key first l ∧ Numbered key (first + l.length) l' := by
  induction l generalizing first with
  | nil => simp [nil]
  | cons x l ih =>
    rw [List.cons_append, cons_iff, cons_iff, ih, and_assoc, List.length_cons,
      Nat.add_assoc, Nat.add_comm 1]

theorem concat (h : Numbered key first l) (hx : key x = first + l.length) :
    Numbered key first (l ++ [x]) :=
  append_iff.mpr ⟨h, cons_iff.mpr ⟨hx, nil _ _⟩⟩

theorem le_key (h : Numbered key first l) (hx : x ∈ l) : first ≤ key x ∧ key x < first + l.length := by
  have hmem : key x ∈ List.range' first l.length := h ▸ List.mem_map_of_mem hx
  exact List.mem_range'_1.mp hmem

theorem take_drop (h : Numbered key first l) {n : Nat} (hn : n ≤ l.length) :
    Numbered key first (l.take n) ∧ Numbered key (first + n) (l.drop n) := by
  rw [← List.take_append_drop n l, append_iff, List.length_take_of_le hn] at h
  exact h

theorem key_le_iff (h : Numbered key first l) (bound : Nat) :
    (∀ x ∈ l.take (bound + 1 - first), key x ≤ bound) ∧
      ∀ x ∈ l.drop (bound + 1 - first), ¬ key x ≤ bound := by
  by_cases hlen : bound + 1 - first ≤ l.length
  · obtain ⟨htake, hdrop⟩ := h.take_drop hlen
    refine ⟨fun x hx => ?_, fun x hx => ?_⟩
    · have hkey := htake.le_key hx
      rw [List.length_take_of_le hlen] at hkey
      omega
    · have hkey := hdrop.le_key hx
      omega
  · refine ⟨fun x hx => ?_, fun x hx => ?_⟩
    · have hkey := h.le_key (List.mem_of_mem_take hx)
      omega
    · rw [List.drop_eq_nil_of_le (by omega)] at hx
      cases hx

theorem filter_le (h : Numbered key first l) (bound : Nat) :
    l.filter (fun x => decide (key x ≤ bound)) = l.take (bound + 1 - first) := by
  obtain ⟨hlow, hhigh⟩ := h.key_le_iff bound
  nth_rewrite 1 [← List.take_append_drop (bound + 1 - first) l]
  rw [List.filter_append, List.filter_eq_self.mpr (by simpa using hlow),
    List.filter_eq_nil_iff.mpr (by simpa using hhigh), List.append_nil]

theorem filter_not_le (h : Numbered key first l) (bound : Nat) :
    l.filter (fun x => !decide (key x ≤ bound)) = l.drop (bound + 1 - first) := by
  obtain ⟨hlow, hhigh⟩ := h.key_le_iff bound
  nth_rewrite 1 [← List.take_append_drop (bound + 1 - first) l]
  rw [List.filter_append, List.filter_eq_nil_iff.mpr (by simpa using hlow),
    List.filter_eq_self.mpr (by simpa using hhigh), List.nil_append]

theorem filter_eq (h : Numbered key first l) {k : Nat} (hk : first ≤ k) :
    l.filter (fun x => decide (key x = k)) = l[k - first]?.toList := by
  induction l generalizing first with
  | nil => simp
  | cons x l ih =>
    obtain ⟨hkey, hrest⟩ := cons_iff.mp h
    by_cases hfirst : first = k
    · have hnone : l.filter (fun x => decide (key x = k)) = [] := by
        rw [List.filter_eq_nil_iff]
        intro y hy
        have hlow := (hrest.le_key hy).1
        simp only [decide_eq_true_eq]
        omega
      simp [hkey, hfirst, hnone]
    · have hnext : first + 1 ≤ k := by omega
      have hindex : k - first = k - (first + 1) + 1 := by omega
      rw [List.filter_cons, ih hrest hnext, hkey, hindex]
      simp [hfirst]

end Numbered

end Yeeroot
