import Mathlib.Data.List.Basic

namespace Yeeroot.SortedList

variable {α κ : Type} [LE κ] (key : α → κ)

def Sorted (items : List α) : Prop := items.Pairwise fun x y => key x ≤ key y

-- What a binary search by a key promises of a sorted list: the index of an item with the
-- key, no matter which one, or an index where such an item keeps the order.
structure Searches (search : List α → κ → Except Nat Nat) : Prop where
  found : ∀ {items : List α} {k : κ} {i : Nat}, Sorted key items → search items k = .ok i →
    ∃ item, items[i]? = some item ∧ key item = k
  missing : ∀ {items : List α} {k : κ} {i : Nat}, Sorted key items → search items k = .error i →
    i ≤ items.length ∧ (∀ item ∈ items.take i, key item ≤ k) ∧ ∀ item ∈ items.drop i, k ≤ key item

def position : Except Nat Nat → Nat
  | .ok i => i
  | .error i => i

def insertBy (search : List α → κ → Except Nat Nat) (items : List α) (item : α) : List α :=
  let i := position (search items (key item))
  items.take i ++ item :: items.drop i

variable {key}

theorem sorted_insert {items : List α} {item : α} {i : Nat} (hsorted : Sorted key items)
    (hbefore : ∀ x ∈ items.take i, key x ≤ key item)
    (hafter : ∀ x ∈ items.drop i, key item ≤ key x) :
    Sorted key (items.take i ++ item :: items.drop i) := by
  have hsplit := hsorted
  rw [Sorted, ← List.take_append_drop i items, List.pairwise_append] at hsplit
  obtain ⟨htake, hdrop, hcross⟩ := hsplit
  refine List.pairwise_append.mpr ⟨htake, List.pairwise_cons.mpr ⟨hafter, hdrop⟩, ?_⟩
  intro x hx y hy
  rcases List.mem_cons.mp hy with rfl | hy
  · exact hbefore x hx
  · exact hcross x hx y hy

-- Whichever of several equal items is found, what stands before it is not above the key
-- and what stands from it on is not below.
theorem Searches.bounds [Std.IsPreorder κ] {search : List α → κ → Except Nat Nat}
    (hsearch : Searches key search) {items : List α} (hsorted : Sorted key items) (k : κ) :
    (∀ item ∈ items.take (position (search items k)), key item ≤ k) ∧
      ∀ item ∈ items.drop (position (search items k)), k ≤ key item := by
  cases hresult : search items k with
  | error i => exact (hsearch.missing hsorted hresult).2
  | ok i =>
    obtain ⟨item, hget, rfl⟩ := hsearch.found hsorted hresult
    obtain ⟨hlt, rfl⟩ := List.getElem?_eq_some_iff.mp hget
    have hsplit := hsorted
    rw [Sorted, ← List.take_append_drop i items, List.pairwise_append,
      List.drop_eq_getElem_cons hlt, List.pairwise_cons] at hsplit
    obtain ⟨_, ⟨hafter, _⟩, hcross⟩ := hsplit
    refine ⟨fun x hx => hcross x hx _ (List.mem_cons_self ..), ?_⟩
    intro x hx
    rw [position, List.drop_eq_getElem_cons hlt] at hx
    rcases List.mem_cons.mp hx with rfl | hx
    · exact Std.IsPreorder.le_refl _
    · exact hafter x hx

theorem Searches.sorted_insertBy [Std.IsPreorder κ] {search : List α → κ → Except Nat Nat}
    (hsearch : Searches key search) {items : List α} (hsorted : Sorted key items) (item : α) :
    Sorted key (insertBy key search items item) := by
  obtain ⟨hbefore, hafter⟩ := hsearch.bounds hsorted (key item)
  exact sorted_insert hsorted hbefore hafter

section Split

variable {p : α → Bool} (hdown : ∀ x y, key x ≤ key y → p y = true → p x = true)
include hdown

theorem filter_eq_nil_of_sorted {item : α} {items : List α} (hsorted : Sorted key (item :: items))
    (hfails : p item = false) : items.filter p = [] := by
  rw [List.filter_eq_nil_iff]
  intro x hx hpx
  have hle := (List.pairwise_cons.mp hsorted).1 x hx
  rw [hdown item x hle hpx] at hfails
  exact Bool.noConfusion hfails

theorem takeWhile_eq_filter {items : List α} (hsorted : Sorted key items) :
    items.takeWhile p = items.filter p := by
  induction items with
  | nil => rfl
  | cons item items ih =>
    have htail := (List.pairwise_cons.mp hsorted).2
    by_cases hp : p item = true
    · rw [List.takeWhile_cons, if_pos hp, List.filter_cons_of_pos hp, ih htail]
    · have hfails : p item = false := by simpa using hp
      rw [List.takeWhile_cons, if_neg hp, List.filter_cons_of_neg hp,
        filter_eq_nil_of_sorted hdown hsorted hfails]

theorem dropWhile_eq_filter {items : List α} (hsorted : Sorted key items) :
    items.dropWhile p = items.filter fun item => !p item := by
  induction items with
  | nil => rfl
  | cons item items ih =>
    have htail := (List.pairwise_cons.mp hsorted).2
    by_cases hp : p item = true
    · rw [List.dropWhile_cons, if_pos hp, List.filter_cons_of_neg (by simp [hp]), ih htail]
    · have hfails : p item = false := by simpa using hp
      have hrest : items.filter (fun item => !p item) = items := by
        apply List.filter_eq_self.mpr
        intro x hx
        have hnone := List.filter_eq_nil_iff.mp
          (filter_eq_nil_of_sorted hdown hsorted hfails) x hx
        simpa using hnone
      rw [List.dropWhile_cons, if_neg hp, List.filter_cons_of_pos (by simp [hfails]), hrest]

end Split

end Yeeroot.SortedList
