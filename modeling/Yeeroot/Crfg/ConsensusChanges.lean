import Yeeroot.Crfg.BlockImport

namespace Yeeroot.Crfg

open Scale SortedList

namespace ConsensusChanges

def empty : ConsensusChanges := ⟨[]⟩

inductive Operation where
  | noteChange (change : UInt64 × H256)
  | finalize (block : UInt64 × H256)
      (canonicalAtHeight : UInt64 → Except ClientError (Option H256))

def operate (search : Search) (changes : ConsensusChanges) : Operation → ConsensusChanges
  | .noteChange change => changes.noteChange search change
  | .finalize block canonicalAtHeight => (changes.finalize block canonicalAtHeight).1

def run (search : Search) (operations : List Operation) : ConsensusChanges :=
  operations.foldl (operate search) empty

section FirstOf

-- The search that finds the first change of a height.
def firstOf : Search := fun changes height =>
  let i := changes.findIdx fun change => !decide (change.1 < height)
  match changes[i]? with
  | some change => if change.1 = height then .ok i else .error i
  | none => .error i

theorem position_firstOf (changes : List (UInt64 × H256)) (height : UInt64) :
    position (firstOf changes height) =
      changes.findIdx fun change => !decide (change.1 < height) := by
  simp only [firstOf]
  split
  · split_ifs <;> rfl
  · rfl

theorem below_down (height : UInt64) (x y : UInt64 × H256) (hle : x.1 ≤ y.1)
    (hbelow : decide (y.1 < height) = true) : decide (x.1 < height) = true := by
  simp only [decide_eq_true_eq, UInt64.lt_iff_toNat_lt, UInt64.le_iff_toNat_le] at *
  omega

theorem searches_firstOf : Searches Prod.fst firstOf where
  found := by
    intro changes height i hsorted h
    simp only [firstOf] at h
    split at h
    · next change hget =>
        split_ifs at h with heq
        obtain rfl := Except.ok.inj h
        exact ⟨change, hget, heq⟩
    · simp at h
  missing := by
    intro changes height i hsorted h
    have hposition := position_firstOf changes height
    rw [h, position] at hposition
    subst hposition
    rw [← List.takeWhile_eq_take_findIdx_not, ← List.dropWhile_eq_drop_findIdx_not,
      takeWhile_eq_filter (below_down height) hsorted,
      dropWhile_eq_filter (below_down height) hsorted]
    refine ⟨List.findIdx_le_length, ?_, ?_⟩
    · intro change hmem
      have hbelow := (List.mem_filter.mp hmem).2
      exact UInt64.le_of_lt (of_decide_eq_true hbelow)
    · intro change hmem
      have hnot := (List.mem_filter.mp hmem).2
      exact UInt64.not_lt.mp (by simpa using hnot)

end FirstOf

section Finalize

variable {changes : ConsensusChanges} (block : UInt64 × H256)
variable (canonicalAtHeight : UInt64 → Except ClientError (Option H256))

def due (changes : ConsensusChanges) (block : UInt64 × H256) : List (UInt64 × H256) :=
  changes.pendingChanges.filter fun change => change.1 ≤ block.1

def Canonical (canonicalAtHeight : UInt64 → Except ClientError (Option H256))
    (change : UInt64 × H256) : Prop :=
  canonicalAtHeight change.1 = .ok (some change.2)

theorem due_down (height : UInt64) (x y : UInt64 × H256) (hle : x.1 ≤ y.1)
    (hdue : decide (y.1 ≤ height) = true) : decide (x.1 ≤ height) = true :=
  decide_eq_true (UInt64.le_trans hle (of_decide_eq_true hdue))

theorem pendingChanges_finalize (hsorted : Sorted Prod.fst changes.pendingChanges) :
    (changes.finalize block canonicalAtHeight).1.pendingChanges =
      changes.pendingChanges.filter fun change => block.1 < change.1 := by
  simp only [finalize, List.span_eq_takeWhile_dropWhile,
    dropWhile_eq_filter (due_down block.1) hsorted]
  apply List.filter_congr
  intro change _
  rw [Bool.eq_iff_iff]
  simp [UInt64.not_le]

def lookFor (has : Except ClientError Bool) (changes : List (UInt64 × H256)) :
    Except ClientError Bool :=
  changes.foldl (fun has change => do
    if ← has then return true
    else return decide (some change.2 = (← canonicalAtHeight change.1))) has

theorem finalize_snd (hsorted : Sorted Prod.fst changes.pendingChanges) :
    (changes.finalize block canonicalAtHeight).2 =
      (lookFor canonicalAtHeight (.ok false) (changes.due block)).map
        fun has => (!(changes.due block).isEmpty, has) := by
  simp only [finalize, List.span_eq_takeWhile_dropWhile,
    takeWhile_eq_filter (due_down block.1) hsorted]
  rfl

theorem lookFor_error (changes : List (UInt64 × H256)) (error : ClientError) :
    lookFor canonicalAtHeight (.error error) changes = .error error := by
  induction changes with
  | nil => rfl
  | cons change changes ih => exact ih

theorem lookFor_true (changes : List (UInt64 × H256)) :
    lookFor canonicalAtHeight (.ok true) changes = .ok true := by
  induction changes with
  | nil => rfl
  | cons change changes ih => exact ih

theorem lookFor_cons (change : UInt64 × H256) (changes : List (UInt64 × H256)) :
    lookFor canonicalAtHeight (.ok false) (change :: changes) =
      lookFor canonicalAtHeight
        ((canonicalAtHeight change.1).map fun hash => decide (some change.2 = hash)) changes := by
  cases hlookup : canonicalAtHeight change.1 <;>
    simp only [lookFor, List.foldl_cons, bind, Except.bind, hlookup] <;> rfl

-- What the fold returns says whether a canonical change was among those looked at; the
-- lookups after the first canonical one are not made.
theorem lookFor_eq_ok {changes : List (UInt64 × H256)} {has : Bool}
    (h : lookFor canonicalAtHeight (.ok false) changes = .ok has) :
    has = true ↔ ∃ change ∈ changes, Canonical canonicalAtHeight change := by
  induction changes with
  | nil =>
    obtain rfl := Except.ok.inj h
    simp
  | cons change changes ih =>
    rw [lookFor_cons] at h
    cases hlookup : canonicalAtHeight change.1 with
    | error error =>
      rw [hlookup, Except.map, lookFor_error] at h
      simp at h
    | ok hash =>
      rw [hlookup, Except.map] at h
      by_cases hsame : some change.2 = hash
      · subst hsame
        rw [decide_eq_true rfl, lookFor_true] at h
        obtain rfl := Except.ok.inj h
        exact iff_of_true rfl ⟨change, List.mem_cons_self .., hlookup⟩
      · rw [decide_eq_false hsame] at h
        have hnot : ¬ Canonical canonicalAtHeight change := by
          intro hcanonical
          rw [Canonical, hlookup, Except.ok.injEq] at hcanonical
          exact hsame hcanonical.symm
        simp [ih h, hnot]

theorem lookFor_returns {changes : List (UInt64 × H256)}
    (h : ∀ change ∈ changes, ∃ hash, canonicalAtHeight change.1 = .ok hash) :
    ∃ has, lookFor canonicalAtHeight (.ok false) changes = .ok has := by
  induction changes with
  | nil => exact ⟨false, rfl⟩
  | cons change changes ih =>
    obtain ⟨hash, hlookup⟩ := h change (List.mem_cons_self ..)
    rw [lookFor_cons, hlookup, Except.map]
    by_cases hsame : some change.2 = hash
    · rw [decide_eq_true hsame]
      exact ⟨true, lookFor_true canonicalAtHeight changes⟩
    · rw [decide_eq_false hsame]
      exact ih fun change hmem => h change (List.mem_cons_of_mem _ hmem)

end Finalize

section Run

variable {search : Search} (hsearch : Searches Prod.fst search)
include hsearch

theorem sorted_operate {changes : ConsensusChanges}
    (hsorted : Sorted Prod.fst changes.pendingChanges) (operation : Operation) :
    Sorted Prod.fst (changes.operate search operation).pendingChanges := by
  cases operation with
  | noteChange change => exact hsearch.sorted_insertBy hsorted change
  | finalize block canonicalAtHeight =>
    rw [operate, pendingChanges_finalize block canonicalAtHeight hsorted]
    exact List.Pairwise.filter _ hsorted

theorem sorted_foldl {changes : ConsensusChanges}
    (hsorted : Sorted Prod.fst changes.pendingChanges) (operations : List Operation) :
    Sorted Prod.fst (operations.foldl (operate search) changes).pendingChanges := by
  induction operations generalizing changes with
  | nil => exact hsorted
  | cons operation operations ih => exact ih (sorted_operate hsearch hsorted operation)

theorem sorted_run (operations : List Operation) :
    Sorted Prod.fst (run search operations).pendingChanges :=
  sorted_foldl hsearch List.Pairwise.nil operations

-- In every state that is reached: the list is sorted by height, a finalized block takes off
-- exactly the changes up to its height, and what is reported is whether one of them is
-- canonical. No lookup has to succeed after that of the first canonical change.
theorem changes_tracked (operations : List Operation) :
    Sorted Prod.fst (run search operations).pendingChanges ∧
    ∀ (block : UInt64 × H256) (canonicalAtHeight : UInt64 → Except ClientError (Option H256)),
      ((run search operations).finalize block canonicalAtHeight).1.pendingChanges =
        (run search operations).pendingChanges.filter (fun change => block.1 < change.1) ∧
      (∀ alters finalizes, ((run search operations).finalize block canonicalAtHeight).2 =
          .ok (alters, finalizes) →
        (alters = true ↔ ∃ change ∈ (run search operations).pendingChanges,
          change.1 ≤ block.1) ∧
        (finalizes = true ↔ ∃ change ∈ (run search operations).pendingChanges,
          change.1 ≤ block.1 ∧ canonicalAtHeight change.1 = .ok (some change.2))) ∧
      ((∀ change ∈ (run search operations).pendingChanges, change.1 ≤ block.1 →
          ∃ hash, canonicalAtHeight change.1 = .ok hash) →
        ∃ alters finalizes, ((run search operations).finalize block canonicalAtHeight).2 =
          .ok (alters, finalizes)) := by
  have hsorted := sorted_run hsearch operations
  refine ⟨hsorted, fun block canonicalAtHeight =>
    ⟨pendingChanges_finalize block canonicalAtHeight hsorted, ?_, ?_⟩⟩
  · intro alters finalizes h
    rw [finalize_snd block canonicalAtHeight hsorted] at h
    cases hlook : lookFor canonicalAtHeight (.ok false) ((run search operations).due block) with
    | error error => simp [hlook, Except.map] at h
    | ok has =>
      rw [hlook, Except.map, Except.ok.injEq, Prod.mk.injEq] at h
      obtain ⟨rfl, rfl⟩ := h
      refine ⟨?_, ?_⟩
      · simp [due]
      · rw [lookFor_eq_ok canonicalAtHeight hlook]
        simp only [due, List.mem_filter, decide_eq_true_eq, and_assoc, Canonical]
  · intro hlookups
    have hfound : ∀ change ∈ (run search operations).due block,
        ∃ hash, canonicalAtHeight change.1 = .ok hash := by
      intro change hmem
      obtain ⟨hin, hdue⟩ := List.mem_filter.mp hmem
      exact hlookups change hin (of_decide_eq_true hdue)
    obtain ⟨has, hlook⟩ := lookFor_returns canonicalAtHeight hfound
    rw [finalize_snd block canonicalAtHeight hsorted, hlook]
    exact ⟨_, _, rfl⟩

end Run

-- Two changes of one height around a lower one; the block that is finalized at their height
-- made one of them.
def twinChanges : List Operation :=
  [.noteChange (5, filled 32 1), .noteChange (3, filled 32 2), .noteChange (5, filled 32 3)]

theorem changes_tracked_twins :
    (run firstOf twinChanges).pendingChanges =
      [(3, filled 32 2), (5, filled 32 3), (5, filled 32 1)] ∧
    Sorted Prod.fst (run firstOf twinChanges).pendingChanges ∧
    ((run firstOf twinChanges).finalize (4, filled 32 9) fun _ => .ok (some (filled 32 1))).1 =
      ⟨[(5, filled 32 3), (5, filled 32 1)]⟩ ∧
    ((run firstOf twinChanges).finalize (5, filled 32 1) fun _ => .ok (some (filled 32 1))).2 =
      .ok (true, true) := by
  obtain ⟨hsorted, hfinalize⟩ := changes_tracked searches_firstOf twinChanges
  obtain ⟨_, hreports, hreturns⟩ := hfinalize (5, filled 32 1) fun _ => .ok (some (filled 32 1))
  obtain ⟨alters, finalizes, hresult⟩ := hreturns fun _ _ _ => ⟨_, rfl⟩
  obtain ⟨halters, hfinalizes⟩ := hreports alters finalizes hresult
  have hlast : ((5, filled 32 1) : UInt64 × H256) ∈ (run firstOf twinChanges).pendingChanges := by
    decide +kernel
  refine ⟨by decide +kernel, hsorted, by decide +kernel, ?_⟩
  rw [hresult, halters.mpr ⟨_, hlast, by decide⟩, hfinalizes.mpr ⟨_, hlast, by decide, rfl⟩]

end ConsensusChanges

end Yeeroot.Crfg
