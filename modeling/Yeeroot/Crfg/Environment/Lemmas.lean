import Yeeroot.Crfg.Environment
import Yeeroot.Primitives.Lemmas

namespace Yeeroot.Crfg

open Scale Grandpa

namespace FinalizeM

variable {τ α β : Type}

theorem bind_eq_ok (first : FinalizeM τ α) (next : α → FinalizeM τ β) (before after : Finalizing τ)
    (result : β) :
    (first >>= next).run.run before = .ok (.ok result, after) ↔
      ∃ value state, first.run.run before = .ok (.ok value, state) ∧
        (next value).run.run state = .ok (.ok result, after) := by
  rw [ExceptT.run_bind, StateT.run_bind, Run.bind_eq_ok]
  constructor
  · intro h
    obtain ⟨⟨value, state⟩, hfirst, hnext⟩ := h
    cases value with
    | error error =>
      have hnext' := (Run.pure_eq_ok _ _).mp hnext
      simp at hnext'
    | ok value => exact ⟨value, state, hfirst, hnext⟩
  · intro h
    obtain ⟨value, state, hfirst, hnext⟩ := h
    exact ⟨(.ok value, state), hfirst, hnext⟩

theorem pure_eq_ok (value result : α) (before after : Finalizing τ) :
    (pure value : FinalizeM τ α).run.run before = .ok (.ok result, after) ↔
      result = value ∧ after = before := by
  rw [ExceptT.run_pure, StateT.run_pure, Run.pure_eq_ok, Prod.mk.injEq, Except.ok.injEq]

theorem get_bind (next : Finalizing τ → FinalizeM τ β) (before : Finalizing τ) :
    (get >>= next).run.run before = (next before).run.run before := rfl

theorem modify_bind (update : Finalizing τ → Finalizing τ) (next : PUnit → FinalizeM τ β)
    (before : Finalizing τ) :
    (modify update >>= next).run.run before = (next ⟨⟩).run.run (update before) := rfl

theorem throw_ne_ok (error : Error) (before after : Finalizing τ) (result : α) :
    (throw error : FinalizeM τ α).run.run before ≠ .ok (.ok result, after) := by
  have hrun : (throw error : FinalizeM τ α).run.run before = .ok (.error error, before) := rfl
  rw [hrun]
  simp

theorem orClientError_eq_ok (value : Except ClientError α) (result : α)
    (before after : Finalizing τ) :
    (orClientError value : FinalizeM τ α).run.run before = .ok (.ok result, after) ↔
      value = .ok result ∧ after = before := by
  cases value with
  | error error =>
    refine iff_of_false (throw_ne_ok _ _ _ _) ?_
    intro hcase
    obtain ⟨h, _⟩ := hcase
    cases h
  | ok value =>
    rw [Except.ok.injEq, eq_comm (a := value)]
    exact pure_eq_ok value result before after

end FinalizeM

variable {κ ι τ Hd : Type} (env : Env κ ι τ Hd)

theorem applySetChanges_eq_ok (client : κ) (hash : H256) (number : UInt64) (status : Status)
    (before after : Finalizing τ) :
    (applySetChanges env client hash number).run.run before = .ok (.ok status, after) ↔
      ∃ set, before.authoritySet.applyStandardChanges env.tree hash number
          (isDescendentOf env client none) = .ok (status, set) ∧
        after = { before with authoritySet := set } := by
  rw [applySetChanges, FinalizeM.get_bind]
  cases happly : before.authoritySet.applyStandardChanges env.tree hash number
      (isDescendentOf env client none) with
  | error message =>
    refine iff_of_false (FinalizeM.throw_ne_ok _ _ _ _) ?_
    intro hcase
    obtain ⟨_, h, _⟩ := hcase
    cases h
  | ok changed =>
    simp only [FinalizeM.modify_bind, FinalizeM.pure_eq_ok, Except.ok.injEq]
    constructor
    · intro hcase
      obtain ⟨rfl, rfl⟩ := hcase
      exact ⟨changed.2, rfl, rfl⟩
    · intro hcase
      obtain ⟨set, rfl, rfl⟩ := hcase
      exact ⟨rfl, rfl⟩

def finalizedChanges (client : κ) (hash : H256) (number : UInt64) (changes : ConsensusChanges) :
    ConsensusChanges × Except ClientError (Bool × Bool) :=
  changes.finalize (number, hash) (canonicalAtHeight env client (hash, number) true)

def Finalizing.track (state : Finalizing τ) (changes : ConsensusChanges) (alters : Bool) :
    Finalizing τ :=
  { state with
    consensusChanges := changes
    oldConsensusChanges := if alters then some changes else state.oldConsensusChanges }

theorem finalizeChanges_eq_ok (client : κ) (hash : H256) (number : UInt64) (op op' : ι)
    (finalizes : Bool) {before after : Finalizing τ} {changes : ConsensusChanges}
    {finalized : Except ClientError (Bool × Bool)}
    (hchanges : finalizedChanges env client hash number before.consensusChanges =
      (changes, finalized)) :
    (finalizeChanges env client hash number op).run.run before =
        .ok (.ok (finalizes, op'), after) ↔
      ∃ alters, finalized = .ok (alters, finalizes) ∧
        (if alters then env.client.applyAux client op [.consensusChanges changes]
          else .ok op) = .ok op' ∧
        after = before.track changes alters := by
  unfold finalizedChanges at hchanges
  rw [finalizeChanges, FinalizeM.get_bind]
  simp only [hchanges, FinalizeM.modify_bind, FinalizeM.bind_eq_ok, FinalizeM.orClientError_eq_ok]
  constructor
  · intro hcase
    obtain ⟨⟨alters, has⟩, _, ⟨rfl, rfl⟩, h⟩ := hcase
    cases alters with
    | false =>
      simp only [Bool.false_eq_true, if_false, FinalizeM.pure_eq_ok, Prod.mk.injEq] at h
      obtain ⟨⟨rfl, rfl⟩, rfl⟩ := h
      exact ⟨false, rfl, rfl, rfl⟩
    | true =>
      simp only [if_true, FinalizeM.modify_bind, FinalizeM.bind_eq_ok,
        FinalizeM.orClientError_eq_ok, FinalizeM.pure_eq_ok, Prod.mk.injEq] at h
      obtain ⟨_, _, ⟨haux, rfl⟩, ⟨rfl, rfl⟩, rfl⟩ := h
      exact ⟨true, rfl, haux, rfl⟩
  · intro hcase
    obtain ⟨alters, rfl, haux, rfl⟩ := hcase
    refine ⟨(alters, finalizes), _, ⟨rfl, rfl⟩, ?_⟩
    cases alters with
    | false =>
      rw [if_neg (by simp), Except.ok.injEq] at haux
      subst haux
      rfl
    | true =>
      simp only [if_true, FinalizeM.modify_bind, FinalizeM.bind_eq_ok,
        FinalizeM.orClientError_eq_ok] at haux ⊢
      exact ⟨op', _, ⟨haux, rfl⟩, rfl⟩

-- The steps of an operation that finalizes a block with a justification: none of them asks
-- which block the justification is for.
structure Finalizes (client : κ) (before : Finalizing τ) (hash : H256) (number : UInt64)
    (justification : Bytes) (op op' : ι) (status : Status) (set : AuthoritySet τ)
    (alters : Bool) : Prop where
  applied : before.authoritySet.applyStandardChanges env.tree hash number
    (isDescendentOf env client none) = .ok (status, set)
  written : ∃ finalizes tracked final,
    (finalizedChanges env client hash number before.consensusChanges).2 =
      .ok (alters, finalizes) ∧
    (if alters then env.client.applyAux client op [.consensusChanges
        (finalizedChanges env client hash number before.consensusChanges).1]
      else .ok op) = .ok tracked ∧
    env.client.applyFinality client tracked hash (some justification) = .ok final ∧
    (if status.changed then env.client.applyAux client final
        (authoritySetWrites set (newAuthorities status set))
      else .ok final) = .ok op'

theorem finalizeOperation_eq_ok (client : κ) (period : Option UInt64) (hash : H256)
    (number : UInt64) (just : CrfgJustification Hd) (op op' : ι) (command : Option VoterCommand)
    (before after : Finalizing τ) :
    (finalizeOperation env client period hash number (.justification just) op).run.run before =
        .ok (.ok (command, op'), after) ↔
      ∃ status set alters,
        Finalizes env client before hash number (just.encode env.host) op op' status set alters ∧
        command = (newAuthorities status set).map .changeAuthorities ∧
        after = { before with authoritySet := set }.track
          (finalizedChanges env client hash number before.consensusChanges).1 alters := by
  simp only [finalizeOperation, justificationFor, FinalizeM.bind_eq_ok, FinalizeM.get_bind,
    applySetChanges_eq_ok, FinalizeM.orClientError_eq_ok, FinalizeM.pure_eq_ok]
  constructor
  · intro hcase
    obtain ⟨status, _, ⟨set, hset, rfl⟩, ⟨finalizes, tracked⟩, _, hchanges, _, _,
      ⟨rfl, rfl⟩, final, _, ⟨hfinal, rfl⟩, h⟩ := hcase
    obtain ⟨alters, halters, htracked, rfl⟩ := (finalizeChanges_eq_ok env _ _ _ _ _ _ rfl).mp
      hchanges
    cases hchanged : status.changed with
    | false =>
      simp only [hchanged, Bool.false_eq_true, if_false, FinalizeM.pure_eq_ok, Prod.mk.injEq] at h
      obtain ⟨⟨rfl, rfl⟩, rfl⟩ := h
      refine ⟨status, set, alters, ⟨hset, finalizes, tracked, op', halters, htracked, hfinal, ?_⟩,
        rfl, rfl⟩
      rw [if_neg (by simp [hchanged])]
    | true =>
      simp only [hchanged, if_true, FinalizeM.bind_eq_ok, FinalizeM.orClientError_eq_ok,
        FinalizeM.pure_eq_ok, Prod.mk.injEq] at h
      obtain ⟨_, _, ⟨hwritten, rfl⟩, ⟨rfl, rfl⟩, rfl⟩ := h
      refine ⟨status, set, alters, ⟨hset, finalizes, tracked, final, halters, htracked, hfinal,
        ?_⟩, rfl, rfl⟩
      rw [if_pos hchanged]
      exact hwritten
  · intro hcase
    obtain ⟨status, set, alters, ⟨hset, finalizes, tracked, final, halters, htracked, hfinal,
      hwritten⟩, rfl, rfl⟩ := hcase
    refine ⟨status, _, ⟨set, hset, rfl⟩, (finalizes, tracked), _,
      (finalizeChanges_eq_ok env _ _ _ _ _ _ rfl).mpr ⟨alters, halters, htracked, rfl⟩,
      _, _, ⟨rfl, rfl⟩, final, _, ⟨hfinal, rfl⟩, ?_⟩
    cases hchanged : status.changed with
    | false =>
      rw [if_neg (by simp [hchanged]), Except.ok.injEq] at hwritten
      subst hwritten
      rw [if_neg (by simp), FinalizeM.pure_eq_ok]
      exact ⟨rfl, rfl⟩
    | true =>
      rw [if_pos hchanged] at hwritten
      rw [if_pos rfl, FinalizeM.bind_eq_ok]
      exact ⟨op', _, (FinalizeM.orClientError_eq_ok ..).mpr ⟨hwritten, rfl⟩, rfl⟩

end Yeeroot.Crfg
