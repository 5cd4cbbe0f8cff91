import Yeeroot.Crfg.Import.Theorems

namespace Yeeroot.Crfg

open Scale Grandpa

namespace FinalizeM

variable {τ α β : Type}

theorem bind_eq (first : FinalizeM τ α) (next : α → FinalizeM τ β) (before after : Finalizing τ)
    (result : Except Error β) :
    (first >>= next).run.run before = .ok (result, after) ↔
      (∃ error, first.run.run before = .ok (.error error, after) ∧ result = .error error) ∨
      ∃ value state, first.run.run before = .ok (.ok value, state) ∧
        (next value).run.run state = .ok (result, after) := by
  rw [ExceptT.run_bind, StateT.run_bind, Run.bind_eq_ok]
  constructor
  · intro h
    obtain ⟨⟨value, state⟩, hfirst, hnext⟩ := h
    cases value with
    | error error =>
      obtain ⟨rfl, rfl⟩ := Prod.mk.inj ((Run.pure_eq_ok _ _).mp hnext)
      exact .inl ⟨error, hfirst, rfl⟩
    | ok value => exact .inr ⟨value, state, hfirst, hnext⟩
  · intro h
    rcases h with ⟨error, hfirst, rfl⟩ | ⟨value, state, hfirst, hnext⟩
    · exact ⟨(.error error, after), hfirst, rfl⟩
    · exact ⟨(.ok value, state), hfirst, hnext⟩

def Keeps (step : FinalizeM τ α) : Prop :=
  ∀ before result after, step.run.run before = .ok (result, after) → after = before

theorem Keeps.pure (value : α) : Keeps (pure value : FinalizeM τ α) := by
  intro before result after h
  exact (Prod.mk.inj (Except.ok.inj h)).2.symm

theorem Keeps.lift (step : Run α) : Keeps (step : FinalizeM τ α) := by
  intro before result after h
  cases step with
  | error _ => cases h
  | ok _ => exact (Prod.mk.inj (Except.ok.inj h)).2.symm

theorem Keeps.orClientError (value : Except ClientError α) :
    Keeps (orClientError value : FinalizeM τ α) := by
  intro before result after h
  cases value <;> exact (Prod.mk.inj (Except.ok.inj h)).2.symm

theorem Keeps.bind {first : FinalizeM τ α} {next : α → FinalizeM τ β} (hfirst : Keeps first)
    (hnext : ∀ value, Keeps (next value)) : Keeps (first >>= next) := by
  intro before result after h
  rcases (bind_eq ..).mp h with ⟨_, herror, _⟩ | ⟨value, state, hvalue, hrest⟩
  · exact hfirst _ _ _ herror
  · exact (hnext value _ _ _ hrest).trans (hfirst _ _ _ hvalue)

end FinalizeM

open FinalizeM

variable {κ ι τ Hd : Type} (env : Env κ ι τ Hd)

theorem justificationFor_keeps (client : κ) (period : Option UInt64) (number : UInt64)
    (required : Bool) (justificationOrCommit : JustificationOrCommit Hd) :
    Keeps (justificationFor env client period number required justificationOrCommit :
      FinalizeM τ _) := by
  cases justificationOrCommit with
  | justification just => exact Keeps.pure _
  | commit round commit =>
    have hend : ∀ required : Bool, Keeps (if required then do
          let just ← orClientError (← (CrfgJustification.fromCommit env.host
            (env.client.headerByHash client) round commit : Run _))
          return some (just.encode env.host)
        else return none : FinalizeM τ (Option Bytes)) := by
      intro required
      split_ifs
      · exact (Keeps.lift _).bind fun _ => (Keeps.orClientError _).bind fun _ => Keeps.pure _
      · exact Keeps.pure _
    simp only [justificationFor]
    split
    · exact (Keeps.orClientError _).bind fun _ => (Keeps.lift _).bind hend
    · exact (Keeps.pure _).bind hend

-- A failed lookup leaves the list as the finished split does.
theorem finalizeChanges_revert (client : κ) (hash : H256) (number : UInt64) (op : ι)
    (node : Node κ τ) {before after : Finalizing τ} {result : Except Error (Bool × ι)}
    (hnone : before.oldConsensusChanges = none)
    (h : (finalizeChanges env client hash number op).run.run before = .ok (result, after)) :
    node.revert after = { node with
      consensusChanges := (finalizedChanges env client hash number before.consensusChanges).1 } := by
  unfold finalizedChanges
  rw [finalizeChanges, FinalizeM.get_bind] at h
  generalize before.consensusChanges.finalize (number, hash)
    (canonicalAtHeight env client (hash, number) true) = tracked at h ⊢
  simp only [FinalizeM.modify_bind] at h
  rcases (bind_eq ..).mp h with ⟨_, hlookup, _⟩ | ⟨⟨alters, finalizes⟩, _, hlookup, hrest⟩
  · rw [Keeps.orClientError _ _ _ _ hlookup]
    simp [Node.revert, hnone]
  · rw [Keeps.orClientError _ _ _ _ hlookup] at hrest
    cases alters with
    | false =>
      rw [Keeps.pure _ _ _ _ hrest]
      simp [Node.revert, hnone]
    | true =>
      simp only [if_true, FinalizeM.modify_bind] at hrest
      rw [((Keeps.orClientError _).bind fun _ => Keeps.pure _) _ _ _ hrest]
      rfl

theorem applySetChanges_error (client : κ) (hash : H256) (number : UInt64)
    {before after : Finalizing τ} {error : Error}
    (h : (applySetChanges env client hash number).run.run before = .ok (.error error, after)) :
    after = before ∧ ∃ message, before.authoritySet.applyStandardChanges env.tree hash number
      (isDescendentOf env client none) = .error message := by
  rw [applySetChanges, FinalizeM.get_bind] at h
  cases happly : before.authoritySet.applyStandardChanges env.tree hash number
      (isDescendentOf env client none) with
  | error message =>
    simp only [happly] at h
    exact ⟨(Prod.mk.inj (Except.ok.inj h)).2.symm, message, rfl⟩
  | ok changed =>
    simp only [happly, FinalizeM.modify_bind] at h
    cases (Prod.mk.inj (Except.ok.inj h)).1

variable {result : Except Error (Option VoterCommand × ι)} {hash : H256} {number : UInt64}
  {node : Node κ τ}

-- What a failed operation leaves in memory: the pending set changes are asked before the
-- list is touched.
theorem finalizeOperation_refused {period : Option UInt64}
    {justificationOrCommit : JustificationOrCommit Hd} {op : ι} {after : Finalizing τ}
    {message : String}
    (h : (finalizeOperation env node.client period hash number justificationOrCommit op).run.run
      node.finalizing = .ok (result, after))
    (hrefused : node.authoritySet.applyStandardChanges env.tree hash number
      (isDescendentOf env node.client none) = .error message) :
    node.revert after = node := by
  rcases (bind_eq ..).mp h with ⟨_, happly, _⟩ | ⟨status, _, happly, _⟩
  · rw [(applySetChanges_error env _ _ _ happly).1]
    rfl
  · obtain ⟨set, hset, _⟩ := (applySetChanges_eq_ok ..).mp happly
    cases hset.symm.trans hrefused

theorem finalizeOperation_tracked {period : Option UInt64}
    {justificationOrCommit : JustificationOrCommit Hd} {op : ι} {after : Finalizing τ}
    {changed : Status × AuthoritySet τ}
    (h : (finalizeOperation env node.client period hash number justificationOrCommit op).run.run
      node.finalizing = .ok (result, after))
    (happlied : node.authoritySet.applyStandardChanges env.tree hash number
      (isDescendentOf env node.client none) = .ok changed) :
    node.revert after = { node with
      consensusChanges :=
        (finalizedChanges env node.client hash number node.consensusChanges).1 } := by
  rcases (bind_eq ..).mp h with ⟨_, happly, _⟩ | ⟨status, _, happly, hrest⟩
  · obtain ⟨_, message, hrefused⟩ := applySetChanges_error env _ _ _ happly
    cases hrefused.symm.trans happlied
  · obtain ⟨set, _, rfl⟩ := (applySetChanges_eq_ok ..).mp happly
    have hkeeps : ∀ finalizes op, Keeps (do
        let justification ← justificationFor env node.client period number
          (status.newSetBlock.isSome || finalizes) justificationOrCommit
        let op ← orClientError (env.client.applyFinality node.client op hash justification)
        let set := (← get).authoritySet
        let new := newAuthorities status set
        if status.changed then do
          let op ← orClientError (env.client.applyAux node.client op (authoritySetWrites set new))
          return (new.map .changeAuthorities, op)
        else return (new.map .changeAuthorities, op) : FinalizeM τ (Option VoterCommand × ι)) := by
      intro finalizes op
      refine (justificationFor_keeps env _ _ _ _ _).bind fun _ => (Keeps.orClientError _).bind fun _ => ?_
      intro before result after h
      rw [FinalizeM.get_bind] at h
      split_ifs at h
      · exact ((Keeps.orClientError _).bind fun _ => Keeps.pure _) _ _ _ h
      · exact Keeps.pure _ _ _ _ h
    rcases (bind_eq ..).mp hrest with ⟨_, hchanges, _⟩ | ⟨⟨finalizes, op⟩, _, hchanges, hrest⟩
    · exact finalizeChanges_revert env _ _ _ _ node rfl hchanges
    · rw [hkeeps finalizes op _ _ _ hrest]
      exact finalizeChanges_revert env _ _ _ _ node rfl hchanges

theorem conclude_error {state : Finalizing τ} {error : Error}
    (h : (conclude env hash number node state result).result = .error (.error error)) :
    (conclude env hash number node state result).node.authoritySet = node.authoritySet ∧
      (conclude env hash number node state result).node.consensusChanges =
        (node.revert state).consensusChanges := by
  cases result with
  | error error => exact ⟨rfl, rfl⟩
  | ok result =>
    obtain ⟨command, op⟩ := result
    cases hcommit : env.client.commitOperation node.client op with
    | error error => simp only [conclude, hcommit, Node.revert, and_self]
    | ok client =>
      cases hnotify : env.client.notifyFinalized client op with
      | error error => simp only [conclude, hcommit, hnotify, Node.revert, and_self]
      | ok _ => cases command <;> simp [conclude, hcommit, hnotify] at h

theorem ConsensusChanges.finalize_fst_eq_self (changes : ConsensusChanges) (block : UInt64 × H256)
    (canonicalAtHeight : UInt64 → Except ClientError (Option H256)) :
    (changes.finalize block canonicalAtHeight).1 = changes ↔
      ∀ change ∈ changes.pendingChanges.head?, block.1 < change.1 := by
  obtain ⟨pending⟩ := changes
  simp only [ConsensusChanges.finalize, List.span_eq_takeWhile_dropWhile,
    ConsensusChanges.mk.injEq]
  cases pending with
  | nil => simp
  | cons change rest =>
    by_cases hdue : change.1 ≤ block.1
    · have hlength := (List.dropWhile_sublist (l := rest) fun change =>
        decide (change.1 ≤ block.1)).length_le
      refine iff_of_false ?_ (by simpa using hdue)
      intro heq
      have hsame := congrArg List.length heq
      simp only [List.dropWhile_cons, hdue, decide_true, if_true, List.length_cons] at hsame
      omega
    · simp [hdue, UInt64.not_le.mp hdue]

-- The list is safe from this call: the call fails before it is touched, or nothing in it
-- is due at the block.
def KeepsChanges (node : Node κ τ) (hash : H256) (number : UInt64) : Prop :=
  (∃ error, env.client.beginOperation node.client = .error error) ∨
  (∃ message, node.authoritySet.applyStandardChanges env.tree hash number
    (isDescendentOf env node.client none) = .error message) ∨
  ∀ change ∈ node.consensusChanges.pendingChanges.head?, number < change.1

theorem failed_finalization_rolls_back_iff (period : Option UInt64) (hash : H256) (number : UInt64)
    (justificationOrCommit : JustificationOrCommit Hd) (node : Node κ τ)
    {outcome : FinalizeOutcome κ τ} {error : Error}
    (h : finalizeBlock env period hash number justificationOrCommit node = .ok outcome)
    (herror : outcome.result = .error (.error error)) :
    (outcome.node.authoritySet = node.authoritySet ∧
        outcome.node.consensusChanges = node.consensusChanges) ↔
      KeepsChanges env node hash number := by
  unfold finalizeBlock at h
  cases hbegin : env.client.beginOperation node.client with
  | error error =>
    simp only [hbegin, Except.ok.injEq] at h
    subst h
    exact iff_of_true ⟨rfl, rfl⟩ (.inl ⟨error, hbegin⟩)
  | ok op =>
    simp only [hbegin, Run.bind_eq_ok, Run.pure_eq_ok, Prod.exists] at h
    obtain ⟨result, state, hoperation, rfl⟩ := h
    obtain ⟨hset, hchanges⟩ := conclude_error env herror
    rw [hset, hchanges, KeepsChanges, hbegin]
    cases happly : node.authoritySet.applyStandardChanges env.tree hash number
        (isDescendentOf env node.client none) with
    | error message =>
      rw [finalizeOperation_refused env hoperation happly]
      simp
    | ok changed =>
      rw [finalizeOperation_tracked env hoperation happly, finalizedChanges,
        ConsensusChanges.finalize_fst_eq_self]
      simp

-- A store that cannot finalize the block it is asked for.
def refusingEnv : Env (List H256) (List H256) Unit Unit :=
  { plainEnv with client := { plainEnv.client with
      applyFinality := fun _ _ _ _ => .error (.other "unknown block") } }

def trackingNode (height : UInt64) : Node (List H256) Unit :=
  { plainNode with consensusChanges := ⟨[(height, filled 32 1)]⟩ }

-- A change of block 3 survives the failure of block 2.
theorem failed_finalization_rolls_back_early : ∃ outcome error,
    finalizeBlock refusingEnv none (filled 32 2) 2 (.justification firstBlockJustification)
      (trackingNode 3) = .ok outcome ∧
    outcome.result = .error (.error error) ∧
    outcome.node.authoritySet = (trackingNode 3).authoritySet ∧
    outcome.node.consensusChanges = (trackingNode 3).consensusChanges := by
  refine ⟨_, .client (.other "unknown block"), rfl, rfl, ?_⟩
  exact (failed_finalization_rolls_back_iff refusingEnv none (filled 32 2) 2
    (.justification firstBlockJustification) (trackingNode 3) rfl rfl).mpr
      (.inr (.inr (by decide)))

-- A change of block 1 is lost with it.
theorem failed_finalization_drops_change : ∃ outcome error,
    finalizeBlock refusingEnv none (filled 32 2) 2 (.justification firstBlockJustification)
      (trackingNode 1) = .ok outcome ∧
    outcome.result = .error (.error error) ∧
    (trackingNode 1).consensusChanges.pendingChanges = [(1, filled 32 1)] ∧
    outcome.node.consensusChanges.pendingChanges = [] :=
  ⟨_, .client (.other "unknown block"), rfl, rfl, rfl, rfl⟩

end Yeeroot.Crfg
