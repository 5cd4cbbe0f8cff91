import Yeeroot.Crfg.BlockImport.InStep

namespace Yeeroot.Crfg

variable {τ Hd : Type} {host : Host Hd}

-- What Substrate's fork tree does with its roots when a block is finalized: one before the
-- block that the predicate lets through is the change; else the roots on other forks are
-- dropped, if there are any, and the tree has changed without a change to apply.
structure ChangeTree.Prunes (tree : ChangeTree τ) (blocks : BlockTree host)
    (view : TreeView τ) : Prop where
  valid_new : view.valid tree.new
  valid_import : ∀ {changes changes' hash change isDescendentOf}, view.valid changes →
    tree.importNode changes hash (blocks.number hash) change isDescendentOf = .ok changes' →
    view.valid changes'
  valid_finalize : ∀ {changes result changes' hash isDescendentOf pred}, view.valid changes →
    tree.finalizeWithDescendentIf changes hash (blocks.number hash) isDescendentOf pred =
      .ok (result, changes') → view.valid changes'
  changed_none_iff : ∀ {changes result changes' hash isDescendentOf pred}, view.valid changes →
    Tells blocks (insert hash (view.holds changes)) isDescendentOf →
    tree.finalizeWithDescendentIf changes hash (blocks.number hash) isDescendentOf pred =
      .ok (result, changes') →
    (result = .changed none ↔
      (∀ root ∈ view.nodes changes, pred root.2 = true → ¬ blocks.Descends root.1 hash) ∧
        ∃ root ∈ view.nodes changes, ¬ blocks.SameFork root.1 hash)

-- What happens to an authority set: a block signals a change, a block becomes the best one,
-- a block is finalized. Each comes with the ancestry that the client knows at that time.
inductive SetEvent where
  | signal (change : PendingChange) (isDescendentOf : IsDescendentOf)
  | best (hash : H256) (isDescendentOf : IsDescendentOf)
  | finalize (hash : H256) (isDescendentOf : IsDescendentOf)

namespace AuthoritySet

section Events

variable (blocks : BlockTree host) (tree : ChangeTree τ)

-- An operation that fails leaves the set as it was.
def after (set : AuthoritySet τ) : SetEvent → AuthoritySet τ
  | .signal change isDescendentOf =>
    match set.addPendingChange tree change isDescendentOf with
    | .ok set' => set'
    | .error _ => set
  | .best hash isDescendentOf =>
    match set.applyForcedChanges tree hash (blocks.number hash) isDescendentOf with
    | .ok (.ok (some (_, set'))) => set'
    | _ => set
  | .finalize hash isDescendentOf =>
    match set.applyStandardChanges tree.toForkTree hash (blocks.number hash) isDescendentOf with
    | .ok (_, set') => set'
    | .error _ => set

-- The change waits for this block: it is due at its number, on its fork.
def Due (change : PendingChange) (hash : H256) : Prop :=
  change.effectiveNumber = blocks.number hash ∧ blocks.Descends change.canonHash hash

-- Forced changes are kept per fork by an event: a second one on a fork is rejected and one on
-- another fork is added to the others; a best block applies exactly the change that is due
-- there; finalization drops them only when it applies a change.
def KeepsForks (set : AuthoritySet τ) : SetEvent → Prop
  | .signal change isDescendentOf =>
    match change.delayKind with
    | .finalized => ∀ set', set.addPendingChange tree change isDescendentOf = .ok set' →
        set'.pendingForcedChanges = set.pendingForcedChanges
    | .best _ =>
      ((∃ pending ∈ set.pendingForcedChanges,
          blocks.SameFork pending.canonHash change.canonHash) →
        ∃ message, set.addPendingChange tree change isDescendentOf = .error message) ∧
      ((∀ pending ∈ set.pendingForcedChanges,
          ¬ blocks.SameFork pending.canonHash change.canonHash) →
        ∃ set', set.addPendingChange tree change isDescendentOf = .ok set' ∧
          ∀ pending, pending ∈ set'.pendingForcedChanges ↔
            pending = change ∨ pending ∈ set.pendingForcedChanges)
  | .best hash isDescendentOf =>
    (∀ pending ∈ set.pendingForcedChanges, Due blocks pending hash →
      ∃ median, pending.delayKind = .best median ∧
        set.applyForcedChanges tree hash (blocks.number hash) isDescendentOf =
          .ok (.ok (some (median, ⟨pending.nextAuthorities, set.setId + 1, tree.new, []⟩)))) ∧
    ((∀ pending ∈ set.pendingForcedChanges, ¬ Due blocks pending hash) →
      set.applyForcedChanges tree hash (blocks.number hash) isDescendentOf = .ok (.ok none))
  | .finalize hash isDescendentOf => ∀ status set',
      set.applyStandardChanges tree.toForkTree hash (blocks.number hash) isDescendentOf =
        .ok (status, set') →
      status.newSetBlock = none → set'.pendingForcedChanges = set.pendingForcedChanges

variable (view : TreeView τ)

-- What the client provides: changes at the heights of their blocks and right answers about
-- the ancestry of the blocks at hand. A finalization that is refused is left out.
def Honest (set : AuthoritySet τ) : SetEvent → Prop
  | .signal change _ => change.canonHeight = blocks.number change.canonHash
  | .best hash isDescendentOf =>
    Tells blocks (insert hash {block | ∃ pending ∈ set.pendingForcedChanges,
      pending.canonHash = block}) isDescendentOf
  | .finalize hash isDescendentOf =>
    Tells blocks (insert hash (view.holds set.pendingStandardChanges)) isDescendentOf ∧
      ∃ status set', set.applyStandardChanges tree.toForkTree hash (blocks.number hash)
        isDescendentOf = .ok (status, set')

-- No forced change is signalled while another one is pending, on any fork, and none is
-- pending when a finalization only prunes standard changes of other forks.
def Calm (set : AuthoritySet τ) : SetEvent → Prop
  | .signal change _ =>
    match change.delayKind with
    | .finalized => True
    | .best _ => set.pendingForcedChanges = []
  | .best _ _ => True
  | .finalize hash _ => set.pendingForcedChanges = [] ∨
      (∃ root ∈ view.nodes set.pendingStandardChanges,
        root.2.effectiveNumber ≤ blocks.number hash ∧ blocks.Descends root.1 hash) ∨
      ∀ root ∈ view.nodes set.pendingStandardChanges, blocks.SameFork root.1 hash

-- In every state of a run.
def Along (property : AuthoritySet τ → SetEvent → Prop) (set : AuthoritySet τ) :
    List SetEvent → Prop
  | [] => True
  | event :: events => property set event ∧ Along property (set.after blocks tree event) events

end Events

-- The forced changes of a calm run: there is at most one.
structure Lone (view : TreeView τ) (set : AuthoritySet τ) : Prop where
  valid : view.valid set.pendingStandardChanges
  forced : set.pendingForcedChanges = [] ∨
    ∃ change median, set.pendingForcedChanges = [change] ∧ change.delayKind = .best median

section Step

variable {blocks : BlockTree host} {tree : ChangeTree τ} {view : TreeView τ}
  {set : AuthoritySet τ} {isDescendentOf : IsDescendentOf}
variable {change : PendingChange} {median : UInt64} {hash : H256}

theorem addPendingChange_best (h : change.delayKind = .best median) :
    set.addPendingChange tree change isDescendentOf =
      .ok { set with pendingForcedChanges := [change] } := by
  rw [addPendingChange, h]
  rfl

theorem applyForcedChanges_nil (hforced : set.pendingForcedChanges = []) (hash : H256)
    (number : UInt64) :
    set.applyForcedChanges tree hash number isDescendentOf = .ok (.ok none) := by
  rw [applyForcedChanges, hforced]
  rfl

variable (tree) in
theorem applyForcedChanges_singleton (hforced : set.pendingForcedChanges = [change])
    (hkind : change.delayKind = .best median)
    (htells : Tells blocks (insert hash {block | ∃ pending ∈
      set.pendingForcedChanges, pending.canonHash = block}) isDescendentOf) :
    (Due blocks change hash →
      set.applyForcedChanges tree hash (blocks.number hash) isDescendentOf =
        .ok (.ok (some (median, ⟨change.nextAuthorities, set.setId + 1, tree.new, []⟩)))) ∧
    (¬ Due blocks change hash →
      set.applyForcedChanges tree hash (blocks.number hash) isDescendentOf = .ok (.ok none)) := by
  rw [hforced] at htells
  obtain ⟨answer, hanswer, hiff⟩ := htells change.canonHash (.inr ⟨change, by simp, rfl⟩) hash
    (.inl rfl)
  rw [applyForcedChanges, hforced]
  by_cases hnumber : change.effectiveNumber = blocks.number hash
  · have hlist : ([change].takeWhile fun change =>
        decide (change.effectiveNumber ≤ blocks.number hash)).filter
          (fun change => decide (change.effectiveNumber = blocks.number hash)) = [change] := by
      simp [hnumber]
    rw [hlist, applyFirstForced, hanswer]
    by_cases hsame : change.canonHash = hash
    · have hdue : Due blocks change hash := ⟨hnumber, hsame ▸ .refl⟩
      simp only [if_pos hsame, hkind, hdue, not_true_eq_false, forall_const, false_implies,
        and_self]
    · rw [if_neg hsame]
      cases answer with
      | false =>
        have hnot : ¬ Due blocks change hash := by
          intro hdue
          exact Bool.false_ne_true (hiff.mpr ⟨hsame, hdue.2⟩)
        exact ⟨fun hdue => absurd hdue hnot, fun _ => rfl⟩
      | true =>
        have hdue : Due blocks change hash := ⟨hnumber, (hiff.mp rfl).2⟩
        simp only [hkind, hdue, not_true_eq_false, forall_const, false_implies, and_self]
  · have hlist : ([change].takeWhile fun change =>
        decide (change.effectiveNumber ≤ blocks.number hash)).filter
          (fun change => decide (change.effectiveNumber = blocks.number hash)) = [] := by
      rw [List.filter_eq_nil_iff]
      intro pending hmem
      rw [List.mem_singleton.mp ((List.takeWhile_sublist _).mem hmem)]
      simpa using hnumber
    rw [hlist]
    exact ⟨fun hdue => absurd hdue.1 hnumber, fun _ => rfl⟩

theorem keepsForks_signal_iff (hkind : change.delayKind = .best median) :
    KeepsForks blocks tree set (.signal change isDescendentOf) ↔
      set.pendingForcedChanges = [] := by
  have hadd : set.addPendingChange tree change isDescendentOf =
      .ok { set with pendingForcedChanges := [change] } := addPendingChange_best hkind
  simp only [KeepsForks, hkind, hadd]
  constructor
  · intro h
    obtain ⟨hrejected, hadded⟩ := h
    -- The set takes every forced change, so there is none on the same fork.
    have hother : ∀ pending ∈ set.pendingForcedChanges,
        ¬ blocks.SameFork pending.canonHash change.canonHash := by
      intro pending hmem hsame
      obtain ⟨message, herror⟩ := hrejected ⟨pending, hmem, hsame⟩
      cases herror
    obtain ⟨set', hset, hpending⟩ := hadded hother
    rw [← Except.ok.inj hset] at hpending
    refine List.eq_nil_iff_forall_not_mem.mpr fun pending hmem => ?_
    have heq := List.mem_singleton.mp ((hpending pending).mpr (.inr hmem))
    exact hother pending hmem (heq ▸ .inl .refl)
  · intro hnone
    rw [hnone]
    refine ⟨fun h => by simp at h, fun _ => ⟨_, rfl, fun pending => by simp⟩⟩

theorem keepsForks_best (hlone : Lone view set)
    (hhonest : Honest blocks tree view set (.best hash isDescendentOf)) :
    KeepsForks blocks tree set (.best hash isDescendentOf) := by
  rcases hlone.forced with hnone | ⟨change, median, hforced, hkind⟩
  · refine ⟨fun pending hmem => ?_, fun _ => applyForcedChanges_nil hnone hash _⟩
    rw [hnone] at hmem
    cases hmem
  · obtain ⟨hdue, hnot⟩ := applyForcedChanges_singleton tree hforced hkind hhonest
    refine ⟨fun pending hmem h => ?_, fun h => hnot (h change (by simp [hforced]))⟩
    obtain rfl : pending = change := by simpa [hforced] using hmem
    exact ⟨median, hkind, hdue h⟩

theorem keepsForks_finalize_iff (prunes : tree.Prunes blocks view) (hlone : Lone view set)
    (hhonest : Honest blocks tree view set (.finalize hash isDescendentOf)) :
    KeepsForks blocks tree set (.finalize hash isDescendentOf) ↔
      Calm blocks view set (.finalize hash isDescendentOf) := by
  obtain ⟨htells, status, set', happly⟩ := hhonest
  obtain ⟨result, changes, hfinalize, hset⟩ := applyStandardChanges_eq_ok happly
  have hpruned := prunes.changed_none_iff hlone.valid htells hfinalize
  have hkeeps : KeepsForks blocks tree set (.finalize hash isDescendentOf) ↔
      (set.pendingForcedChanges = [] ∨ result ≠ .changed none) := by
    simp only [KeepsForks, happly, Except.ok.injEq, Prod.mk.injEq, and_imp]
    constructor
    · intro h
      by_contra hnot
      obtain ⟨hsome, hresult⟩ := not_or.mp hnot
      obtain rfl := not_not.mp hresult
      have hsame := h status set' rfl rfl hset.1
      rw [hset.2] at hsame
      exact hsome hsame.symm
    · rintro h _ _ rfl rfl hnew
      rcases result with (_ | change) | _
      · rw [hset.2]
        simpa using h.symm
      · cases hset.1.symm.trans hnew
      · rw [hset.2]
  rw [hkeeps, Calm, ne_eq, hpruned, not_and_or]
  simp only [not_forall, not_exists, not_and, not_not, decide_eq_true_iff, exists_prop]

theorem keepsForks_iff (prunes : tree.Prunes blocks view) (hlone : Lone view set)
    {event : SetEvent} (hhonest : Honest blocks tree view set event) :
    KeepsForks blocks tree set event ↔ Calm blocks view set event := by
  cases event with
  | signal change isDescendentOf =>
    cases hkind : change.delayKind with
    | finalized =>
      simp only [KeepsForks, Calm, hkind, iff_true]
      intro set' hadd
      rw [addPendingChange, hkind] at hadd
      obtain ⟨changes, -, rfl⟩ := addStandardChange_eq_ok hadd
      rfl
    | best median =>
      rw [keepsForks_signal_iff hkind]
      simp only [Calm, hkind]
  | best hash isDescendentOf => exact iff_of_true (keepsForks_best hlone hhonest) trivial
  | finalize hash isDescendentOf => exact keepsForks_finalize_iff prunes hlone hhonest

theorem Lone.after (prunes : tree.Prunes blocks view) (hlone : Lone view set)
    {event : SetEvent} (hhonest : Honest blocks tree view set event) :
    Lone view (set.after blocks tree event) := by
  cases event with
  | signal change isDescendentOf =>
    cases hkind : change.delayKind with
    | finalized =>
      cases hadd : set.addPendingChange tree change isDescendentOf with
      | error message => simpa only [AuthoritySet.after, hadd] using hlone
      | ok set' =>
        simp only [AuthoritySet.after, hadd]
        rw [addPendingChange, hkind] at hadd
        obtain ⟨changes, himport, rfl⟩ := addStandardChange_eq_ok hadd
        rw [show change.canonHeight = _ from hhonest] at himport
        exact ⟨prunes.valid_import hlone.valid himport, hlone.forced⟩
    | best median =>
      simp only [AuthoritySet.after, addPendingChange_best hkind]
      exact ⟨hlone.valid, .inr ⟨change, median, rfl, hkind⟩⟩
  | best hash isDescendentOf =>
    rcases hlone.forced with hnone | ⟨change, median, hforced, hkind⟩
    · simpa only [AuthoritySet.after, applyForcedChanges_nil hnone] using hlone
    · obtain ⟨hdue, hnot⟩ := applyForcedChanges_singleton tree hforced hkind hhonest
      by_cases h : Due blocks change hash
      · simp only [AuthoritySet.after, hdue h]
        exact ⟨prunes.valid_new, .inl rfl⟩
      · simpa only [AuthoritySet.after, hnot h] using hlone
  | finalize hash isDescendentOf =>
    obtain ⟨_, status, set', happly⟩ := hhonest
    obtain ⟨result, changes, hfinalize, hset⟩ := applyStandardChanges_eq_ok happly
    have hvalid := prunes.valid_finalize hlone.valid hfinalize
    simp only [AuthoritySet.after, happly]
    rcases result with (_ | change) | _ <;> obtain ⟨-, rfl⟩ := hset
    · exact ⟨hvalid, .inl rfl⟩
    · exact ⟨hvalid, .inl rfl⟩
    · exact ⟨hvalid, hlone.forced⟩

theorem along_keepsForks_iff (prunes : tree.Prunes blocks view) (hlone : Lone view set)
    {events : List SetEvent} (hhonest : Along blocks tree (Honest blocks tree view) set events) :
    Along blocks tree (KeepsForks blocks tree) set events ↔
      Along blocks tree (Calm blocks view) set events := by
  induction events generalizing set with
  | nil => exact Iff.rfl
  | cons event events ih =>
    obtain ⟨hevent, hevents⟩ := hhonest
    exact and_congr (keepsForks_iff prunes hlone hevent) (ih (hlone.after prunes hevent) hevents)

end Step

section BlockImport

variable {κ ι : Type} (inner : BlockImport κ ι τ Hd) (blocks : BlockTree inner.host)

theorem appliedChanges_eq_after {client : κ} {hash : H256} {isDescendentOf : IsDescendentOf}
    {set set' : AuthoritySet τ} {applied : AppliedChanges}
    (h : appliedChanges inner client hash (blocks.number hash) isDescendentOf set =
      .ok (.ok (applied, set'))) :
    set' = set.after blocks inner.tree (.best hash isDescendentOf) := by
  simp only [appliedChanges, Run.bind_eq_ok] at h
  obtain ⟨forced, hforced, h⟩ := h
  simp only [AuthoritySet.after, hforced]
  match forced with
  | .error error => cases h
  | .ok (some (median, newSet)) =>
    simp only [Run.bind_eq_ok] at h
    obtain ⟨new, -, h⟩ := h
    cases new with
    | error error => cases h
    | ok new => exact (Prod.mk.inj (Except.ok.inj (Except.ok.inj h))).2.symm
  | .ok none =>
    cases henacts : set.enactsStandardChange inner.tree hash (blocks.number hash)
        isDescendentOf with
    | error message =>
      simp only [henacts] at h
      cases h
    | ok root? =>
      simp only [henacts] at h
      cases root? <;> exact (Prod.mk.inj (Except.ok.inj (Except.ok.inj h))).2.symm

-- An imported block is two events: it signals its change, if it has one, and is the best one.
theorem makeAuthoritiesChanges_eq_after {node : Node κ τ} {hash : H256}
    {pending : PendingSetChanges τ} {known : IsDescendentOf}
    (hknown : known = isDescendentOf inner.env node.client
      (some (hash, inner.host.parentHash (blocks.header hash))))
    (h : makeAuthoritiesChanges inner node hash (blocks.header hash) = .ok (.ok pending)) :
    ∃ change?, checkNewChange inner.host inner.api (blocks.header hash) hash = .ok change? ∧
      pending.authoritySet = (change?.toList.map (SetEvent.signal · known) ++
        [SetEvent.best hash known]).foldl (AuthoritySet.after blocks inner.tree)
          node.authoritySet := by
  rw [makeAuthoritiesChanges] at h
  cases hchange : checkNewChange inner.host inner.api (blocks.header hash) hash with
  | error error =>
    rw [hchange] at h
    cases h
  | ok change? =>
    simp only [hchange, blocks.number_header, ← hknown] at h
    refine ⟨change?, rfl, ?_⟩
    cases hadd : node.authoritySet.addNewChange inner.tree change? known with
    | error message =>
      simp only [hadd] at h
      cases h
    | ok set =>
      simp only [hadd, Run.bind_eq_ok] at h
      obtain ⟨applied, happlied, h⟩ := h
      cases applied with
      | error error => cases h
      | ok applied =>
        rw [← Except.ok.inj (Except.ok.inj h), List.foldl_append]
        rw [appliedChanges_eq_after inner blocks happlied]
        cases change? with
        | none =>
          obtain rfl := Except.ok.inj hadd
          rfl
        | some change =>
          rw [AuthoritySet.addNewChange] at hadd
          simp only [Option.toList_some, List.map_cons, List.map_nil, List.foldl_cons,
            List.foldl_nil, AuthoritySet.after, hadd]

end BlockImport

end AuthoritySet

end Yeeroot.Crfg
