import Mathlib.Data.List.Nodup
import Yeeroot.Crfg.UntilImported
import Yeeroot.Primitives.Lemmas

namespace Yeeroot.Crfg

open Grandpa

variable {ε H : Type} (number : H → UInt64)

section Poll

variable {G I K B O : Type} {kind : MessageKind ε H G I K B O} {gate gate' : G}
  (holds : G → Prop) (admits : I → Prop)

variable (hschedule : ∀ {known input gate gate'}, holds gate → admits input →
    kind.scheduleWait known input gate = .ok gate' → holds gate')
  (hcomplete : ∀ {gate} block, holds gate → holds (kind.completeHash gate block))

include hschedule in
theorem scheduleAll_keeps {inputs : List (I × K)} (h : holds gate)
    (hinputs : ∀ input ∈ inputs, admits input.1) (hrun : scheduleAll kind inputs gate = .ok gate') :
    holds gate' := by
  induction inputs generalizing gate with
  | nil => rwa [← Except.ok.inj hrun]
  | cons input inputs ih =>
    obtain ⟨hfirst, hrest⟩ := List.forall_mem_cons.mp hinputs
    rw [scheduleAll, Run.bind_eq_ok] at hrun
    obtain ⟨middle, hone, hrun⟩ := hrun
    exact ih (hschedule h hfirst hone) hrest hrun

include hcomplete in
theorem completeAll_keeps (h : holds gate) (blocks : List B) :
    holds (blocks.foldl kind.completeHash gate) := by
  induction blocks generalizing gate with
  | nil => exact h
  | cons block blocks ih => exact ih (hcomplete block h)

include hcomplete in
theorem checkPending_keeps {check : Option (List H × K)} (h : holds gate)
    (hcheck : checkPending kind check gate = .ok gate') : holds gate' := by
  unfold checkPending at hcheck
  split at hcheck
  · rwa [← Except.ok.inj hcheck]
  · rw [Run.bind_eq_ok] at hcheck
    obtain ⟨keys, -, hcheck⟩ := hcheck
    rw [← Except.ok.inj hcheck]
    exact completeAll_keeps holds hcomplete h keys

-- What both operations of a kind keep holds up to the end of a poll, which pops the queue
-- unless a stream has ended.
include hschedule hcomplete in
theorem poll_keeps {input : PollOf ε H I K B} {result : Polled O} (h : holds gate)
    (hinputs : ∀ item ∈ input.inputs, admits item.1)
    (hpoll : poll kind input gate = .ok (gate', result)) :
    ∃ checked, holds checked ∧ (popReady kind checked = (gate', result) ∨
      (gate' = checked ∧ result = .done ∧
        ¬ (input.inputsEnd = none ∧ input.notificationsEnd = none))) := by
  rw [poll, Run.bind_eq_ok] at hpoll
  obtain ⟨scheduled, hscheduled, hpoll⟩ := hpoll
  have hheld := scheduleAll_keeps holds admits hschedule h hinputs hscheduled
  cases hend : input.inputsEnd with
  | some ended =>
    simp only [hend, Run.bind_eq_ok] at hpoll
    obtain ⟨_, _, hdone⟩ := hpoll
    obtain ⟨rfl, rfl⟩ := Prod.mk.inj (Except.ok.inj hdone)
    exact ⟨_, hheld, .inr ⟨rfl, rfl, by simp⟩⟩
  | none =>
    have hnotified := completeAll_keeps holds hcomplete hheld input.notifications
    cases hlast : input.notificationsEnd with
    | some ended =>
      simp only [hend, hlast, Run.bind_eq_ok] at hpoll
      obtain ⟨_, _, hdone⟩ := hpoll
      obtain ⟨rfl, rfl⟩ := Prod.mk.inj (Except.ok.inj hdone)
      exact ⟨_, hnotified, .inr ⟨rfl, rfl, by simp⟩⟩
    | none =>
      simp only [hend, hlast, Run.bind_eq_ok] at hpoll
      obtain ⟨check, _, checked, hchecked, hpopped⟩ := hpoll
      exact ⟨checked, checkPending_keeps holds hcomplete hnotified hchecked,
        .inl (Except.ok.inj hpopped)⟩

end Poll

section Query

variable (known : H → Except ε Bool)

-- The unknown hashes among those that were looked at, with the numbers that blocks of these
-- hashes have to have.
def wanted (checkedHashes : CheckedHashes H) : List (H × UInt64) :=
  checkedHashes.filterMap fun checked =>
    match checked.2 with
    | .unknown targetNumber => some (checked.1, targetNumber)
    | .known _ => none

@[simp] theorem wanted_nil : wanted ([] : CheckedHashes H) = [] := rfl

theorem wanted_append (checkedHashes checkedHashes' : CheckedHashes H) :
    wanted (checkedHashes ++ checkedHashes') = wanted checkedHashes ++ wanted checkedHashes' :=
  List.filterMap_append

theorem mem_wanted {checkedHashes : CheckedHashes H} {hash : H} {targetNumber : UInt64} :
    (hash, targetNumber) ∈ wanted checkedHashes ↔
      (hash, .unknown targetNumber) ∈ checkedHashes := by
  unfold wanted
  rw [List.mem_filterMap]
  constructor
  · intro h
    obtain ⟨⟨hash', entry⟩, hmem, heq⟩ := h
    cases entry with
    | known _ => cases heq
    | unknown _ =>
      obtain ⟨rfl, rfl⟩ := Prod.mk.inj (Option.some.inj heq)
      exact hmem
  · intro h
    exact ⟨_, h, rfl⟩

theorem wanted_sublist (checkedHashes : CheckedHashes H) :
    ((wanted checkedHashes).map Prod.fst).Sublist (checkedHashes.map Prod.fst) := by
  induction checkedHashes with
  | nil => exact List.Sublist.slnil
  | cons checked checkedHashes ih =>
    obtain ⟨hash, entry⟩ := checked
    cases entry with
    | known _ => exact ih.cons hash
    | unknown _ => exact ih.cons_cons hash

-- What the queries of some targets have found, if none of them failed.
structure Queried (targets : List (H × UInt64)) (checkedHashes : CheckedHashes H)
    (unknownCount : Nat) : Prop where
  distinct : (checkedHashes.map Prod.fst).Nodup
  counted : unknownCount = (wanted checkedHashes).length
  ofKnown : ∀ hash canonNumber, (hash, .known canonNumber) ∈ checkedHashes →
    known hash = .ok true ∧ canonNumber = number hash
  ofUnknown : ∀ hash targetNumber, (hash, .unknown targetNumber) ∈ checkedHashes →
    known hash = .ok false ∧ (hash, targetNumber) ∈ targets
  covered : ∀ hash targetNumber, (hash, targetNumber) ∈ targets →
    ∃ entry, (hash, entry) ∈ checkedHashes ∧ entry.number = targetNumber

variable {number known} {targets : List (H × UInt64)} {checkedHashes checkedHashes' : CheckedHashes H}
  {unknownCount unknownCount' : Nat} {targetHash : H} {perceivedNumber : UInt64} {ok : Bool}

theorem Queried.nil : Queried number known [] [] 0 :=
  ⟨List.nodup_nil, rfl, by simp, by simp, by simp⟩

theorem Queried.right_iff (h : Queried number known targets checkedHashes unknownCount) :
    (∀ target ∈ targets, target.2 = number target.1) ↔
      ∀ target ∈ wanted checkedHashes, target.2 = number target.1 := by
  constructor
  · intro hright target hmem
    exact hright target (h.ofUnknown target.1 target.2 (mem_wanted.mp hmem)).2
  · intro hright target hmem
    obtain ⟨entry, hentry, hnumber⟩ := h.covered target.1 target.2 hmem
    cases entry with
    | known canonNumber => exact hnumber.symm.trans (h.ofKnown target.1 canonNumber hentry).2
    | unknown targetNumber =>
      obtain rfl : targetNumber = target.2 := hnumber
      exact hright target (mem_wanted.mpr hentry)

theorem Queried.unknown_iff (h : Queried number known targets checkedHashes unknownCount)
    (p : H → Prop) :
    (∀ target ∈ wanted checkedHashes, p target.1) ↔
      ∀ target ∈ targets, known target.1 = .ok false → p target.1 := by
  constructor
  · intro hall target hmem hfalse
    obtain ⟨entry, hentry, _⟩ := h.covered target.1 target.2 hmem
    cases entry with
    | known canonNumber =>
      cases hfalse.symm.trans (h.ofKnown target.1 canonNumber hentry).1
    | unknown targetNumber => exact hall (target.1, targetNumber) (mem_wanted.mpr hentry)
  · intro hall target hmem
    obtain ⟨hfalse, hnamed⟩ := h.ofUnknown target.1 target.2 (mem_wanted.mp hmem)
    exact hall target hnamed hfalse

theorem blockNumber_eq_ok {found : Option UInt64} :
    blockNumber number known targetHash = .ok found ↔
      (known targetHash = .ok true ∧ found = some (number targetHash)) ∨
      (known targetHash = .ok false ∧ found = none) := by
  unfold blockNumber
  rcases known targetHash with error | _ | _ <;>
    simp [bind, Except.bind, pure, Except.pure, eq_comm]

theorem Queried.again (h : Queried number known targets checkedHashes unknownCount)
    {entry : KnownOrUnknown} (hentry : (targetHash, entry) ∈ checkedHashes) :
    if entry.number = perceivedNumber then
      Queried number known (targets ++ [(targetHash, perceivedNumber)]) checkedHashes unknownCount
    else ∃ target ∈ targets ++ [(targetHash, perceivedNumber)], target.2 ≠ number target.1 := by
  split_ifs with hsame
  · refine ⟨h.distinct, h.counted, h.ofKnown, ?_, ?_⟩
    · intro hash targetNumber hmem
      obtain ⟨hknown, htarget⟩ := h.ofUnknown hash targetNumber hmem
      exact ⟨hknown, List.mem_append_left _ htarget⟩
    · intro hash targetNumber hmem
      rcases List.mem_append.mp hmem with hmem | hmem
      · exact h.covered hash targetNumber hmem
      · obtain ⟨rfl, rfl⟩ := Prod.mk.inj (List.mem_singleton.mp hmem)
        exact ⟨entry, hentry, hsame⟩
  · have hlast := List.mem_append_right targets (List.mem_singleton_self (targetHash, perceivedNumber))
    cases entry with
    | known canonNumber =>
      obtain ⟨_, rfl⟩ := h.ofKnown targetHash canonNumber hentry
      exact ⟨_, hlast, fun heq => hsame heq.symm⟩
    | unknown targetNumber =>
      -- Of two different numbers for one hash, one is wrong.
      by_cases hright : perceivedNumber = number targetHash
      · have hfirst := (h.ofUnknown targetHash targetNumber hentry).2
        exact ⟨_, List.mem_append_left _ hfirst, fun heq => hsame (heq.trans hright.symm)⟩
      · exact ⟨_, hlast, hright⟩

theorem Queried.first (h : Queried number known targets checkedHashes unknownCount)
    (hfresh : targetHash ∉ checkedHashes.map Prod.fst) {entry : KnownOrUnknown}
    (hentry : entry.number = perceivedNumber)
    (hknown : (entry = .known (number targetHash) ∧ known targetHash = .ok true ∧
        unknownCount' = unknownCount) ∨
      (entry = .unknown perceivedNumber ∧ known targetHash = .ok false ∧
        unknownCount' = unknownCount + 1)) :
    Queried number known (targets ++ [(targetHash, perceivedNumber)])
      (checkedHashes ++ [(targetHash, entry)]) unknownCount' := by
  refine ⟨?_, ?_, ?_, ?_, ?_⟩
  · rw [List.map_append, List.map_singleton, List.nodup_append]
    refine ⟨h.distinct, List.nodup_singleton _, ?_⟩
    intro hash hmem hash' hmem' heq
    obtain rfl := List.mem_singleton.mp hmem'
    exact hfresh (heq ▸ hmem)
  · rw [wanted_append, List.length_append, ← h.counted]
    rcases hknown with ⟨rfl, _, rfl⟩ | ⟨rfl, _, rfl⟩ <;> rfl
  · intro hash canonNumber hmem
    rcases List.mem_append.mp hmem with hmem | hmem
    · exact h.ofKnown hash canonNumber hmem
    · obtain ⟨rfl, rfl⟩ := Prod.mk.inj (List.mem_singleton.mp hmem)
      rcases hknown with ⟨hcase, htrue, _⟩ | ⟨hcase, _⟩
      · exact ⟨htrue, KnownOrUnknown.known.inj hcase⟩
      · cases hcase
  · intro hash targetNumber hmem
    rcases List.mem_append.mp hmem with hmem | hmem
    · obtain ⟨hfalse, htarget⟩ := h.ofUnknown hash targetNumber hmem
      exact ⟨hfalse, List.mem_append_left _ htarget⟩
    · obtain ⟨rfl, rfl⟩ := Prod.mk.inj (List.mem_singleton.mp hmem)
      rcases hknown with ⟨hcase, _⟩ | ⟨_, hfalse, _⟩
      · cases hcase
      · obtain rfl : targetNumber = perceivedNumber := hentry
        exact ⟨hfalse, List.mem_append_right _ (List.mem_singleton_self _)⟩
  · intro hash targetNumber hmem
    rcases List.mem_append.mp hmem with hmem | hmem
    · obtain ⟨entry', hentry', hnumber⟩ := h.covered hash targetNumber hmem
      exact ⟨entry', List.mem_append_left _ hentry', hnumber⟩
    · obtain ⟨rfl, rfl⟩ := Prod.mk.inj (List.mem_singleton.mp hmem)
      exact ⟨entry, List.mem_append_right _ (List.mem_singleton_self _), hentry⟩

variable [DecidableEq H]

theorem Queried.query (h : Queried number known targets checkedHashes unknownCount)
    (hquery : queryKnown number known checkedHashes unknownCount targetHash perceivedNumber =
      .ok (ok, checkedHashes', unknownCount')) :
    if ok = true then
      Queried number known (targets ++ [(targetHash, perceivedNumber)]) checkedHashes' unknownCount'
    else ∃ target ∈ targets ++ [(targetHash, perceivedNumber)], target.2 ≠ number target.1 := by
  unfold queryKnown at hquery
  cases hlookup : checkedHashes.lookup targetHash with
  | some entry =>
    simp only [hlookup, Except.ok.injEq, Prod.mk.injEq] at hquery
    obtain ⟨rfl, rfl, rfl⟩ := hquery
    obtain ⟨_, _, rfl, _⟩ := List.lookup_eq_some_iff.mp hlookup
    simpa using h.again (List.mem_append_right _ List.mem_cons_self)
  | none =>
    have hfresh : targetHash ∉ checkedHashes.map Prod.fst := by
      intro hmem
      obtain ⟨entry, hentry, heq⟩ := List.mem_map.mp hmem
      have hne := List.lookup_eq_none_iff.mp hlookup entry hentry
      simp [heq] at hne
    simp only [hlookup, Run.bind_eq_ok, blockNumber_eq_ok] at hquery
    obtain ⟨found, ⟨htrue, rfl⟩ | ⟨hfalse, rfl⟩, hquery⟩ := hquery
    · obtain ⟨rfl, rfl, rfl⟩ : decide (number targetHash = perceivedNumber) = ok ∧
          checkedHashes ++ [(targetHash, .known (number targetHash))] = checkedHashes' ∧
          unknownCount = unknownCount' := by
        simpa [pure, Except.pure] using hquery
      by_cases hsame : number targetHash = perceivedNumber
      · rw [if_pos (decide_eq_true hsame)]
        exact h.first hfresh hsame (.inl ⟨rfl, htrue, rfl⟩)
      · rw [if_neg (by simpa using hsame)]
        exact ⟨_, List.mem_append_right _ (List.mem_singleton_self _), fun heq => hsame heq.symm⟩
    · obtain ⟨rfl, rfl, rfl⟩ : true = ok ∧
          checkedHashes ++ [(targetHash, .unknown perceivedNumber)] = checkedHashes' ∧
          unknownCount + 1 = unknownCount' := by
        simpa [pure, Except.pure] using hquery
      rw [if_pos rfl]
      exact h.first hfresh rfl (.inr ⟨rfl, hfalse, rfl⟩)

theorem Queried.all (h : Queried number known targets checkedHashes unknownCount)
    (rest : List (H × UInt64)) {found : Option (CheckedHashes H × Nat)}
    (hquery : queryAll number known rest checkedHashes unknownCount = .ok found) :
    (∃ checkedHashes' unknownCount', found = some (checkedHashes', unknownCount') ∧
      Queried number known (targets ++ rest) checkedHashes' unknownCount') ∨
    (found = none ∧ ∃ target ∈ targets ++ rest, target.2 ≠ number target.1) := by
  induction rest generalizing targets checkedHashes unknownCount with
  | nil =>
    obtain rfl := Except.ok.inj hquery
    exact .inl ⟨_, _, rfl, (List.append_nil targets).symm ▸ h⟩
  | cons target rest ih =>
    obtain ⟨targetHash, targetNumber⟩ := target
    rw [queryAll, Run.bind_eq_ok] at hquery
    obtain ⟨⟨ok, checkedHashes', unknownCount'⟩, hone, hquery⟩ := hquery
    have hstep := h.query hone
    have happend : targets ++ (targetHash, targetNumber) :: rest =
        targets ++ [(targetHash, targetNumber)] ++ rest := by
      rw [List.append_assoc, List.singleton_append]
    dsimp only at hquery
    split_ifs at hquery hstep
    · rw [happend]
      exact ih hstep hquery
    · obtain rfl := Except.ok.inj hquery
      obtain ⟨target, hmem, hwrong⟩ := hstep
      exact .inr ⟨rfl, target, happend ▸ List.mem_append_left rest hmem, hwrong⟩

end Query

section Address

variable {gate : UntilImported H} {k : Nat} {canonNumber : UInt64}

-- What the gate keeps under an address, and what is ready under it.
def UntilImported.under (gate : UntilImported H) (k : Nat) :
    LockedCommit H × List (Nat × CommitMessage H) :=
  (gate.commits k, gate.ready.filter (·.1 = k))

-- A handle with the right number counts down, and the last one takes the commit.
theorem waitCompleted_eq (handle : BlockCommitMessage) (canonNumber : UInt64)
    (inner : LockedCommit H) :
    waitCompleted handle canonNumber inner =
      if handle.targetNumber ≠ canonNumber then (inner, none)
      else if inner.count = 1 then (⟨inner.count, none⟩, inner.commit)
      else (⟨inner.count - 1, inner.commit⟩, none) := by
  simp [waitCompleted, releaseLast, compareAndSwap]

theorem complete_under_of_ne {handle : BlockCommitMessage} (h : handle.inner ≠ k) :
    (complete canonNumber gate handle).under k = gate.under k := by
  unfold complete UntilImported.under
  rcases hdone : waitCompleted handle canonNumber (gate.commits handle.inner) with ⟨inner, released⟩
  have hready : (released.toList.map (handle.inner, ·)).filter (·.1 = k) = [] := by
    cases released <;> simp [h]
  simp only [Function.update_of_ne h.symm, List.filter_append, hready, List.append_nil]

theorem complete_under_self (gate : UntilImported H) (targetNumber : UInt64) :
    (complete canonNumber gate ⟨k, targetNumber⟩).under k =
      ((waitCompleted ⟨k, targetNumber⟩ canonNumber (gate.under k).1).1, (gate.under k).2 ++
        (waitCompleted ⟨k, targetNumber⟩ canonNumber (gate.under k).1).2.toList.map (k, ·)) := by
  unfold complete UntilImported.under
  rcases waitCompleted ⟨k, targetNumber⟩ canonNumber (gate.commits k) with ⟨inner, released⟩
  cases released <;> simp

theorem foldl_complete_pending (handles : List BlockCommitMessage) (gate : UntilImported H) :
    (handles.foldl (complete canonNumber) gate).pending = gate.pending := by
  induction handles generalizing gate with
  | nil => rfl
  | cons handle handles ih => exact ih _

theorem foldl_complete_next (handles : List BlockCommitMessage) (gate : UntilImported H) :
    (handles.foldl (complete canonNumber) gate).next = gate.next := by
  induction handles generalizing gate with
  | nil => rfl
  | cons handle handles ih => exact ih _

theorem foldl_complete_under_of_ne {handles : List BlockCommitMessage}
    (h : handles.filter (·.inner = k) = []) (gate : UntilImported H) :
    (handles.foldl (complete canonNumber) gate).under k = gate.under k := by
  have hother := List.filter_eq_nil_iff.mp h
  clear h
  induction handles generalizing gate with
  | nil => rfl
  | cons handle handles ih =>
    rw [List.foldl_cons, ih _ fun other hmem => hother other (List.mem_cons_of_mem _ hmem)]
    exact complete_under_of_ne fun hinner =>
      hother handle List.mem_cons_self (decide_eq_true hinner)

variable [DecidableEq H]

theorem foldl_wait (inner : Nat) (checkedHashes : CheckedHashes H)
    (pending : H → List BlockCommitMessage) (hash : H) :
    checkedHashes.foldl (wait inner) pending hash = pending hash ++
      ((wanted checkedHashes).filter (·.1 = hash)).map fun target => ⟨inner, target.2⟩ := by
  induction checkedHashes generalizing pending with
  | nil => simp
  | cons checked checkedHashes ih =>
    obtain ⟨checkedHash, entry⟩ := checked
    rw [List.foldl_cons, ih]
    cases entry with
    | known _ => rfl
    | unknown targetNumber =>
      have hwanted : wanted ((checkedHash, .unknown targetNumber) :: checkedHashes) =
          (checkedHash, targetNumber) :: wanted checkedHashes := rfl
      rw [hwanted]
      by_cases hsame : checkedHash = hash
      · subst hsame
        simp [wait]
      · simp [wait, hsame, Ne.symm hsame]

theorem completeHash_pending (gate : UntilImported H) (hash : H) :
    (completeHash number gate hash).pending = Function.update gate.pending hash [] :=
  foldl_complete_pending _ _

theorem completeHash_next (gate : UntilImported H) (hash : H) :
    (completeHash number gate hash).next = gate.next :=
  foldl_complete_next _ _

theorem completeHash_under_of_none {hash : H}
    (h : (gate.pending hash).filter (·.inner = k) = []) :
    (completeHash number gate hash).under k = gate.under k :=
  foldl_complete_under_of_ne h _

theorem completeHash_under_of_one {hash : H} {targetNumber : UInt64}
    (h : (gate.pending hash).filter (·.inner = k) = [⟨k, targetNumber⟩]) :
    (completeHash number gate hash).under k =
      ((waitCompleted ⟨k, targetNumber⟩ (number hash) (gate.under k).1).1, (gate.under k).2 ++
        (waitCompleted ⟨k, targetNumber⟩ (number hash) (gate.under k).1).2.toList.map (k, ·)) := by
  obtain ⟨before, after, hpending, hbefore, _, hafter⟩ := List.filter_eq_cons_iff.mp h
  have hstart : (before.foldl (complete (number hash))
      { gate with pending := Function.update gate.pending hash [] }).under k = gate.under k :=
    foldl_complete_under_of_ne (List.filter_eq_nil_iff.mpr hbefore) _
  unfold completeHash
  rw [hpending, List.foldl_append, List.foldl_cons, foldl_complete_under_of_ne hafter,
    complete_under_self, hstart]

end Address

section Waits

variable [DecidableEq H]

def remaining (targets : List (H × UInt64)) (seen : List H) : List (H × UInt64) :=
  targets.filter (·.1 ∉ seen)

theorem remaining_concat (targets : List (H × UInt64)) (seen : List H) (hash : H) :
    remaining targets (seen ++ [hash]) = (remaining targets seen).filter (·.1 ≠ hash) := by
  unfold remaining
  rw [List.filter_filter]
  refine List.filter_congr fun target _ => ?_
  simp [not_or, and_comm]

-- No block that the gate has seen has another number than its target.
def RightSoFar (targets : List (H × UInt64)) (seen : List H) : Prop :=
  ∀ target ∈ targets, target.1 ∈ seen → target.2 = number target.1

variable {number} {targets : List (H × UInt64)} {seen : List H} {hash : H}

theorem rightSoFar_concat :
    RightSoFar number targets (seen ++ [hash]) ↔ RightSoFar number targets seen ∧
      ∀ target ∈ (remaining targets seen).filter (·.1 = hash), target.2 = number target.1 := by
  constructor
  · intro h
    refine ⟨fun target hmem hseen => h target hmem (List.mem_append_left _ hseen), ?_⟩
    intro target hmem
    obtain ⟨hmem, hhash⟩ := List.mem_filter.mp hmem
    refine h target (List.mem_of_mem_filter hmem) (List.mem_append_right _ ?_)
    simpa using hhash
  · intro h target hmem hseen
    by_cases hbefore : target.1 ∈ seen
    · exact h.1 target hmem hbefore
    · refine h.2 target (List.mem_filter.mpr ⟨List.mem_filter.mpr ⟨hmem, by simpa using hbefore⟩, ?_⟩)
      rcases List.mem_append.mp hseen with hseen | hseen
      · exact absurd hseen hbefore
      · simpa using hseen

theorem filter_hash_cases (h : (targets.map Prod.fst).Nodup) (hash : H) :
    targets.filter (·.1 = hash) = [] ∨
      ∃ targetNumber, targets.filter (·.1 = hash) = [(hash, targetNumber)] := by
  induction targets with
  | nil => exact .inl rfl
  | cons target targets ih =>
    obtain ⟨hfresh, hdistinct⟩ := List.nodup_cons.mp h
    by_cases hsame : target.1 = hash
    · have hnone : targets.filter (·.1 = hash) = [] := by
        rw [List.filter_eq_nil_iff]
        intro other hmem hother
        rw [hsame, ← of_decide_eq_true hother] at hfresh
        exact hfresh (List.mem_map_of_mem hmem)
      rw [List.filter_cons, if_pos (decide_eq_true hsame), hnone]
      exact .inr ⟨target.2, by rw [← hsame]⟩
    · rw [List.filter_cons, if_neg (by simpa using hsame)]
      exact ih hdistinct

-- How far a message is that waits under address `k` for these targets. `returned` is what
-- polls have returned under the address so far.
structure Waits (number : H → UInt64) (k : Nat) (message : CommitMessage H)
    (targets : List (H × UInt64)) (seen : List H) (gate : UntilImported H)
    (returned : List (Nat × CommitMessage H)) : Prop where
  distinct : (targets.map Prod.fst).Nodup
  handles : ∀ hash, (gate.pending hash).filter (·.inner = k) =
    ((remaining targets seen).filter (·.1 = hash)).map fun target => ⟨k, target.2⟩
  -- The counter is ahead of the outstanding handles by those that have refused.
  counter : ∃ refusals, (refusals = 0 ↔ RightSoFar number targets seen) ∧
    if remaining targets seen = [] ∧ refusals = 0 then returned ++ (gate.under k).2 = [(k, message)]
    else (gate.under k).1 = ⟨(remaining targets seen).length + refusals, some message⟩ ∧
      returned ++ (gate.under k).2 = []

variable {k : Nat} {message : CommitMessage H} {gate : UntilImported H}
  {returned : List (Nat × CommitMessage H)}

theorem length_remaining_concat (targets : List (H × UInt64)) (seen : List H) (hash : H) :
    (remaining targets seen).length =
      ((remaining targets seen).filter (·.1 = hash)).length +
        (remaining targets (seen ++ [hash])).length := by
  rw [remaining_concat, List.length_eq_length_filter_add (·.1 = hash)]
  simp

theorem remaining_concat_of_none (h : (remaining targets seen).filter (·.1 = hash) = []) :
    remaining targets (seen ++ [hash]) = remaining targets seen := by
  rw [remaining_concat, List.filter_eq_self]
  intro target hmem
  simpa using List.filter_eq_nil_iff.mp h target hmem

theorem rightSoFar_concat_of_none (h : (remaining targets seen).filter (·.1 = hash) = []) :
    RightSoFar number targets (seen ++ [hash]) ↔ RightSoFar number targets seen := by
  rw [rightSoFar_concat, h]
  simp

theorem rightSoFar_concat_of_one {targetNumber : UInt64}
    (h : (remaining targets seen).filter (·.1 = hash) = [(hash, targetNumber)]) :
    RightSoFar number targets (seen ++ [hash]) ↔
      RightSoFar number targets seen ∧ targetNumber = number hash := by
  rw [rightSoFar_concat, h]
  simp

theorem Waits.handles_imported (h : Waits number k message targets seen gate returned)
    (hash other : H) :
    ((completeHash number gate hash).pending other).filter (·.inner = k) =
      ((remaining targets (seen ++ [hash])).filter (·.1 = other)).map fun target =>
        ⟨k, target.2⟩ := by
  rw [completeHash_pending, remaining_concat, Function.update_apply]
  by_cases hsame : other = hash
  · subst hsame
    simp [List.filter_filter]
  · rw [if_neg hsame, h.handles other, List.filter_filter]
    congr 1
    refine List.filter_congr fun target _ => ?_
    by_cases hother : target.1 = other
    · simp [hother, hsame]
    · simp [hother]

theorem Waits.imported (h : Waits number k message targets seen gate returned) (hash : H) :
    Waits number k message targets (seen ++ [hash]) (completeHash number gate hash) returned := by
  have hdistinct : ((remaining targets seen).map Prod.fst).Nodup :=
    h.distinct.sublist (List.filter_sublist.map Prod.fst)
  refine ⟨h.distinct, h.handles_imported hash, ?_⟩
  obtain ⟨refusals, hright, hstate⟩ := h.counter
  have hlength := length_remaining_concat targets seen hash
  have hhandles := h.handles hash
  rcases filter_hash_cases hdistinct hash with hnone | ⟨targetNumber, hone⟩
  · -- Nothing waits for this hash.
    rw [hnone] at hhandles
    rw [completeHash_under_of_none number hhandles, remaining_concat_of_none hnone,
      rightSoFar_concat_of_none hnone]
    exact ⟨refusals, hright, hstate⟩
  · have hlength' : (remaining targets seen).length =
        1 + (remaining targets (seen ++ [hash])).length := by
      rw [hlength, hone]
      rfl
    have hsome : ¬ (remaining targets seen = [] ∧ refusals = 0) := by
      intro hempty
      rw [hempty.1] at hlength'
      simp only [List.length_nil] at hlength'
      omega
    rw [if_neg hsome] at hstate
    obtain ⟨hlocked, hnothing⟩ := hstate
    rw [hone] at hhandles
    rw [completeHash_under_of_one number hhandles, waitCompleted_eq, hlocked,
      rightSoFar_concat_of_one hone]
    dsimp only
    by_cases hnumber : targetNumber = number hash
    · rw [if_neg (not_not.mpr hnumber), ← List.append_assoc, hnothing]
      by_cases hlast : (remaining targets seen).length + refusals = 1
      · -- The last handle: nothing is outstanding and none has refused.
        have hzero : refusals = 0 := by omega
        have hempty : remaining targets (seen ++ [hash]) = [] :=
          List.length_eq_zero_iff.mp (by omega)
        refine ⟨0, by simp [hnumber, ← hright, hzero], ?_⟩
        rw [if_pos ⟨hempty, rfl⟩, if_pos hlast]
        rfl
      · refine ⟨refusals, by simp [hnumber, hright], ?_⟩
        have hmore : ¬ (remaining targets (seen ++ [hash]) = [] ∧ refusals = 0) := by
          intro hempty
          rw [hempty.1, List.length_nil] at hlength'
          omega
        have hcount : (remaining targets seen).length + refusals - 1 =
            (remaining targets (seen ++ [hash])).length + refusals := by
          omega
        rw [if_neg hmore, if_neg hlast, hcount]
        exact ⟨rfl, rfl⟩
    · -- The handle refuses, and the counter stays where it is.
      rw [if_pos hnumber, ← List.append_assoc, hnothing]
      have hcount : (remaining targets seen).length + refusals =
          (remaining targets (seen ++ [hash])).length + (refusals + 1) := by
        omega
      refine ⟨refusals + 1, by simp [hnumber], ?_⟩
      rw [if_neg (by simp), hcount]
      exact ⟨rfl, rfl⟩

end Waits

end Yeeroot.Crfg
