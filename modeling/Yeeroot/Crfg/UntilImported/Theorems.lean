import Yeeroot.Crfg.UntilImported.Lemmas
import Yeeroot.Transition

namespace Yeeroot.Crfg

open Grandpa Transition

variable {ε H : Type} {number : H → UInt64}

section Schedule

variable [DecidableEq H]

variable {known : H → Except ε Bool} {message : CommitMessage H} {gate gate' : UntilImported H}

theorem scheduleWait_cases (h : scheduleWait number known message gate = .ok gate') :
    ((∃ target ∈ message.named, target.2 ≠ number target.1) ∧
      gate' = { gate with next := gate.next + 1 }) ∨
    ∃ checkedHashes unknownCount, Queried number known message.named checkedHashes unknownCount ∧
      ((unknownCount = 0 ∧ gate' = { gate with
          next := gate.next + 1, ready := gate.ready ++ [(gate.next, message)] }) ∨
      (unknownCount ≠ 0 ∧ gate' = { gate with
          next := gate.next + 1
          commits := Function.update gate.commits gate.next ⟨unknownCount, some message⟩
          pending := checkedHashes.foldl (wait gate.next) gate.pending })) := by
  rw [scheduleWait, Run.bind_eq_ok] at h
  obtain ⟨found, hquery, h⟩ := h
  rcases Queried.nil.all message.named hquery with ⟨checkedHashes, unknownCount, rfl, hqueried⟩ |
    ⟨rfl, hwrong⟩
  · refine .inr ⟨checkedHashes, unknownCount, hqueried, ?_⟩
    dsimp only at h
    split_ifs at h with hzero
    · exact .inl ⟨hzero, (Except.ok.inj h).symm⟩
    · exact .inr ⟨hzero, (Except.ok.inj h).symm⟩
  · exact .inl ⟨hwrong, (Except.ok.inj h).symm⟩

theorem scheduleWait_next (h : scheduleWait number known message gate = .ok gate') :
    gate'.next = gate.next + 1 := by
  rcases scheduleWait_cases h with ⟨_, rfl⟩ | ⟨_, _, _, ⟨_, rfl⟩ | ⟨_, rfl⟩⟩ <;> rfl

theorem scheduleWait_other (h : scheduleWait number known message gate = .ok gate') {k : Nat}
    (hk : k ≠ gate.next) :
    gate'.under k = gate.under k ∧
      ∀ hash, (gate'.pending hash).filter (·.inner = k) = (gate.pending hash).filter (·.inner = k) := by
  rcases scheduleWait_cases h with ⟨_, rfl⟩ | ⟨checkedHashes, _, _, ⟨_, rfl⟩ | ⟨_, rfl⟩⟩
  · exact ⟨rfl, fun _ => rfl⟩
  · refine ⟨?_, fun _ => rfl⟩
    simp [UntilImported.under, List.filter_append, Ne.symm hk]
  · refine ⟨?_, ?_⟩
    · simp [UntilImported.under, Function.update_of_ne hk]
    · intro hash
      dsimp only
      rw [foldl_wait, List.filter_append, List.filter_map]
      simp [Function.comp_def, Ne.symm hk]

end Schedule

-- No handle waits for the message, and it is not released.
structure Drops (k : Nat) (gate : UntilImported H) (returned : List (Nat × CommitMessage H)) :
    Prop where
  handles : ∀ hash, (gate.pending hash).filter (·.inner = k) = []
  nothing : returned ++ (gate.under k).2 = []

section Follows

variable {k : Nat} {gate gate' : UntilImported H}
  {returned returned' : List (Nat × CommitMessage H)}

-- What is under an address is the same, or has moved from the queue to what is returned.
structure SameUnder (k : Nat) (gate gate' : UntilImported H)
    (returned returned' : List (Nat × CommitMessage H)) : Prop where
  handles : ∀ hash, (gate'.pending hash).filter (·.inner = k) =
    (gate.pending hash).filter (·.inner = k)
  locked : (gate'.under k).1 = (gate.under k).1
  released : returned' ++ (gate'.under k).2 = returned ++ (gate.under k).2

theorem Drops.congr (h : Drops k gate returned) (hsame : SameUnder k gate gate' returned returned') :
    Drops k gate' returned' :=
  ⟨fun hash => (hsame.handles hash).trans (h.handles hash), hsame.released.trans h.nothing⟩

variable [DecidableEq H]

-- Where a message under address `k` is that came in when these blocks were known, after the
-- imports in `seen`: it was dropped for a wrong number, or it waits for the unknown blocks.
def Follows (number : H → UInt64) (k : Nat) (message : CommitMessage H) (known : H → Except ε Bool)
    (seen : List H) (gate : UntilImported H) (returned : List (Nat × CommitMessage H)) : Prop :=
  ((∃ target ∈ message.named, target.2 ≠ number target.1) ∧ Drops k gate returned) ∨
  ∃ checkedHashes unknownCount, Queried number known message.named checkedHashes unknownCount ∧
    Waits number k message (wanted checkedHashes) seen gate returned

theorem Drops.imported (h : Drops k gate returned) (hash : H) :
    Drops k (completeHash number gate hash) returned := by
  refine ⟨?_, ?_⟩
  · intro other
    rw [completeHash_pending, Function.update_apply]
    split_ifs
    · rfl
    · exact h.handles other
  · rw [completeHash_under_of_none number (h.handles hash)]
    exact h.nothing

variable {message : CommitMessage H} {known : H → Except ε Bool} {seen : List H}

theorem Follows.congr (h : Follows number k message known seen gate returned)
    (hsame : SameUnder k gate gate' returned returned') :
    Follows number k message known seen gate' returned' := by
  rcases h with ⟨hwrong, hdrops⟩ | ⟨checkedHashes, unknownCount, hqueried, hwaits⟩
  · exact .inl ⟨hwrong, hdrops.congr hsame⟩
  · refine .inr ⟨checkedHashes, unknownCount, hqueried, hwaits.distinct, ?_, ?_⟩
    · intro hash
      rw [hsame.handles, hwaits.handles]
    · rw [hsame.locked, hsame.released]
      exact hwaits.counter

theorem Follows.imported (h : Follows number k message known seen gate returned) (hash : H) :
    Follows number k message known (seen ++ [hash]) (completeHash number gate hash) returned := by
  rcases h with ⟨hwrong, hdrops⟩ | ⟨checkedHashes, unknownCount, hqueried, hwaits⟩
  · exact .inl ⟨hwrong, hdrops.imported hash⟩
  · exact .inr ⟨checkedHashes, unknownCount, hqueried, hwaits.imported hash⟩

theorem Follows.scheduled (h : scheduleWait number known message gate = .ok gate')
    (hfresh : Drops gate.next gate returned) :
    Follows number gate.next message known [] gate' returned := by
  obtain ⟨hreturned, hready⟩ := List.append_eq_nil_iff.mp hfresh.nothing
  have hall : ∀ targets : List (H × UInt64), remaining targets [] = targets := by
    intro targets
    simp [remaining]
  have hright : ∀ targets : List (H × UInt64), RightSoFar number targets [] := by
    intro targets target _ hseen
    cases hseen
  rcases scheduleWait_cases h with ⟨hwrong, rfl⟩ | ⟨checkedHashes, unknownCount, hqueried, hcases⟩
  · exact .inl ⟨hwrong, hfresh.handles, hfresh.nothing⟩
  · have hdistinct := hqueried.distinct.sublist (wanted_sublist checkedHashes)
    refine .inr ⟨checkedHashes, unknownCount, hqueried, hdistinct, ?_, ?_⟩
    · intro hash
      rw [hall]
      rcases hcases with ⟨hzero, rfl⟩ | ⟨_, rfl⟩
      · have hnone : wanted checkedHashes = [] :=
          List.length_eq_zero_iff.mp (hqueried.counted.symm.trans hzero)
        rw [hnone]
        exact hfresh.handles hash
      · dsimp only
        rw [foldl_wait, List.filter_append, hfresh.handles hash, List.nil_append, List.filter_map]
        simp [Function.comp_def]
    · refine ⟨0, by simp [hright], ?_⟩
      rw [hall, hreturned, List.nil_append]
      have hcount := hqueried.counted
      rcases hcases with ⟨hzero, rfl⟩ | ⟨hsome, rfl⟩
      · rw [if_pos ⟨List.length_eq_zero_iff.mp (hcount.symm.trans hzero), rfl⟩]
        have hready' : gate.ready.filter (·.1 = gate.next) = [] := hready
        simp [UntilImported.under, hready']
      · have hne : wanted checkedHashes ≠ [] := by
          intro hnone
          rw [hnone] at hcount
          exact hsome hcount
        rw [if_neg fun hboth => hne hboth.1, ← hcount]
        exact ⟨by simp [UntilImported.under], hready⟩

end Follows

-- What happens to the gate, as an observer notes it down.
inductive Observation (ε H : Type) where
  | input (message : CommitMessage H) (known : H → Except ε Bool)
  | imported (hash : H)
  | returned (item : Nat × CommitMessage H)

namespace Observation

def isInput : Observation ε H → Bool
  | .input _ _ => true
  | _ => false

def imported? : Observation ε H → Option H
  | .imported hash => some hash
  | _ => none

def returned? : Observation ε H → Option (Nat × CommitMessage H)
  | .returned item => some item
  | _ => none

end Observation

def addressAfter (trace : List (Observation ε H)) : Nat := trace.countP Observation.isInput

def seenIn (trace : List (Observation ε H)) : List H := trace.filterMap Observation.imported?

def returnedIn (k : Nat) (trace : List (Observation ε H)) : List (Nat × CommitMessage H) :=
  (trace.filterMap Observation.returned?).filter (·.1 = k)

theorem split_concat {observation : Observation ε H}
    {trace before after : List (Observation ε H)}
    {message : CommitMessage H} {known : H → Except ε Bool}
    (h : trace ++ [observation] = before ++ .input message known :: after) :
    (∃ after', after = after' ++ [observation] ∧ trace = before ++ .input message known :: after') ∨
    (after = [] ∧ before = trace ∧ observation = .input message known) := by
  rcases List.eq_nil_or_concat after with rfl | ⟨after', last, rfl⟩
  · obtain ⟨rfl, hlast⟩ := List.append_inj' h rfl
    exact .inr ⟨rfl, rfl, List.singleton_inj.mp hlast⟩
  · rw [List.concat_eq_append] at h ⊢
    rw [← List.cons_append, ← List.append_assoc] at h
    obtain ⟨htrace, hlast⟩ := List.append_inj' h rfl
    obtain rfl := List.singleton_inj.mp hlast
    exact .inl ⟨after', rfl, htrace⟩

section Trace

variable [DecidableEq H] {gate gate' : UntilImported H} {trace : List (Observation ε H)}

-- What holds of the gate after a trace: addresses are given in order, nothing is under those
-- to come, and every message is where it should be.
structure Traced (number : H → UInt64) (trace : List (Observation ε H)) (gate : UntilImported H) :
    Prop where
  next : gate.next = addressAfter trace
  fresh : ∀ k, gate.next ≤ k → Drops k gate (returnedIn k trace)
  follows : ∀ before message known after, trace = before ++ .input message known :: after →
    Follows number (addressAfter before) message known (seenIn after) gate
      (returnedIn (addressAfter before) trace)

theorem traced_new (number : H → UInt64) :
    Traced number ([] : List (Observation ε H)) (.new H) := by
  refine ⟨rfl, fun k _ => ⟨fun _ => rfl, rfl⟩, ?_⟩
  intro before message known after hsplit
  simp at hsplit

theorem Traced.input (h : Traced number trace gate) {message : CommitMessage H}
    {known : H → Except ε Bool} (hmove : scheduleWait number known message gate = .ok gate') :
    Traced number (trace ++ [.input message known]) gate' := by
  have hreturned : ∀ k, returnedIn k (trace ++ [.input message known]) = returnedIn k trace := by
    intro k
    simp [returnedIn, Observation.returned?]
  have hsame : ∀ k, k ≠ gate.next →
      SameUnder k gate gate' (returnedIn k trace) (returnedIn k trace) := by
    intro k hk
    obtain ⟨hunder, hhandles⟩ := scheduleWait_other hmove hk
    exact ⟨hhandles, by rw [hunder], by rw [hunder]⟩
  have hnext := scheduleWait_next hmove
  refine ⟨?_, ?_, ?_⟩
  · rw [hnext, h.next]
    simp [addressAfter, Observation.isInput]
  · intro k hk
    rw [hreturned]
    exact (h.fresh k (by omega)).congr (hsame k (by omega))
  · intro before message' known' after hsplit
    rw [hreturned]
    rcases split_concat hsplit with ⟨after', rfl, htrace⟩ | ⟨rfl, rfl, hobservation⟩
    · have hbefore : addressAfter before ≠ gate.next := by
        rw [h.next, htrace]
        simp [addressAfter, Observation.isInput]
      have hseen : seenIn (after' ++ [.input message known]) = seenIn after' := by
        simp [seenIn, Observation.imported?]
      rw [hseen]
      exact (h.follows before message' known' after' htrace).congr (hsame _ hbefore)
    · obtain ⟨rfl, rfl⟩ := Observation.input.inj hobservation
      rw [← h.next]
      exact Follows.scheduled hmove (h.fresh gate.next (Nat.le_refl _))

theorem Traced.imported (h : Traced number trace gate) (hash : H) :
    Traced number (trace ++ [.imported hash]) (completeHash number gate hash) := by
  have hreturned : ∀ k, returnedIn k (trace ++ [.imported hash]) = returnedIn k trace := by
    intro k
    simp [returnedIn, Observation.returned?]
  refine ⟨?_, ?_, ?_⟩
  · rw [completeHash_next, h.next]
    simp [addressAfter, Observation.isInput]
  · intro k hk
    rw [completeHash_next] at hk
    rw [hreturned]
    exact (h.fresh k hk).imported hash
  · intro before message known after hsplit
    rw [hreturned]
    rcases split_concat hsplit with ⟨after', rfl, htrace⟩ | ⟨_, _, hobservation⟩
    · have hseen : seenIn (after' ++ [.imported hash]) = seenIn after' ++ [hash] := by
        simp [seenIn, Observation.imported?]
      rw [hseen]
      exact (h.follows before message known after' htrace).imported hash
    · cases hobservation

theorem Traced.returned (h : Traced number trace gate) {item : Nat × CommitMessage H}
    {ready : List (Nat × CommitMessage H)} (hready : gate.ready = item :: ready) :
    Traced number (trace ++ [.returned item]) { gate with ready := ready } := by
  have hsame : ∀ k, SameUnder k gate { gate with ready := ready } (returnedIn k trace)
      (returnedIn k (trace ++ [.returned item])) := by
    intro k
    refine ⟨fun _ => rfl, rfl, ?_⟩
    simp only [returnedIn, UntilImported.under, hready, List.filterMap_append, List.append_assoc,
      ← List.filter_append]
    rfl
  refine ⟨?_, ?_, ?_⟩
  · rw [h.next]
    simp [addressAfter, Observation.isInput]
  · intro k hk
    exact (h.fresh k hk).congr (hsame k)
  · intro before message known after hsplit
    rcases split_concat hsplit with ⟨after', rfl, htrace⟩ | ⟨_, _, hobservation⟩
    · have hseen : seenIn (after' ++ [.returned item]) = seenIn after' := by
        simp [seenIn, Observation.imported?]
      rw [hseen]
      exact (h.follows before message known after' htrace).congr (hsame _)
    · cases hobservation

theorem Traced.scheduleAll (inputs : List (CommitMessage H × (H → Except ε Bool)))
    (h : Traced number trace gate) (hrun : scheduleAll (commitKind number) inputs gate = .ok gate') :
    Traced number (trace ++ inputs.map fun input => .input input.1 input.2) gate' := by
  induction inputs generalizing trace gate with
  | nil =>
    obtain rfl := Except.ok.inj hrun
    simpa using h
  | cons input inputs ih =>
    rw [Crfg.scheduleAll, Run.bind_eq_ok] at hrun
    obtain ⟨middle, hone, hrun⟩ := hrun
    have hrest := ih (h.input hone) hrun
    rwa [List.append_assoc] at hrest

theorem Traced.importAll (hashes : List H) (h : Traced number trace gate) :
    Traced number (trace ++ hashes.map .imported) (hashes.foldl (completeHash number) gate) := by
  induction hashes generalizing trace gate with
  | nil => simpa using h
  | cons hash hashes ih =>
    have hrest := ih (h.imported hash)
    rwa [List.append_assoc] at hrest

end Trace

def foundIn (check : Except ε (Option (List H × (H → Except ε Bool)))) : List H :=
  match check with
  | .ok (some (hashes, known)) => hashes.filter fun hash => (known hash).toOption = some true
  | _ => []

def Polled.trace : Polled (Nat × CommitMessage H) → List (Observation ε H)
  | .ready item => [.returned item]
  | _ => []

def CommitPoll.trace (input : CommitPoll ε H) (result : Polled (Nat × CommitMessage H)) :
    List (Observation ε H) :=
  let scheduled := input.inputs.map fun message => .input message.1 message.2
  if input.inputsEnd.isSome then scheduled
  else
    let notified := scheduled ++ input.notifications.map .imported
    if input.notificationsEnd.isSome then notified
    else notified ++ (foundIn input.check).map .imported ++ result.trace

section Poll

variable [DecidableEq H] {gate gate' : UntilImported H} {trace : List (Observation ε H)}

theorem knownKeys_eq {known : H → Except ε Bool} {hashes keys : List H}
    (h : knownKeys (commitKind number) known hashes = .ok keys) :
    keys = hashes.filter fun hash => (known hash).toOption = some true := by
  induction hashes generalizing keys with
  | nil => exact (Except.ok.inj h).symm
  | cons hash hashes ih =>
    simp only [knownKeys, Run.bind_eq_ok] at h
    obtain ⟨block?, hblock, rest, hrest, h⟩ := h
    obtain ⟨isKnown, hknown, hblock⟩ := (Run.bind_eq_ok _ _ _).mp hblock
    obtain rfl := Except.ok.inj hblock
    obtain rfl := Except.ok.inj h
    rw [List.filter_cons, ← ih hrest, hknown]
    cases isKnown <;> rfl

theorem checkPending_eq {check : Option (List H × (H → Except ε Bool))}
    (h : checkPending (commitKind number) check gate = .ok gate') :
    gate' = (foundIn (.ok check)).foldl (completeHash number) gate := by
  unfold checkPending at h
  split at h
  · exact (Except.ok.inj h).symm
  · rw [Run.bind_eq_ok] at h
    obtain ⟨keys, hkeys, h⟩ := h
    obtain rfl := Except.ok.inj h
    rw [foundIn, ← knownKeys_eq hkeys]
    rfl

theorem Traced.popReady (h : Traced number trace gate) :
    Traced number (trace ++ (popReady (commitKind (ε := ε) number) gate).2.trace)
      (popReady (commitKind (ε := ε) number) gate).1 := by
  unfold Crfg.popReady
  split
  · simpa [Polled.trace] using h
  · next item ready hready => exact h.returned hready

theorem Traced.poll {input : CommitPoll ε H} {result : Polled (Nat × CommitMessage H)} (h : Traced number trace gate)
    (hpoll : poll (commitKind number) input gate = .ok (gate', result)) :
    Traced number (trace ++ input.trace result) gate' := by
  rw [Crfg.poll, Run.bind_eq_ok] at hpoll
  obtain ⟨scheduled, hscheduled, hpoll⟩ := hpoll
  have htraced := h.scheduleAll input.inputs hscheduled
  have hnotified := htraced.importAll input.notifications
  rw [List.append_assoc] at hnotified
  unfold CommitPoll.trace
  cases hinputs : input.inputsEnd with
  | some ended =>
    simp only [hinputs, Run.bind_eq_ok] at hpoll
    obtain ⟨_, _, hdone⟩ := hpoll
    obtain ⟨rfl, rfl⟩ := Prod.mk.inj (Except.ok.inj hdone)
    exact htraced
  | none =>
    cases hnotifications : input.notificationsEnd with
    | some ended =>
      simp only [hinputs, hnotifications, Run.bind_eq_ok] at hpoll
      obtain ⟨_, _, hdone⟩ := hpoll
      obtain ⟨rfl, rfl⟩ := Prod.mk.inj (Except.ok.inj hdone)
      exact hnotified
    | none =>
      simp only [hinputs, hnotifications, Run.bind_eq_ok] at hpoll
      obtain ⟨check, hcheck, checked, hchecked, hpopped⟩ := hpoll
      have hfound := hnotified.importAll (foundIn (.ok check))
      obtain rfl : checked = (foundIn (.ok check)).foldl (completeHash number)
          (input.notifications.foldl (completeHash number) scheduled) :=
        checkPending_eq hchecked
      have hdone := hfound.popReady
      rw [Except.ok.inj hpopped] at hdone
      simpa [hcheck, List.append_assoc] using hdone

theorem ready_completeHash (gate : UntilImported H) (hash : H) :
    gate.ready <+: (completeHash number gate hash).ready := by
  have hall : ∀ (handles : List BlockCommitMessage) (gate : UntilImported H),
      gate.ready <+: (handles.foldl (complete (number hash)) gate).ready := by
    intro handles
    induction handles with
    | nil => exact fun gate => List.prefix_refl _
    | cons handle handles ih =>
      exact fun gate => (List.prefix_append gate.ready _).trans (ih (complete _ gate handle))
  exact hall (gate.pending hash) { gate with pending := Function.update gate.pending hash [] }

theorem ready_scheduleWait (h : scheduleWait number known message gate = .ok gate') :
    gate.ready <+: gate'.ready := by
  rcases scheduleWait_cases h with ⟨_, rfl⟩ | ⟨_, _, _, ⟨_, rfl⟩ | ⟨_, rfl⟩⟩
  · exact List.prefix_refl _
  · exact List.prefix_append _ _
  · exact List.prefix_refl _

-- A poll without the end of a stream returns the head of the queue, which what the poll
-- itself releases has joined at its end.
theorem poll_returns_head {input : CommitPoll ε H} {result : Polled (Nat × CommitMessage H)}
    (hinputs : input.inputsEnd = none) (hnotifications : input.notificationsEnd = none)
    (hpoll : poll (commitKind number) input gate = .ok (gate', result)) :
    ∃ queue, gate.ready <+: queue ∧
      ((queue = [] ∧ result = .notReady ∧ gate'.ready = []) ∨
        ∃ item, queue = item :: gate'.ready ∧ result = .ready item) := by
  obtain ⟨checked, hgrown, hpopped | ⟨_, _, hends⟩⟩ := poll_keeps
    (fun later => gate.ready <+: later.ready) (fun _ => True)
    (fun hgrown _ hone => hgrown.trans (ready_scheduleWait hone))
    (fun hash hgrown => hgrown.trans (ready_completeHash _ hash)) (List.prefix_refl _)
    (fun _ _ => trivial) hpoll
  · refine ⟨checked.ready, hgrown, ?_⟩
    unfold popReady at hpopped
    split at hpopped
    · next hempty =>
        obtain ⟨rfl, rfl⟩ := Prod.mk.inj hpopped
        exact .inl ⟨hempty, rfl, hempty⟩
    · next item ready hready =>
        obtain ⟨rfl, rfl⟩ := Prod.mk.inj hpopped
        exact .inr ⟨item, hready, rfl⟩
  · exact absurd ⟨hinputs, hnotifications⟩ hends

-- A run of the gate, poll by poll, with all that is observed.
def pollStep (number : H → UInt64) (gate : UntilImported H) (input : CommitPoll ε H)
    (gate' : UntilImported H) (observed : List (Observation ε H)) : Prop :=
  ∃ result, poll (commitKind number) input gate = .ok (gate', result) ∧ observed = input.trace result

theorem traced_of_reaches (h : Reaches (pollStep number) (fun _ _ => True) (.new H) trace gate) :
    Traced number trace gate := by
  refine h.invariant (Traced number) (traced_new number) ?_
  intro trace gate input gate' observed htraced _ hstep
  obtain ⟨result, hpoll, rfl⟩ := hstep
  exact htraced.poll hpoll

-- What has been released under an address: returned by a poll, or ready to be.
def released (k : Nat) (trace : List (Observation ε H)) (gate : UntilImported H) :
    List (Nat × CommitMessage H) :=
  returnedIn k trace ++ (gate.under k).2

variable {k : Nat} {message : CommitMessage H} {known : H → Except ε Bool}

theorem Waits.released_eq {targets : List (H × UInt64)} {seen : List H}
    {returned : List (Nat × CommitMessage H)}
    (h : Waits number k message targets seen gate returned) :
    ((∀ target ∈ targets, target.1 ∈ seen) ∧ (∀ target ∈ targets, target.2 = number target.1) ∧
      returned ++ (gate.under k).2 = [(k, message)]) ∨
    (¬ ((∀ target ∈ targets, target.1 ∈ seen) ∧ ∀ target ∈ targets, target.2 = number target.1) ∧
      returned ++ (gate.under k).2 = []) := by
  obtain ⟨refusals, hright, hstate⟩ := h.counter
  have hempty : remaining targets seen = [] ↔ ∀ target ∈ targets, target.1 ∈ seen := by
    simp [remaining, List.filter_eq_nil_iff]
  split_ifs at hstate with hdone
  · have hseen := hempty.mp hdone.1
    exact .inl ⟨hseen, fun target hmem => hright.mp hdone.2 target hmem (hseen target hmem), hstate⟩
  · refine .inr ⟨fun hboth => hdone ⟨hempty.mpr hboth.1, ?_⟩, hstate.2⟩
    exact hright.mpr fun target hmem _ => hboth.2 target hmem

-- Of every message that comes in, after any polls: it has been released at most once; with
-- the right numbers, exactly if every hash that was unknown has been imported since; with
-- wrong or different numbers, not at all.
theorem commits_wait_for_blocks
    (h : Reaches (pollStep number) (fun _ _ => True) (.new H) trace gate)
    {before after : List (Observation ε H)}
    (hsplit : trace = before ++ .input message known :: after) :
    (released (addressAfter before) trace gate).length ≤ 1 ∧
    ((∀ target ∈ message.named, target.2 = number target.1) →
      (released (addressAfter before) trace gate = [(addressAfter before, message)] ↔
        ∀ target ∈ message.named, known target.1 = .ok false → .imported target.1 ∈ after)) ∧
    ((∃ target ∈ message.named, target.2 ≠ number target.1) ∨
      (∃ target ∈ message.named, ∃ other ∈ message.named,
        target.1 = other.1 ∧ target.2 ≠ other.2) →
      released (addressAfter before) trace gate = []) := by
  have hseen : ∀ hash, hash ∈ seenIn after ↔ .imported hash ∈ after := by
    intro hash
    unfold seenIn
    rw [List.mem_filterMap]
    constructor
    · intro hmem
      obtain ⟨observation, hmem, heq⟩ := hmem
      cases observation with
      | imported other => exact Option.some.inj heq ▸ hmem
      | _ => cases heq
    · intro hmem
      exact ⟨_, hmem, rfl⟩
  -- Two different numbers cannot both be right.
  have hwrong : ((∃ target ∈ message.named, target.2 ≠ number target.1) ∨
      (∃ target ∈ message.named, ∃ other ∈ message.named,
        target.1 = other.1 ∧ target.2 ≠ other.2)) →
      ¬ ∀ target ∈ message.named, target.2 = number target.1 := by
    intro hcase hright
    rcases hcase with ⟨target, hmem, hne⟩ | ⟨target, hmem, other, hother, hhash, hne⟩
    · exact hne (hright target hmem)
    · exact hne (by rw [hright target hmem, hright other hother, hhash])
  unfold released
  rcases (traced_of_reaches h).follows before message known after hsplit with
    ⟨⟨target, hmem, hne⟩, hdrops⟩ | ⟨checkedHashes, unknownCount, hqueried, hwaits⟩
  · rw [hdrops.nothing]
    refine ⟨Nat.zero_le 1, fun hright => absurd (hright target hmem) hne, fun _ => rfl⟩
  · rw [hqueried.right_iff] at hwrong ⊢
    have hunknown := hqueried.unknown_iff fun hash => .imported hash ∈ after
    simp only [← hseen] at hunknown ⊢
    rw [← hunknown]
    rcases hwaits.released_eq with ⟨himported, hright, hone⟩ | ⟨hopen, hnothing⟩
    · rw [hone]
      exact ⟨Nat.le_refl 1, fun _ => iff_of_true rfl himported, fun hcase => absurd hright (hwrong hcase)⟩
    · rw [hnothing]
      refine ⟨Nat.zero_le 1, fun hright => ?_, fun _ => rfl⟩
      exact iff_of_false (by simp) fun himported => hopen ⟨himported, hright⟩

end Poll

-- A commit that names blocks 5 and 3, which are imported one after the other.
def twoBlockCommit : CommitMessage Nat := (1, ⟨3, 3, [⟨5, 5⟩]⟩)

def pollWith (inputs : List (CommitMessage Nat)) (notifications : List Nat) : CommitPoll Unit Nat where
  inputs := inputs.map fun message => (message, fun _ => .ok false)
  inputsEnd := none
  notifications := notifications
  notificationsEnd := none
  check := .ok none

def twoBlockTrace : List (Observation Unit Nat) :=
  [.input twoBlockCommit fun _ => .ok false, .imported 3, .imported 5,
    .returned (0, twoBlockCommit)]

theorem commits_wait_for_blocks_two : ∃ gate,
    Reaches (pollStep UInt64.ofNat) (fun _ _ => True) (.new Nat) twoBlockTrace gate ∧
    released 0 twoBlockTrace gate = [(0, twoBlockCommit)] := by
  have hrun : Reaches (pollStep UInt64.ofNat) (fun _ _ => True) (.new Nat)
      ([] ++ (pollWith [twoBlockCommit] [3]).trace .notReady ++
        (pollWith [] [5]).trace (.ready (0, twoBlockCommit))) _ :=
    .tail (.tail (.refl _) trivial ⟨.notReady, rfl, rfl⟩) trivial ⟨_, rfl, rfl⟩
  have hsplit : twoBlockTrace = [] ++ .input twoBlockCommit (fun _ => .ok false) ::
      [.imported 3, .imported 5, .returned (0, twoBlockCommit)] := rfl
  refine ⟨_, hrun, ((commits_wait_for_blocks hrun hsplit).2.1 (by decide)).mpr ?_⟩
  intro target hmem _
  have hnamed : target = (5, 5) ∨ target = (3, 3) := by
    simpa [CommitMessage.named, twoBlockCommit] using hmem
  rcases hnamed with rfl | rfl <;> simp

end Yeeroot.Crfg
