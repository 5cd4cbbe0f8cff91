import Yeeroot.Runtime.Dispatch.Lemmas

namespace Yeeroot

open Scale

variable {σ : Type} (env : Substrate σ)

namespace Crfg

def nextAuthorities (authorities : List (SessionKey × UInt64)) (info : SessionKey) :
    List (SessionKey × UInt64) :=
  trimAuthorities authorities ++ [(info, 1)]

theorem trimAuthorities_eq_drop (authorities : List (SessionKey × UInt64)) :
    trimAuthorities authorities =
      authorities.drop (authorities.length + 1 - MAX_AUTHORITIES_SIZE) := by
  induction authorities with
  | nil => rfl
  | cons authority authorities ih =>
    rw [trimAuthorities, ih, List.length_cons]
    split_ifs with hfull
    · rw [Nat.sub_add_comm hfull, List.drop_succ_cons]
    · rw [Nat.sub_eq_zero_of_le (by omega), List.drop_zero]

theorem length_trimAuthorities (authorities : List (SessionKey × UInt64)) :
    (trimAuthorities authorities).length < MAX_AUTHORITIES_SIZE := by
  rw [trimAuthorities_eq_drop, List.length_drop]
  simp only [MAX_AUTHORITIES_SIZE]
  omega

theorem trimAuthorities_subset (authorities : List (SessionKey × UInt64)) :
    trimAuthorities authorities ⊆ authorities :=
  trimAuthorities_eq_drop authorities ▸ List.drop_subset _ _

-- The last entries of a list, as many as are stored.
def window (entries : List (SessionKey × UInt64)) : List (SessionKey × UInt64) :=
  entries.drop (entries.length - MAX_AUTHORITIES_SIZE)

theorem window_of_length_le {entries : List (SessionKey × UInt64)}
    (h : entries.length ≤ MAX_AUTHORITIES_SIZE) : window entries = entries := by
  rw [window, Nat.sub_eq_zero_of_le h, List.drop_zero]

theorem nextAuthorities_window (entries : List (SessionKey × UInt64)) (info : SessionKey) :
    nextAuthorities (window entries) info = window (entries ++ [(info, 1)]) := by
  have hdrop : entries.length + 1 - MAX_AUTHORITIES_SIZE ≤ entries.length := by
    simp only [MAX_AUTHORITIES_SIZE]
    omega
  rw [nextAuthorities, trimAuthorities_eq_drop, window, window, List.drop_drop, List.length_append,
    List.length_singleton, List.drop_append_of_le_length hdrop, List.length_drop]
  congr 2
  simp only [MAX_AUTHORITIES_SIZE]
  omega

-- A call that does something in this module.
inductive Event where
  | update (info : SessionKey)
  | force (authorities : List (SessionKey × UInt64)) (median : UInt64)

def Event.key? : Event → Option SessionKey
  | .update info => some info
  | .force _ _ => none

def Event.signal? : Event → Option Log
  | .update _ => none
  | .force authorities median => some (.forcedAuthoritiesChangeSignal median 0 authorities)

-- What the module reads and writes.
structure View where
  state : CrfgState
  blockNumber : UInt64
  logs : List Log

def View.scheduled (view : View) (info : SessionKey) : StoredPendingChange where
  scheduledAt := view.blockNumber
  delay := 0
  nextAuthorities := nextAuthorities view.state.authorities info
  forced := none

def View.note (view : View) : Event → View
  | .update info => { view with
      state := { view.state with pendingChange := some (view.scheduled info) } }
  | .force authorities median => { view with
      logs := view.logs ++ [.forcedAuthoritiesChangeSignal median 0 authorities] }

def View.run (view : View) (events : List Event) : View := events.foldl View.note view

-- Of several keys the last one counts: every change is scheduled from the stored list.
theorem View.run_eq (view : View) (events : List Event) :
    view.run events = {
      state := ⟨view.state.authorities,
        ((events.filterMap Event.key?).getLast?.map view.scheduled).or view.state.pendingChange⟩
      blockNumber := view.blockNumber
      logs := view.logs ++ events.filterMap Event.signal? } := by
  induction events generalizing view with
  | nil => simp [View.run]
  | cons event events ih =>
    rw [View.run, List.foldl_cons, ← View.run, ih]
    cases event with
    | update info =>
      have hkeys : (Event.update info :: events).filterMap Event.key? =
        info :: events.filterMap Event.key? := rfl
      have hsame : (view.note (.update info)).scheduled = view.scheduled := rfl
      rw [hkeys, List.getLast?_cons, hsame]
      cases (events.filterMap Event.key?).getLast? <;> rfl
    | force authorities median =>
      have hsignals : (Event.force authorities median :: events).filterMap Event.signal? =
        .forcedAuthoritiesChangeSignal median 0 authorities ::
          events.filterMap Event.signal? := rfl
      rw [hsignals, List.append_cons]
      rfl

end Crfg

def State.crfgView (st : State σ) : Crfg.View := ⟨st.crfg, st.system.blockNumber, st.system.logs⟩

namespace Balances

variable (who : AccountId) (balance : Balance) (st : State σ)

theorem setFreeBalance_crfgView : (setFreeBalance who balance st).crfgView = st.crfgView := by
  simp only [setFreeBalance, onFreeTooLow]
  split_ifs <;> rfl

theorem setReservedBalance_crfgView :
    (setReservedBalance who balance st).crfgView = st.crfgView := by
  simp only [setReservedBalance, onReservedTooLow]
  split_ifs <;> rfl

theorem ensureAccount_crfgView (exist : Bool) :
    (if exist then st else newAccount env who st).crfgView = st.crfgView := by
  split_ifs <;> rfl

theorem depositCreating_crfgView (value : Balance) :
    (depositCreating env who value st).crfgView = st.crfgView := by
  have hdrop : ∀ (st : State σ) f, (update st f).crfgView = st.crfgView := fun _ _ => rfl
  unfold depositCreating dropPositive dropNegative
  dsimp only
  split_ifs <;> simp only [hdrop, setFreeBalance_crfgView] <;> rfl

theorem transferLocal_crfgView (transactor dest : AccountId)
    (newFromBalance newToBalance fee : Balance) :
    (transferLocal env transactor dest newFromBalance newToBalance fee st).crfgView =
      st.crfgView :=
  (setFreeBalance_crfgView dest newToBalance _).trans
    ((ensureAccount_crfgView env dest _ _).trans (setFreeBalance_crfgView _ _ st))

variable {st}

theorem transfer_crfgView {origin : Origin} {dest : Address} {value : Balance}
    {outcome : Outcome σ} (h : transfer env origin dest value st = .ok outcome) :
    outcome.state.crfgView = st.crfgView := by
  rcases transfer_cases env h with ⟨_, rfl⟩ | ⟨_, _, _, _, h⟩
  · rfl
  · rcases transferFunds_cases env h with ⟨_, rfl⟩ |
      ⟨_, _, _, _, _, _, _, _, _, ⟨_, rfl⟩ | ⟨_, _, _, ⟨_, rfl⟩ | ⟨_, rfl⟩⟩⟩
    · rfl
    · exact setFreeBalance_crfgView _ _ st
    · exact transferLocal_crfgView env st _ _ _ _ _
    · rfl

theorem relayTransfer_crfgView {tx : Bytes} {outcome : Outcome σ}
    (h : relayTransfer env tx st = .ok outcome) : outcome.state.crfgView = st.crfgView := by
  simp only [relayTransfer, Run.bind_eq_ok, Run.expect_eq_ok] at h
  obtain ⟨origin, _, h⟩ := h
  have hannounced := ensureAccount_crfgView env origin.dest st
    (st.balances.freeBalance origin.dest).isSome
  split at h
  · obtain rfl := Except.ok.inj h
    exact hannounced
  · obtain rfl := Except.ok.inj h
    exact (setFreeBalance_crfgView ..).trans hannounced

theorem setBalance_crfgView (origin : Origin) (who : Address) (free reserved : Balance) :
    (setBalance env origin who free reserved st).state.crfgView = st.crfgView := by
  cases origin with
  | root =>
    simp only [setBalance]
    split
    · exact (setReservedBalance_crfgView ..).trans (setFreeBalance_crfgView ..)
    · rfl
  | signed _ => rfl
  | inherent => rfl

theorem makePayment_crfgView (transactor : AccountId) (encodedLen : Nat) (st : State σ) :
    (makePayment transactor encodedLen st).1.crfgView = st.crfgView :=
  makePayment_preserves State.crfgView setFreeBalance_crfgView (fun _ _ => rfl) transactor
    encodedLen st

end Balances

theorem Relay.transfer_crfgView {relay : RelayCall} {st : State σ} {outcome : Outcome σ}
    (h : transfer env relay st = .ok outcome) : outcome.state.crfgView = st.crfgView := by
  unfold transfer at h
  cases htype : relay.relayType with
  | balance =>
    rw [htype] at h
    exact Balances.relayTransfer_crfgView env h
  | assets =>
    rw [htype] at h
    rcases Assets.relayTransfer_cases h with ⟨_, rfl⟩ | ⟨_, _, _, _, rfl⟩ <;> rfl

-- What a call does in the crfg module. A key has to be submitted by an inherent, and a forced
-- change by root or for it.
def Call.crfgEvent (sudoKeys : List AccountId) : Call → Origin → Option Crfg.Event
  | .crfgUpdateAuthorities info, .inherent => some (.update info)
  | .crfgForceUpdateAuthorities authorities median, .root => some (.force authorities median)
  | .sudoSudo proposal, .signed sender =>
    if sender ∈ sudoKeys then proposal.crfgEvent sudoKeys .root else none
  | _, _ => none

theorem dispatch_crfgView {call : Call} {origin : Origin} {st : State σ} {outcome : Outcome σ}
    (h : dispatch env call origin st = .ok outcome) (hraw : call.rawWrite origin = false) :
    outcome.state.crfgView = st.crfgView.run (call.crfgEvent st.sudoKeys origin).toList := by
  induction call generalizing origin outcome with
  | substrate owner args =>
    cases origin with
    | root => cases hraw
    | signed sender =>
      simp only [dispatch, dispatchSubstrate, Run.bind_eq_ok, Run.pure_eq_ok] at h
      obtain ⟨_, _, rfl⟩ := h
      rfl
    | inherent =>
      simp only [dispatch, dispatchSubstrate, Run.bind_eq_ok, Run.pure_eq_ok] at h
      obtain ⟨_, _, rfl⟩ := h
      rfl
  | sudoSudo proposal ih =>
    cases origin with
    | root => exact (Except.ok.inj h) ▸ rfl
    | inherent => exact (Except.ok.inj h) ▸ rfl
    | signed sender =>
      simp only [dispatch] at h
      split_ifs at h with hkey
      · have hevent : (Call.sudoSudo proposal).crfgEvent st.sudoKeys (.signed sender) =
            proposal.crfgEvent st.sudoKeys .root := if_pos hkey
        simp only [Run.bind_eq_ok, Run.pure_eq_ok] at h
        obtain ⟨inner, hinner, rfl⟩ := h
        have hview := ih hinner hraw
        rw [hevent]
        exact hview
      · have hevent : (Call.sudoSudo proposal).crfgEvent st.sudoKeys (.signed sender) = none :=
          if_neg hkey
        rw [← Except.ok.inj h, hevent]
        rfl
  | balancesTransfer dest value => exact Balances.transfer_crfgView env h
  | relayTransfer relay => exact Relay.transfer_crfgView env h
  | assetsTransfer shardCode id target amount =>
    cases Assets.transfers_of_transfer env h <;> rfl
  | balancesSetBalance who free reserved =>
    obtain rfl := Except.ok.inj h
    exact Balances.setBalance_crfgView env origin who free reserved
  | assetsIssue name total decimals =>
    obtain rfl := Except.ok.inj h
    unfold Assets.issue
    split
    · split_ifs <;> rfl
    · rfl
  | sudoSetKeys new =>
    obtain rfl := Except.ok.inj h
    unfold Sudo.setKeys
    split
    · split_ifs
      · split <;> rfl
      · rfl
    · rfl
  | storageStore data =>
    obtain rfl := Except.ok.inj h
    unfold Storage.store
    split
    · split_ifs <;> rfl
    · rfl
  | powSetPowInfo info => exact (Except.ok.inj h) ▸ by cases origin <;> rfl
  | shardingSetShardInfo info => exact (Except.ok.inj h) ▸ by cases origin <;> rfl
  | trackerWriteFinalizedLog hint => exact (Except.ok.inj h) ▸ by cases origin <;> rfl
  | crfgUpdateAuthorities info => exact (Except.ok.inj h) ▸ by cases origin <;> rfl
  | crfgForceUpdateAuthorities authorities median =>
    exact (Except.ok.inj h) ▸ by cases origin <;> rfl

end Yeeroot
