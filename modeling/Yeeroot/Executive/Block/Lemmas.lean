import Yeeroot.Executive.Block
import Yeeroot.Executive.Lemmas

namespace Yeeroot

open Scale

variable {σ : Type} (env : Substrate σ)
variable {call : Call} {st : State σ} {outcome : Outcome σ} {extrinsics : List UncheckedExtrinsic}
  {executed : List (Executed σ)}

-- The relay that a call runs: a relay by anyone, or one that a sudo key proposes.
def Call.runs (sudoKeys : List AccountId) (sender : Option AccountId) : Call → Option RelayCall
  | .relayTransfer relay => some relay
  | .sudoSudo (.relayTransfer relay) =>
    if ∃ who ∈ sudoKeys, sender = some who then some relay else none
  | _ => none

theorem Call.relay?_of_runs {sudoKeys : List AccountId} {sender : Option AccountId}
    {relay : RelayCall} (h : call.runs sudoKeys sender = some relay) :
    call.relay? = some relay := by
  unfold Call.runs at h
  split at h
  · exact h
  · split_ifs at h
    exact h
  · simp at h

-- The origin decodes under the relay's type and, for coins, its destination has room.
def RelayCall.Creditable (relay : RelayCall) (st : State σ) : Prop :=
  ∃ origin, OriginExtrinsic.decode relay.relayType relay.tx.bytes = some origin ∧
    (relay.relayType = .balance →
      checkedAdd (Balances.freeBalance st origin.dest) origin.amount ≠ none)

theorem Relay.inbound_iff {relay : RelayCall} (h : Relay.transfer env relay st = .ok outcome)
    (bytes : Bytes) :
    (∃ transfer, .inbound bytes transfer ∈ outcome.movements) ↔
      relay.Creditable st ∧ relay.tx.bytes = bytes := by
  constructor
  · intro hcase
    obtain ⟨transfer, hm⟩ := hcase
    rcases (Relay.transfer_cases env h).2 with ⟨_, _, hnil⟩ | ⟨origin, hdecode, _, hmoves⟩
    · simp [hnil] at hm
    · rw [hmoves, List.mem_singleton, Movement.inbound.injEq] at hm
      refine ⟨⟨origin, hdecode, fun htype hnone => ?_⟩, hm.1.symm⟩
      -- Without room the coin transfer fails and moves nothing.
      unfold Relay.transfer at h
      rw [htype] at h hdecode
      obtain ⟨origin', _, hdecode', _, _, hcases⟩ := Balances.relayTransfer_cases env h
      obtain rfl := Option.some.inj (hdecode.symm.trans hdecode')
      rcases hcases with ⟨_, rfl⟩ | ⟨_, hsome, _⟩
      · simp [Outcome.fail] at hmoves
      · rw [hnone] at hsome
        simp at hsome
  · intro hcase
    obtain ⟨⟨origin, hdecode, hroom⟩, rfl⟩ := hcase
    obtain ⟨outcome', hcredit, _, hmoves⟩ := Relay.transfer_credits env st hdecode hroom
    obtain rfl := Except.ok.inj (h.symm.trans hcredit)
    exact ⟨origin.transfer, by rw [hmoves]; exact List.mem_singleton_self _⟩

theorem not_inbound_of_relay?_none {origin : Origin} (h : dispatch env call origin st = .ok outcome)
    (hnone : call.relay? = none) (bytes : Bytes) :
    ¬ ∃ transfer, .inbound bytes transfer ∈ outcome.movements := by
  intro hcase
  obtain ⟨transfer, hm⟩ := hcase
  obtain ⟨relay, _, hrelay, _⟩ := dispatch_inbound env h hm
  rw [hnone] at hrelay
  simp at hrelay

theorem dispatch_root_inbound (h : dispatch env call .root st = .ok outcome) {bytes : Bytes}
    {transfer : Transfer} (hm : .inbound bytes transfer ∈ outcome.movements) :
    ∃ relay, call = .relayTransfer relay := by
  cases call with
  | relayTransfer relay => exact ⟨relay, rfl⟩
  | sudoSudo proposal =>
    obtain rfl := Except.ok.inj h
    simp [Outcome.fail] at hm
  | _ => exact absurd ⟨transfer, hm⟩ (not_inbound_of_relay?_none env h rfl bytes)

theorem dispatch_credits_iff (sender : Option AccountId)
    (h : dispatch env call (Origin.ofSender sender) st = .ok outcome) (bytes : Bytes) :
    (∃ transfer, .inbound bytes transfer ∈ outcome.movements) ↔
      ∃ relay, (call.runs st.sudoKeys sender = some relay ∧ relay.Creditable st) ∧
        relay.tx.bytes = bytes := by
  cases call with
  | relayTransfer relay =>
    rw [Relay.inbound_iff env h bytes]
    simp [Call.runs, and_assoc]
  | sudoSudo proposal =>
    have hnone : ∀ {outcome : Outcome σ}, outcome.movements = [] →
        ¬ ∃ transfer, .inbound bytes transfer ∈ outcome.movements := by
      rintro outcome hnil ⟨transfer, hm⟩
      simp [hnil] at hm
    by_cases hkey : ∃ who ∈ st.sudoKeys, sender = some who
    · obtain ⟨who, hmem, rfl⟩ := hkey
      simp only [dispatch, Origin.ofSender, hmem, if_true, Run.bind_eq_ok, Run.pure_eq_ok] at h
      obtain ⟨inner, hinner, rfl⟩ := h
      by_cases hrelay : ∃ relay, proposal = .relayTransfer relay
      · obtain ⟨relay, rfl⟩ := hrelay
        have hruns : (Call.sudoSudo (.relayTransfer relay)).runs st.sudoKeys (some who) =
            some relay := if_pos ⟨who, hmem, rfl⟩
        have hiff := Relay.inbound_iff env (by simpa only [dispatch] using hinner) bytes
        rw [hruns]
        simpa [and_assoc] using hiff
      · have hruns : (Call.sudoSudo proposal).runs st.sudoKeys (some who) = none := by
          cases proposal with
          | relayTransfer relay => exact absurd ⟨relay, rfl⟩ hrelay
          | _ => rfl
        rw [hruns]
        refine iff_of_false ?_ (by simp)
        intro hcase
        obtain ⟨transfer, hm⟩ := hcase
        exact hrelay (dispatch_root_inbound env hinner hm)
    · have hruns : (Call.sudoSudo proposal).runs st.sudoKeys sender = none := by
        cases proposal with
        | relayTransfer relay => exact if_neg hkey
        | _ => rfl
      rw [hruns]
      refine iff_of_false (hnone ?_) (by simp)
      cases sender with
      | none => exact congrArg Outcome.movements (Except.ok.inj h).symm
      | some who =>
        have hnot : who ∉ st.sudoKeys := fun hmem => hkey ⟨who, hmem, rfl⟩
        simp only [dispatch, Origin.ofSender, hnot, if_false, Except.ok.injEq] at h
        rw [← h]
        rfl
  | _ =>
    refine iff_of_false (not_inbound_of_relay?_none env h rfl bytes) ?_
    simp [Call.runs]

def UncheckedExtrinsic.sender (st : State σ) (uxt : UncheckedExtrinsic) : Option AccountId :=
  uxt.signature.bind fun info => (st.lookup env info.signed).toOption

def UncheckedExtrinsic.charged (st : State σ) (uxt : UncheckedExtrinsic) : State σ :=
  match uxt.sender env st with
  | some who => (Balances.makePayment who uxt.encode.length st).1
  | none => st

-- The extrinsic, if it is accepted in this state, makes this relay credit its origin.
def UncheckedExtrinsic.Credits (st : State σ) (uxt : UncheckedExtrinsic) (relay : RelayCall) :
    Prop :=
  uxt.function.runs st.sudoKeys (uxt.sender env st) = some relay ∧
    relay.Creditable (uxt.charged env st)

theorem applyExtrinsic_credits_iff {uxt : UncheckedExtrinsic} {applied : Applied σ}
    {result : ApplyOutcome} (h : applyExtrinsic env uxt st = .ok applied)
    (hresult : applied.result = .ok result) (bytes : Bytes) :
    (∃ transfer, .inbound bytes transfer ∈ applied.movements) ↔
      ∃ relay, uxt.Credits env st relay ∧ relay.tx.bytes = bytes := by
  have hunsigned : uxt.signature = none → uxt.sender env st = none ∧ uxt.charged env st = st := by
    intro hnone
    simp [UncheckedExtrinsic.charged, UncheckedExtrinsic.sender, hnone]
  rcases applyExtrinsic_cases env h with ⟨_, rfl⟩ |
    ⟨info, sender, paid, outcome, haccepted, _, hpaid, hdispatch, rfl⟩ |
    ⟨rtx, outcome, hnone, _, _, hdispatch, rfl⟩ | ⟨outcome, hnone, _, hdispatch, rfl⟩
  · simp [Applied.reject] at hresult
  · have hsender : uxt.sender env st = some sender := by
      simp [UncheckedExtrinsic.sender, haccepted.signature, haccepted.lookup, Except.toOption]
    have hcharged : uxt.charged env st = paid := by
      simp [UncheckedExtrinsic.charged, hsender, hpaid]
    have hkeys : (incAccountNonce sender paid).sudoKeys = st.sudoKeys := by
      have hsame := (Balances.makePayment_coinsOnly sender uxt.encode.length st).sudoKeys
      rw [hpaid] at hsame
      exact hsame
    have hiff := dispatch_credits_iff env (some sender) hdispatch bytes
    rw [hkeys] at hiff
    unfold UncheckedExtrinsic.Credits
    rw [hsender, hcharged]
    exact hiff
  · obtain ⟨hsender, hcharged⟩ := hunsigned hnone
    unfold UncheckedExtrinsic.Credits
    rw [hsender, hcharged]
    exact dispatch_credits_iff env none hdispatch bytes
  · obtain ⟨hsender, hcharged⟩ := hunsigned hnone
    unfold UncheckedExtrinsic.Credits
    rw [hsender, hcharged]
    exact dispatch_credits_iff env none hdispatch bytes

theorem applyExtrinsicNoNote_eq_ok (uxt : UncheckedExtrinsic) (st : State σ)
    (applied : Applied σ) :
    applyExtrinsicNoNote env uxt st = .ok applied ↔
      applyExtrinsic env uxt st = .ok applied ∧ ∃ result, applied.result = .ok result := by
  simp only [applyExtrinsicNoNote, Run.bind_eq_ok]
  constructor
  · intro hcase
    obtain ⟨applied', happly, h⟩ := hcase
    cases hresult : applied'.result with
    | error error => simp [hresult] at h
    | ok result =>
      simp only [hresult, Run.pure_eq_ok] at h
      subst h
      exact ⟨happly, result, hresult⟩
  · intro hcase
    obtain ⟨happly, result, hresult⟩ := hcase
    exact ⟨applied, happly, by simp only [hresult, Run.pure_eq_ok]⟩

theorem executeExtrinsics_applied {st final : State σ}
    (h : executeExtrinsics env extrinsics st = .ok (executed, final)) :
    ∀ step ∈ executed, step.uxt ∈ extrinsics ∧
      applyExtrinsic env step.uxt step.before = .ok step.applied ∧
      ∃ result, step.applied.result = .ok result := by
  induction extrinsics generalizing st executed with
  | nil =>
    simp only [executeExtrinsics, Except.ok.injEq, Prod.mk.injEq] at h
    simp [← h.1]
  | cons uxt extrinsics ih =>
    simp only [executeExtrinsics, Run.bind_eq_ok, Prod.exists, Run.pure_eq_ok, Prod.mk.injEq] at h
    obtain ⟨applied, happly, rest, _, hrest, rfl, rfl⟩ := h
    intro step hmem
    rcases List.mem_cons.mp hmem with rfl | hmem
    · obtain ⟨happly, hresult⟩ := (applyExtrinsicNoNote_eq_ok env uxt st applied).mp happly
      exact ⟨List.mem_cons_self, happly, hresult⟩
    · obtain ⟨hin, hstep⟩ := ih hrest step hmem
      exact ⟨List.mem_cons_of_mem _ hin, hstep⟩

theorem executeExtrinsics_uxts {st ended : State σ}
    (h : executeExtrinsics env extrinsics st = .ok (executed, ended)) :
    executed.map Executed.uxt = extrinsics := by
  induction extrinsics generalizing st executed with
  | nil =>
    obtain ⟨rfl, _⟩ := Prod.mk.inj (Except.ok.inj h)
    rfl
  | cons uxt extrinsics ih =>
    simp only [executeExtrinsics, Run.bind_eq_ok, Prod.exists, Run.pure_eq_ok, Prod.mk.injEq] at h
    obtain ⟨applied, _, rest, _, hrest, rfl, rfl⟩ := h
    rw [List.map_cons, ih hrest]

theorem executeExtrinsics_of_notingRelays {curShard shardCount : UInt16}
    {shards noted : ExtrinsicShard H256} {st ended : State σ}
    (h : executeNotingRelays env curShard shardCount extrinsics shards st = .ok (noted, ended)) :
    ∃ executed, executeExtrinsics env extrinsics st = .ok (executed, ended) := by
  induction extrinsics generalizing shards st with
  | nil =>
    obtain ⟨_, rfl⟩ := Prod.mk.inj (Except.ok.inj h)
    exact ⟨[], rfl⟩
  | cons uxt extrinsics ih =>
    simp only [executeNotingRelays, Run.bind_eq_ok] at h
    obtain ⟨applied, happlied, _, _, hrest⟩ := h
    obtain ⟨executed, hexecuted⟩ := ih hrest
    refine ⟨⟨st, uxt, applied⟩ :: executed, ?_⟩
    simp only [executeExtrinsics, Run.bind_eq_ok, Run.pure_eq_ok]
    exact ⟨applied, happlied, (executed, ended), hexecuted, rfl⟩

theorem executeBody_applied {body : List OpaqueExtrinsic} {st final : State σ}
    (h : executeBody env body st = .ok (executed, final)) :
    ∃ extrinsics, decodeBody env.args body = some extrinsics ∧
      ∀ step ∈ executed, step.uxt ∈ extrinsics ∧
        applyExtrinsic env step.uxt step.before = .ok step.applied ∧
        ∃ result, step.applied.result = .ok result := by
  simp only [executeBody, Run.bind_eq_ok, Run.expect_eq_ok] at h
  obtain ⟨extrinsics, hdecoded, h⟩ := h
  exact ⟨extrinsics, hdecoded, executeExtrinsics_applied env h⟩

end Yeeroot
