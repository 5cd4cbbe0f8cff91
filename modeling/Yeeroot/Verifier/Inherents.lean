import Yeeroot.Executive.Ledger
import Yeeroot.Verifier.Relay.Finality

namespace Yeeroot

open Scale Yeeroot.Pow Verifier

-- What a node puts in its inherent data. An entry is missing here also if it does not decode.
structure InherentData (τ : Type) where
  pow : Option PowInfo
  sharding : Option ShardInfo
  substrate : τ

section Check

-- `substrateCheck` is `check_inherent` of Substrate's own modules.
variable {τ : Type} (substrateCheck : SubstrateModule → Bytes → InherentData τ → Except String Unit)

def Pow.checkInherent (_ : Call) (data : InherentData τ) : Run (Except String Unit) :=
  match data.pow with
  | none => .ok (.ok ())
  | some info =>
    if info.rewardCondition ≠ .normal then .ok (.error "allow normal reward condition only")
    else
      match data.sharding with
      | none => .ok (.ok ())
      | some shard => do
        let shardNum ← Run.expect (Sharding.shardNumFor info.coinbase shard.count)
          "called `Option::unwrap()` on a `None` value"
        if shardNum ≠ shard.num then return .error "shard and coinbase not match"
        else return .ok ()

-- The sharding, crfg and tracker modules accept every call, and the others provide no inherent.
def checkInherent (call : Call) (data : InherentData τ) : Run (Except String Unit) :=
  match call with
  | .substrate .timestamp args => .ok (substrateCheck .timestamp args data)
  | .substrate .consensus args => .ok (substrateCheck .consensus args data)
  | .powSetPowInfo _ => Pow.checkInherent call data
  | _ => .ok (.ok ())

-- `check_extrinsics`: the extrinsics before the first signed one.
def checkInherents (data : InherentData τ) : List UncheckedExtrinsic → Run (Except String Unit)
  | [] => .ok (.ok ())
  | uxt :: extrinsics =>
    if uxt.isSigned then .ok (.ok ())
    else do
      match ← checkInherent substrateCheck uxt.function data with
      | .error error => return .error error
      | .ok () => checkInherents data extrinsics

-- A node that registers its inherents as `register_inherent_data_provider` does: a reward
-- under the normal condition, for a coinbase of its own shard.
structure InherentData.Honest (data : InherentData τ) : Prop where
  normal : ∀ info, data.pow = some info → info.rewardCondition = .normal
  ownShard : ∀ info shard, data.pow = some info → data.sharding = some shard →
    Sharding.shardNumFor info.coinbase shard.count = some shard.num

theorem InherentData.Honest.pow_accepts {data : InherentData τ} (h : data.Honest) (call : Call) :
    Pow.checkInherent call data = .ok (.ok ()) := by
  unfold Pow.checkInherent
  cases hpow : data.pow with
  | none => rfl
  | some info =>
    cases hsharding : data.sharding with
    | none => simp [h.normal info hpow]
    | some shard =>
      have hnum := h.ownShard info shard hpow hsharding
      simp only [h.normal info hpow, hnum, Run.expect, ne_eq, not_true, if_false, bind,
        Except.bind]
      rfl

-- The check of the proof-of-work inherent never sees the block's call, so the data of an
-- honest node let every block pass that Substrate's modules accept.
theorem InherentData.Honest.accepts {data : InherentData τ} (h : data.Honest)
    (hsubstrate : ∀ owner args, substrateCheck owner args data = .ok ())
    (extrinsics : List UncheckedExtrinsic) :
    checkInherents substrateCheck data extrinsics = .ok (.ok ()) := by
  have hcall : ∀ call, checkInherent substrateCheck call data = .ok (.ok ()) := by
    intro call
    unfold checkInherent
    split
    · rw [hsubstrate]
    · rw [hsubstrate]
    · exact h.pow_accepts _
    · rfl
  induction extrinsics with
  | nil => rfl
  | cons uxt extrinsics ih =>
    unfold checkInherents
    split_ifs
    · rfl
    · rw [hcall]
      exact ih

end Check

variable {σ τ : Type} (build : Build) (v : PowVerifier) (env : Substrate σ)
  (substrateCheck : SubstrateModule → Bytes → InherentData τ → Except String Unit)

-- A block that the node accepts, whose inherents pass against the data of every honest node,
-- and that is executed.
structure ImportedBlock where
  header : BlockHeader H256
  proof : Option Bytes
  body : List OpaqueExtrinsic
  block : ImportBlock
  extrinsics : List UncheckedExtrinsic
  before : State σ
  opened : State σ
  executed : List (Executed σ)
  ended : State σ
  final : State σ
  accepted : verify build v header proof (some body) = .ok (.ok block)
  decoded : decodeBody env.args body = some extrinsics
  checked : ∀ data : InherentData τ, data.Honest →
    checkInherents substrateCheck data extrinsics = .ok (.ok ())
  opens : initializeBlock env header.number before = .ok opened
  runs : executeBody env body opened = .ok (executed, ended)
  closes : finishBlock env header.number ended = .ok final

-- The coinbase is of the shard that the header names, and the condition is the normal one.
def PowInfo.WellFormed (header : BlockHeader H256) (info : PowInfo) : Prop :=
  info.rewardCondition = .normal ∧
    ∃ num count, (shardHeader header).shardInfo = some (num, count) ∧
      Sharding.shardNumFor info.coinbase count = some num

-- Every matured reward goes to the miner it was planned for.
def PowInfo.PaysMiners (info : PowInfo) : Prop :=
  ∀ st plan, Pow.payPlan env info st plan = if Pow.deposits st plan then
    Balances.depositCreating env plan.coinbase (plan.blockReward + plan.feeReward) st else st

theorem PowInfo.paysMiners_of_normal {info : PowInfo} (h : info.rewardCondition = .normal) :
    info.PaysMiners env := by
  intro st plan
  simp only [Pow.payPlan, h]

-- What a call of `set_pow_info` that succeeds leaves in the storage.
def Executed.storedPowInfo (step : Executed σ) : Option PowInfo :=
  match step.uxt.function with
  | .powSetPowInfo _ => if step.succeeded then step.applied.state.pow.currentPowInfo else none
  | _ => none

theorem storedPowInfo_eq_some {step : Executed σ} {info : PowInfo}
    (happly : applyExtrinsic env step.uxt step.before = .ok step.applied)
    (hresult : ∃ result, step.applied.result = .ok result) :
    step.storedPowInfo = some info ↔ step.uxt = ⟨none, .powSetPowInfo info⟩ := by
  obtain ⟨before, ⟨signature, function⟩, applied⟩ := step
  dsimp only at happly hresult
  have hinherent : ∀ {info' : PowInfo} {st : State σ} {outcome : Outcome σ} (encodedLen : Nat),
      dispatch env (.powSetPowInfo info') .inherent st = .ok outcome →
      Executed.storedPowInfo ⟨before, ⟨none, .powSetPowInfo info'⟩, outcome.applied encodedLen⟩ =
        some info' := by
    intro info' st outcome encodedLen hdispatch
    obtain rfl := Except.ok.inj hdispatch
    rfl
  cases function with
  | powSetPowInfo info' =>
    rcases applyExtrinsic_cases env happly with ⟨_, rfl⟩ |
      ⟨_, sender, paid, outcome, haccepted, _, _, hdispatch, rfl⟩ |
      ⟨_, outcome, hnone, _, _, hdispatch, rfl⟩ | ⟨outcome, hnone, _, hdispatch, rfl⟩
    · obtain ⟨_, hresult⟩ := hresult
      cases hresult
    · -- A signed call has the wrong origin.
      have hsigned : signature ≠ none := by
        intro hnone
        cases hnone.symm.trans haccepted.signature
      obtain rfl := Except.ok.inj hdispatch
      refine iff_of_false ?_ (fun h => hsigned (congrArg UncheckedExtrinsic.signature h))
      intro hstored
      cases hstored
    · obtain rfl : signature = none := hnone
      rw [hinherent _ hdispatch]
      simp
    · obtain rfl : signature = none := hnone
      rw [hinherent _ hdispatch]
      simp
  | _ => simp [Executed.storedPowInfo]

-- What the imported block stores is what its author wrote in it. Neither the verifier nor
-- the check of the inherents keeps anything out.
theorem stored_powInfo_wellFormed_iff (b : ImportedBlock build v env substrateCheck) :
    (∀ step ∈ b.executed, ∀ info, step.storedPowInfo = some info →
      info.WellFormed b.block.header ∧ info.PaysMiners env) ↔
    ∀ info, ⟨none, .powSetPowInfo info⟩ ∈ b.extrinsics → info.WellFormed b.block.header := by
  have hruns := b.runs
  simp only [executeBody, b.decoded, Run.bind_eq_ok, Run.expect_eq_ok, Option.some.injEq] at hruns
  obtain ⟨_, rfl, hruns⟩ := hruns
  have happlied := executeExtrinsics_applied env hruns
  constructor
  · intro h info hmem
    rw [← executeExtrinsics_uxts env hruns, List.mem_map] at hmem
    obtain ⟨step, hstep, huxt⟩ := hmem
    obtain ⟨_, happly, hresult⟩ := happlied step hstep
    exact (h step hstep info ((storedPowInfo_eq_some env happly hresult).mpr huxt)).1
  · intro h step hstep info hstored
    obtain ⟨hmem, happly, hresult⟩ := happlied step hstep
    rw [(storedPowInfo_eq_some env happly hresult).mp hstored] at hmem
    have hwell := h info hmem
    exact ⟨hwell, PowInfo.paysMiners_of_normal env hwell.1⟩

-- A block of shard 1 of 2, at whose end the reward of another miner is due.
def authorBody (condition : RewardCondition) : List UncheckedExtrinsic :=
  [⟨none, .shardingSetShardInfo ⟨1, 2, none⟩⟩, ⟨none, .powSetPowInfo ⟨filled 32 3, condition⟩⟩]

def maturedState : State Unit :=
  { plainState (some ⟨1, 2, none⟩) with
    pow := ⟨10, 1, [⟨0, filled 32 5, 10, 0⟩], 0, none⟩ }

-- What the author and the other miner get.
def rewardShares : RewardCondition → Balance × Balance
  | .normal => (0, 10)
  | .slash => (10, 0)

-- Honest data let the block pass, and its logs are those of the header.
theorem imports_authorBody (condition : RewardCondition) :
    ∃ b : ImportedBlock .checked (plainPowVerifier 1 []) plainSubstrate
        (fun _ _ (_ : InherentData Unit) => .ok ()),
      b.before = maturedState ∧ b.extrinsics = authorBody condition ∧
      b.block.header.logs = [.shardingInfo 1 2] ∧ b.final.system.logs = [.shardMarker 1 2] ∧
      b.executed.map Executed.storedPowInfo = [none, some ⟨filled 32 3, condition⟩] ∧
      (Balances.freeBalance b.final (filled 32 3), Balances.freeBalance b.final (filled 32 5)) =
        rewardShares condition := by
  let body := (authorBody condition).map UncheckedExtrinsic.toOpaque
  have haccepted : verify .checked (plainPowVerifier 1 []) (plainNonceBlock 1) none (some body) =
      .ok (.ok (plainImport 1 (some body))) := by
    cases condition <;> decide +kernel
  have hdecoded : decodeBody plainSubstrate.args body = some (authorBody condition) := by
    cases condition <;> decide +kernel
  have hrun : ((initializeBlock plainSubstrate (plainNonceBlock 1).number maturedState).toOption.bind
      fun opened => (executeBody plainSubstrate body opened).toOption.bind fun done =>
          (finishBlock plainSubstrate (plainNonceBlock 1).number done.2).toOption.bind fun final =>
            some (final.system.logs, done.1.map Executed.storedPowInfo,
              Balances.freeBalance final (filled 32 3), Balances.freeBalance final (filled 32 5))) =
      some ([.shardMarker 1 2], [none, some ⟨filled 32 3, condition⟩],
        rewardShares condition) := by
    cases condition <;> decide +kernel
  obtain ⟨opened, hopen, hrun⟩ := Run.exists_of_toOption hrun
  obtain ⟨⟨executed, ended⟩, hexecute, hrun⟩ := Run.exists_of_toOption hrun
  obtain ⟨final, hfinish, hrun⟩ := Run.exists_of_toOption hrun
  obtain ⟨hlogs, hrun⟩ := Prod.mk.inj (Option.some.inj hrun)
  obtain ⟨hstored, hbalances⟩ := Prod.mk.inj hrun
  exact ⟨⟨plainNonceBlock 1, none, body, _, authorBody condition, maturedState, opened, executed,
    ended, final, haccepted, hdecoded, fun data hdata => hdata.accepts _ (fun _ _ => rfl) _, hopen,
    hexecute, hfinish⟩, rfl, rfl, rfl, hlogs, hstored, hbalances⟩

-- An author who keeps to the rules: the reward goes to the miner.
theorem stored_powInfo_wellFormed_iff_normal :
    ∃ b : ImportedBlock .checked (plainPowVerifier 1 []) plainSubstrate
        (fun _ _ (_ : InherentData Unit) => .ok ()),
      b.extrinsics = authorBody .normal ∧ Balances.freeBalance b.final (filled 32 5) = 10 ∧
      ∀ step ∈ b.executed, ∀ info, step.storedPowInfo = some info →
        info.WellFormed b.block.header ∧ info.PaysMiners plainSubstrate := by
  obtain ⟨b, _, hbody, hlogs, _, _, hbalances⟩ := imports_authorBody .normal
  refine ⟨b, hbody, (Prod.mk.inj hbalances).2, (stored_powInfo_wellFormed_iff _ _ _ _ b).mpr ?_⟩
  intro info hmem
  rw [hbody] at hmem
  obtain rfl : info = ⟨filled 32 3, .normal⟩ := by simpa [authorBody] using hmem
  have hshard : (shardHeader b.block.header).shardInfo = some (1, 2) := by
    rw [shardHeader, hlogs]
    rfl
  exact ⟨rfl, 1, 2, hshard, by decide⟩

-- An author who claims the reward of the other miner.
theorem slash_redirects_reward :
    ∃ b : ImportedBlock .checked (plainPowVerifier 1 []) plainSubstrate
        (fun _ _ (_ : InherentData Unit) => .ok ()),
      b.before.pow.rewardPlans = [⟨0, filled 32 5, 10, 0⟩] ∧
      Balances.freeBalance b.before (filled 32 3) = 0 ∧
      Balances.freeBalance b.final (filled 32 3) = 10 ∧
      Balances.freeBalance b.final (filled 32 5) = 0 ∧
      b.block.header.logs = [.shardingInfo 1 2] ∧ b.final.system.logs = [.shardMarker 1 2] ∧
      ¬ ∀ step ∈ b.executed, ∀ info, step.storedPowInfo = some info →
        info.WellFormed b.block.header ∧ info.PaysMiners plainSubstrate := by
  obtain ⟨b, hbefore, _, hlogs, hmarker, hstored, hbalances⟩ := imports_authorBody .slash
  obtain ⟨hauthor, hminer⟩ := Prod.mk.inj hbalances
  refine ⟨b, by rw [hbefore]; rfl, by rw [hbefore]; rfl, hauthor, hminer, hlogs, hmarker, ?_⟩
  intro hwell
  have hmem : some ⟨filled 32 3, .slash⟩ ∈ b.executed.map Executed.storedPowInfo := by
    rw [hstored]
    exact List.mem_cons_of_mem _ List.mem_cons_self
  obtain ⟨step, hstep, hinfo⟩ := List.mem_map.mp hmem
  cases (hwell step hstep _ hinfo).1.1

end Yeeroot
