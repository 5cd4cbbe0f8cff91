import Yeeroot.Crfg.Environment.Lemmas
import Yeeroot.Crfg.Import
import Yeeroot.Crfg.Justification.Theorems
import Yeeroot.Scale.Codec

namespace Yeeroot.Crfg

open Scale Grandpa

variable {κ ι τ Hd : Type} (env : Env κ ι τ Hd)

theorem conclude_finalized (hash : H256) (number : UInt64) (node : Node κ τ)
    (state : Finalizing τ) (result : Except Error (Option VoterCommand × ι)) :
    (conclude env hash number node state result).finalized = some ⟨hash, number⟩ ↔
      ∃ command op client, result = .ok (command, op) ∧
        env.client.commitOperation node.client op = .ok client := by
  cases result with
  | error error => simp [conclude]
  | ok result =>
    obtain ⟨command, op⟩ := result
    cases hcommit : env.client.commitOperation node.client op with
    | error error => simp [conclude, hcommit]
    | ok client =>
      refine iff_of_true ?_ ⟨command, op, client, rfl, hcommit⟩
      cases hnotify : env.client.notifyFinalized client op with
      | error error => simp [conclude, hcommit, hnotify]
      | ok _ => simp [conclude, hcommit, hnotify]

-- The node's pending changes and its store let this block become final.
def Finalizable (node : Node κ τ) (hash : H256) (number : UInt64) (justification : Bytes) : Prop :=
  ∃ op op' status set alters client, env.client.beginOperation node.client = .ok op ∧
    Finalizes env node.client node.finalizing hash number justification op op' status set alters ∧
    env.client.commitOperation node.client op' = .ok client

theorem finalizeBlock_finalized (period : Option UInt64) (hash : H256) (number : UInt64)
    (just : CrfgJustification Hd) (node : Node κ τ) :
    (∃ outcome, finalizeBlock env period hash number (.justification just) node = .ok outcome ∧
        outcome.finalized = some ⟨hash, number⟩) ↔
      Finalizable env node hash number (just.encode env.host) := by
  unfold finalizeBlock
  constructor
  · intro h
    obtain ⟨outcome, hrun, hfinalized⟩ := h
    cases hbegin : env.client.beginOperation node.client with
    | error error =>
      simp only [hbegin, Except.ok.injEq] at hrun
      rw [← hrun] at hfinalized
      simp at hfinalized
    | ok op =>
      simp only [hbegin, Run.bind_eq_ok, Run.pure_eq_ok, Prod.exists] at hrun
      obtain ⟨result, state, hoperation, rfl⟩ := hrun
      obtain ⟨command, op', client, rfl, hcommit⟩ := (conclude_finalized ..).mp hfinalized
      obtain ⟨status, set, alters, hsteps, _⟩ := (finalizeOperation_eq_ok ..).mp hoperation
      exact ⟨op, op', status, set, alters, client, hbegin, hsteps, hcommit⟩
  · intro h
    obtain ⟨op, op', status, set, alters, client, hbegin, hsteps, hcommit⟩ := h
    have hoperation := (finalizeOperation_eq_ok env node.client period hash number just op op' _
      node.finalizing _).mpr ⟨status, set, alters, hsteps, rfl, rfl⟩
    simp only [hbegin, hoperation]
    exact ⟨_, rfl, (conclude_finalized ..).mpr ⟨_, op', client, rfl, hcommit⟩⟩

theorem decodeAndVerify_eq_ok (setId : UInt64) (encoded : Bytes) (voters : VoterSet AuthorityId)
    (just : CrfgJustification Hd) :
    CrfgJustification.decodeAndVerify env.host setId encoded voters = .ok (.ok just) ↔
      CrfgJustification.decode env.host encoded = some just ∧
      just.verify env.host setId voters = .ok (.ok ()) := by
  unfold CrfgJustification.decodeAndVerify
  cases hdecode : CrfgJustification.decode env.host encoded with
  | none => simp
  | some decoded =>
    simp only [Run.bind_eq_ok, Option.some.injEq]
    constructor
    · intro hcase
      obtain ⟨verified, hverify, h⟩ := hcase
      cases verified with
      | error error => exact absurd ((Run.pure_eq_ok _ _).mp h) (by simp)
      | ok _ =>
        obtain rfl := Except.ok.inj ((Run.pure_eq_ok _ _).mp h)
        exact ⟨rfl, hverify⟩
    · intro hcase
      obtain ⟨rfl, hverify⟩ := hcase
      exact ⟨.ok (), hverify, rfl⟩

theorem concludeImport_finalized (voterAlive enactsChange : Bool) (outcome : FinalizeOutcome κ τ) :
    (concludeImport voterAlive enactsChange outcome).finalized = outcome.finalized := by
  unfold concludeImport
  split
  · split_ifs <;> rfl
  · rfl
  · rfl

-- A call finalizes its block exactly with a justification that verifies, for whichever
-- block, if the block can be finalized.
theorem importJustification_finalized (voterAlive : Bool) (hash : H256) (number : UInt64)
    (bytes : Bytes) (enactsChange : Bool) (node : Node κ τ) :
    (∃ imported, importJustification env voterAlive hash number bytes enactsChange node =
        .ok imported ∧ imported.finalized = some ⟨hash, number⟩) ↔
      ∃ just, CrfgJustification.decodeAndVerify env.host node.authoritySet.setId bytes
          node.authoritySet.voters = .ok (.ok just) ∧
        Finalizable env node hash number (just.encode env.host) := by
  simp only [importJustification, Run.bind_eq_ok]
  constructor
  · intro hcase
    obtain ⟨imported, ⟨verified, hverified, h⟩, hfinalized⟩ := hcase
    cases verified with
    | error error =>
      rw [(Run.pure_eq_ok _ _).mp h] at hfinalized
      simp at hfinalized
    | ok just =>
      simp only [Run.bind_eq_ok, Run.pure_eq_ok] at h
      obtain ⟨outcome, houtcome, rfl⟩ := h
      rw [concludeImport_finalized] at hfinalized
      exact ⟨just, hverified, (finalizeBlock_finalized ..).mp ⟨outcome, houtcome, hfinalized⟩⟩
  · intro hcase
    obtain ⟨just, hverified, hfinalizable⟩ := hcase
    obtain ⟨outcome, houtcome, hfinalized⟩ :=
      (finalizeBlock_finalized env none hash number just node).mpr hfinalizable
    refine ⟨concludeImport voterAlive enactsChange outcome, ⟨.ok just, hverified, ?_⟩, ?_⟩
    · simp only [Run.bind_eq_ok]
      exact ⟨outcome, houtcome, rfl⟩
    · rw [concludeImport_finalized, hfinalized]

def CrfgJustification.Targets (just : CrfgJustification Hd) (hash : H256) (number : UInt64) :
    Prop :=
  just.commit.targetHash = hash ∧ just.commit.targetNumber = number

-- Nothing compares the commit's target with the block: it has to come with the bytes, unless
-- they do not verify or the block cannot be finalized at all.
theorem justification_target_iff (voterAlive : Bool) (hash : H256) (number : UInt64)
    (bytes : Bytes) (enactsChange : Bool) (node : Node κ τ) :
    (∀ imported, importJustification env voterAlive hash number bytes enactsChange node =
        .ok imported → imported.finalized = some ⟨hash, number⟩ →
      ∃ just, CrfgJustification.decodeAndVerify env.host node.authoritySet.setId bytes
        node.authoritySet.voters = .ok (.ok just) ∧ just.Targets hash number) ↔
    ∀ just, CrfgJustification.decode env.host bytes = some just → just.Targets hash number ∨
      just.verify env.host node.authoritySet.setId node.authoritySet.voters ≠ .ok (.ok ()) ∨
      ¬ Finalizable env node hash number (just.encode env.host) := by
  constructor
  · intro h just hdecode
    by_contra hnot
    simp only [not_or, not_not] at hnot
    obtain ⟨htarget, hverify, hfinalizable⟩ := hnot
    have hverified := (decodeAndVerify_eq_ok env _ _ _ _).mpr ⟨hdecode, hverify⟩
    obtain ⟨imported, himport, hfinalized⟩ := (importJustification_finalized env voterAlive hash
      number bytes enactsChange node).mpr ⟨just, hverified, hfinalizable⟩
    obtain ⟨just', hverified', htarget'⟩ := h imported himport hfinalized
    obtain rfl := Except.ok.inj (Except.ok.inj (hverified.symm.trans hverified'))
    exact htarget htarget'
  · intro h imported himport hfinalized
    obtain ⟨just, hverified, hfinalizable⟩ :=
      (importJustification_finalized ..).mp ⟨imported, himport, hfinalized⟩
    obtain ⟨hdecode, hverify⟩ := (decodeAndVerify_eq_ok env _ _ _ _).mp hverified
    rcases h just hdecode with htarget | hnot | hnot
    · exact ⟨just, hverified, htarget⟩
    · exact absurd hverify hnot
    · exact absurd hfinalizable hnot

-- A store to run the import in: it is the list of the blocks that were finalized.
def plainEnv : Env (List H256) (List H256) Unit Unit where
  host := ⟨.unit, fun _ => zero256, fun _ => zero256, fun _ => 0,
    fun signature payload id => signature = signWith id payload, id⟩
  client := {
    treeRoute := fun _ _ base => .ok base
    blockNumberToHash := fun _ _ => none
    headerByNumber := fun _ _ => .ok none
    headerByHash := fun _ _ => .ok none
    finalizedNumber := fun _ => .ok 0
    beginOperation := .ok
    applyAux := fun _ op _ => .ok op
    applyFinality := fun _ op hash _ => .ok (hash :: op)
    commitOperation := fun _ op => .ok op
    notifyFinalized := fun _ _ => .ok () }
  tree := ⟨fun pending _ _ _ _ => .ok (.unchanged, pending)⟩

def plainNode : Node (List H256) Unit :=
  ⟨[], ⟨[(filled 32 9, 1)], 0, (), []⟩, ⟨[]⟩⟩

-- The only authority's precommit for block 1 with hash 01..01.
def firstBlockJustification : CrfgJustification Unit :=
  let precommit : Precommit H256 := ⟨filled 32 1, 1⟩
  let signature := signWith (filled 32 9) (localizedPayload 1 0 (.precommit precommit))
  ⟨1, ⟨filled 32 1, 1, [⟨precommit, signature, filled 32 9⟩]⟩, []⟩

-- It finalizes any other block.
theorem other_block_finalized : ∃ imported just,
    CrfgJustification.decodeAndVerify plainEnv.host plainNode.authoritySet.setId
      (firstBlockJustification.encode plainEnv.host) plainNode.authoritySet.voters =
        .ok (.ok just) ∧
    just.commit.targetHash = filled 32 1 ∧ just.commit.targetNumber = 1 ∧
    importJustification plainEnv true (filled 32 2) 2
      (firstBlockJustification.encode plainEnv.host) false plainNode = .ok imported ∧
    imported.finalized = some ⟨filled 32 2, 2⟩ ∧ imported.node.client = [filled 32 2] ∧
    imported.result = .ok (.ok ()) := by
  have hverified : ((CrfgJustification.decodeAndVerify plainEnv.host plainNode.authoritySet.setId
      (firstBlockJustification.encode plainEnv.host)
      plainNode.authoritySet.voters).toOption.bind fun verified => verified.toOption.bind
        fun just => some (just.commit.targetHash, just.commit.targetNumber)) =
      some (filled 32 1, 1) := by
    decide +kernel
  have himport : ((importJustification plainEnv true (filled 32 2) 2
      (firstBlockJustification.encode plainEnv.host) false plainNode).toOption.bind
        fun imported => imported.result.toOption.bind fun result => result.toOption.bind
          fun _ => some (imported.finalized, imported.node.client)) =
      some (some ⟨filled 32 2, 2⟩, [filled 32 2]) := by
    decide +kernel
  obtain ⟨verified, hrun, hverified⟩ := Run.exists_of_toOption hverified
  obtain ⟨imported, himported, himport⟩ := Run.exists_of_toOption himport
  obtain ⟨result, hresult, himport⟩ := Run.exists_of_toOption himport
  cases verified with
  | error error => simp [Except.toOption] at hverified
  | ok just =>
    cases result with
    | error error => simp [Except.toOption] at himport
    | ok _ =>
      simp only [Except.toOption, Option.bind_some, Option.some.injEq, Prod.mk.injEq]
        at hverified himport
      exact ⟨imported, just, hrun, hverified.1, hverified.2, himported, himport.1, himport.2,
        hresult⟩

end Yeeroot.Crfg
