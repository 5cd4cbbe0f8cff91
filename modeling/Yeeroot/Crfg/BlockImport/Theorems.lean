import Yeeroot.Crfg.BlockImport.Forest.Shape
import Yeeroot.Crfg.ConsensusChanges
import Yeeroot.Crfg.Environment.Rollback
import Yeeroot.Transition

namespace Yeeroot.Crfg

open Scale Grandpa FinalizeM

variable {κ ι τ Hd : Type}

section Operation

variable (env : Env κ ι τ Hd)

-- An operation with what was written beside it.
def Extends (client : κ) (op op' : ι) : Prop :=
  op' = op ∨ ∃ writes, env.client.applyAux client op writes = .ok op'

theorem finalizeOperation_ok {client : κ} {period : Option UInt64} {hash : H256} {number : UInt64}
    {justificationOrCommit : JustificationOrCommit Hd} {op op' : ι}
    {command : Option VoterCommand} {before after : Finalizing τ}
    (h : (finalizeOperation env client period hash number justificationOrCommit op).run.run
      before = .ok (.ok (command, op'), after)) :
    ∃ status tracked justification final,
      before.authoritySet.applyStandardChanges env.tree hash number
        (isDescendentOf env client none) = .ok (status, after.authoritySet) ∧
      Extends env client op tracked ∧
      env.client.applyFinality client tracked hash justification = .ok final ∧
      Extends env client final op' := by
  simp only [finalizeOperation, FinalizeM.bind_eq_ok, FinalizeM.get_bind, applySetChanges_eq_ok,
    FinalizeM.orClientError_eq_ok] at h
  obtain ⟨status, _, ⟨set, hset, rfl⟩, ⟨finalizes, tracked⟩, _, hchanges, justification, _, hjust,
    final, _, ⟨hfinal, rfl⟩, h⟩ := h
  obtain ⟨alters, _, htracked, rfl⟩ := (finalizeChanges_eq_ok env _ _ _ _ _ _ rfl).mp hchanges
  obtain rfl := justificationFor_keeps env _ _ _ _ _ _ _ _ hjust
  have hextends : Extends env client op tracked := by
    cases alters with
    | false => exact .inl (Except.ok.inj htracked).symm
    | true => exact .inr ⟨_, htracked⟩
  cases hchanged : status.changed with
  | false =>
    simp only [hchanged, Bool.false_eq_true, if_false, FinalizeM.pure_eq_ok, Prod.mk.injEq] at h
    obtain ⟨⟨_, rfl⟩, rfl⟩ := h
    exact ⟨status, tracked, justification, op', hset, hextends, hfinal, .inl rfl⟩
  | true =>
    simp only [hchanged, if_true, FinalizeM.bind_eq_ok, FinalizeM.orClientError_eq_ok,
      FinalizeM.pure_eq_ok, Prod.mk.injEq] at h
    obtain ⟨_, _, ⟨hwritten, rfl⟩, ⟨_, rfl⟩, rfl⟩ := h
    exact ⟨status, tracked, justification, final, hset, hextends, hfinal, .inr ⟨_, hwritten⟩⟩

def FinalizeOutcome.Rejected (outcome : FinalizeOutcome κ τ) (node : Node κ τ) : Prop :=
  (∃ error, outcome.result = .error (.error error)) ∧ outcome.finalized = none ∧
    outcome.node.client = node.client ∧ outcome.node.authoritySet = node.authoritySet

end Operation

section Follow

variable {inner : BlockImport κ ι τ Hd} {blocks : BlockTree inner.host} {view : TreeView τ}
  {signal : H256 → List (AuthorityId × UInt64)} {initial : List (AuthorityId × UInt64)}
  {stored : κ → Stored} {finalizes : ι → Option H256}

namespace BlockImport.ClientContract

variable (hclient : inner.ClientContract blocks stored finalizes)

include hclient

theorem routed {client : κ} {base block : H256} (hblock : block ∈ (stored client).known)
    (hbase : base ∈ (stored client).known) :
    ∃ told, (do
        let common ← inner.env.client.treeRoute client block base
        return decide (common = base) : Except ClientError Bool) = .ok told ∧
      (told = true ↔ blocks.Descends base block) := by
  obtain ⟨common, hroute, hcommon⟩ := hclient.route hblock hbase
  have hroute' : inner.env.client.treeRoute client block base = .ok common := hroute
  refine ⟨decide (common = base), ?_, decide_eq_true_iff.trans hcommon⟩
  rw [hroute']
  rfl

theorem tells (client : κ) :
    Tells blocks (stored client).known (isDescendentOf inner.env client none) := by
  intro base hbase block hblock
  by_cases heq : base = block
  · exact ⟨false, by simp [isDescendentOf, heq], by simp [heq]⟩
  · obtain ⟨told, hrouted, htold⟩ := hclient.routed hblock hbase
    refine ⟨told, ?_, htold.trans ⟨fun hdescends => ⟨heq, hdescends⟩, And.right⟩⟩
    simpa only [isDescendentOf, if_neg heq] using hrouted

theorem extends_finalizes {client : κ} {op op' : ι} (h : Extends inner.env client op op') :
    finalizes op' = finalizes op := by
  rcases h with rfl | ⟨_, haux⟩
  · rfl
  · exact hclient.aux haux

theorem finalizeBlock_cases {period : Option UInt64} {hash : H256} {number : UInt64}
    {justificationOrCommit : JustificationOrCommit Hd} {node : Node κ τ}
    {outcome : FinalizeOutcome κ τ}
    (h : finalizeBlock inner.env period hash number justificationOrCommit node = .ok outcome) :
    outcome.Rejected node ∨
    (hash ∈ (stored node.client).known ∧
      blocks.Descends (stored node.client).finalized hash ∧
      stored outcome.node.client = { stored node.client with finalized := hash } ∧
      ∃ status, node.authoritySet.applyStandardChanges inner.tree.toForkTree hash number
        (isDescendentOf inner.env node.client none) = .ok (status, outcome.node.authoritySet)) := by
  unfold finalizeBlock at h
  cases hbegin : inner.env.client.beginOperation node.client with
  | error error =>
    simp only [hbegin, Except.ok.injEq] at h
    subst h
    exact .inl ⟨⟨_, rfl⟩, rfl, rfl, rfl⟩
  | ok op =>
    simp only [hbegin, Run.bind_eq_ok, Run.pure_eq_ok, Prod.exists] at h
    obtain ⟨result, state, hoperation, rfl⟩ := h
    match result, hoperation with
    | .error error, _ => exact .inl ⟨⟨error, rfl⟩, rfl, rfl, rfl⟩
    | .ok (command, op'), hoperation =>
      obtain ⟨status, tracked, justification, final, hset, htracked, hfinal, hwritten⟩ :=
        finalizeOperation_ok inner.env hoperation
      cases hcommit : inner.env.client.commitOperation node.client op' with
      | error error =>
        simp only [conclude, hcommit]
        exact .inl ⟨⟨_, rfl⟩, rfl, rfl, rfl⟩
      | ok client =>
        obtain ⟨hknown, hdescends, hfinalizes⟩ := hclient.finality hfinal
        have hnotify : inner.env.client.notifyFinalized client op' = .ok () :=
          hclient.notify hcommit
        simp only [conclude, hcommit, hnotify]
        refine .inr ⟨hknown, hdescends, ?_, status, hset⟩
        rw [hclient.commit hcommit, hclient.extends_finalizes hwritten, hfinalizes]
        rfl

theorem tells_new {client : κ} {hash parent : H256}
    (hnew : ∀ block ∈ (stored client).known, ¬ blocks.Descends hash block)
    (hparent : blocks.ancestry.parent hash = some parent)
    (hknown : parent ∈ (stored client).known) :
    Tells blocks (insert hash (stored client).known)
      (isDescendentOf inner.env client (some (hash, parent))) := by
  intro base hbase block hblock
  by_cases heq : base = block
  · exact ⟨false, by simp [isDescendentOf, heq], by simp [heq]⟩
  by_cases hbaseNew : base = hash
  · subst hbaseNew
    refine ⟨false, by simp [isDescendentOf], ?_⟩
    rcases hblock with rfl | hblock
    · exact absurd rfl heq
    · exact iff_of_false Bool.false_ne_true fun hand => hnew block hblock hand.2
  replace hbase : base ∈ (stored client).known := hbase.resolve_left hbaseNew
  by_cases hblockNew : block = hash
  · subst hblockNew
    by_cases hdirect : base = parent
    · subst hdirect
      exact ⟨true, by simp [isDescendentOf, heq], iff_of_true rfl ⟨heq, .step .refl hparent⟩⟩
    · obtain ⟨told, hrouted, htold⟩ := hclient.routed hknown hbase
      refine ⟨told, ?_, htold.trans ⟨fun hdescends => ⟨heq, .step hdescends hparent⟩,
        fun hand => hand.2.of_parent heq hparent⟩⟩
      simpa only [isDescendentOf, if_neg heq, if_true, if_neg hdirect] using hrouted
  · replace hblock : block ∈ (stored client).known := hblock.resolve_left hblockNew
    obtain ⟨told, hrouted, htold⟩ := hclient.routed hblock hbase
    refine ⟨told, ?_, htold.trans ⟨fun hdescends => ⟨heq, hdescends⟩, And.right⟩⟩
    simpa only [isDescendentOf, if_neg heq, if_neg hbaseNew, if_neg hblockNew] using hrouted

end BlockImport.ClientContract

theorem appliedChanges_of_no_forced {client : κ} {hash : H256} {number : UInt64}
    {isDescendentOf : IsDescendentOf} {set set' : AuthoritySet τ} {applied : AppliedChanges}
    (hforced : set.pendingForcedChanges = [])
    (h : appliedChanges inner client hash number isDescendentOf set = .ok (.ok (applied, set'))) :
    set' = set ∧ ∃ answer,
      set.enactsStandardChange inner.tree hash number isDescendentOf = .ok answer ∧
        applied = answer.elim .none .standard := by
  simp only [appliedChanges, AuthoritySet.applyForcedChanges_nil hforced, Run.bind_eq_ok] at h
  obtain ⟨_, hsame, h⟩ := h
  obtain rfl := Except.ok.inj hsame
  cases henacts : set.enactsStandardChange inner.tree hash number isDescendentOf with
  | error message =>
    simp only [henacts] at h
    cases h
  | ok answer =>
    simp only [henacts] at h
    cases answer with
    | none | some root =>
      obtain ⟨rfl, rfl⟩ := Prod.mk.inj (Except.ok.inj (Except.ok.inj h))
      exact ⟨rfl, _, rfl, rfl⟩

theorem makeAuthoritiesChanges_eq_ok (hsignals : inner.api.SignalsEach blocks signal)
    {node : Node κ τ} {hash parent : H256} {pending : PendingSetChanges τ}
    {known : IsDescendentOf}
    (hknown : known = isDescendentOf inner.env node.client (some (hash, parent)))
    (hparent : blocks.ancestry.parent hash = some parent)
    (hforced : node.authoritySet.pendingForcedChanges = [])
    (h : makeAuthoritiesChanges inner node hash (blocks.header hash) = .ok (.ok pending)) :
    node.authoritySet.addPendingChange inner.tree (blocks.change signal hash) known =
      .ok pending.authoritySet ∧
    ∃ answer, pending.authoritySet.enactsStandardChange inner.tree hash (blocks.number hash)
      known = .ok answer ∧ pending.appliedChanges = answer.elim .none .standard := by
  obtain ⟨hnone, hsome⟩ := hsignals hash parent hparent
  have hchange : checkNewChange inner.host inner.api (blocks.header hash) hash =
      .ok (some (blocks.change signal hash)) := by
    simp only [checkNewChange, hnone, hsome, PendingChange.ofScheduled, blocks.number_header]
    rfl
  rw [makeAuthoritiesChanges, hchange, blocks.parent_header hparent] at h
  simp only [AuthoritySet.addNewChange, ← hknown, blocks.number_header] at h
  cases hadd : node.authoritySet.addPendingChange inner.tree (blocks.change signal hash)
      known with
  | error message =>
    rw [hadd] at h
    cases h
  | ok set =>
    have hforced' : set.pendingForcedChanges = [] := by
      obtain ⟨changes, _, rfl⟩ := AuthoritySet.addStandardChange_eq_ok hadd
      exact hforced
    simp only [hadd, Run.bind_eq_ok] at h
    obtain ⟨applied, happlied, h⟩ := h
    rcases applied with error | ⟨applied, set'⟩
    · cases h
    · obtain ⟨rfl, henacts⟩ := appliedChanges_of_no_forced hforced' happlied
      rw [← Except.ok.inj (Except.ok.inj h)]
      exact ⟨rfl, henacts⟩

-- With or without a justification, an import touches the store and the set at most by
-- finalizing the block.
def FinalizesOnly (env : Env κ ι τ Hd) (hash : H256) (number : UInt64) (node node' : Node κ τ) :
    Prop :=
  (node'.client = node.client ∧ node'.authoritySet = node.authoritySet) ∨
    ∃ just outcome, finalizeBlock env none hash number (.justification just) node =
      .ok outcome ∧ node' = outcome.node

section Justify

variable {voterAlive : Bool} {hash : H256} {number : UInt64} {justification : Option Bytes}
  {enactsConsensusChange : Bool} {pending : PendingSetChanges τ} {aux : ImportedAux}
  {node : Node κ τ} {imported : BlockImported κ τ}

theorem importJustification_finalizes {env : Env κ ι τ Hd} {bytes : Bytes} {enactsChange : Bool}
    {imported : Imported κ τ}
    (h : importJustification env voterAlive hash number bytes enactsChange node = .ok imported) :
    FinalizesOnly env hash number node imported.node := by
  simp only [importJustification, Run.bind_eq_ok] at h
  obtain ⟨verified, _, h⟩ := h
  cases verified with
  | error error =>
    rw [(Run.pure_eq_ok _ _).mp h]
    exact .inl ⟨rfl, rfl⟩
  | ok just =>
    simp only [Run.bind_eq_ok, Run.pure_eq_ok] at h
    obtain ⟨outcome, houtcome, rfl⟩ := h
    refine .inr ⟨just, outcome, houtcome, ?_⟩
    unfold concludeImport
    split
    · split_ifs <;> rfl
    · rfl
    · rfl

theorem justifyBlock_finalizes {needsJustification : Bool} {commands : List VoterCommand}
    (h : justifyBlock inner voterAlive hash number justification needsJustification
      enactsConsensusChange commands aux node = .ok imported) :
    FinalizesOnly inner.env hash number node imported.node := by
  have hjustified : ∀ bytes, (do
      let imported ← importJustification inner.env voterAlive hash number bytes
        needsJustification node
      return concludeBlock commands aux imported : Run (BlockImported κ τ)) = .ok imported →
      FinalizesOnly inner.env hash number node imported.node := by
    intro bytes h
    simp only [Run.bind_eq_ok, Run.pure_eq_ok] at h
    obtain ⟨justified, hjustified, rfl⟩ := h
    exact importJustification_finalizes hjustified
  unfold justifyBlock at h
  split at h
  · obtain rfl := Except.ok.inj h
    exact .inl ⟨rfl, rfl⟩
  · cases justification with
    | some bytes => exact hjustified bytes h
    | none =>
      by_cases hfirst : number = DEFAULT_FINALIZE_BLOCK
      · simp only [if_pos hfirst] at h
        exact hjustified _ h
      · simp only [if_neg hfirst, Except.ok.injEq] at h
        subst h
        exact .inl ⟨rfl, rfl⟩

theorem afterImport_finalizes
    (h : afterImport inner voterAlive hash number justification enactsConsensusChange pending aux
      node = .ok imported) :
    FinalizesOnly inner.env hash number node imported.node := by
  cases happlied : pending.appliedChanges with
  | standard root =>
    cases root <;> simp only [afterImport, happlied] at h <;> exact justifyBlock_finalizes h
  | forced new =>
    simp only [afterImport, happlied] at h
    exact justifyBlock_finalizes h
  | none =>
    simp only [afterImport, happlied] at h
    exact justifyBlock_finalizes h

-- A block that is no root gets no justification, unless it is the first one.
theorem afterImport_waits (happlied : pending.appliedChanges = .standard false)
    (hnumber : number ≠ DEFAULT_FINALIZE_BLOCK)
    (h : afterImport inner voterAlive hash number justification enactsConsensusChange pending aux
      node = .ok imported) :
    imported.node.client = node.client ∧ imported.node.authoritySet = node.authoritySet := by
  simp only [afterImport, justifyBlock, happlied, AppliedChanges.needsJustification,
    Bool.not_true, Bool.false_and, Bool.false_eq_true, if_false, if_neg hnumber,
    Except.ok.injEq] at h
  subst h
  exact ⟨rfl, rfl⟩

end Justify

-- What can happen to a node: a block or a justification comes in, or the voter finalizes.
inductive NodeEvent (Hd : Type) where
  | block (voterAlive : Bool) (hash : H256) (justification : Option Bytes)
      (enactsConsensusChange : Bool)
  | justification (voterAlive : Bool) (hash : H256) (justification : Bytes)
  | finalize (justificationPeriod : Option UInt64) (hash : H256)
      (justificationOrCommit : JustificationOrCommit Hd)

def nodeStep (inner : BlockImport κ ι τ Hd) (blocks : BlockTree inner.host) (node : Node κ τ)
    (event : NodeEvent Hd) (node' : Node κ τ) (_ : List Unit) : Prop :=
  match event with
  | .block voterAlive hash justification enactsConsensusChange => ∃ imported,
      importBlock inner voterAlive hash (blocks.header hash) justification enactsConsensusChange
        node = .ok imported ∧ node' = imported.node
  | .justification voterAlive hash justification => ∃ imported,
      importJustification inner.env voterAlive hash (blocks.number hash) justification false
        node = .ok imported ∧ node' = imported.node
  | .finalize period hash justificationOrCommit => ∃ outcome,
      finalizeBlock inner.env period hash (blocks.number hash) justificationOrCommit node =
        .ok outcome ∧ node' = outcome.node

-- No block is finalized, by the voter or by a justification that comes alone, that is two
-- after the last finalized one.
def InOrder (inner : BlockImport κ ι τ Hd) (blocks : BlockTree inner.host) (stored : κ → Stored)
    (node : Node κ τ) : NodeEvent Hd → Prop
  | .block _ _ _ _ => True
  | .justification _ hash _ | .finalize _ hash _ =>
    ¬ blocks.SecondAfter (stored node.client).finalized hash

section Run

variable (hclient : inner.ClientContract blocks stored finalizes)
  (htree : inner.tree.Documented blocks view)

include hclient htree

section Step

variable {hash : H256} {node node' : Node κ τ}
  (hstep : InStep blocks view signal initial (stored node.client) node.authoritySet)

include hstep

theorem InStep.finalizeBlock {period : Option UInt64} {outcome : FinalizeOutcome κ τ}
    {justificationOrCommit : JustificationOrCommit Hd}
    (hsecond : ¬ blocks.SecondAfter (stored node.client).finalized hash)
    (h : Crfg.finalizeBlock inner.env period hash (blocks.number hash) justificationOrCommit node =
      .ok outcome) :
    InStep blocks view signal initial (stored outcome.node.client) outcome.node.authoritySet := by
  rcases hclient.finalizeBlock_cases h with ⟨_, _, hclientSame, hset⟩ |
    ⟨hknown, hdescends, hstored, status, happlied⟩
  · rw [hclientSame, hset]
    exact hstep
  · rw [hstored]
    exact hstep.finalize htree (hclient.tells node.client) hknown happlied hdescends hsecond

theorem InStep.finalizesOnly
    (hsecond : ¬ blocks.SecondAfter (stored node.client).finalized hash)
    (h : FinalizesOnly inner.env hash (blocks.number hash) node node') :
    InStep blocks view signal initial (stored node'.client) node'.authoritySet := by
  rcases h with ⟨hsame, hset⟩ | ⟨just, outcome, hfinal, rfl⟩
  · rw [hsame, hset]
    exact hstep
  · exact InStep.finalizeBlock hclient htree hstep hsecond hfinal

theorem InStep.imported (hsignals : inner.api.SignalsEach blocks signal) {client : κ}
    {pending : PendingSetChanges τ} {writes : List (AuxWrite τ)} {aux : ImportedAux}
    {voterAlive enactsConsensusChange : Bool} {justification : Option Bytes}
    {imported : BlockImported κ τ} (hstatus : inner.status node.client hash = .ok false)
    (hpending : makeAuthoritiesChanges inner node hash (blocks.header hash) = .ok (.ok pending))
    (hinner : inner.innerImport node.client hash (blocks.header hash) writes =
      .ok (.imported aux, client))
    (h : afterImport inner voterAlive hash (blocks.number hash) justification
      enactsConsensusChange pending aux
        { node with client := client, authoritySet := pending.authoritySet } = .ok imported) :
    InStep blocks view signal initial (stored imported.node.client) imported.node.authoritySet := by
  obtain ⟨⟨parent, hparentKnown, hparent⟩, hstored⟩ := hclient.imports hinner
  have hnew := hclient.status hstatus
  obtain ⟨hadded, answer, hanswer, happlied⟩ :=
    makeAuthoritiesChanges_eq_ok hsignals rfl hparent hstep.no_forced hpending
  have htells := hclient.tells_new (fun block hblock habove =>
    hnew (hstep.known_of_descends hblock habove)) hparent hparentKnown
  have hwritten : InStep blocks view signal initial (stored client) pending.authoritySet := by
    rw [hstored]
    exact hstep.importChange htree htells hnew hparent hparentKnown hadded
  by_cases hsecond : blocks.SecondAfter (stored client).finalized hash
  · -- Its parent waits as well, so the block is no root.
    have hknown : insert hash (stored node.client).known = (stored client).known := by rw [hstored]
    rw [hwritten.enacts_second htree (hknown ▸ htells) (hknown ▸ Set.mem_insert _ _) hsecond
      hanswer] at happlied
    obtain ⟨hsame, hset⟩ := afterImport_waits happlied (blocks.number_ne_of_secondAfter hsecond) h
    rw [hsame, hset]
    exact hwritten
  · exact InStep.finalizesOnly hclient htree hwritten hsecond (afterImport_finalizes h)

theorem InStep.importBlock (hsignals : inner.api.SignalsEach blocks signal) {voterAlive : Bool}
    {justification : Option Bytes} {enactsConsensusChange : Bool} {imported : BlockImported κ τ}
    (h : Crfg.importBlock inner voterAlive hash (blocks.header hash) justification
      enactsConsensusChange node = .ok imported) :
    InStep blocks view signal initial (stored imported.node.client) imported.node.authoritySet := by
  unfold Crfg.importBlock at h
  match hstatus : inner.status node.client hash with
  | .error error | .ok true =>
    simp only [hstatus, Except.ok.injEq] at h
    exact h ▸ hstep
  | .ok false =>
    simp only [hstatus, Run.bind_eq_ok] at h
    obtain ⟨pending, hpending, h⟩ := h
    match pending, hpending with
    | .error error, _ =>
      rw [(Run.pure_eq_ok _ _).mp h]
      exact hstep
    | .ok pending, hpending =>
      simp only at h
      cases hinner : inner.innerImport node.client hash (blocks.header hash)
          pending.auxiliary with
      | error error =>
        simp only [hinner] at h
        rw [(Run.pure_eq_ok _ _).mp h]
        exact hstep
      | ok result =>
        obtain ⟨result, client⟩ := result
        cases result with
        | imported aux =>
          simp only [hinner, blocks.number_header] at h
          exact InStep.imported hclient htree hstep hsignals hstatus hpending hinner h
        | alreadyInChain | knownBad | unknownParent =>
          simp only [hinner] at h
          rw [(Run.pure_eq_ok _ _).mp h]
          show InStep blocks view signal initial (stored client) node.authoritySet
          rw [hclient.keeps hinner (by simp)]
          exact hstep

theorem InStep.step (hsignals : inner.api.SignalsEach blocks signal) {event : NodeEvent Hd}
    {out : List Unit} (horder : InOrder inner blocks stored node event)
    (h : nodeStep inner blocks node event node' out) :
    InStep blocks view signal initial (stored node'.client) node'.authoritySet := by
  cases event with
  | block voterAlive hash justification enactsConsensusChange =>
    obtain ⟨imported, himported, rfl⟩ := h
    exact InStep.importBlock hclient htree hstep hsignals himported
  | justification voterAlive hash justification =>
    obtain ⟨imported, himported, rfl⟩ := h
    exact InStep.finalizesOnly hclient htree hstep horder
      (importJustification_finalizes himported)
  | finalize period hash justificationOrCommit =>
    obtain ⟨outcome, hfinal, rfl⟩ := h
    exact InStep.finalizeBlock hclient htree hstep horder hfinal

end Step

section Waits

variable {period : Option UInt64} {hash base : H256}
  {justificationOrCommit : JustificationOrCommit Hd} {node : Node κ τ}
  {outcome : FinalizeOutcome κ τ}
  (hstep : InStep blocks view signal initial (stored node.client) node.authoritySet)

include hstep

theorem InStep.rejects (hbase : base ∈ view.holds node.authoritySet.pendingStandardChanges)
    (hdescends : blocks.Descends base hash) (hne : base ≠ hash)
    (hsecond : ¬ blocks.SecondAfter (stored node.client).finalized hash)
    (h : Crfg.finalizeBlock inner.env period hash (blocks.number hash) justificationOrCommit node =
      .ok outcome) :
    outcome.Rejected node := by
  rcases hclient.finalizeBlock_cases h with hrejected | ⟨hknown, hfinalized, _, status, happlied⟩
  · exact hrejected
  · obtain ⟨hneFinalized, hparent⟩ := hstep.ne_of_waits hbase hdescends hne
    obtain ⟨message, hmessage⟩ := hstep.refuses htree (hclient.tells node.client) hknown
      hfinalized hneFinalized hparent hsecond
    cases hmessage.symm.trans happlied

theorem InStep.returns (hknown : hash ∈ (stored node.client).known)
    (hfinalized : blocks.Descends (stored node.client).finalized hash)
    (hbase : base ∈ view.holds node.authoritySet.pendingStandardChanges)
    (hdescends : blocks.Descends base hash) (hne : base ≠ hash)
    (hsecond : ¬ blocks.SecondAfter (stored node.client).finalized hash) :
    ∃ outcome, Crfg.finalizeBlock inner.env period hash (blocks.number hash)
      justificationOrCommit node = .ok outcome := by
  obtain ⟨hneFinalized, hparent⟩ := hstep.ne_of_waits hbase hdescends hne
  obtain ⟨message, hmessage⟩ := hstep.refuses htree (hclient.tells node.client) hknown
    hfinalized hneFinalized hparent hsecond
  have hrefused : node.finalizing.authoritySet.applyStandardChanges inner.env.tree hash
      (blocks.number hash) (isDescendentOf inner.env node.client none) = .error message := hmessage
  unfold Crfg.finalizeBlock
  cases hbegin : inner.env.client.beginOperation node.client with
  | error error => exact ⟨_, rfl⟩
  | ok op =>
    have hrun : (finalizeOperation inner.env node.client period hash (blocks.number hash)
        justificationOrCommit op).run.run node.finalizing =
          .ok (.error (.safety message), node.finalizing) := by
      refine (FinalizeM.bind_eq ..).mpr (.inl ⟨_, ?_, rfl⟩)
      rw [applySetChanges, FinalizeM.get_bind]
      simp only [hrefused]
      rfl
    simp only [hrun]
    exact ⟨_, rfl⟩

-- Two after the finalized block nothing is refused: the set falls one block behind.
theorem InStep.second_behind (hparent : blocks.ancestry.parent hash = some base)
    (hbase : blocks.ancestry.parent base = some (stored node.client).finalized)
    (h : Crfg.finalizeBlock inner.env period hash (blocks.number hash) justificationOrCommit node =
      .ok outcome) :
    outcome.Rejected node ∨
      ((stored outcome.node.client).finalized = hash ∧
        outcome.node.authoritySet.setId = blocks.number base ∧
        outcome.node.authoritySet.currentAuthorities = blocks.authoritiesAt signal initial base) := by
  rcases hclient.finalizeBlock_cases h with hrejected | ⟨hknown, -, hstored, status, happlied⟩
  · exact .inl hrejected
  · obtain ⟨-, -, -, hbehind⟩ := hstep.applied_child htree (hclient.tells node.client) hknown
      happlied hbase (.step .refl hparent)
    exact .inr ⟨by rw [hstored], hbehind⟩

end Waits

end Run

theorem inStep_genesis (htree : inner.tree.Documented blocks view) :
    InStep blocks view signal initial ⟨{blocks.genesis}, blocks.genesis⟩
      (.genesis inner.tree initial) := by
  have hempty : ∀ block, block ∉ view.holds inner.tree.new := by
    rintro block ⟨change, hchange⟩
    rw [htree.nodes_new] at hchange
    cases hchange
  refine ⟨?_, rfl, htree.valid_new, ?_, ?_, ?_, rfl, ?_, ?_⟩
  · rintro block parent rfl hparent
    exact absurd rfl (blocks.ne_genesis_of_parent hparent)
  · intro block change hchange
    exact absurd ⟨change, hchange⟩ (hempty block)
  · intro block hknown _ hne
    exact absurd hknown hne
  · intro block hblock
    exact absurd hblock (hempty block)
  · rw [BlockTree.number, blocks.height_genesis]
    rfl
  · rw [BlockTree.authoritiesAt, if_pos rfl]
    rfl

-- In a run that finalizes no block two after the last finalized one, the set is the one that
-- the last finalized block has signalled, and a block with another one waiting before it is
-- refused. If such a block is two after the finalized one, it is let through, with the set of
-- the block between them.
theorem authorities_follow_finality (hclient : inner.ClientContract blocks stored finalizes)
    (htree : inner.tree.Documented blocks view) (hsignals : inner.api.SignalsEach blocks signal)
    {start node : Node κ τ} {outs : List Unit}
    (hset : start.authoritySet = .genesis inner.tree initial)
    (hstored : stored start.client = ⟨{blocks.genesis}, blocks.genesis⟩)
    (hrun : Transition.Reaches (nodeStep inner blocks) (InOrder inner blocks stored) start outs node) :
    node.authoritySet.currentAuthorities =
      blocks.authoritiesAt signal initial (stored node.client).finalized ∧
    node.authoritySet.setId = blocks.number (stored node.client).finalized ∧
    ∀ hash period justificationOrCommit,
      (∀ base ∈ view.holds node.authoritySet.pendingStandardChanges,
        blocks.Descends base hash → base ≠ hash →
        ¬ blocks.SecondAfter (stored node.client).finalized hash →
        (∀ outcome, finalizeBlock inner.env period hash (blocks.number hash)
          justificationOrCommit node = .ok outcome → outcome.Rejected node) ∧
        (hash ∈ (stored node.client).known →
          blocks.Descends (stored node.client).finalized hash →
          ∃ outcome, finalizeBlock inner.env period hash (blocks.number hash)
            justificationOrCommit node = .ok outcome)) ∧
      ∀ between, blocks.ancestry.parent hash = some between →
        blocks.ancestry.parent between = some (stored node.client).finalized →
        ∀ outcome, finalizeBlock inner.env period hash (blocks.number hash)
          justificationOrCommit node = .ok outcome → outcome.Rejected node ∨
            ((stored outcome.node.client).finalized = hash ∧
              outcome.node.authoritySet.setId = blocks.number between ∧
              outcome.node.authoritySet.currentAuthorities =
                blocks.authoritiesAt signal initial between) := by
  have hstep := hrun.invariant (fun _ node =>
      InStep blocks view signal initial (stored node.client) node.authoritySet)
    (by rw [hset, hstored]; exact inStep_genesis htree)
    (fun _ _ _ _ _ hstep horder h => InStep.step hclient htree hstep hsignals horder h)
  refine ⟨hstep.authorities, hstep.set_id, ?_⟩
  intro hash period justificationOrCommit
  refine ⟨fun base hbase hdescends hne hsecond => ⟨?_, ?_⟩, ?_⟩
  · intro outcome houtcome
    exact InStep.rejects hclient htree hstep hbase hdescends hne hsecond houtcome
  · intro hknown hfinalized
    exact InStep.returns hclient htree hstep hknown hfinalized hbase hdescends hne hsecond
  · intro between hparent hbetween outcome houtcome
    exact InStep.second_behind hclient htree hstep hparent hbetween houtcome

end Follow

-- The two forks in a store that keeps a list of hashes.
namespace TwoForks

structure Store where
  known : List H256
  finalized : H256
  linked : ∀ block ∈ known, blocks.Descends blocks.genesis block

def stored (store : Store) : Stored := ⟨{block | block ∈ store.known}, store.finalized⟩

def inner : BlockImport Store (Option H256) Forest H256 where
  host := host
  client := {
    treeRoute := fun _ block base =>
      .ok (if blocks.Descends base block then base
        else if blocks.Descends block base then block else blocks.genesis)
    blockNumberToHash := fun _ _ => none
    headerByNumber := fun _ _ => .ok none
    headerByHash := fun _ _ => .ok none
    finalizedNumber := fun store => .ok (blocks.number store.finalized)
    beginOperation := fun _ => .ok none
    applyAux := fun _ op _ => .ok op
    applyFinality := fun store _ hash _ =>
      if hash ∈ store.known ∧ blocks.Descends store.finalized hash then .ok (some hash)
      else .error (.other "not in finalized chain")
    commitOperation := fun store op => .ok { store with finalized := op.getD store.finalized }
    notifyFinalized := fun _ _ => .ok () }
  tree := Forest.tree
  api := {
    forcedChange := fun _ => .ok none
    supportsForced := fun _ => .ok true
    pendingChange := fun block => .ok (some ⟨[(block, 1)], 0⟩) }
  status store hash := .ok (decide (hash ∈ store.known))
  search := ConsensusChanges.firstOf
  innerImport store hash _ _ :=
    match hparent : parent hash with
    | none => .ok (.unknownParent, store)
    | some base =>
      if hknown : base ∈ store.known then
        .ok (.imported ⟨false, false, false⟩, { store with
          known := hash :: store.known
          linked := List.forall_mem_cons.mpr
            ⟨.step (store.linked base hknown) hparent, store.linked⟩ })
      else .ok (.unknownParent, store)

theorem client_contract : inner.ClientContract blocks stored id where
  route := by
    intro store block base hblock hbase
    refine ⟨_, rfl, ?_⟩
    split_ifs with hdescends hbelow
    · simp [hdescends]
    · refine iff_of_false ?_ hdescends
      rintro rfl
      exact hdescends .refl
    · refine iff_of_false ?_ hdescends
      rintro rfl
      exact hdescends (store.linked block hblock)
  begins := by
    rintro store op h
    exact (Except.ok.inj h).symm
  aux := by
    rintro store op writes op' h
    rw [Except.ok.inj h]
  finality := by
    rintro store op hash justification op' h
    simp only [inner] at h
    split_ifs at h with hknown
    obtain rfl := Except.ok.inj h
    exact ⟨hknown.1, hknown.2, rfl⟩
  commit := by
    rintro store op store' h
    rw [← Except.ok.inj h]
    rfl
  notify _ := rfl
  status := by
    rintro store hash h
    have hnew : hash ∉ store.known := of_decide_eq_false (Except.ok.inj h)
    exact hnew
  imports := by
    rintro store hash writes aux store' h
    simp only [inner] at h
    split at h
    · cases h
    · next base hparent =>
      split_ifs at h with hknown
      · obtain ⟨_, rfl⟩ := Prod.mk.inj (Except.ok.inj h)
        refine ⟨⟨base, hknown, hparent⟩, ?_⟩
        simp only [stored, List.mem_cons]
        rfl
      · cases h
  keeps := by
    rintro store hash writes result store' h hresult
    simp only [inner] at h
    split at h
    · rw [(Prod.mk.inj (Except.ok.inj h)).2]
    · split_ifs at h
      · exact absurd (Prod.mk.inj (Except.ok.inj h)).1.symm (hresult _)
      · rw [(Prod.mk.inj (Except.ok.inj h)).2]

def node : Node Store Forest :=
  ⟨⟨[blocks.genesis], blocks.genesis, by simp [Ancestry.Descends.refl]⟩, start, ⟨[]⟩⟩

def imports (node : Node Store Forest) : List UInt8 → Run (Node Store Forest)
  | [] => .ok node
  | block :: rest => do
    let imported ← importBlock inner true (filled 32 block) (blocks.header (filled 32 block))
      none false node
    imports imported.node rest

def commit (block : UInt8) : JustificationOrCommit H256 :=
  .commit 1 ⟨filled 32 block, blocks.number (filled 32 block),
    votes [(filled 32 9, ⟨filled 32 block, blocks.number (filled 32 block)⟩)]⟩

def finalizes (block : UInt8) (node : Node Store Forest) : Run (FinalizeOutcome Store Forest) :=
  finalizeBlock inner.env none (filled 32 block) (blocks.number (filled 32 block)) (commit block)
    node

theorem reaches_imports (guard : Node Store Forest → NodeEvent H256 → Prop)
    (hguard : ∀ node hash, guard node (.block true hash none false)) {hashes : List UInt8}
    {first last : Node Store Forest} {outs : List Unit}
    (hfirst : Transition.Reaches (nodeStep inner blocks) guard node outs first)
    (h : imports first hashes = .ok last) :
    ∃ outs, Transition.Reaches (nodeStep inner blocks) guard node outs last := by
  induction hashes generalizing first outs with
  | nil =>
    obtain rfl := Except.ok.inj h
    exact ⟨outs, hfirst⟩
  | cons block rest ih =>
    rw [imports, Run.bind_eq_ok] at h
    obtain ⟨imported, himported, hrest⟩ := h
    have hstep : nodeStep inner blocks first (.block true (filled 32 block) none false)
        imported.node [] := ⟨imported, himported, rfl⟩
    exact ih (.tail hfirst (hguard _ _) hstep) hrest

theorem stored_node : stored node.client = ⟨{blocks.genesis}, blocks.genesis⟩ := by
  simp only [stored, node, List.mem_singleton]
  rfl

theorem secondAfter_iff (base block : H256) :
    blocks.SecondAfter base block ↔ (parent block).bind parent = some base :=
  Option.bind_eq_some_iff.symm

theorem signals : inner.api.SignalsEach blocks fun block => [(block, 1)] :=
  fun _ _ _ => ⟨rfl, rfl⟩

end TwoForks

open TwoForks

-- All blocks are imported. Block 4 is refused while blocks 1 and 3 wait before it; after
-- block 1 has been finalized the set is the one of this block.
theorem authorities_follow_finality_forks : ∃ imported outcome,
    imports node [1, 2, 3, 4] = .ok imported ∧
    (∃ rejected, finalizes 4 imported = .ok rejected ∧ rejected.Rejected imported) ∧
    finalizes 1 imported = .ok outcome ∧
    outcome.node.client.finalized = filled 32 1 ∧ outcome.node.authoritySet.setId = 1 ∧
    outcome.node.authoritySet.currentAuthorities = [(filled 32 1, 1)] := by
  have himports : ((imports node [1, 2, 3, 4]).toOption.bind fun node => some
      (decide (filled 32 4 ∈ node.client.known), node.client.finalized,
        decide (filled 32 1 ∈ (Forest.nodesAmong
          node.authoritySet.pendingStandardChanges.roots).map ForkNode.hash),
        (finalizes 1 node).toOption.bind fun outcome =>
          some outcome.node.client.finalized)) =
      some (true, filled 32 0, true, some (filled 32 1)) := by
    decide +kernel
  obtain ⟨imported, himported, hnode⟩ := Run.exists_of_toOption himports
  simp only [Option.some.injEq, Prod.mk.injEq, decide_eq_true_iff] at hnode
  obtain ⟨hknown, hgenesis, hwaits, hfinal⟩ := hnode
  obtain ⟨outcome, houtcome, hfinalized⟩ := Run.exists_of_toOption hfinal
  have hfinalized : outcome.node.client.finalized = filled 32 1 := Option.some.inj hfinalized
  obtain ⟨waiting, hwaiting, hhash⟩ := List.mem_map.mp hwaits
  obtain ⟨outs, hreaches⟩ := reaches_imports (InOrder inner blocks stored)
    (fun _ _ => trivial) (.refl _) himported
  have hstored : (stored imported.client).finalized = filled 32 0 := hgenesis
  have hfirst : ¬ blocks.SecondAfter (stored imported.client).finalized (filled 32 1) := by
    rw [hstored, secondAfter_iff]
    decide
  have hthird : ¬ blocks.SecondAfter (stored imported.client).finalized (filled 32 4) := by
    rw [hstored, secondAfter_iff]
    decide
  have hbehind : blocks.Descends (stored imported.client).finalized (filled 32 4) := by
    rw [hstored]
    decide
  obtain ⟨hrejects, hreturns⟩ := ((authorities_follow_finality client_contract
    (Forest.documented blocks) signals rfl stored_node
    hreaches).2.2 (filled 32 4) none (commit 4)).1 (filled 32 1)
      (hhash ▸ Forest.hash_mem_holds hwaiting) (by decide) (by decide) hthird
  obtain ⟨rejected, hrejected⟩ := hreturns hknown hbehind
  have hstep : nodeStep inner blocks imported
      (.finalize none (filled 32 1) (commit 1)) outcome.node [] := ⟨outcome, houtcome, rfl⟩
  obtain ⟨hauthorities, hid, -⟩ := authorities_follow_finality client_contract
    (Forest.documented blocks) signals rfl stored_node
    (hreaches.tail (show InOrder _ _ _ _ (.finalize _ _ _) from hfirst) hstep)
  have hlast : (stored outcome.node.client).finalized = filled 32 1 := hfinalized
  refine ⟨imported, outcome, himported, ⟨rejected, hrejected, hrejects rejected hrejected⟩,
    houtcome, hfinalized, ?_, ?_⟩
  · rw [hid, hlast]
    decide
  · rw [hauthorities, hlast]
    decide

-- Block 3 is finalized while its parent, block 1, waits: it is not refused, and the set that
-- comes with it is the one of block 1.
theorem block_after_next_finalized : ∃ imported outcome,
    imports node [1, 3] = .ok imported ∧
    filled 32 1 ∈ (Forest.nodesView blocks).holds
      imported.authoritySet.pendingStandardChanges ∧
    blocks.Descends (filled 32 1) (filled 32 3) ∧
    finalizes 3 imported = .ok outcome ∧ ¬ outcome.Rejected imported ∧
    (∃ outs, Transition.Reaches (nodeStep inner blocks) (fun _ _ => True)
      node outs outcome.node) ∧
    outcome.node.client.finalized = filled 32 3 ∧ blocks.number (filled 32 3) = 2 ∧
    outcome.node.authoritySet.setId = 1 ∧
    outcome.node.authoritySet.currentAuthorities = [(filled 32 1, 1)] := by
  have himports : ((imports node [1, 3]).toOption.bind fun node =>
      (finalizes 3 node).toOption.bind fun outcome => some
        (decide (filled 32 1 ∈ (Forest.nodesAmong
            node.authoritySet.pendingStandardChanges.roots).map ForkNode.hash),
          outcome.finalized.isSome, outcome.node.client.finalized,
          decide (outcome.node.authoritySet.setId = 1 ∧
            outcome.node.authoritySet.currentAuthorities = [(filled 32 1, 1)]))) =
      some (true, true, filled 32 3, true) := by
    decide +kernel
  obtain ⟨imported, himported, hnode⟩ := Run.exists_of_toOption himports
  obtain ⟨outcome, houtcome, hnode⟩ := Run.exists_of_toOption hnode
  simp only [Option.some.injEq, Prod.mk.injEq, decide_eq_true_iff] at hnode
  obtain ⟨hwaits, hsome, hfinalized, hid, hauthorities⟩ := hnode
  obtain ⟨waiting, hwaiting, hhash⟩ := List.mem_map.mp hwaits
  obtain ⟨outs, hreaches⟩ := reaches_imports (fun _ _ => True) (fun _ _ => trivial)
    (.refl _) himported
  have hstep : nodeStep inner blocks imported
      (.finalize none (filled 32 3) (commit 3)) outcome.node [] := ⟨outcome, houtcome, rfl⟩
  refine ⟨imported, outcome, himported, hhash ▸ Forest.hash_mem_holds hwaiting, by decide,
    houtcome, ?_, ⟨_, .tail hreaches trivial hstep⟩, hfinalized, by decide, hid, hauthorities⟩
  rintro ⟨-, hnone, -⟩
  rw [hnone] at hsome
  cases hsome

end Yeeroot.Crfg
