import Yeeroot.Executive.Ledger
import Yeeroot.Executive.Marker
import Yeeroot.MultiLayerProof.Lemmas
import Yeeroot.Runtime.Crfg

namespace Yeeroot

open Scale

variable {σ : Type} (env : Substrate σ)

-- The key that an extrinsic submits: `update_authorities` is for inherents.
def UncheckedExtrinsic.submittedKey : UncheckedExtrinsic → Option SessionKey
  | ⟨none, .crfgUpdateAuthorities info⟩ => some info
  | _ => none

-- The signal that a forced change asks for, made by root or for it.
def Call.forcedSignal? : Call → Option Log
  | .crfgForceUpdateAuthorities authorities median =>
    some (.forcedAuthoritiesChangeSignal median 0 authorities)
  | .sudoSudo proposal => proposal.forcedSignal?
  | _ => none

namespace Crfg

structure Noted (extrinsics : List UncheckedExtrinsic) (events : List Event) : Prop where
  keys : events.filterMap Event.key? = extrinsics.filterMap UncheckedExtrinsic.submittedKey
  signals : ∀ log ∈ events.filterMap Event.signal?,
    ∃ uxt ∈ extrinsics, uxt.function.forcedSignal? = some log

theorem Noted.append {first rest : List UncheckedExtrinsic} {events later : List Event}
    (h : Noted first events) (h' : Noted rest later) : Noted (first ++ rest) (events ++ later) where
  keys := by rw [List.filterMap_append, List.filterMap_append, h.keys, h'.keys]
  signals := by
    intro log hlog
    rw [List.filterMap_append, List.mem_append] at hlog
    rcases hlog with hlog | hlog
    · obtain ⟨uxt, hmem, hsignal⟩ := h.signals log hlog
      exact ⟨uxt, List.mem_append_left _ hmem, hsignal⟩
    · obtain ⟨uxt, hmem, hsignal⟩ := h'.signals log hlog
      exact ⟨uxt, List.mem_append_right _ hmem, hsignal⟩

theorem Noted.nothing {uxt : UncheckedExtrinsic} (h : uxt.submittedKey = none) :
    Noted [uxt] [] where
  keys := by simp [h]
  signals := by simp

theorem noted_inherent (sudoKeys : List AccountId) (call : Call) :
    Noted [⟨none, call⟩] (call.crfgEvent sudoKeys .inherent).toList := by
  cases call with
  | crfgUpdateAuthorities info => exact ⟨rfl, by simp [Call.crfgEvent, Event.signal?]⟩
  | _ => exact .nothing rfl

theorem noted_root (sudoKeys : List AccountId) (call : Call) :
    (call.crfgEvent sudoKeys .root).toList.filterMap Event.key? = [] ∧
      ∀ log ∈ (call.crfgEvent sudoKeys .root).toList.filterMap Event.signal?,
        call.forcedSignal? = some log := by
  cases call with
  | crfgForceUpdateAuthorities authorities median =>
    exact ⟨rfl, fun log hlog => by rw [List.mem_singleton.mp hlog]; rfl⟩
  | _ => exact ⟨rfl, fun _ hlog => absurd hlog List.not_mem_nil⟩

theorem noted_signed (sudoKeys : List AccountId) (info : SignatureInfo) (call : Call)
    (sender : AccountId) :
    Noted [⟨some info, call⟩] (call.crfgEvent sudoKeys (.signed sender)).toList := by
  cases call with
  | sudoSudo proposal =>
    by_cases hkey : sender ∈ sudoKeys
    · have hevent : (Call.sudoSudo proposal).crfgEvent sudoKeys (.signed sender) =
        proposal.crfgEvent sudoKeys .root := if_pos hkey
      rw [hevent]
      obtain ⟨hkeys, hsignals⟩ := noted_root sudoKeys proposal
      exact ⟨hkeys, fun log hlog => ⟨_, List.mem_singleton_self _, hsignals log hlog⟩⟩
    · have hevent : (Call.sudoSudo proposal).crfgEvent sudoKeys (.signed sender) = none :=
        if_neg hkey
      rw [hevent]
      exact .nothing rfl
  | _ => exact .nothing rfl

end Crfg

theorem Outcome.applied_crfgView (outcome : Outcome σ) (encodedLen : Nat) :
    (outcome.applied encodedLen).state.crfgView = outcome.state.crfgView := rfl

variable {st st' : State σ} {ml : MerkleLight H256}

theorem applyExtrinsicNoNote_crfgView {uxt : UncheckedExtrinsic} {applied : Applied σ}
    (h : applyExtrinsicNoNote env uxt st = .ok applied) (hordinary : uxt.Ordinary) :
    ∃ events, Crfg.Noted [uxt] events ∧ applied.state.crfgView = st.crfgView.run events := by
  obtain ⟨happly, _, hresult⟩ := (applyExtrinsicNoNote_eq_ok env _ _ _).mp h
  obtain ⟨signature, call⟩ := uxt
  rcases applyExtrinsic_cases env happly with ⟨_, rfl⟩ |
    ⟨info, sender, paid, outcome, haccepted, _, hpaid, hdispatch, rfl⟩ |
    ⟨rtx, outcome, hunsigned, _, _, hdispatch, rfl⟩ | ⟨outcome, hunsigned, _, hdispatch, rfl⟩
  · cases hresult
  · obtain rfl : signature = some info := haccepted.signature
    have hpay := Balances.makePayment_crfgView sender
      (UncheckedExtrinsic.mk (some info) call).encode.length st
    rw [hpaid] at hpay
    have hcharged : (incAccountNonce sender paid).crfgView = st.crfgView := hpay
    refine ⟨_, Crfg.noted_signed (incAccountNonce sender paid).sudoKeys info call sender, ?_⟩
    rw [Outcome.applied_crfgView, dispatch_crfgView env hdispatch (hordinary sender), hcharged]
  · obtain rfl : signature = none := hunsigned
    have hmarked : (setRelayExtrinsicExist rtx.hash st).crfgView = st.crfgView := rfl
    refine ⟨_, Crfg.noted_inherent (setRelayExtrinsicExist rtx.hash st).sudoKeys call, ?_⟩
    rw [Outcome.applied_crfgView, dispatch_crfgView env hdispatch (Call.rawWrite_inherent call),
      hmarked]
  · obtain rfl : signature = none := hunsigned
    refine ⟨_, Crfg.noted_inherent st.sudoKeys call, ?_⟩
    rw [Outcome.applied_crfgView, dispatch_crfgView env hdispatch (Call.rawWrite_inherent call)]

theorem executeExtrinsics_crfgView {extrinsics : List UncheckedExtrinsic} {st ended : State σ}
    {executed : List (Executed σ)}
    (h : executeExtrinsics env extrinsics st = .ok (executed, ended))
    (hordinary : ∀ uxt ∈ extrinsics, uxt.Ordinary) :
    ∃ events, Crfg.Noted extrinsics events ∧ ended.crfgView = st.crfgView.run events := by
  induction extrinsics generalizing st executed with
  | nil =>
    obtain ⟨_, rfl⟩ := Prod.mk.inj (Except.ok.inj h)
    exact ⟨[], ⟨rfl, fun _ hlog => absurd hlog List.not_mem_nil⟩, rfl⟩
  | cons uxt extrinsics ih =>
    simp only [executeExtrinsics, Run.bind_eq_ok, Prod.exists, Run.pure_eq_ok, Prod.mk.injEq] at h
    obtain ⟨applied, happlied, rest, _, hrest, rfl, rfl⟩ := h
    obtain ⟨huxt, hordinary⟩ := List.forall_mem_cons.mp hordinary
    obtain ⟨events, hnoted, hview⟩ := applyExtrinsicNoNote_crfgView env happlied huxt
    obtain ⟨later, hlater, hended⟩ := ih hrest hordinary
    refine ⟨events ++ later, hnoted.append hlater, ?_⟩
    rw [hended, hview, Crfg.View.run, Crfg.View.run, Crfg.View.run, List.foldl_append]

theorem Pow.onFinalize_crfgView {number : UInt64} (h : onFinalize env number st = .ok st') :
    st'.crfgView = st.crfgView :=
  onFinalize_preserves env State.crfgView
    (fun who value st => Balances.depositCreating_crfgView env who st value) (fun _ _ => rfl) h

def Log.isChangeSignal : Log → Bool
  | .authoritiesChangeSignal _ _ => true
  | .forcedAuthoritiesChangeSignal _ _ _ => true
  | _ => false

theorem Crfg.filter_signals (events : List Event) :
    (events.filterMap Event.signal?).filter Log.isChangeSignal =
      events.filterMap Event.signal? := by
  rw [List.filter_eq_self]
  intro log hlog
  obtain ⟨event, _, hsignal⟩ := List.mem_filterMap.mp hlog
  cases event with
  | update info => cases hsignal
  | force authorities median =>
    obtain rfl := Option.some.inj hsignal
    rfl

theorem Sharding.onFinalize_crfgView (st : State σ) : ∃ own,
    own.filter Log.isChangeSignal = [] ∧
      (onFinalize st).crfgView = ⟨st.crfg, st.system.blockNumber, st.system.logs ++ own⟩ := by
  refine ⟨(st.sharding.currentShardInfo.map fun info =>
      Log.shardMarker info.num info.count).toList ++
    (st.sharding.currentScaleOutPhase.map Log.scaleOutPhase).toList, ?_, ?_⟩
  · cases st.sharding.currentShardInfo <;> cases st.sharding.currentScaleOutPhase <;> rfl
  · unfold onFinalize
    cases hinfo : st.sharding.currentShardInfo <;>
      cases hphase : st.sharding.currentScaleOutPhase <;>
      simp [State.depositLog, State.crfgView, hphase]

theorem FinalityTracker.onFinalize_crfgView (st : State σ) : ∃ own,
    own.filter Log.isChangeSignal = [] ∧
      (onFinalize st).crfgView = ⟨st.crfg, st.system.blockNumber, st.system.logs ++ own⟩ := by
  unfold onFinalize
  split
  · next number _ => exact ⟨[.finalizedBlockNumber number], rfl, rfl⟩
  · exact ⟨[], rfl, by rw [List.append_nil]; rfl⟩

section Scheduled

variable {number : UInt64} {authorities next : List (SessionKey × UInt64)} {logs : List Log}

theorem Crfg.onFinalize_scheduled {st : State σ}
    (h : st.crfgView = ⟨⟨authorities, some ⟨number, 0, next, none⟩⟩, number, logs⟩) :
    (onFinalize number st).crfgView =
      ⟨⟨next, none⟩, number, logs ++ [.authoritiesChangeSignal 0 next]⟩ := by
  obtain ⟨hcrfg, hnumber, hlogs⟩ := View.mk.inj h
  unfold onFinalize
  rw [hcrfg]
  simp [State.crfgView, State.depositLog, hnumber, hlogs]

theorem finishBlock_scheduled {st final : State σ} (h : finishBlock env number st = .ok final)
    (hview : st.crfgView = ⟨⟨authorities, some ⟨number, 0, next, none⟩⟩, number, logs⟩) :
    ∃ own, final.crfgView = ⟨⟨next, none⟩, number, logs ++ own⟩ ∧
      own.filter Log.isChangeSignal = [.authoritiesChangeSignal 0 next] := by
  simp only [finishBlock, Run.bind_eq_ok, Run.pure_eq_ok] at h
  obtain ⟨_, _, paid, hpaid, rfl⟩ := h
  obtain ⟨hcrfg, hnumber, hlogs⟩ := Crfg.View.mk.inj
    ((Pow.onFinalize_crfgView env hpaid).trans hview)
  obtain ⟨marker, hmarker, hsharded⟩ := Sharding.onFinalize_crfgView paid
  rw [hcrfg, hnumber, hlogs] at hsharded
  obtain ⟨hcrfg, hnumber, hlogs⟩ := Crfg.View.mk.inj (Crfg.onFinalize_scheduled hsharded)
  obtain ⟨tracked, htracked, hfinal⟩ :=
    FinalityTracker.onFinalize_crfgView (Crfg.onFinalize number (Sharding.onFinalize paid))
  rw [hcrfg, hnumber, hlogs] at hfinal
  refine ⟨marker ++ [.authoritiesChangeSignal 0 next] ++ tracked, ?_, ?_⟩
  · rw [hfinal, List.append_assoc, List.append_assoc, List.append_assoc]
  · rw [List.filter_append, List.filter_append, hmarker, htracked]
    rfl

end Scheduled

-- A block as the runtime executes it.
structure RuntimeBlock where
  number : UInt64
  extrinsics : List UncheckedExtrinsic
  extra : Option Bytes

-- `execute_block` without its checks of the header.
def executeBlock (ml : MerkleLight H256) (st : State σ) (block : RuntimeBlock) :
    Run (State σ) := do
  let opened ← initializeBlock env block.number st
  executeWithExtra env ml block.extrinsics block.number block.extra opened

namespace RuntimeBlock

def keys (block : RuntimeBlock) : List SessionKey :=
  block.extrinsics.filterMap UncheckedExtrinsic.submittedKey

-- What a block leaves behind after a list of authorities, with its own logs.
structure Leaves (block : RuntimeBlock) (next : List (SessionKey × UInt64)) (st st' : State σ) :
    Prop where
  crfg : st'.crfg = ⟨next, none⟩
  logs : ∃ own forced, st'.system.logs = st.system.logs ++ own ∧
    own.filter Log.isChangeSignal = forced ++ [.authoritiesChangeSignal 0 next] ∧
    ∀ log ∈ forced, ∃ uxt ∈ block.extrinsics, uxt.function.forcedSignal? = some log

end RuntimeBlock

theorem executeBlock_leaves {block : RuntimeBlock} (h : executeBlock env ml st block = .ok st')
    (hordinary : ∀ uxt ∈ block.extrinsics, uxt.Ordinary) {info : SessionKey}
    (hkey : block.keys.getLast? = some info) :
    block.Leaves (Crfg.nextAuthorities st.crfg.authorities info) st st' := by
  simp only [executeBlock, Run.bind_eq_ok] at h
  obtain ⟨opened, hopened, h⟩ := h
  have hopened : opened.crfgView = ⟨st.crfg, block.number, st.system.logs⟩ := by
    simp only [initializeBlock, Run.bind_eq_ok, Run.pure_eq_ok] at hopened
    obtain ⟨_, _, rfl⟩ := hopened
    rfl
  obtain ⟨executed, ended, hexecuted, hfinish⟩ := executeWithExtra_finishes env h
  obtain ⟨events, hnoted, hended⟩ := executeExtrinsics_crfgView env hexecuted hordinary
  rw [hopened, Crfg.View.run_eq, hnoted.keys, ← RuntimeBlock.keys, hkey] at hended
  obtain ⟨own, hfinal, hown⟩ := finishBlock_scheduled env hfinish hended
  obtain ⟨hcrfg, _, hlogs⟩ := Crfg.View.mk.inj hfinal
  refine ⟨hcrfg, events.filterMap Crfg.Event.signal? ++ own, events.filterMap Crfg.Event.signal?,
    ?_, ?_, hnoted.signals⟩
  · rw [hlogs, List.append_assoc]
  · rw [List.filter_append, Crfg.filter_signals, hown]

def executeBlocks (ml : MerkleLight H256) (blocks : List RuntimeBlock) (st : State σ) :
    Run (State σ) :=
  blocks.foldlM (executeBlock env ml) st

def authorityEntries (genesis : List (SessionKey × UInt64)) (blocks : List RuntimeBlock) :
    List (SessionKey × UInt64) :=
  genesis ++ (blocks.filterMap fun block => block.keys.getLast?).map fun info => (info, 1)

-- A block with a key, by which root does not overwrite storage.
structure RuntimeBlock.Submits (block : RuntimeBlock) : Prop where
  ordinary : ∀ uxt ∈ block.extrinsics, uxt.Ordinary
  submits : block.keys ≠ []

theorem executeBlock_window {genesis : List (SessionKey × UInt64)} {blocks : List RuntimeBlock}
    {block : RuntimeBlock} (h : executeBlock env ml st block = .ok st') (hblock : block.Submits)
    (hst : st.crfg.authorities = Crfg.window (authorityEntries genesis blocks)) :
    block.Leaves (Crfg.window (authorityEntries genesis (blocks ++ [block]))) st st' := by
  obtain ⟨info, hkey⟩ := Option.isSome_iff_exists.mp (List.getLast?_isSome.mpr hblock.submits)
  have hentries : authorityEntries genesis (blocks ++ [block]) =
      authorityEntries genesis blocks ++ [(info, 1)] := by
    simp [authorityEntries, hkey]
  have hleaves := executeBlock_leaves env h hblock.ordinary hkey
  rwa [hst, Crfg.nextAuthorities_window, ← hentries] at hleaves

theorem executeBlocks_window {genesis : List (SessionKey × UInt64)} {start st : State σ}
    (hgenesis : start.crfg = ⟨genesis, none⟩) (hlength : genesis.length ≤ Crfg.MAX_AUTHORITIES_SIZE)
    {blocks : List RuntimeBlock} (hblocks : ∀ block ∈ blocks, block.Submits)
    (h : executeBlocks env ml blocks start = .ok st) :
    st.crfg = ⟨Crfg.window (authorityEntries genesis blocks), none⟩ := by
  induction blocks using List.reverseRecOn generalizing st with
  | nil =>
    obtain rfl := Except.ok.inj h
    rw [hgenesis, authorityEntries, List.filterMap_nil, List.map_nil, List.append_nil,
      Crfg.window_of_length_le hlength]
  | append_singleton blocks block ih =>
    rw [List.forall_mem_append] at hblocks
    simp only [executeBlocks, List.foldlM_append, Run.bind_eq_ok, List.foldlM_cons,
      List.foldlM_nil, Run.pure_eq_ok] at h
    obtain ⟨before, hbefore, _, hafter, rfl⟩ := h
    have hcrfg := ih hblocks.1 hbefore
    exact (executeBlock_window env hafter (List.forall_mem_singleton.mp hblocks.2)
      (congrArg CrfgState.authorities hcrfg)).crfg

theorem authority_window {ml : MerkleLight H256} {genesis : List (SessionKey × UInt64)}
    {start before after : State σ} (hgenesis : start.crfg = ⟨genesis, none⟩)
    (hlength : genesis.length ≤ Crfg.MAX_AUTHORITIES_SIZE) {blocks : List RuntimeBlock}
    {block : RuntimeBlock} (hblocks : ∀ other ∈ blocks ++ [block], other.Submits)
    (hbefore : executeBlocks env ml blocks start = .ok before)
    (hafter : executeBlock env ml before block = .ok after) :
    block.Leaves (Crfg.window (authorityEntries genesis (blocks ++ [block]))) before after := by
  obtain ⟨hearlier, hblock⟩ := List.forall_mem_append.mp hblocks
  have hcrfg := executeBlocks_window env hgenesis hlength hearlier hbefore
  exact executeBlock_window env hafter (List.forall_mem_singleton.mp hblock)
    (congrArg CrfgState.authorities hcrfg)

-- A shard with one genesis authority, and the sudo key of its chain.
def oneAuthority : State Unit :=
  { plainState (some ⟨1, 2, none⟩) with
    crfg := ⟨[(filled 32 9, 7)], none⟩
    sudoKeys := [filled 32 1] }

-- A block without a relay root, so that nothing is hashed.
def unprovenBlock (number : UInt64) (extrinsics : List UncheckedExtrinsic) : RuntimeBlock :=
  ⟨number, extrinsics, none⟩

def leftMerkleLight : MerkleLight H256 := .ofCodec (fun left _ => left) zero256 (.fixed 32)

def updateInherent (byte : UInt8) : UncheckedExtrinsic :=
  ⟨none, .crfgUpdateAuthorities (filled 32 byte)⟩

theorem submits_updateInherent (number : UInt64) (byte : UInt8) (bytes : List UInt8) :
    (unprovenBlock number ((byte :: bytes).map updateInherent)).Submits := by
  refine ⟨fun uxt huxt => ?_, ?_⟩
  · obtain ⟨key, _, rfl⟩ := List.mem_map.mp huxt
    exact fun _ => rfl
  · simp [RuntimeBlock.keys, unprovenBlock, updateInherent, UncheckedExtrinsic.submittedKey]

theorem authority_window_two : ∃ before after,
    executeBlocks plainSubstrate leftMerkleLight [unprovenBlock 1 [updateInherent 1]]
      oneAuthority = .ok before ∧
    executeBlock plainSubstrate leftMerkleLight before
      (unprovenBlock 2 [updateInherent 2, updateInherent 3]) = .ok after ∧
    (unprovenBlock 2 [updateInherent 2, updateInherent 3]).Leaves
      [(filled 32 9, 7), (filled 32 1, 1), (filled 32 3, 1)] before after := by
  have hrun : ((executeBlocks plainSubstrate leftMerkleLight [unprovenBlock 1 [updateInherent 1]]
      oneAuthority).toOption.bind fun before => ((executeBlock plainSubstrate leftMerkleLight before
        (unprovenBlock 2 [updateInherent 2, updateInherent 3])).toOption.bind fun _ => some ())) =
      some () := by
    decide +kernel
  obtain ⟨before, hbefore, hafter⟩ := Run.exists_of_toOption hrun
  obtain ⟨after, hafter, _⟩ := Run.exists_of_toOption hafter
  refine ⟨before, after, hbefore, hafter, ?_⟩
  have hblocks : ∀ other ∈ [unprovenBlock 1 [updateInherent 1]] ++
      [unprovenBlock 2 [updateInherent 2, updateInherent 3]], other.Submits := by
    simp only [List.forall_mem_append, List.forall_mem_singleton]
    exact ⟨submits_updateInherent 1 1 [], submits_updateInherent 2 2 [3]⟩
  have hgenesis : oneAuthority.crfg = ⟨[(filled 32 9, 7)], none⟩ := rfl
  have hentries : Crfg.window (authorityEntries [(filled 32 9, 7)]
      ([unprovenBlock 1 [updateInherent 1]] ++
        [unprovenBlock 2 [updateInherent 2, updateInherent 3]])) =
      [(filled 32 9, 7), (filled 32 1, 1), (filled 32 3, 1)] := by
    decide +kernel
  rw [← hentries]
  exact authority_window plainSubstrate hgenesis (by decide) hblocks hbefore hafter

-- Forced changes come with a signal of their own.
def forcingSudo : UncheckedExtrinsic :=
  ⟨some ⟨.id (filled 32 1), filled 64 7, 0, .immortal⟩,
    .sudoSudo (.crfgForceUpdateAuthorities [(filled 32 8, 3)] 0)⟩

-- Root can remove what is stored, here the pending change.
def overwritingSudo : UncheckedExtrinsic := rootCall (filled 32 1) pendingChangeKey

theorem window_broken_by_root :
    (∃ after, executeBlock plainSubstrate leftMerkleLight oneAuthority
        (unprovenBlock 1 [updateInherent 1, forcingSudo]) = .ok after ∧
      after.system.logs.filter Log.isChangeSignal =
        [.forcedAuthoritiesChangeSignal 0 0 [(filled 32 8, 3)],
          .authoritiesChangeSignal 0 [(filled 32 9, 7), (filled 32 1, 1)]]) ∧
    ∃ after, executeBlock rootSubstrate leftMerkleLight oneAuthority
        (unprovenBlock 1 [updateInherent 1, overwritingSudo]) = .ok after ∧
      after.crfg.authorities = [(filled 32 9, 7)] ∧
      after.system.logs.filter Log.isChangeSignal = [] := by
  have hforced : ((executeBlock plainSubstrate leftMerkleLight oneAuthority
      (unprovenBlock 1 [updateInherent 1, forcingSudo])).toOption.bind fun after =>
        some (after.system.logs.filter Log.isChangeSignal)) =
      some [.forcedAuthoritiesChangeSignal 0 0 [(filled 32 8, 3)],
        .authoritiesChangeSignal 0 [(filled 32 9, 7), (filled 32 1, 1)]] := by
    decide +kernel
  have hoverwritten : ((executeBlock rootSubstrate leftMerkleLight oneAuthority
      (unprovenBlock 1 [updateInherent 1, overwritingSudo])).toOption.bind fun after =>
        some (after.crfg.authorities, after.system.logs.filter Log.isChangeSignal)) =
      some ([(filled 32 9, 7)], []) := by
    decide +kernel
  obtain ⟨forced, hforcedRun, hforced⟩ := Run.exists_of_toOption hforced
  obtain ⟨overwritten, hoverwrittenRun, hoverwritten⟩ := Run.exists_of_toOption hoverwritten
  obtain ⟨hauthorities, hlogs⟩ := Prod.mk.inj (Option.some.inj hoverwritten)
  exact ⟨⟨forced, hforcedRun, Option.some.inj hforced⟩,
    ⟨overwritten, hoverwrittenRun, hauthorities, hlogs⟩⟩

end Yeeroot
