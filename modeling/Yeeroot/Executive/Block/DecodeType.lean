import Yeeroot.Executive.Block.Lemmas
import Yeeroot.Executive.CrossShard
import Yeeroot.SrPrimitives.DecodeType

namespace Yeeroot

open Scale

-- What an address of 33 bytes would take of the call, if the sender's own address is shorter.
def SignatureInfo.callBytes (info : SignatureInfo) : Nat :=
  33 - (info.signed.encode.length + (encodeCompact info.index.toNat).length +
    info.era.encode.length)

-- The sender is an account id, or the call goes on behind these bytes with more than a nonce.
def SignatureInfo.Covers (info : SignatureInfo) (call : Call) : Prop :=
  (∃ sender, info.signed = .id sender) ∨ info.callBytes ≤ call.encode.length ∧
    ∀ value, decodeCompact 8 (call.encode.drop info.callBytes) ≠ some (value, [])

section Index

variable (signature : Signature) (i : UInt32) (nonce : UInt64) (era : Era) (call : Call)

theorem SignatureInfo.length_encode_index :
    (SignatureInfo.mk (.index i) signature nonce era).encode.length +
      (SignatureInfo.mk (.index i) signature nonce era).callBytes = 97 := by
  have haddress := Address.length_encode_index_le i
  have hnonce := length_encodeCompact_u64 nonce
  have hera := era.length_encode_le
  simp only [SignatureInfo.encode, SignatureInfo.callBytes, List.length_append, signature.property]
  omega

end Index

theorem returns_decodeType_iff (info : SignatureInfo) (call : Call) :
    (OriginExtrinsic.decodeType (UncheckedExtrinsic.mk (some info) call).encode).Returns ↔
      info.Covers call := by
  obtain ⟨signed, signature, nonce, era⟩ := info
  cases signed with
  | id sender =>
    rw [OriginExtrinsic.decodeType_account]
    exact iff_of_true (returns_moduleRelayType _) (.inl ⟨sender, rfl⟩)
  | index i =>
    have hlen := SignatureInfo.length_encode_index signature i nonce era
    rw [OriginExtrinsic.returns_decodeType_signed, ← hlen, List.drop_length_add_append,
      List.length_append, Nat.add_le_add_iff_left]
    simp [SignatureInfo.Covers]

variable (curShard shardCount : UInt16)

theorem executorShard_returns_iff (info : SignatureInfo) (call : Call) :
    (executorShard curShard shardCount ⟨some info, call⟩).Returns ↔ info.Covers call := by
  have hsigned : (UncheckedExtrinsic.mk (some info) call).isSigned = true := rfl
  rw [← returns_decodeType_iff, executorShard, if_pos hsigned, Run.returns_bind]
  constructor
  · intro h
    obtain ⟨relayType, htype, _⟩ := h
    exact ⟨relayType, htype⟩
  · intro h
    obtain ⟨relayType, htype⟩ := h
    exact ⟨relayType, htype, Run.returns_pure _⟩

def Executed.Covered {σ : Type} (step : Executed σ) : Prop :=
  step.succeeded = true → ∀ info, step.uxt.signature = some info → info.Covers step.uxt.function

theorem executorLeaf_returns_iff {σ : Type} (blake2 : Bytes → H256) (step : Executed σ) :
    (executorLeaf blake2 curShard shardCount step.uxt step.succeeded).Returns ↔ step.Covered := by
  obtain ⟨before, ⟨signature, call⟩, applied⟩ := step
  unfold executorLeaf Executed.Covered
  split_ifs with hsucceeded
  · rw [Run.returns_bind]
    simp only [hsucceeded, true_imp_iff, Run.returns_pure, and_true]
    cases signature with
    | none => exact iff_of_true (Run.returns_ok none) (by simp)
    | some info =>
      simp only [Option.some.injEq, forall_eq']
      exact executorShard_returns_iff curShard shardCount info call
  · simp [Run.returns_ok, hsucceeded]

-- One induction over the block: the loop stops at the first extrinsic that is not covered.
theorem executeNotingRelays_returns_iff {σ : Type} (env : Substrate σ)
    {extrinsics : List UncheckedExtrinsic} {st final : State σ} {executed : List (Executed σ)}
    (h : executeExtrinsics env extrinsics st = .ok (executed, final))
    (shards : ExtrinsicShard H256) :
    (executeNotingRelays env curShard shardCount extrinsics shards st).Returns ↔
      ∀ step ∈ executed, step.Covered := by
  induction extrinsics generalizing st executed shards with
  | nil =>
    obtain ⟨rfl, _⟩ := Prod.mk.inj (Except.ok.inj h)
    simp [executeNotingRelays, Run.returns_ok]
  | cons uxt extrinsics ih =>
    simp only [executeExtrinsics, Run.bind_eq_ok, Run.pure_eq_ok, Prod.exists, Prod.mk.injEq] at h
    obtain ⟨applied, happlied, executed, _, hrest, rfl, rfl⟩ := h
    have hleaf := executorLeaf_returns_iff curShard shardCount env.blake2 ⟨st, uxt, applied⟩
    simp only [executeNotingRelays, happlied, List.forall_mem_cons, Run.returns_bind,
      Except.ok.injEq, exists_eq_left', ih hrest, ← hleaf]
    constructor
    · intro h
      obtain ⟨leaf, hleaf, hrest⟩ := h
      exact ⟨⟨leaf, hleaf⟩, hrest⟩
    · intro h
      obtain ⟨⟨leaf, hleaf⟩, hrest⟩ := h
      exact ⟨leaf, hleaf, hrest⟩

theorem executor_types_iff {σ : Type} (env : Substrate σ) :
    (∀ info call, (executorShard curShard shardCount ⟨some info, call⟩).Returns ↔
      info.Covers call) ∧
    ∀ extrinsics shards st executed final,
      executeExtrinsics env extrinsics st = .ok (executed, final) →
        ((executeNotingRelays env curShard shardCount extrinsics shards st).Returns ↔
          ∀ step ∈ executed, step.Covered) := by
  refine ⟨executorShard_returns_iff curShard shardCount, ?_⟩
  intro extrinsics shards st executed final h
  exact executeNotingRelays_returns_iff curShard shardCount env h shards

-- A runtime that numbers its accounts, and a transfer between two of them by their numbers.
def numberedSubstrate : Substrate Unit :=
  { plainSubstrate with lookupIndex := fun _ i => some (filled 32 i.toUInt8) }

def numberedTransfer : UncheckedExtrinsic :=
  ⟨some ⟨.index 1, filled 64 7, 0, .immortal⟩, .balancesTransfer (.index 2) 5⟩

-- The transfer is executed, and then its 71 bytes are sliced up to the 97th.
theorem executed_transfer_panics : ∃ applied,
    decodeBody numberedSubstrate.args [numberedTransfer.toOpaque] = some [numberedTransfer] ∧
    applyExtrinsicNoNote numberedSubstrate numberedTransfer fundedState = .ok applied ∧
    Executed.succeeded ⟨fundedState, numberedTransfer, applied⟩ = true ∧
    OriginExtrinsic.decodeType numberedTransfer.encode =
      .error ⟨"index 64 out of range for slice"⟩ ∧
    executeNotingRelays numberedSubstrate 1 2 [numberedTransfer] (fun _ => []) fundedState =
      .error ⟨"index 64 out of range for slice"⟩ := by
  have happlied : ((applyExtrinsicNoNote numberedSubstrate numberedTransfer
      fundedState).toOption.bind fun applied =>
        some (Executed.succeeded ⟨fundedState, numberedTransfer, applied⟩)) = some true := by
    decide +kernel
  have hpanic : (executeNotingRelays numberedSubstrate 1 2 [numberedTransfer] (fun _ => [])
      fundedState).panic? = some ⟨"index 64 out of range for slice"⟩ := by
    decide +kernel
  obtain ⟨applied, happlied, hsucceeded⟩ := Run.exists_of_toOption happlied
  exact ⟨applied, by decide +kernel, happlied, Option.some.inj hsucceeded, by decide +kernel,
    Run.eq_error_of_panic? hpanic⟩

end Yeeroot
