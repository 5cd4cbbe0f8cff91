import Yeeroot.Pow.Returns
import Yeeroot.Verifier.Relay.Finality
import Yeeroot.Verifier.ShardInfo.Theorems

namespace Yeeroot.Verifier

open Scale
open Yeeroot.Pow

theorem thenCheck_returns {ε α β : Type} (check : Run (Except ε α)) (next : α → Run (Except ε β)) :
    (thenCheck check next).Returns ↔
      check.Returns ∧ ∀ value, check = .ok (.ok value) → (next value).Returns := by
  rcases check with panic | rejection | value <;> simp [thenCheck, Run.Returns]

section ShardInfo

variable {build : Build} {observeBlocks number : UInt64} {num count : UInt16}

theorem shardNumFor_isSome_iff {n : Nat} (hn : 2 ≤ n) (account : FixedBytes n) (count : UInt16) :
    (∃ num, Sharding.shardNumFor account count = some num) ↔ ∃ k < 16, count.toNat = 2 ^ k := by
  simp only [Sharding.shardNumFor, Sharding.shardNumForBytes_eq_some, account.property]
  constructor
  · intro h
    obtain ⟨num, _, k, hk, hcount, _⟩ := h
    exact ⟨k, hk, hcount⟩
  · intro h
    obtain ⟨k, hk, hcount⟩ := h
    have hlt : Sharding.tailValue account.val % 2 ^ k < 2 ^ 16 :=
      (Nat.mod_lt _ (by positivity)).trans (Nat.pow_lt_pow_right (by decide) hk)
    exact ⟨UInt16.ofNat (Sharding.tailValue account.val % 2 ^ k), hn, k, hk, hcount,
      UInt16.toNat_ofNat_of_lt' hlt⟩

-- The count of a committed split is one that accounts can be mapped with.
def ScaleDefined (extra : ShardExtra) (header : Header) : Prop :=
  ∀ num count, header.phase = some (.committed num count) → extra.shardCount ≠ count →
    ∃ k < 16, count.toNat = 2 ^ k

theorem checkScale_returns (extra : ShardExtra) (header : Header) :
    (checkScale header extra).Returns ↔ ScaleDefined extra header := by
  unfold checkScale ScaleDefined
  split
  · next _ count hphase =>
      have hcommitted : ∀ num' count', header.phase = some (.committed num' count') → count' = count := by
        intro num' count' h
        rw [hphase] at h
        simp_all
      have hmapped := shardNumFor_isSome_iff (by decide) extra.coinbase count
      split_ifs with hcount
      · simp only [Run.returns_bind, Run.expect_eq_ok]
        constructor
        · intro h num' count' hphase' _
          obtain ⟨shard, hshard, _⟩ := h
          rw [hcommitted num' count' hphase']
          exact hmapped.mp ⟨shard, hshard⟩
        · intro h
          obtain ⟨shard, hshard⟩ := hmapped.mpr (h _ count hphase hcount)
          refine ⟨shard, hshard, ?_⟩
          split_ifs <;> exact Run.returns_pure _
      · refine iff_of_true (Run.returns_ok _) fun num' count' hphase' hne => ?_
        rw [hcommitted num' count' hphase'] at hne
        exact absurd hne hcount
  · next hnot =>
      exact iff_of_true (Run.returns_ok _) fun num count hphase => absurd hphase (hnot num count)

-- The header says which shard it is of, and its phase can be checked.
def ShardDefined (build : Build) (observeBlocks : UInt64) (extra : ShardExtra)
    (parent header : Header) : Prop :=
  ∃ num count, header.shardInfo = some (num, count) ∧
    (build = .checked →
      PhaseFits observeBlocks header.number num count parent.phase header.phase) ∧
    (phaseOk .release observeBlocks header.number num count parent.phase header.phase = .ok true →
      ScaleDefined extra header)

theorem checkShardInfo_returns {chain : H256 → Option Header} (extra : ShardExtra)
    {header parent : Header} (hparent : chain header.parentHash = some parent) :
    (checkShardInfo build chain observeBlocks extra header).Returns ↔
      ShardDefined build observeBlocks extra parent header := by
  unfold checkShardInfo ShardDefined
  simp only [Run.returns_bind, Run.expect_eq_ok, hparent, Option.some.injEq, exists_eq_left',
    Prod.exists]
  constructor
  · intro h
    obtain ⟨num, count, hinfo, ok, hran, h⟩ := h
    obtain ⟨hfits, hphase⟩ := (phaseOk_eq_ok _ _ _).mp hran
    refine ⟨num, count, hinfo, hfits, fun htrue => ?_⟩
    obtain rfl := Except.ok.inj (hphase.symm.trans htrue)
    rw [if_pos rfl, Run.returns_bind] at h
    obtain ⟨checked, hchecked, _⟩ := h
    exact (checkScale_returns extra header).mp ⟨checked, hchecked⟩
  · intro h
    obtain ⟨num, count, hinfo, hfits, hscale⟩ := h
    obtain ⟨ok, hphase⟩ := phaseOk_release_returns observeBlocks header.number num count
      parent.phase header.phase
    refine ⟨num, count, hinfo, ok, (phaseOk_eq_ok _ _ _).mpr ⟨hfits, hphase⟩, ?_⟩
    split_ifs with hok
    · subst hok
      obtain ⟨checked, hchecked⟩ := (checkScale_returns extra header).mpr (hscale hphase)
      refine (Run.returns_bind _ _).mpr ⟨checked, hchecked, ?_⟩
      cases checked with
      | error rejection => exact Run.returns_pure _
      | ok _ =>
        refine (Run.returns_bind _ _).mpr ⟨_, (Run.expect_eq_ok _ _ _).mpr hinfo, ?_⟩
        dsimp only
        split
        · exact Run.returns_ok _
        · split_ifs
          · exact Run.returns_ok _
          · exact Run.returns_pure _
    · exact Run.returns_ok _

end ShardInfo

section RelayProof

open MultiLayerProof (PathIs)

variable {H : Type} {ml : MerkleLight H}

-- What the relay proof has to be for its root and its path to be read.
structure Layer2Defined (ml : MerkleLight H) (mlp : MultiLayerProof H) (root : H) : Prop where
  tree : ∀ tree, mlp.layer2Merkle = some tree → tree.root ≠ none
  nodes : mlp.layer2Merkle = none → ∀ path, PathIs ml mlp path → path.lemmas ≠ []
  present : mlp.layer2Root ml = .ok (some root) → mlp.layer2Proof ≠ none
  directions : mlp.layer2Root ml = .ok (some root) → ∀ path, PathIs ml mlp path →
    path.lemmas.length ≤ path.path.length + 2

theorem layer2Root_returns (mlp : MultiLayerProof H) :
    (mlp.layer2Root ml).Returns ↔
      (∀ tree, mlp.layer2Merkle = some tree → tree.root ≠ none) ∧
        (mlp.layer2Merkle = none → ∀ path, PathIs ml mlp path → path.lemmas ≠ []) := by
  unfold MultiLayerProof.layer2Root
  split
  · next _ _ tree htree =>
      simp only [Run.returns_bind, Run.expect_eq_ok, Run.returns_pure, and_true, htree,
        Option.some.injEq, forall_eq', reduceCtorEq, false_imp_iff, ne_eq]
      exact Option.ne_none_iff_exists'.symm
  · next bytes htree hbytes =>
      split
      · next path hpath =>
          have hpaths (path' : Merkle.Proof H) : PathIs ml mlp path' ↔ path = path' := by
            simp [PathIs, hbytes, hpath]
          simp only [Run.returns_bind, Run.expect_eq_ok, Run.returns_pure, and_true, htree, hpaths,
            true_imp_iff, forall_eq', Merkle.Proof.root, reduceCtorEq, false_imp_iff,
            implies_true, true_and]
          rw [← Option.isSome_iff_exists, List.getLast?_isSome]
      · next hpath => exact iff_of_true (Run.returns_ok _) (by simp [PathIs, htree, hbytes, hpath])
  · next htree hbytes => exact iff_of_true (Run.returns_ok _) (by simp [PathIs, htree, hbytes])

theorem validatesLayer2_returns (ml : MerkleLight H) (bytes : Bytes) :
    (validatesLayer2 ml bytes).Returns ↔ ∀ path, ml.proofFromBytes bytes = some path →
      path.lemmas.length ≤ path.path.length + 2 := by
  unfold validatesLayer2
  split
  · next path hpath =>
      simp only [Run.Returns, Run.expect_eq_ok, hpath, Option.some.injEq, forall_eq']
      rw [← Option.isSome_iff_exists, ml.validate_isSome_iff]
  · next hpath => exact iff_of_true (Run.returns_ok _) (by simp [hpath])

variable [DecidableEq H]

def ProofDefined (ml : MerkleLight H) (proof : Option Bytes) (root : H) : Prop :=
  ∀ bytes, proof = some bytes → ∀ mlp, MultiLayerProof.fromBytes ml bytes = some mlp →
    Layer2Defined ml mlp root

theorem checkRelayMerkleProof_returns (proof : Option Bytes) (root : H) :
    (checkRelayMerkleProof ml proof root).Returns ↔ ProofDefined ml proof root := by
  unfold checkRelayMerkleProof ProofDefined
  split
  · exact iff_of_true (Run.returns_ok _) (by simp)
  · next bytes =>
      simp only [Option.some.injEq, forall_eq']
      cases hread : MultiLayerProof.fromBytes ml bytes with
      | none => exact iff_of_true (Run.returns_ok _) (by simp)
      | some mlp =>
        simp only [Option.some.injEq, forall_eq', Run.returns_bind]
        constructor
        · intro h
          obtain ⟨layer2Root, hroot, h⟩ := h
          have hpath : mlp.layer2Root ml = .ok (some root) → ∃ bytes,
              mlp.layer2Proof = some bytes ∧ (validatesLayer2 ml bytes).Returns := by
            intro hsame
            rw [if_pos (Except.ok.inj (hroot.symm.trans hsame)), Run.returns_bind] at h
            obtain ⟨bytes, hbytes, h⟩ := h
            obtain ⟨valid, hvalid, _⟩ := (Run.returns_bind _ _).mp h
            exact ⟨bytes, (Run.expect_eq_ok _ _ _).mp hbytes, valid, hvalid⟩
          obtain ⟨htree, hnodes⟩ := (layer2Root_returns mlp).mp ⟨_, hroot⟩
          refine ⟨htree, hnodes, fun hsame => ?_, fun hsame path hpaths => ?_⟩
          · obtain ⟨bytes, hbytes, _⟩ := hpath hsame
            simp [hbytes]
          · obtain ⟨bytes, hbytes, hvalid⟩ := hpath hsame
            obtain ⟨bytes', hbytes', hpath'⟩ := hpaths
            obtain rfl := Option.some.inj (hbytes.symm.trans hbytes')
            exact (validatesLayer2_returns ml bytes).mp hvalid path hpath'
        · intro h
          obtain ⟨layer2Root, hroot⟩ := (layer2Root_returns mlp).mpr ⟨h.tree, h.nodes⟩
          refine ⟨layer2Root, hroot, ?_⟩
          split_ifs with hsame
          · rw [hsame] at hroot
            obtain ⟨bytes, hbytes⟩ := Option.ne_none_iff_exists'.mp (h.present hroot)
            obtain ⟨valid, hvalid⟩ := (validatesLayer2_returns ml bytes).mpr
              fun path hpath => h.directions hroot path ⟨bytes, hbytes, hpath⟩
            simp only [Run.returns_bind, Run.expect_eq_ok, hbytes, Option.some.injEq,
              exists_eq_left', hvalid, Except.ok.injEq]
            split_ifs <;> exact Run.returns_pure _
          · exact Run.returns_pure _

end RelayProof

section Body

variable (blake2 : Bytes → H256) (v : RelayVerifier)

-- The node can map accounts with its own shard count, or the first relay of the body is
-- turned down before it has to.
def RelaysDefined (exs : List OpaqueExtrinsic) : Prop :=
  (∃ k < 16, v.extra.shardCount.toNat = 2 ^ k) ∨
    ∀ rt, exs.findSome? (fun tx => RelayParams.decode blake2 tx.encode) = some rt →
      OriginExtrinsic.decode rt.relayType rt.origin.bytes = none

theorem checkRelays_cons (tx : OpaqueExtrinsic) (exs : List OpaqueExtrinsic) :
    checkRelays blake2 v (tx :: exs) =
      thenCheck (checkRelay blake2 v tx) fun _ => checkRelays blake2 v exs := by
  rw [checkRelays]
  rcases checkRelay blake2 v tx with panic | error | _ <;> rfl

theorem checkRelays_returns (exs : List OpaqueExtrinsic) :
    (checkRelays blake2 v exs).Returns ↔ RelaysDefined blake2 v exs := by
  induction exs with
  | nil => exact iff_of_true (Run.returns_ok _) (.inr (by simp))
  | cons tx exs ih =>
    rw [checkRelays_cons, thenCheck_returns, ih]
    unfold checkRelay RelaysDefined
    cases hread : RelayParams.decode blake2 tx.encode with
    | none => simp [hread, Run.returns_ok]
    | some rt =>
      simp only [List.findSome?_cons, hread, Option.some.injEq, forall_eq']
      cases horigin : OriginExtrinsic.decode rt.relayType rt.origin.bytes with
      | none => simp [Run.returns_ok]
      | some origin =>
        have hmapped := shardNumFor_isSome_iff (by decide) origin.sender v.extra.shardCount
        simp only [reduceCtorEq, or_false, Run.returns_bind, Run.expect_eq_ok]
        constructor
        · intro h
          obtain ⟨⟨shard, hshard, _⟩, _⟩ := h
          exact hmapped.mp ⟨shard, hshard⟩
        · intro h
          obtain ⟨shard, hshard⟩ := hmapped.mpr h
          refine ⟨⟨shard, hshard, ?_⟩, fun _ _ => .inl h⟩
          split_ifs <;> exact Run.returns_pure _

end Body

section Verify

variable {build : Build} {v : PowVerifier} {parent header : BlockHeader H256}
variable {sealed : PowSeal H256} {proof : Option Bytes} {body : Option (List OpaqueExtrinsic)}

def TargetMet (build : Build) (v : PowVerifier) (parent header : BlockHeader H256)
    (sealed : PowSeal H256) : Prop :=
  TargetIs build v.hashing.codec v.client v.context parent header sealed.timestamp sealed.powTarget

def ShardMet (v : PowVerifier) (header : BlockHeader H256) : Prop :=
  checkShardInfo .release v.chain v.context.genesisScaleOutObserveBlocks v.relay.extra (shardHeader header) =
    .ok (.ok ())

-- A header with this seal gets past `check_header`.
def SealMet (build : Build) (v : PowVerifier) (parent header : BlockHeader H256)
    (sealed : PowSeal H256) : Prop :=
  TargetMet build v parent header sealed ∧ ShardMet v header ∧ Passes build v.hashing header sealed

def ProofMet (v : PowVerifier) (sealed : PowSeal H256) (proof : Option Bytes) : Prop :=
  checkRelayMerkleProof v.relay.ml proof sealed.relayProof = .ok (.ok ())

-- What a block has to be for no check to panic. A check is reached only if those before it
-- accept.
structure CrashFree (build : Build) (v : PowVerifier) (parent header : BlockHeader H256)
    (sealed : PowSeal H256) (proof : Option Bytes) (body : Option (List OpaqueExtrinsic)) :
    Prop where
  target : ∃ target,
    TargetIs build v.hashing.codec v.client v.context parent header sealed.timestamp target
  shard : TargetMet build v parent header sealed →
    ShardDefined build v.context.genesisScaleOutObserveBlocks v.relay.extra (shardHeader parent)
      (shardHeader header)
  work : TargetMet build v parent header sealed → ShardMet v header →
    ∀ num count, header.shardInfo = some (num, count) →
      WorkDefined build v.hashing sealed num count
  relayProof : SealMet build v parent header sealed →
    ProofDefined v.relay.ml proof sealed.relayProof
  relays : SealMet build v parent header sealed → ProofMet v sealed proof →
    ∀ exs, body = some exs → RelaysDefined v.hashing.blake2 v.relay exs

theorem checkPowTarget_returns (hparent : v.client.header header.parentHash = some parent) :
    (checkPowTarget build v header sealed).Returns ↔ ∃ target,
      TargetIs build v.hashing.codec v.client v.context parent header sealed.timestamp target := by
  simp only [checkPowTarget, Run.returns_bind, calcPowTarget_eq_ok hparent]
  constructor
  · intro h
    obtain ⟨target, htarget, _⟩ := h
    exact ⟨target, htarget⟩
  · intro h
    obtain ⟨target, htarget⟩ := h
    refine ⟨target, htarget, ?_⟩
    split_ifs
    · exact Run.returns_ok _
    · exact Run.returns_pure _

theorem checkPowTarget_eq_ok (hparent : v.client.header header.parentHash = some parent) :
    checkPowTarget build v header sealed = .ok (.ok ()) ↔ TargetMet build v parent header sealed := by
  simp only [checkPowTarget, Run.bind_eq_ok, calcPowTarget_eq_ok hparent, TargetMet]
  constructor
  · intro h
    obtain ⟨target, htarget, h⟩ := h
    split_ifs at h with hne
    · exact absurd h (by simp [reject])
    · exact not_not.mp hne ▸ htarget
  · intro h
    refine ⟨sealed.powTarget, h, ?_⟩
    rw [if_neg (not_not.mpr rfl)]
    rfl

theorem chain_parent (hparent : v.client.header header.parentHash = some parent) :
    v.chain (shardHeader header).parentHash = some (shardHeader parent) := by
  simp [PowVerifier.chain, shardHeader, hparent]

theorem checkShardInfo_defined (hparent : v.client.header header.parentHash = some parent)
    (hdefined : ShardDefined build v.context.genesisScaleOutObserveBlocks v.relay.extra
      (shardHeader parent) (shardHeader header)) :
    checkShardInfo build v.chain v.context.genesisScaleOutObserveBlocks v.relay.extra
        (shardHeader header) = .ok (.ok ()) ↔ ShardMet v header := by
  obtain ⟨num, count, hinfo, hfits, _⟩ := hdefined
  rw [ShardMet, checkShardInfo_eq_ok, checkShardInfo_eq_ok]
  refine exists_congr fun num' => exists_congr fun count' => exists_congr fun parent' =>
    and_congr_right fun hinfo' => and_congr_right fun hparent' => and_congr_left fun _ => ?_
  obtain ⟨rfl, rfl⟩ := Prod.mk.inj (Option.some.inj (hinfo.symm.trans hinfo'))
  obtain rfl := Option.some.inj ((chain_parent hparent).symm.trans hparent')
  rw [phaseOk_eq_ok]
  exact and_iff_right hfits

theorem checkSealed_returns (hparent : v.client.header header.parentHash = some parent) :
    (checkSealed build v header sealed).Returns ↔
      (∃ target,
        TargetIs build v.hashing.codec v.client v.context parent header sealed.timestamp target) ∧
      (TargetMet build v parent header sealed →
        ShardDefined build v.context.genesisScaleOutObserveBlocks v.relay.extra
          (shardHeader parent) (shardHeader header)) ∧
      (TargetMet build v parent header sealed → ShardMet v header →
        ∀ num count, header.shardInfo = some (num, count) →
          WorkDefined build v.hashing sealed num count) := by
  simp only [checkSealed_eq, thenCheck_returns, checkPowTarget_returns hparent,
    checkPowTarget_eq_ok hparent, checkShardInfo_returns v.relay.extra (chain_parent hparent),
    Run.returns_map, Run.returns_ok, implies_true, and_true]
  refine and_congr_right fun _ => ?_
  constructor
  · intro h
    refine ⟨fun htarget => (h () htarget).1, fun htarget hshard num count hinfo => ?_⟩
    have hdefined := (h () htarget).1
    exact (checkWorkProof_returns hinfo).mp
      ((h () htarget).2 () ((checkShardInfo_defined hparent hdefined).mpr hshard))
  · intro h _ htarget
    have hdefined := h.1 htarget
    refine ⟨hdefined, fun _ hchecked => ?_⟩
    have hshard := (checkShardInfo_defined hparent hdefined).mp hchecked
    obtain ⟨num, count, hinfo, _⟩ := hdefined
    exact (checkWorkProof_returns hinfo).mpr (h.2 htarget hshard num count hinfo)

theorem checkSealed_eq_ok (hparent : v.client.header header.parentHash = some parent)
    (hreturns : (checkSealed build v header sealed).Returns) :
    checkSealed build v header sealed = .ok (.ok ()) ↔ SealMet build v parent header sealed := by
  have hdefined := ((checkSealed_returns hparent).mp hreturns).2.1
  simp only [checkSealed_eq, thenCheck_eq_ok, checkPowTarget_eq_ok hparent, map_lift_eq_ok,
    Unique.exists_iff, PUnit.default_eq_unit, and_true, SealMet, Passes]
  refine and_congr_right fun htarget => ?_
  rw [checkShardInfo_defined hparent (hdefined htarget)]

theorem checkBody_returns (hinfo : lastLog header.logs DigestItem.asShardingInfo ≠ none) :
    (checkBody v header body).Returns ↔
      ∀ exs, body = some exs → RelaysDefined v.hashing.blake2 v.relay exs := by
  cases body with
  | none => exact iff_of_true (Run.returns_ok _) (by simp)
  | some exs =>
    obtain ⟨info, hinfo⟩ := Option.ne_none_iff_exists'.mp hinfo
    have hlift : checkBody v header (some exs) =
        Rejection.lift <$> checkRelayTransfer v.hashing.blake2 v.relay header.logs exs := rfl
    simp only [hlift, Run.returns_map, checkRelayTransfer, hinfo, checkRelays_returns,
      Option.some.injEq, forall_eq']

-- The verifier returns for a block on a stored parent exactly if the block is free of what
-- the `expect`s take for granted.
theorem verify_returns_iff (hparent : v.client.header header.parentHash = some parent) :
    (verify build v header proof body).Returns ↔
      ∀ item sealed, header.logs.getLast? = some item →
        asPowSeal v.hashing.codec item = some sealed →
        CrashFree build v parent (preHeader header) sealed proof body := by
  cases hlast : header.logs.getLast? with
  | none =>
    have hrejected : checkHeader build v header = reject " get digest item failed." := by
      simp [checkHeader, hlast]
    simp [verify_eq, hrejected, reject, thenCheck, Run.returns_ok]
  | some item =>
    simp only [Option.some.injEq]
    cases hseal : asPowSeal v.hashing.codec item with
    | none =>
      have hrejected : ∃ message, checkHeader build v header = reject message :=
        ⟨_, by simp only [checkHeader, hlast, hseal]; rfl⟩
      obtain ⟨message, hrejected⟩ := hrejected
      refine iff_of_true ?_ fun item' sealed hitem hsealed => ?_
      · simp [verify_eq, hrejected, reject, thenCheck, Run.returns_ok]
      · rw [← hitem, hseal] at hsealed
        exact absurd hsealed (by simp)
    | some sealed =>
      have hparent' : v.client.header (preHeader header).parentHash = some parent := hparent
      have hsealed : (checkSealed build v (preHeader header) sealed).Returns ↔ _ :=
        checkSealed_returns hparent'
      simp only [verify_eq, checkHeader_eq build v hlast hseal, thenCheck_returns,
        thenCheck_eq_ok, Run.returns_map, Run.returns_ok, implies_true, and_true,
        checkRelayMerkleProof_returns, map_lift_eq_ok]
      constructor
      · intro h item' sealed' hitem hsealed'
        obtain rfl := hitem
        obtain rfl := Option.some.inj (hseal.symm.trans hsealed')
        obtain ⟨htarget, hshard, hwork⟩ := hsealed.mp h.1
        have hrest (hmet : SealMet build v parent (preHeader header) sealed) :=
          h.2 _ ⟨(), (checkSealed_eq_ok hparent' h.1).mpr hmet, rfl⟩
        refine ⟨htarget, hshard, hwork, fun hmet => (hrest hmet).1, fun hmet hproof => ?_⟩
        have hinfo := shardInfo_of_checkSealed build v ((checkSealed_eq_ok hparent' h.1).mpr hmet)
        exact (checkBody_returns hinfo).mp ((hrest hmet).2 () hproof)
      · intro h
        obtain ⟨htarget, hshard, hwork, hrelayProof, hrelays⟩ := h item sealed rfl hseal
        have hreturns := hsealed.mpr ⟨htarget, hshard, hwork⟩
        refine ⟨hreturns, fun checked hchecked => ?_⟩
        obtain ⟨_, hok, hvalue⟩ := hchecked
        obtain rfl := Except.ok.inj (Except.ok.inj hvalue)
        have hmet := (checkSealed_eq_ok hparent' hreturns).mp hok
        refine ⟨hrelayProof hmet, fun _ hproof => ?_⟩
        exact (checkBody_returns (shardInfo_of_checkSealed build v hok)).mpr (hrelays hmet hproof)

end Verify

theorem verify_returns_iff_plain :
    (plainPowVerifier 1 []).client.header (plainNonceBlock 1).parentHash =
      some ⟨zero256, 0, zero256, zero256, []⟩ ∧
    (verify .checked (plainPowVerifier 1 []) (plainNonceBlock 1) none (some [])).Returns ∧
    ∀ item sealed, (plainNonceBlock 1).logs.getLast? = some item →
      asPowSeal (plainPowVerifier 1 []).hashing.codec item = some sealed →
      CrashFree .checked (plainPowVerifier 1 []) ⟨zero256, 0, zero256, zero256, []⟩
        (preHeader (plainNonceBlock 1)) sealed none (some []) := by
  have hreturns : (verify .checked (plainPowVerifier 1 []) (plainNonceBlock 1) none (some [])).Returns :=
    ⟨.ok (plainImport 1 (some [])), by decide +kernel⟩
  have hparent : (plainPowVerifier 1 []).client.header (plainNonceBlock 1).parentHash =
      some ⟨zero256, 0, zero256, zero256, []⟩ := rfl
  exact ⟨hparent, hreturns, (verify_returns_iff hparent).mp hreturns⟩

-- A header of block 1 with a seal that meets the target, and no shard info.
def unmarkedBlock : BlockHeader H256 :=
  ⟨zero256, 1, zero256, zero256, [powSeal plainHashing.codec plainNonceSeal]⟩

theorem unmarked_header_panics :
    (plainPowVerifier 1 []).client.header unmarkedBlock.parentHash =
      some ⟨zero256, 0, zero256, zero256, []⟩ ∧
    verify .release (plainPowVerifier 1 []) unmarkedBlock none none =
      .error ⟨"shard info must exist"⟩ :=
  ⟨rfl, by decide +kernel⟩

end Yeeroot.Verifier
