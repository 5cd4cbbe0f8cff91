import Yeeroot.Executive.Block.Lemmas
import Yeeroot.MultiLayerProof.Lemmas
import Yeeroot.Verifier.Relay

namespace Yeeroot.Verifier

open Scale

variable {σ : Type} (env : Substrate σ) (v : RelayVerifier)
variable {blake2 : Bytes → H256} {relay : RelayCall} {logs : List DigestItem}

-- The node has stored a proof for the block that the relay names on the chain of the
-- sender's shard, and this proof lists the origin for the node's own shard.
def RelayVerifier.Listed (blake2 : Bytes → H256) (relay : RelayCall) : Prop :=
  ∃ origin sourceShard bytes proof,
    OriginExtrinsic.decode relay.relayType relay.tx.bytes = some origin ∧
    Sharding.shardNumFor origin.sender v.extra.shardCount = some sourceShard ∧
    v.foreignProof sourceShard relay.hash = some bytes ∧
    MultiLayerProof.fromBytes v.ml bytes = some proof ∧
    proof.contains v.extra.shardNum (blake2 relay.tx.bytes) = true

theorem inProof_eq_true (sourceShard : UInt16) (rt : RelayParams) :
    v.inProof sourceShard rt = true ↔
      ∃ bytes proof, v.foreignProof sourceShard rt.blockHash = some bytes ∧
        MultiLayerProof.fromBytes v.ml bytes = some proof ∧
        proof.contains v.extra.shardNum rt.hash = true := by
  unfold RelayVerifier.inProof
  constructor
  · intro h
    split at h
    · next bytes hbytes =>
        split at h
        · next proof hproof => exact ⟨bytes, proof, hbytes, hproof, h⟩
        · simp at h
    · simp at h
  · intro hcase
    obtain ⟨bytes, proof, hbytes, hproof, h⟩ := hcase
    simp [hbytes, hproof, h]

theorem checkRelays_eq_ok {exs : List OpaqueExtrinsic}
    (h : checkRelays blake2 v exs = .ok (.ok ())) :
    ∀ tx ∈ exs, checkRelay blake2 v tx = .ok (.ok ()) := by
  induction exs with
  | nil => simp
  | cons tx exs ih =>
    simp only [checkRelays, Run.bind_eq_ok] at h
    obtain ⟨checked, hchecked, h⟩ := h
    cases checked with
    | error error => exact absurd ((Run.pure_eq_ok _ _).mp h) (by simp)
    | ok _ =>
      intro tx' hmem
      rcases List.mem_cons.mp hmem with rfl | hmem
      · exact hchecked
      · exact ih h tx' hmem

theorem checkRelay_eq_ok {tx : OpaqueExtrinsic}
    (hread : RelayParams.decode blake2 tx.encode = some (relay.params blake2)) :
    checkRelay blake2 v tx = .ok (.ok ()) ↔ v.Listed blake2 relay := by
  have horigin : (relay.params blake2).relayType = relay.relayType ∧
      (relay.params blake2).origin = relay.tx := ⟨rfl, rfl⟩
  simp only [checkRelay, hread, horigin.1, horigin.2]
  constructor
  · intro h
    cases hdecode : OriginExtrinsic.decode relay.relayType relay.tx.bytes with
    | none => simp [hdecode] at h
    | some origin =>
      simp only [hdecode, Run.bind_eq_ok, Run.expect_eq_ok] at h
      obtain ⟨sourceShard, hsource, h⟩ := h
      split_ifs at h with hproof
      · obtain ⟨bytes, proof, hbytes, hfrom, hcontains⟩ := (inProof_eq_true v _ _).mp hproof
        exact ⟨origin, sourceShard, bytes, proof, hdecode, hsource, hbytes, hfrom, hcontains⟩
      · exact absurd ((Run.pure_eq_ok _ _).mp h) (by simp)
  · intro hcase
    obtain ⟨origin, sourceShard, bytes, proof, hdecode, hsource, hbytes, hfrom, hcontains⟩ := hcase
    have hproof := (inProof_eq_true v sourceShard (relay.params blake2)).mpr
      ⟨bytes, proof, hbytes, hfrom, hcontains⟩
    simp only [hdecode, Run.bind_eq_ok, Run.expect_eq_ok]
    refine ⟨sourceShard, hsource, ?_⟩
    rw [if_pos hproof]
    rfl

theorem checkRelayTransfer_unsigned (hlogs : lastLog logs DigestItem.asShardingInfo ≠ none)
    (hlong : 66 ≤ relay.tx.bytes.length) :
    checkRelayTransfer blake2 v logs [relay.unsigned.toOpaque] = .ok (.ok ()) ↔
      v.Listed blake2 relay := by
  have hread : RelayParams.decode blake2 relay.unsigned.toOpaque.encode = some _ :=
    RelayParams.decode_unsigned blake2 hlong
  rw [← checkRelay_eq_ok v hread]
  unfold checkRelayTransfer
  obtain ⟨info, hinfo⟩ := Option.ne_none_iff_exists'.mp hlogs
  simp only [hinfo, checkRelays, Run.bind_eq_ok]
  constructor
  · intro hcase
    obtain ⟨checked, hchecked, h⟩ := hcase
    cases checked with
    | error error => exact absurd ((Run.pure_eq_ok _ _).mp h) (by simp)
    | ok _ => exact hchecked
  · intro h
    exact ⟨.ok (), h, rfl⟩

-- The runtime reads this extrinsic off one item of the body.
def ReadFromItem (args : SubstrateArgs) (body : List OpaqueExtrinsic) (uxt : UncheckedExtrinsic) :
    Prop :=
  ∃ tx ∈ body, ∃ rest, UncheckedExtrinsic.decode args tx.encode = some (uxt, rest)

theorem listed_of_readFromItem {args : SubstrateArgs} {body : List OpaqueExtrinsic}
    (hchecked : checkRelayTransfer blake2 v logs body = .ok (.ok ()))
    (hread : ReadFromItem args body relay.unsigned) (hlong : 66 ≤ relay.tx.bytes.length) :
    v.Listed blake2 relay := by
  obtain ⟨tx, hmem, rest, hdecode⟩ := hread
  have hparams := RelayParams.decode_of_decode blake2 hdecode hlong
  unfold checkRelayTransfer at hchecked
  split at hchecked
  · simp at hchecked
  · exact (checkRelay_eq_ok v hparams).mp (checkRelays_eq_ok v hchecked tx hmem)

theorem eq_unsigned_of_credits {uxt : UncheckedExtrinsic} {st : State σ}
    (hunsigned : uxt.signature = none) (h : uxt.Credits env st relay) : uxt = relay.unsigned := by
  obtain ⟨signature, function⟩ := uxt
  obtain rfl : signature = none := hunsigned
  have hruns := h.1
  simp only [UncheckedExtrinsic.sender, Option.bind_none] at hruns
  unfold Call.runs at hruns
  split at hruns
  · rw [Option.some.inj hruns]
    rfl
  · simp at hruns
  · simp at hruns

theorem listed_of_credits {body : List OpaqueExtrinsic} {uxt : UncheckedExtrinsic} {st : State σ}
    (hchecked : checkRelayTransfer env.blake2 v logs body = .ok (.ok ()))
    (hunsigned : uxt.signature = none) (hread : ReadFromItem env.args body uxt)
    (hcredits : uxt.Credits env st relay) : v.Listed env.blake2 relay := by
  obtain rfl := eq_unsigned_of_credits env hunsigned hcredits
  obtain ⟨origin, horigin, _⟩ := hcredits.2
  exact listed_of_readFromItem v hchecked hread (OriginExtrinsic.le_length_of_decode _ _ _ horigin)

-- Every credit that the extrinsic made is for a listed origin.
def Authentic (step : Executed σ) : Prop :=
  ∀ bytes transfer, .inbound bytes transfer ∈ step.applied.movements →
    ∃ relay, step.uxt.function.relay? = some relay ∧ relay.tx.bytes = bytes ∧
      v.Listed env.blake2 relay

-- The relay check sees the unsigned extrinsics that the runtime reads off one item of
-- the body. What escapes it are signed relays, and relays that the runtime reads across
-- the items' boundaries.
theorem relay_authentic_iff {logs : List DigestItem} {body : List OpaqueExtrinsic}
    {st final : State σ} {executed : List (Executed σ)}
    (hchecked : checkRelayTransfer env.blake2 v logs body = .ok (.ok ()))
    (hexecuted : executeBody env body st = .ok (executed, final)) :
    (∀ step ∈ executed, Authentic env v step) ↔
      ∀ step ∈ executed, step.uxt.isSigned ∨ ¬ ReadFromItem env.args body step.uxt →
        ∀ relay, step.uxt.Credits env step.before relay → v.Listed env.blake2 relay := by
  obtain ⟨_, _, happlied⟩ := executeBody_applied env hexecuted
  constructor
  · intro h step hmem _ relay hcredits
    obtain ⟨_, happly, result, hresult⟩ := happlied step hmem
    obtain ⟨transfer, hinbound⟩ :=
      (applyExtrinsic_credits_iff env happly hresult relay.tx.bytes).mpr ⟨relay, hcredits, rfl⟩
    obtain ⟨relay', hrelay', _, hlisted⟩ := h step hmem _ transfer hinbound
    have hrelay := Call.relay?_of_runs hcredits.1
    obtain rfl := Option.some.inj (hrelay.symm.trans hrelay')
    exact hlisted
  · intro h step hmem bytes transfer hinbound
    obtain ⟨_, happly, result, hresult⟩ := happlied step hmem
    obtain ⟨relay, hcredits, hbytes⟩ :=
      (applyExtrinsic_credits_iff env happly hresult bytes).mp ⟨transfer, hinbound⟩
    refine ⟨relay, Call.relay?_of_runs hcredits.1, hbytes, ?_⟩
    by_cases hescapes : step.uxt.isSigned ∨ ¬ ReadFromItem env.args body step.uxt
    · exact h step hmem hescapes relay hcredits
    · obtain ⟨hunsigned, hread⟩ := not_or.mp hescapes
      exact listed_of_credits env v hchecked
        (by simpa [UncheckedExtrinsic.isSigned] using hunsigned) (not_not.mp hread) hcredits

def plainMerkleLight : MerkleLight H256 :=
  .ofCodec (fun left right => plainSubstrate.blake2 (left.val ++ right.val)) zero256 (.fixed 32)

-- What one of two shards is given of the proof of a block that sends it these hashes.
def plainPart (shard : UInt16) (sent : List H256) : MultiLayerProof H256 :=
  let layer1 := layer1Merkles plainMerkleLight 2 fun num => if num = shard then sent else []
  let total : MultiLayerProof H256 :=
    ⟨plainMerkleLight.build (layer2Leaves plainMerkleLight layer1), none, layer1⟩
  match total.genProof plainMerkleLight shard with
  | .ok (some part) => part
  | _ => total

-- A node of two shards whose light client of the other shard has stored one proof, for block
-- 03..03.
def plainVerifier (shard : UInt16) (sent : List H256) : RelayVerifier where
  ml := plainMerkleLight
  extra := ⟨filled 32 1, shard, 2, none⟩
  foreignProof num hash :=
    if num = 1 - shard ∧ hash = filled 32 3 then
      some ((plainPart shard sent).encode plainMerkleLight)
    else none

theorem relay_authentic_iff_listed : ∃ executed final,
    checkRelayTransfer plainSubstrate.blake2
      (plainVerifier 0 [plainSubstrate.blake2 plainTransfer.encode]) [.shardingInfo 0 2]
      [(plainRelay .balance 0).unsigned.toOpaque] = .ok (.ok ()) ∧
    executeBody plainSubstrate [(plainRelay .balance 0).unsigned.toOpaque]
      (plainState (some ⟨0, 2, none⟩)) = .ok (executed, final) ∧
    (∀ step ∈ executed, Authentic plainSubstrate
      (plainVerifier 0 [plainSubstrate.blake2 plainTransfer.encode]) step) := by
  have hchecked : checkRelayTransfer plainSubstrate.blake2
      (plainVerifier 0 [plainSubstrate.blake2 plainTransfer.encode]) [.shardingInfo 0 2]
      [(plainRelay .balance 0).unsigned.toOpaque] = .ok (.ok ()) := by
    decide +kernel
  have hrun : ((executeBody plainSubstrate [(plainRelay .balance 0).unsigned.toOpaque]
      (plainState (some ⟨0, 2, none⟩))).toOption.bind fun run => some (run.1.map Executed.uxt)) =
      some [(plainRelay .balance 0).unsigned] := by
    decide +kernel
  obtain ⟨⟨executed, final⟩, hexecuted, hrun⟩ := Run.exists_of_toOption hrun
  have hread : UncheckedExtrinsic.decode plainSubstrate.args
      (plainRelay .balance 0).unsigned.toOpaque.encode =
        some ((plainRelay .balance 0).unsigned, []) := by
    decide +kernel
  refine ⟨executed, final, hchecked, hexecuted,
    (relay_authentic_iff plainSubstrate _ hchecked hexecuted).mpr ?_⟩
  intro step hmem hescapes
  have huxt : step.uxt = (plainRelay .balance 0).unsigned := by
    have hin := List.mem_map_of_mem (f := Executed.uxt) hmem
    rw [Option.some.inj hrun] at hin
    exact List.mem_singleton.mp hin
  rw [huxt] at hescapes
  rcases hescapes with hsigned | hnot
  · simp [UncheckedExtrinsic.isSigned, RelayCall.unsigned] at hsigned
  · exact absurd ⟨_, List.mem_singleton_self _, _, hread⟩ hnot

-- The same relay as an extrinsic that an account of the shard signs.
def signedRelay : UncheckedExtrinsic :=
  ⟨some ⟨.id (filled 32 2), filled 64 7, 0, .immortal⟩, .relayTransfer (plainRelay .balance 0)⟩

-- No proof lists anything, and the signed relay is accepted and credits its origin.
theorem signed_relay_unchecked : ∃ step final,
    checkRelayTransfer plainSubstrate.blake2 (plainVerifier 0 []) [.shardingInfo 0 2]
      [signedRelay.toOpaque] = .ok (.ok ()) ∧
    executeBody plainSubstrate [signedRelay.toOpaque] (plainState (some ⟨0, 2, none⟩)) =
      .ok ([step], final) ∧
    step.applied.movements = [.inbound plainTransfer.encode ⟨.coin, filled 32 2, 5⟩] ∧
    ¬ Authentic plainSubstrate (plainVerifier 0 []) step := by
  have hrun : ((executeBody plainSubstrate [signedRelay.toOpaque]
      (plainState (some ⟨0, 2, none⟩))).toOption.bind fun run =>
        some (run.1.map fun step => step.applied.movements)) =
      some [[.inbound plainTransfer.encode ⟨.coin, filled 32 2, 5⟩]] := by
    decide +kernel
  obtain ⟨⟨executed, final⟩, hexecuted, hrun⟩ := Run.exists_of_toOption hrun
  obtain ⟨step, rfl⟩ := List.length_eq_one_iff.mp
    (by simpa using congrArg List.length (Option.some.inj hrun))
  have hmoves : step.applied.movements =
      [.inbound plainTransfer.encode ⟨.coin, filled 32 2, 5⟩] := by
    simpa using Option.some.inj hrun
  refine ⟨step, final, by decide +kernel, hexecuted, hmoves, fun hauthentic => ?_⟩
  obtain ⟨relay, _, _, origin, shard, bytes, proof, _, _, hbytes, hproof, hcontains⟩ :=
    hauthentic _ _ (by rw [hmoves]; exact List.mem_singleton_self _)
  simp only [plainVerifier] at hbytes hproof hcontains
  split_ifs at hbytes
  have hempty : (plainPart 0 []).layer1Merkles = [(0, none)] := by decide +kernel
  rw [← Option.some.inj hbytes, MultiLayerProof.fromBytes_encode _ _ (by simp [hempty]) (by
    rintro stored hstored
    rw [← Option.some.inj hstored]
    decide +kernel), Option.some.injEq] at hproof
  subst hproof
  simp [MultiLayerProof.contains, MultiLayerProof.shardTree, hempty] at hcontains

end Yeeroot.Verifier
