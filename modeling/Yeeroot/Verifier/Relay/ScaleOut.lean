import Yeeroot.Miner.Theorems
import Yeeroot.Verifier.Relay.Authenticity

namespace Yeeroot.Verifier

open Scale Miner

theorem contains_authored {args : SubstrateArgs} {blake2 : Bytes → H256} {ml : MerkleLight H256}
    {header : Header} {shardNum shardCount : UInt16} {body : List OpaqueExtrinsic}
    {results : List Bool} {root : H256} {bytes : Bytes} {i : Nat} {tx : OpaqueExtrinsic}
    (hinfo : header.shardInfo = some (shardNum, shardCount))
    (hauthored : genExtrinsicProof args blake2 ml header body results = .ok (root, bytes))
    (htx : body[i]? = some tx) (hsuccess : results[i]? = some true)
    (hfree : ∀ tx' ∈ body, blake2 tx'.encode = blake2 tx.encode → tx'.encode = tx.encode) :
    ∃ proof, MultiLayerProof.fromBytes ml bytes = some proof ∧
      ∀ shard, proof.contains shard (blake2 tx.encode) = true ↔
        minerShard args shardNum shardCount tx = some shard := by
  obtain ⟨proof, hproof, hcontains⟩ := genExtrinsicProof_contains hinfo hauthored
  refine ⟨proof, hproof, fun shard => ?_⟩
  rw [hcontains]
  constructor
  · intro h
    obtain ⟨j, tx', htx', _, hshard, hhash⟩ := h
    -- The same bytes are read in the same way.
    have hbytes := hfree tx' (List.mem_of_getElem? htx') hhash
    rw [← hshard]
    simp only [minerShard, hbytes]
  · intro hshard
    exact ⟨i, tx, htx, hsuccess, hshard, rfl⟩

theorem applyExtrinsic_leaves {σ : Type} (env : Substrate σ) {uxt : UncheckedExtrinsic}
    {st : State σ} {applied : Applied σ} (h : applyExtrinsic env uxt st = .ok applied)
    {transfer : Transfer} (hm : .outbound transfer ∈ applied.movements) {shard : ShardInfo}
    (hshard : st.sharding.currentShardInfo = some shard) :
    uxt.isSigned = true ∧
    (∃ who, Sharding.shardNumFor (n := 32) who shard.count = some shard.num) ∧
    ∃ dn, Sharding.shardNumFor transfer.dest shard.count = some dn ∧ shard.num ≠ dn := by
  obtain ⟨info, _, hsigned, _⟩ := applyExtrinsic_outbound env h hm
  refine ⟨by simp [UncheckedExtrinsic.isSigned, hsigned], ?_⟩
  rcases applyExtrinsic_cases env h with ⟨_, rfl⟩ |
    ⟨_, sender, paid, outcome, haccepted, _, hpaid, hdispatch, rfl⟩ | ⟨_, _, hnone, _⟩ |
    ⟨_, hnone, _⟩
  · simp [Applied.reject] at hm
  · obtain ⟨own, hown, hnum⟩ := haccepted.inShard
    obtain rfl := Option.some.inj (hown.symm.trans hshard)
    obtain ⟨shard', dn, hshard', hdn, hne⟩ := (dispatch_outbound env hdispatch hm).2
    have hframe := Balances.makePayment_coinsOnly sender uxt.encode.length st
    rw [hpaid] at hframe
    have hsame : paid.sharding.currentShardInfo = some own := hframe.sharding ▸ hshard
    obtain rfl := Option.some.inj (hshard'.symm.trans hsame)
    exact ⟨⟨sender, hnum⟩, dn, hdn, hne⟩
  · simp [hsigned] at hnone
  · simp [hsigned] at hnone

-- A transfer to another shard that a block of shard `n` of `c` executed, its destination
-- as the call has it, and the proof that the block's author made.
structure InFlight {σ : Type} (env : Substrate σ) (ml : MerkleLight H256) (n c : UInt16)
    (tx : OpaqueExtrinsic) (sender : AccountId) (address : Address) (transfer : Transfer)
    (bytes : Bytes) : Prop where
  executed : ∃ st uxt rest applied scaleOut,
    UncheckedExtrinsic.decode env.args tx.encode = some (uxt, rest) ∧
    st.sharding.currentShardInfo = some ⟨n, c, scaleOut⟩ ∧ uxt.sender env st = some sender ∧
    transferDest uxt.function = some address ∧ applyExtrinsic env uxt st = .ok applied ∧
    .outbound transfer ∈ applied.movements
  authored : ∃ (header : Header) (body : List OpaqueExtrinsic) (results : List Bool) (root : H256)
      (i : Nat), header.shardInfo = some (n, c) ∧
    genExtrinsicProof env.args env.blake2 ml header body results = .ok (root, bytes) ∧
    body[i]? = some tx ∧ results[i]? = some true ∧
    ∀ tx' ∈ body, env.blake2 tx'.encode = env.blake2 tx.encode → tx'.encode = tx.encode

section Doubling

variable {σ : Type} {env : Substrate σ} {ml : MerkleLight H256} {n c : UInt16}
variable {tx : OpaqueExtrinsic} {sender : AccountId} {address : Address} {transfer : Transfer}
variable {bytes : Bytes} (h : InFlight env ml n c tx sender address transfer bytes)
variable (hdouble : (c + c).toNat = 2 * c.toNat)
include h

theorem InFlight.le_length : 66 ≤ tx.encode.length := by
  obtain ⟨_, _, _, _, _, hread, hinfo, _, _, happly, hm⟩ := h.executed
  exact UncheckedExtrinsic.le_length_of_decode hread (applyExtrinsic_leaves env happly hm hinfo).1

include hdouble

theorem InFlight.newShard : ∃ m, Sharding.shardNumFor transfer.dest (c + c) = some m ∧
    m < c + c ∧ m ≠ n := by
  obtain ⟨st, _, _, _, _, _, hinfo, _, _, happly, hm⟩ := h.executed
  obtain ⟨_, ⟨who, hwho⟩, dn, hdn, hne⟩ := applyExtrinsic_leaves env happly hm hinfo
  obtain ⟨m, hsome, hback⟩ := Sharding.shardNumForBytes_double hdouble hdn
  refine ⟨m, hsome, Sharding.shardNumForBytes_lt _ _ _ hsome, ?_⟩
  intro heq
  have hn := UInt16.lt_iff_toNat_lt.mp (Sharding.shardNumForBytes_lt _ _ _ hwho)
  rw [heq, Nat.mod_eq_of_lt hn] at hback
  exact hne (UInt16.toNat_inj.mp hback)

omit hdouble in
theorem InFlight.minerShard_eq {m : UInt16} (hm : m ≠ n) :
    minerShard env.args n c tx = some m ↔
      Sharding.shardNumForBytes address.encode c = some m := by
  obtain ⟨_, uxt, _, _, _, hread, hinfo, _, hdest, happly, hout⟩ := h.executed
  have hsigned := (applyExtrinsic_leaves env happly hout hinfo).1
  simp only [minerShard, hread, Option.bind_eq_bind, Option.bind_some, hsigned, if_true, hdest]
  cases hnum : Sharding.shardNumForBytes address.encode c with
  | none => simp
  | some num =>
    simp only [Option.bind_some, Option.some.injEq]
    by_cases hne : num ≠ n
    · rw [if_pos hne, Option.some.injEq]
    · rw [if_neg hne]
      refine iff_of_false (by simp) (fun heq => hm ?_)
      rw [← heq]
      exact not_not.mp hne

end Doubling

-- Every node of the doubled network that has the proof for the source chain accepts the
-- relay exactly if it is of the destination's shard.
def AcceptedByDestination (blake2 : Bytes → H256) (ml : MerkleLight H256) (count source : UInt16)
    (bytes : Bytes) (relay : RelayCall) (dest : AccountId) : Prop :=
  ∀ (v : RelayVerifier) (logs : List DigestItem), v.ml = ml → v.extra.shardCount = count →
    v.extra.shardNum < count → v.foreignProof source relay.hash = some bytes →
    lastLog logs DigestItem.asShardingInfo ≠ none →
    (checkRelayTransfer blake2 v logs [relay.unsigned.toOpaque] = .ok (.ok ()) ↔
      Sharding.shardNumFor dest count = some v.extra.shardNum)

-- The proof is from before the split: it lists the transfer under the old count and only
-- knows the old shards.
theorem in_flight_accepted_iff {σ : Type} {env : Substrate σ} {ml : MerkleLight H256}
    {n c source : UInt16} {tx : OpaqueExtrinsic} {sender : AccountId} {address : Address}
    {transfer : Transfer} {bytes : Bytes} {relay : RelayCall}
    (h : InFlight env ml n c tx sender address transfer bytes)
    (hdouble : (c + c).toNat = 2 * c.toNat)
    (hsource : Sharding.shardNumFor sender (c + c) = some source)
    (hcarries : relay.tx.bytes = tx.encode) :
    AcceptedByDestination env.blake2 ml (c + c) source bytes relay transfer.dest ↔
      (∃ origin, OriginExtrinsic.decode relay.relayType tx.encode = some origin ∧
        Sharding.shardNumFor origin.sender (c + c) = Sharding.shardNumFor sender (c + c)) ∧
      Sharding.shardNumForBytes address.encode c = Sharding.shardNumFor transfer.dest (c + c) := by
  obtain ⟨m, hm, hmlt, hmn⟩ := h.newShard hdouble
  obtain ⟨header, body, results, root, i, hinfo, hauthored, htx, hsuccess, hfree⟩ := h.authored
  obtain ⟨proof, hproof, hcontains⟩ := contains_authored hinfo hauthored htx hsuccess hfree
  have hlong : 66 ≤ relay.tx.bytes.length := hcarries ▸ h.le_length
  rw [hm, hsource, ← h.minerShard_eq hmn]
  constructor
  · intro haccepted
    -- A node of the destination's shard that has this proof only.
    let v : RelayVerifier := ⟨ml, ⟨zero256, m, c + c, none⟩,
      fun num hash => if num = source ∧ hash = relay.hash then some bytes else none⟩
    have hlogs : lastLog [DigestItem.shardingInfo 0 0] DigestItem.asShardingInfo ≠ none := by
      decide
    have hlisted := (checkRelayTransfer_unsigned v hlogs hlong).mp
      ((haccepted v _ rfl rfl hmlt (if_pos ⟨rfl, rfl⟩) hlogs).mpr hm)
    obtain ⟨origin, shard, bytes', proof', hdecode, hshard, hbytes, hproof', hin⟩ := hlisted
    simp only [v] at hshard hbytes hproof' hin
    split_ifs at hbytes with hstored
    obtain rfl := Option.some.inj hbytes
    obtain rfl := Option.some.inj (hproof.symm.trans hproof')
    rw [hcarries] at hdecode hin
    exact ⟨⟨origin, hdecode, hstored.1 ▸ hshard⟩, (hcontains m).mp hin⟩
  · rintro ⟨⟨origin, hdecode, hshard⟩, hminer⟩ v logs hml hcount hnum hstored hlogs
    rw [checkRelayTransfer_unsigned v hlogs hlong, hm]
    constructor
    · intro hcase
      obtain ⟨origin', shard, bytes', proof', hdecode', hshard', hbytes, hproof', hin⟩ := hcase
      rw [hcarries] at hdecode' hin
      obtain rfl := Option.some.inj (hdecode.symm.trans hdecode')
      rw [hcount, hshard] at hshard'
      obtain rfl := Option.some.inj hshard'
      obtain rfl := Option.some.inj (hstored.symm.trans hbytes)
      rw [hml] at hproof'
      obtain rfl := Option.some.inj (hproof.symm.trans hproof')
      exact hminer.symm.trans ((hcontains _).mp hin)
    · intro hdest
      refine ⟨origin, source, bytes, proof, hcarries ▸ hdecode, hcount ▸ hshard, hstored,
        hml ▸ hproof, ?_⟩
      rw [hcarries, ← Option.some.inj hdest]
      exact (hcontains m).mpr hminer

-- A transfer of shard 1 of 2 that moves its coins to another shard.
def transferTo (byte : UInt8) : UncheckedExtrinsic :=
  ⟨some ⟨.id (filled 32 1), filled 64 7, 0, .immortal⟩,
    .balancesTransfer (.id (filled 32 byte)) 5⟩

def authoredBefore (byte : UInt8) : Run (H256 × Bytes) :=
  genExtrinsicProof plainSubstrate.args plainSubstrate.blake2 halfMerkleLight
    ⟨zero256, 1, [.shardingInfo 1 2]⟩ [(transferTo byte).toOpaque] [true]

theorem inFlight_transferTo {byte : UInt8} {root : H256} {bytes : Bytes}
    (hread : UncheckedExtrinsic.decode plainSubstrate.args (transferTo byte).toOpaque.encode =
      some (transferTo byte, []))
    (hmoved : ((applyExtrinsic plainSubstrate (transferTo byte) fundedState).toOption.bind
      fun applied => some applied.movements) = some [.outbound ⟨.coin, filled 32 byte, 5⟩])
    (hauthored : authoredBefore byte = .ok (root, bytes)) :
    InFlight plainSubstrate halfMerkleLight 1 2 (transferTo byte).toOpaque (filled 32 1)
      (.id (filled 32 byte)) ⟨.coin, filled 32 byte, 5⟩ bytes := by
  obtain ⟨applied, happly, hmoves⟩ := Run.exists_of_toOption hmoved
  constructor
  · refine ⟨fundedState, transferTo byte, [], applied, none, hread, rfl, rfl, rfl, happly, ?_⟩
    rw [Option.some.inj hmoves]
    exact List.mem_singleton_self _
  · refine ⟨_, _, _, root, 0, rfl, hauthored, rfl, rfl, fun tx hmem _ => ?_⟩
    rw [List.mem_singleton.mp hmem]

-- Account 04..04 is of shard 0 of 2 and of shard 0 of 4.
def stayingRelay : RelayCall :=
  ⟨.balance, ⟨(transferTo 4).encode, by decide +kernel⟩, 1, filled 32 3, filled 32 4⟩

theorem in_flight_accepted_iff_staying : ∃ bytes,
    InFlight plainSubstrate halfMerkleLight 1 2 (transferTo 4).toOpaque (filled 32 1)
      (.id (filled 32 4)) ⟨.coin, filled 32 4, 5⟩ bytes ∧
    AcceptedByDestination plainSubstrate.blake2 halfMerkleLight (2 + 2) 1 bytes stayingRelay
      (filled 32 4) := by
  have hauthored : ((authoredBefore 4).toOption.bind fun _ => some ()) = some () := by
    decide +kernel
  obtain ⟨⟨root, bytes⟩, hauthored, _⟩ := Run.exists_of_toOption hauthored
  have hflight := inFlight_transferTo (by decide +kernel) (by decide +kernel) hauthored
  refine ⟨bytes, hflight,
    (in_flight_accepted_iff hflight (by decide) (by decide +kernel) (by decide +kernel)).mpr ?_⟩
  have hdecode : ((OriginExtrinsic.decode .balance (transferTo 4).toOpaque.encode).bind
      fun origin => some origin.sender) = some (filled 32 1) := by
    decide +kernel
  obtain ⟨origin, hdecode, hsender⟩ := Option.bind_eq_some_iff.mp hdecode
  exact ⟨⟨origin, hdecode, by rw [Option.some.inj hsender]⟩, by decide +kernel⟩

-- Account 02..02 is of shard 0 of 2 and of shard 2 of 4.
def movingRelay : RelayCall :=
  ⟨.balance, ⟨(transferTo 2).encode, by decide +kernel⟩, 1, filled 32 3, filled 32 4⟩

-- A node of shard `num` of 4 that has the proof of the source block.
def splitVerifier (num : UInt16) (bytes : Bytes) : RelayVerifier where
  ml := halfMerkleLight
  extra := ⟨zero256, num, 4, none⟩
  foreignProof shard hash := if shard = 1 ∧ hash = filled 32 3 then some bytes else none

-- The destination's shard rejects the relay, and the other half of the split accepts it.
theorem in_flight_relay_misrouted : ∃ bytes,
    InFlight plainSubstrate halfMerkleLight 1 2 (transferTo 2).toOpaque (filled 32 1)
      (.id (filled 32 2)) ⟨.coin, filled 32 2, 5⟩ bytes ∧
    Sharding.shardNumFor (filled 32 1) 4 = some 1 ∧
    Sharding.shardNumFor (filled 32 2) 4 = some 2 ∧
    checkRelayTransfer plainSubstrate.blake2 (splitVerifier 2 bytes) [.shardingInfo 2 4]
      [movingRelay.unsigned.toOpaque] = .ok (.error "relay extrinsic not in proof") ∧
    checkRelayTransfer plainSubstrate.blake2 (splitVerifier 0 bytes) [.shardingInfo 0 4]
      [movingRelay.unsigned.toOpaque] = .ok (.ok ()) := by
  have hauthored : ((authoredBefore 2).toOption.bind fun proof => some
      (checkRelayTransfer plainSubstrate.blake2 (splitVerifier 2 proof.2) [.shardingInfo 2 4]
          [movingRelay.unsigned.toOpaque],
        checkRelayTransfer plainSubstrate.blake2 (splitVerifier 0 proof.2) [.shardingInfo 0 4]
          [movingRelay.unsigned.toOpaque])) =
      some (.ok (.error "relay extrinsic not in proof"), .ok (.ok ())) := by
    decide +kernel
  obtain ⟨⟨root, bytes⟩, hauthored, hchecked⟩ := Run.exists_of_toOption hauthored
  simp only [Option.some.injEq, Prod.mk.injEq] at hchecked
  exact ⟨bytes, inFlight_transferTo (by decide +kernel) (by decide +kernel) hauthored,
    by decide +kernel, by decide +kernel, hchecked.1, hchecked.2⟩

end Yeeroot.Verifier
