import Yeeroot.Executive.Marker
import Yeeroot.Foreign.Relay.Lemmas
import Yeeroot.Verifier.Relay.Finality

namespace Yeeroot.Foreign

open Scale Miner Verifier
open Yeeroot.Pow

-- `get_curr_shard` and `get_shard_count` of the runtime's API, on the storage of a block.
def apiCurrShard {σ : Type} (st : State σ) : Option UInt16 :=
  st.sharding.currentShardInfo.map ShardInfo.num

def apiShardCount {σ : Type} (genesisShardingCount : UInt16) (st : State σ) : UInt16 :=
  match st.sharding.currentShardInfo with
  | some info => info.count
  | none => genesisShardingCount

-- A block of the node's chain. Its header is the one it was authored with; the client has it
-- with the seal. The runtime's final check compares the digest with the logs that the modules
-- deposited, of which only the shard matters here.
structure StoredBlock {σ : Type} (env : Substrate σ) (ml : MerkleLight H256)
    (client : LocalClient) where
  hash : H256
  header : Header
  postDigest : DigestItem
  body : List OpaqueExtrinsic
  extrinsics : List UncheckedExtrinsic
  extra : Option Bytes
  genesisShardingCount : UInt16
  before : State σ
  opened : State σ
  final : State σ
  decoded : decodeBody env.args body = some extrinsics
  opens : initializeBlock env header.number before = .ok opened
  executes : executeWithExtra env ml extrinsics header.number extra opened = .ok final
  digest : header.logs.filterMap DigestItem.asShardingInfo =
    final.system.logs.filterMap Log.marker?
  storedHeader : client.header hash = some { header with logs := header.logs ++ [postDigest] }
  storedBody : client.blockBody hash = some body
  shardCount : client.shardCount hash = some (apiShardCount genesisShardingCount final)
  currShard : client.currShard hash = apiCurrShard final

variable {σ : Type} {env : Substrate σ} {ml : MerkleLight H256} {client : LocalClient}
variable (b : StoredBlock env ml client) {shardNum shardCount : UInt16}

theorem StoredBlock.shardInfo_eq {info : ShardInfo}
    (hinfo : b.header.shardInfo = some (shardNum, shardCount))
    (hfinal : b.final.sharding.currentShardInfo = some info) :
    info.num = shardNum ∧ info.count = shardCount := by
  obtain ⟨_, ended, _, hfinish⟩ := executeWithExtra_finishes env b.executes
  have hmarker := finishBlock_marker env hfinish hfinal
  rw [← b.digest, ← lastLog_eq_getLast?] at hmarker
  exact Prod.mk.inj (Option.some.inj (hmarker.symm.trans hinfo))

theorem StoredBlock.importBroadcasts_eq
    (hinfo : b.header.shardInfo = some (shardNum, shardCount)) :
    importBroadcasts env.args env.blake2 client b.hash =
      if b.final.sharding.currentShardInfo = none then []
      else sentUntilPanic (fun tx => processRelayExtrinsic env.args env.blake2 tx.encode
        { b.header with logs := b.header.logs ++ [b.postDigest] } b.hash shardCount shardNum)
        b.body := by
  unfold importBroadcasts
  rw [b.storedHeader, b.storedBody, b.shardCount, b.currShard]
  cases hfinal : b.final.sharding.currentShardInfo with
  | none => simp [apiCurrShard, hfinal]
  | some info =>
    obtain ⟨rfl, rfl⟩ := b.shardInfo_eq hinfo hfinal
    simp [apiCurrShard, apiShardCount, hfinal]

-- The relay is read back as that of an extrinsic with this hash in this block, and its origin
-- as a transfer whenever its sender and its destination are account ids.
structure RelayOf (args : SubstrateArgs) (blake2 : Bytes → H256) (header : Header)
    (blockHash hash : H256) (relay : OpaqueExtrinsic) (params : RelayParams) : Prop where
  decoded : RelayParams.decode blake2 relay.encode = some params
  hash : params.hash = hash
  blockHash : params.blockHash = blockHash
  parentHash : params.parentHash = header.parentHash
  number : params.number = header.number
  origin : ∃ info call rest, UncheckedExtrinsic.decode args params.origin.bytes =
      some (⟨some info, call⟩, rest) ∧
    ∀ sender dest, info.signed = .id sender → call.destId = some dest →
      OriginExtrinsic.decode params.relayType params.origin.bytes ≠ none

-- Every hash that the proof lists for a shard is relayed to it.
def ProvenRelayed (proof : MultiLayerProof H256) : Prop :=
  ∀ shard hash, proof.contains shard hash = true →
    ∃ sent ∈ importBroadcasts env.args env.blake2 client b.hash, sent.shard = shard ∧
      ∃ params, RelayOf env.args env.blake2 b.header b.hash hash sent.relay params

-- An item for the shard with this hash, short enough for its relay, that the handler reaches.
def RelayedItem (args : SubstrateArgs) (blake2 : Bytes → H256) (shardNum shardCount : UInt16)
    (number : UInt64) (body : List OpaqueExtrinsic) (shard : UInt16) (hash : H256) : Prop :=
  ∃ (j : Nat) (tx : OpaqueExtrinsic), body[j]? = some tx ∧
    minerShard args shardNum shardCount tx = some shard ∧ blake2 tx.encode = hash ∧
    relayLength number tx.encode < 2 ^ 32 ∧
    ∀ k tx', k < j → body[k]? = some tx' → Passes args shardNum shardCount tx'

theorem exists_broadcast_iff (header : Header) (blockHash : H256) {shard : UInt16} {hash : H256}
    {body : List OpaqueExtrinsic} {args : SubstrateArgs} {blake2 : Bytes → H256}
    {logs : List DigestItem} :
    (∃ sent ∈ sentUntilPanic (fun tx => processRelayExtrinsic args blake2 tx.encode
        { header with logs := logs } blockHash shardCount shardNum) body, sent.shard = shard ∧
      ∃ params, RelayOf args blake2 header blockHash hash sent.relay params) ↔
    RelayedItem args blake2 shardNum shardCount header.number body shard hash := by
  constructor
  · intro h
    obtain ⟨sent, hmem, rfl, params, hrelay⟩ := h
    obtain ⟨j, tx, sents, htx, hsents, hmem, hbefore⟩ := mem_sentUntilPanic.mp hmem
    cases hshard : minerShard args shardNum shardCount tx with
    | none =>
      obtain ⟨uxt, hdecode⟩ := Option.ne_none_iff_exists'.mp
        ((processRelayExtrinsic_returns args blake2).mp ⟨sents, hsents⟩).1
      rw [processRelayExtrinsic_stays args blake2 hdecode hshard] at hsents
      rw [← Except.ok.inj hsents] at hmem
      exact absurd hmem List.not_mem_nil
    | some num =>
      obtain ⟨info, call, rest, relayType, hdecode, _, hprocess⟩ :=
        processRelayExtrinsic_leaves args blake2 hshard
      rw [hprocess] at hsents
      obtain ⟨broadcast, hbroadcast, rfl⟩ := (Run.map_eq_ok _ _ _).mp hsents
      obtain rfl := List.mem_singleton.mp hmem
      have hlong := UncheckedExtrinsic.le_length_of_decode hdecode rfl
      obtain ⟨_, hfits, rfl⟩ :=
        (decode_broadcastRelay blake2 hbroadcast hlong params).mp hrelay.decoded
      refine ⟨j, tx, htx, ?_, hrelay.hash, hfits, ?_⟩
      · rw [(broadcastRelay_eq_ok blake2 hbroadcast).1, hshard]
      · intro k tx' hk htx'
        exact (processRelayExtrinsic_returns args blake2).mp (hbefore k tx' hk htx')
  · intro h
    obtain ⟨j, tx, htx, hshard, rfl, hfits, hbefore⟩ := h
    obtain ⟨info, call, rest, relayType, hdecode, htype, hprocess⟩ :=
      processRelayExtrinsic_leaves args blake2 hshard
    have hlong := UncheckedExtrinsic.le_length_of_decode hdecode rfl
    have hec : tx.encode.length < 2 ^ 32 := by
      unfold relayLength at hfits
      omega
    obtain ⟨broadcast, hbroadcast⟩ := (broadcastRelay_returns blake2).mpr hec
    refine ⟨broadcast, mem_sentUntilPanic.mpr ⟨j, tx, [broadcast], htx, ?_,
      List.mem_singleton_self _, ?_⟩, (broadcastRelay_eq_ok blake2 hbroadcast).1, _,
      (decode_broadcastRelay blake2 hbroadcast hlong _).mpr ⟨hec, hfits, rfl⟩, rfl, rfl, rfl, rfl,
      info, call, rest, hdecode, ?_⟩
    · exact hprocess.trans ((Run.map_eq_ok _ _ _).mpr ⟨broadcast, hbroadcast, rfl⟩)
    · intro k tx' hk htx'
      exact (processRelayExtrinsic_returns args blake2).mpr (hbefore k tx' hk htx')
    · intro sender dest hsender hdest
      exact OriginExtrinsic.decode_of_decode hdecode hsender hdest htype

-- The author skips an item that is no extrinsic of its own, and import stops at it: a listed
-- transfer is relayed exactly if import gets to one with its hash.
theorem proven_transfers_relayed_iff {results : List Bool} {root : H256} {bytes : Bytes}
    {proof : MultiLayerProof H256} (hinfo : b.header.shardInfo = some (shardNum, shardCount))
    (hauthored : genExtrinsicProof env.args env.blake2 ml b.header b.body results =
      .ok (root, bytes))
    (hproof : MultiLayerProof.fromBytes ml bytes = some proof) :
    ProvenRelayed b proof ↔
      ∀ (i : Nat) (tx : OpaqueExtrinsic) (shard : UInt16), b.body[i]? = some tx →
        results[i]? = some true → minerShard env.args shardNum shardCount tx = some shard →
        b.final.sharding.currentShardInfo ≠ none ∧
          RelayedItem env.args env.blake2 shardNum shardCount b.header.number b.body shard
            (env.blake2 tx.encode) := by
  obtain ⟨proof', hproof', hcontains⟩ := genExtrinsicProof_contains hinfo hauthored
  obtain rfl := Option.some.inj (hproof.symm.trans hproof')
  have hrelayed : ∀ shard hash,
      (∃ sent ∈ importBroadcasts env.args env.blake2 client b.hash, sent.shard = shard ∧
        ∃ params, RelayOf env.args env.blake2 b.header b.hash hash sent.relay params) ↔
      b.final.sharding.currentShardInfo ≠ none ∧ RelayedItem env.args env.blake2 shardNum
        shardCount b.header.number b.body shard hash := by
    intro shard hash
    rw [b.importBroadcasts_eq hinfo]
    by_cases hnone : b.final.sharding.currentShardInfo = none
    · simp [hnone]
    · rw [if_neg hnone, exists_broadcast_iff, and_iff_right hnone]
  unfold ProvenRelayed
  simp only [hcontains, hrelayed]
  constructor
  · intro h i tx shard htx hsuccess hshard
    exact h shard _ ⟨i, tx, htx, hsuccess, hshard, rfl⟩
  · intro h shard hash hlisted
    obtain ⟨i, tx, htx, hsuccess, hshard, rfl⟩ := hlisted
    exact h i tx shard htx hsuccess hshard

-- A node of shard 1 of 2, and a block of its shard with the root of its relays in the seal.
def halfPowVerifier : PowVerifier :=
  { plainPowVerifier 1 [] with relay := { plainVerifier 1 [] with ml := halfMerkleLight } }

def sealOf (root : H256) : PowSeal H256 := { plainNonceSeal with relayProof := root }

def sealedBlock (root : H256) : BlockHeader H256 :=
  (plainBlock zero256 1 1 2).push plainHashing.codec (sealOf root)

def sealedImport (root : H256) (body : List OpaqueExtrinsic) : ImportBlock :=
  ⟨plainBlock zero256 1 1 2, powSeal plainHashing.codec (sealOf root), none, some body⟩

def sealedClient (body : List OpaqueExtrinsic) (root : H256) : LocalClient where
  header _ := some (shardHeader (sealedBlock root))
  blockBody _ := some body
  shardCount _ := some 2
  currShard _ := some 1

def authoredProof (body : List OpaqueExtrinsic) (results : List Bool) : Run (H256 × Bytes) :=
  genExtrinsicProof plainSubstrate.args plainSubstrate.blake2 halfMerkleLight
    (shardHeader (plainBlock zero256 1 1 2)) body results

def sealedRun (body : List OpaqueExtrinsic) (extrinsics : List UncheckedExtrinsic)
    (results : List Bool) : Option (Bool × List Log × Option ShardInfo) :=
  (authoredProof body results).toOption.bind fun authored =>
    (encodeLogs (sealedBlock authored.1).logs).toOption.bind fun extra =>
      (initializeBlock plainSubstrate 1 fundedState).toOption.bind fun opened =>
        (executeWithExtra plainSubstrate halfMerkleLight extrinsics 1 (some extra)
          opened).toOption.bind fun final =>
            some (decide (verify .checked halfPowVerifier (sealedBlock authored.1) none
                (some body) = .ok (.ok (sealedImport authored.1 body))),
              final.system.logs, final.sharding.currentShardInfo)

theorem exists_storedBlock {body : List OpaqueExtrinsic} {extrinsics : List UncheckedExtrinsic}
    {results : List Bool} (hdecoded : decodeBody plainSubstrate.args body = some extrinsics)
    (hrun : sealedRun body extrinsics results =
      some (true, [.shardMarker 1 2], some ⟨1, 2, none⟩)) :
    ∃ (root : H256) (bytes : Bytes)
      (b : StoredBlock plainSubstrate halfMerkleLight (sealedClient body root)),
      b.header = shardHeader (plainBlock zero256 1 1 2) ∧ b.body = body ∧
      b.final.sharding.currentShardInfo = some ⟨1, 2, none⟩ ∧
      verify .checked halfPowVerifier (sealedBlock root) none (some body) =
        .ok (.ok (sealedImport root body)) ∧
      genExtrinsicProof plainSubstrate.args plainSubstrate.blake2 halfMerkleLight b.header b.body
        results = .ok (root, bytes) := by
  obtain ⟨⟨root, bytes⟩, hauthored, hrun⟩ := Run.exists_of_toOption hrun
  obtain ⟨extra, _, hrun⟩ := Run.exists_of_toOption hrun
  obtain ⟨opened, hopens, hrun⟩ := Run.exists_of_toOption hrun
  obtain ⟨final, hexecutes, hrun⟩ := Run.exists_of_toOption hrun
  simp only [Option.some.injEq, Prod.mk.injEq, decide_eq_true_eq] at hrun
  obtain ⟨haccepted, hlogs, hinfo⟩ := hrun
  refine ⟨root, bytes, ⟨filled 32 3, shardHeader (plainBlock zero256 1 1 2),
    powSeal plainHashing.codec (sealOf root), body, extrinsics, some extra, 2, fundedState, opened,
    final, hdecoded, hopens, hexecutes, ?_, rfl, rfl, ?_, ?_⟩, rfl, rfl, hinfo, haccepted,
    hauthored⟩
  · rw [hlogs]
    decide
  · simp [sealedClient, apiShardCount, hinfo]
  · simp [sealedClient, apiCurrShard, hinfo]

def shardInherent : UncheckedExtrinsic := ⟨none, .shardingSetShardInfo ⟨1, 2, none⟩⟩

def plainBody : List UncheckedExtrinsic := [shardInherent, plainTransfer]

theorem shardInfo_plainHeader :
    (shardHeader (plainBlock zero256 1 1 2)).shardInfo = some (1, 2) := by
  decide

theorem proven_transfers_relayed_plain :
    ∃ (root : H256) (bytes : Bytes) (proof : MultiLayerProof H256)
      (b : StoredBlock plainSubstrate halfMerkleLight
        (sealedClient (plainBody.map UncheckedExtrinsic.toOpaque) root)),
      b.body = plainBody.map UncheckedExtrinsic.toOpaque ∧
      genExtrinsicProof plainSubstrate.args plainSubstrate.blake2 halfMerkleLight b.header b.body
        [true, true] = .ok (root, bytes) ∧
      MultiLayerProof.fromBytes halfMerkleLight bytes = some proof ∧
      proof.contains 0 (plainSubstrate.blake2 plainTransfer.encode) = true ∧
      ProvenRelayed b proof := by
  have hdecoded : decodeBody plainSubstrate.args (plainBody.map UncheckedExtrinsic.toOpaque) =
      some plainBody := by
    decide +kernel
  have hrun : sealedRun (plainBody.map UncheckedExtrinsic.toOpaque) plainBody [true, true] =
      some (true, [.shardMarker 1 2], some ⟨1, 2, none⟩) := by
    decide +kernel
  have hitems : ∀ tx ∈ plainBody.map UncheckedExtrinsic.toOpaque,
      UncheckedExtrinsic.decode plainSubstrate.args tx.encode ≠ none ∧
        relayLength 1 tx.encode < 2 ^ 32 := by
    decide +kernel
  obtain ⟨root, bytes, b, hheader, hbody, hfinal, _, hauthored⟩ := exists_storedBlock hdecoded hrun
  have hinfo : b.header.shardInfo = some (1, 2) := hheader ▸ shardInfo_plainHeader
  obtain ⟨proof, hproof, hcontains⟩ := genExtrinsicProof_contains hinfo hauthored
  have hshard : minerShard plainSubstrate.args 1 2 plainTransfer.toOpaque = some 0 := by
    decide +kernel
  refine ⟨root, bytes, proof, b, hbody, hauthored, hproof, (hcontains _ _).mpr
    ⟨1, plainTransfer.toOpaque, by simp [hbody, plainBody], by simp, hshard, rfl⟩,
    (proven_transfers_relayed_iff b hinfo hauthored hproof).mpr ?_⟩
  intro i tx shard htx _ hshard
  have hnumber : b.header.number = 1 := by
    rw [hheader]
    rfl
  rw [hbody] at htx ⊢
  rw [hnumber]
  refine ⟨by simp [hfinal], i, tx, htx, hshard, rfl, (hitems tx (List.mem_of_getElem? htx)).2, ?_⟩
  intro k tx' _ htx'
  obtain ⟨hread, hfits⟩ := hitems tx' (List.mem_of_getElem? htx')
  refine ⟨hread, fun _ => ?_⟩
  unfold relayLength at hfits
  omega

-- A stored byte that is the length of the next item: the call ends in that item's prefix.
def storing : UncheckedExtrinsic :=
  ⟨some ⟨.id (filled 32 1), filled 64 7, 0, .immortal⟩, .storageStore ⟨[36], by decide⟩⟩

def secondTransfer : UncheckedExtrinsic :=
  ⟨some ⟨.id (filled 32 1), filled 64 7, 1, .immortal⟩, .balancesTransfer (.id (filled 32 2)) 5⟩

def shiftedBody : List OpaqueExtrinsic :=
  [⟨storing.payload.dropLast⟩, ⟨shardInherent.encode⟩, secondTransfer.toOpaque]

-- The runtime reads the three extrinsics and nothing is left over. The first item is none of
-- its own, and the relay task of every node that imports the block dies on it.
theorem shifted_block_stops_relays :
    decodeItems (UncheckedExtrinsic.decode plainSubstrate.args) shiftedBody.length
      (shiftedBody.flatMap OpaqueExtrinsic.encode) =
        some ([storing, shardInherent, secondTransfer], []) ∧
    ∃ (root : H256) (bytes : Bytes) (proof : MultiLayerProof H256)
      (b : StoredBlock plainSubstrate halfMerkleLight (sealedClient shiftedBody root)),
      b.body = shiftedBody ∧
      genExtrinsicProof plainSubstrate.args plainSubstrate.blake2 halfMerkleLight b.header b.body
        [true, true, true] = .ok (root, bytes) ∧
      verify .checked halfPowVerifier (sealedBlock root) none (some shiftedBody) =
        .ok (.ok (sealedImport root shiftedBody)) ∧
      MultiLayerProof.fromBytes halfMerkleLight bytes = some proof ∧
      proof.contains 0 (plainSubstrate.blake2 secondTransfer.encode) = true ∧
      importEvent plainSubstrate.args plainSubstrate.blake2 (sealedClient shiftedBody root)
        b.hash = .error ⟨"called `Option::unwrap()` on a `None` value"⟩ ∧
      importBroadcasts plainSubstrate.args plainSubstrate.blake2 (sealedClient shiftedBody root)
        b.hash = [] ∧
      ¬ ProvenRelayed b proof := by
  have hitems : decodeItems (UncheckedExtrinsic.decode plainSubstrate.args) shiftedBody.length
      (shiftedBody.flatMap OpaqueExtrinsic.encode) =
        some ([storing, shardInherent, secondTransfer], []) := by
    decide +kernel
  have hdecoded : decodeBody plainSubstrate.args shiftedBody =
      some [storing, shardInherent, secondTransfer] := by
    rw [decodeBody, hitems]
    rfl
  have hrun : sealedRun shiftedBody [storing, shardInherent, secondTransfer] [true, true, true] =
      some (true, [.shardMarker 1 2], some ⟨1, 2, none⟩) := by
    decide +kernel
  have hunread : UncheckedExtrinsic.decode plainSubstrate.args
      (OpaqueExtrinsic.encode ⟨storing.payload.dropLast⟩) = none := by
    decide +kernel
  obtain ⟨root, bytes, b, hheader, hbody, _, haccepted, hauthored⟩ :=
    exists_storedBlock hdecoded hrun
  have hinfo : b.header.shardInfo = some (1, 2) := hheader ▸ shardInfo_plainHeader
  obtain ⟨proof, hproof, hcontains⟩ := genExtrinsicProof_contains hinfo hauthored
  have hshard : minerShard plainSubstrate.args 1 2 secondTransfer.toOpaque = some 0 := by
    decide +kernel
  have hlisted : proof.contains 0 (plainSubstrate.blake2 secondTransfer.encode) = true :=
    (hcontains _ _).mpr ⟨2, secondTransfer.toOpaque, by simp [hbody, shiftedBody], by simp, hshard,
      rfl⟩
  have hpanics : ∀ header hash tc cs, processRelayExtrinsic plainSubstrate.args
      plainSubstrate.blake2 (OpaqueExtrinsic.encode ⟨storing.payload.dropLast⟩) header hash tc cs =
        .error ⟨"called `Option::unwrap()` on a `None` value"⟩ := by
    intro header hash tc cs
    unfold processRelayExtrinsic
    rw [hunread]
    rfl
  have hnothing : importBroadcasts plainSubstrate.args plainSubstrate.blake2
      (sealedClient shiftedBody root) b.hash = [] := by
    simp only [importBroadcasts, sealedClient, shiftedBody, sentUntilPanic, hpanics]
  refine ⟨hitems, root, bytes, proof, b, hbody, hauthored, haccepted, hproof, hlisted, ?_,
    hnothing, ?_⟩
  · simp only [importEvent, sealedClient, shiftedBody, unwrap, Run.expect, bind, Except.bind,
      List.mapM_cons, hpanics]
  · intro hrelayed
    obtain ⟨sent, hmem, _⟩ := hrelayed 0 _ hlisted
    rw [hnothing] at hmem
    exact absurd hmem List.not_mem_nil

end Yeeroot.Foreign
