import Yeeroot.Foreign.Relay
import Yeeroot.Miner.Theorems
import Yeeroot.SrPrimitives.Origin

namespace Yeeroot.Foreign

open Scale Miner

section Sent

variable (args : SubstrateArgs) (blake2 : Bytes → H256)

-- What the loop over a body has broadcast when it ends, be it by a panic.
def sentUntilPanic (process : OpaqueExtrinsic → Run (List Broadcast)) :
    List OpaqueExtrinsic → List Broadcast
  | [] => []
  | tx :: body =>
    match process tx with
    | .ok sent => sent ++ sentUntilPanic process body
    | .error _ => []

theorem mem_sentUntilPanic {process : OpaqueExtrinsic → Run (List Broadcast)}
    {body : List OpaqueExtrinsic} {broadcast : Broadcast} :
    broadcast ∈ sentUntilPanic process body ↔
      ∃ (j : Nat) (tx : OpaqueExtrinsic) (sent : List Broadcast), body[j]? = some tx ∧
        process tx = .ok sent ∧ broadcast ∈ sent ∧
        ∀ k tx', k < j → body[k]? = some tx' → (process tx').Returns := by
  induction body with
  | nil => simp [sentUntilPanic]
  | cons tx body ih =>
    unfold sentUntilPanic
    cases hprocess : process tx with
    | error panic =>
      refine iff_of_false List.not_mem_nil ?_
      intro h
      obtain ⟨j, tx', sent, htx', hsent, _, hbefore⟩ := h
      cases j with
      | zero =>
        obtain rfl : tx = tx' := by simpa using htx'
        simp [hprocess] at hsent
      | succ j =>
        obtain ⟨_, hreturns⟩ := hbefore 0 tx (Nat.succ_pos j) rfl
        simp [hprocess] at hreturns
    | ok sent =>
      rw [List.mem_append, ih]
      constructor
      · rintro (hmem | ⟨j, tx', sent', htx', hsent', hmem, hbefore⟩)
        · exact ⟨0, tx, sent, rfl, hprocess, hmem, fun k _ hk => absurd hk k.not_lt_zero⟩
        · refine ⟨j + 1, tx', sent', by simpa using htx', hsent', hmem, ?_⟩
          intro k tx'' hk htx''
          cases k with
          | zero =>
            obtain rfl : tx = tx'' := by simpa using htx''
            exact ⟨sent, hprocess⟩
          | succ k => exact hbefore k tx'' (by omega) (by simpa using htx'')
      · intro h
        obtain ⟨j, tx', sent', htx', hsent', hmem, hbefore⟩ := h
        cases j with
        | zero =>
          obtain rfl : tx = tx' := by simpa using htx'
          obtain rfl : sent = sent' := by simpa [hprocess] using hsent'
          exact .inl hmem
        | succ j =>
          refine .inr ⟨j, tx', sent', by simpa using htx', hsent', hmem, ?_⟩
          intro k tx'' hk htx''
          exact hbefore (k + 1) tx'' (by omega) (by simpa using htx'')

def importBroadcasts (client : LocalClient) (hash : H256) : List Broadcast :=
  match client.header hash, client.blockBody hash, client.shardCount hash,
      client.currShard hash with
  | some header, some body, some tc, some cs =>
    sentUntilPanic (fun tx => processRelayExtrinsic args blake2 tx.encode header hash tc cs) body
  | _, _, _, _ => []

theorem sentUntilPanic_of_mapM {process : OpaqueExtrinsic → Run (List Broadcast)}
    {body : List OpaqueExtrinsic} {sents : List (List Broadcast)}
    (h : body.mapM process = .ok sents) : sentUntilPanic process body = sents.flatten := by
  induction body generalizing sents with
  | nil =>
    obtain rfl := (Run.pure_eq_ok _ _).mp h
    rfl
  | cons tx body ih =>
    simp only [List.mapM_cons, Run.bind_eq_ok, Run.pure_eq_ok] at h
    obtain ⟨sent, hsent, rest, hrest, rfl⟩ := h
    simp only [sentUntilPanic, hsent, ih hrest, List.flatten_cons]

-- A handler that returns has broadcast what it returns.
theorem importBroadcasts_of_importEvent {client : LocalClient} {hash : H256}
    {sents : List (List Broadcast)} (h : importEvent args blake2 client hash = .ok sents) :
    importBroadcasts args blake2 client hash = sents.flatten := by
  simp only [importEvent, unwrap, Run.bind_eq_ok, Run.expect_eq_ok] at h
  obtain ⟨header, hheader, body, hbody, tc, htc, cs, hcs, hsents⟩ := h
  simp only [importBroadcasts, hheader, hbody, htc, hcs]
  exact sentUntilPanic_of_mapM hsents

end Sent

section Relay

variable (blake2 : Bytes → H256)
variable {relayType : RelayTypes} {ec : Bytes} {ds : UInt16}

def relayCall (relayType : RelayTypes) (tx : ByteVec) (header : Header) (hash : H256) :
    RelayCall :=
  ⟨relayType, tx, header.number, hash, header.parentHash⟩

def relayLength (number : UInt64) (ec : Bytes) : Nat :=
  (encodeCompact ec.length).length + ec.length + (encodeCompact number.toNat).length + 68

theorem length_payload_relayCall (relayType : RelayTypes) (tx : ByteVec) (header : Header)
    (hash : H256) :
    (relayCall relayType tx header hash).unsigned.payload.length =
      relayLength header.number tx.bytes := by
  simp only [relayCall, RelayCall.unsigned, UncheckedExtrinsic.payload, Call.encode,
    RelayCall.encode, encodeByteVec, List.length_cons, List.length_append, RelayTypes.length_encode,
    hash.property, header.parentHash.property, relayLength]
  omega

theorem decodeByteVec_withVecPrefix (payload : Bytes) :
    ∃ vec rest, decodeByteVec (withVecPrefix payload) = some (vec, rest) ∧
      vec.bytes = payload.take (payload.length % 2 ^ 32) := by
  have hmod : payload.length % 2 ^ 32 < 2 ^ 32 := Nat.mod_lt _ (Nat.two_pow_pos 32)
  have hle := Nat.mod_le payload.length (2 ^ 32)
  have hlen : (payload.take (payload.length % 2 ^ 32)).length = payload.length % 2 ^ 32 := by
    rw [List.length_take]
    omega
  have hsplit : withVecPrefix payload =
      encodeByteVec ⟨payload.take (payload.length % 2 ^ 32), hlen.trans_lt hmod⟩ ++
        payload.drop (payload.length % 2 ^ 32) := by
    simp only [withVecPrefix, encodeByteVec, hlen, List.append_assoc, List.take_append_drop]
  exact ⟨_, _, by rw [hsplit, decodeByteVec_append], rfl⟩

theorem broadcastRelay_eq_ok {header : Header} {hash : H256} {broadcast : Broadcast}
    (h : broadcastRelay blake2 relayType ec header hash ds = .ok broadcast) :
    broadcast.shard = ds ∧ ∃ hfits : ec.length < 2 ^ 32,
      broadcast.relay.bytes = (relayCall relayType ⟨ec, hfits⟩ header hash).unsigned.payload.take
        (relayLength header.number ec % 2 ^ 32) := by
  unfold broadcastRelay at h
  split_ifs at h with hfits
  simp only [unwrap, Run.bind_eq_ok, Run.expect_eq_ok, Run.pure_eq_ok, Prod.exists] at h
  obtain ⟨relay, _, hrelay, rfl⟩ := h
  obtain ⟨vec, _, hvec, hbytes⟩ := decodeByteVec_withVecPrefix
    (relayCall relayType ⟨ec, hfits⟩ header hash).unsigned.payload
  obtain ⟨rfl, _⟩ := Prod.mk.inj (Option.some.inj (hrelay.symm.trans hvec))
  rw [length_payload_relayCall] at hbytes
  exact ⟨rfl, hfits, hbytes⟩

theorem broadcastRelay_returns {header : Header} {hash : H256} :
    (broadcastRelay blake2 relayType ec header hash ds).Returns ↔ ec.length < 2 ^ 32 := by
  unfold broadcastRelay
  split_ifs with hfits
  · obtain ⟨vec, rest, hvec, _⟩ := decodeByteVec_withVecPrefix
      (relayCall relayType ⟨ec, hfits⟩ header hash).unsigned.payload
    refine iff_of_true ?_ hfits
    simp only [Run.returns_bind, unwrap, Run.expect_eq_ok]
    exact ⟨(vec, rest), hvec, Run.returns_pure _⟩
  · exact iff_of_false (Run.not_returns_error _) hfits

-- The receiver reads the relay back exactly if its length fits its prefix.
theorem decode_broadcastRelay {header : Header} {hash : H256} {broadcast : Broadcast}
    (h : broadcastRelay blake2 relayType ec header hash ds = .ok broadcast) (hlong : 66 ≤ ec.length)
    (params : RelayParams) :
    RelayParams.decode blake2 broadcast.relay.encode = some params ↔
      ∃ hfits : ec.length < 2 ^ 32, relayLength header.number ec < 2 ^ 32 ∧
        params = (relayCall relayType ⟨ec, hfits⟩ header hash).params blake2 := by
  obtain ⟨_, hfits, hbytes⟩ := broadcastRelay_eq_ok blake2 h
  by_cases hrelay : relayLength header.number ec < 2 ^ 32
  · have hsame : broadcast.relay.encode =
        (relayCall relayType ⟨ec, hfits⟩ header hash).unsigned.encode := by
      rw [OpaqueExtrinsic.encode, UncheckedExtrinsic.encode, hbytes, Nat.mod_eq_of_lt hrelay,
        ← length_payload_relayCall relayType ⟨ec, hfits⟩ header hash, List.take_length]
    rw [hsame, RelayParams.decode_unsigned blake2 hlong, Option.some.injEq]
    simp only [hfits, hrelay, true_and, exists_true_left, eq_comm]
  · -- What is left of the relay is shorter than any relay.
    have hec := length_encodeCompact_le ec.length 4 (by decide) (by decide) (by omega)
    have hnumber := length_encodeCompact_u64 header.number
    have hshort : relayLength header.number ec % 2 ^ 32 < 2 ^ 6 + 2 ^ 6 := by
      unfold relayLength at hrelay ⊢
      omega
    have hlen : broadcast.relay.bytes.length ≤ relayLength header.number ec % 2 ^ 32 := by
      rw [hbytes, List.length_take]
      exact Nat.min_le_left _ _
    have hnone : RelayParams.decode blake2 broadcast.relay.encode = none := by
      have hmod : broadcast.relay.bytes.length % 2 ^ 32 = broadcast.relay.bytes.length :=
        Nat.mod_eq_of_lt (by omega)
      have hcompact := length_encodeCompact_of_lt_14 broadcast.relay.bytes.length (by omega)
      unfold RelayParams.decode
      rw [if_pos]
      simp only [OpaqueExtrinsic.encode, withVecPrefix, hmod, List.length_append, MIN_RELAY_SIZE]
      omega
    refine iff_of_false (by simp [hnone]) ?_
    intro hcase
    obtain ⟨_, hlt, _⟩ := hcase
    exact hrelay hlt

end Relay

section Process

variable (args : SubstrateArgs) (blake2 : Bytes → H256)

variable {header : Header} {hash : H256} {tc cs : UInt16} {tx : OpaqueExtrinsic}
variable {dest : Address} {rest : Bytes}

theorem relayTo_other {relayType : RelayTypes} {ec : Bytes} {ds : UInt16}
    (hds : Sharding.shardNumForBytes dest.encode tc = some ds) (hne : ds ≠ cs) :
    relayTo blake2 relayType dest ec header hash tc cs =
      (fun broadcast => [broadcast]) <$> broadcastRelay blake2 relayType ec header hash ds := by
  unfold relayTo
  simp only [hds, if_neg hne.symm]
  rfl

theorem relayTo_same {relayType : RelayTypes} {ec : Bytes}
    (h : ∀ ds, Sharding.shardNumForBytes dest.encode tc = some ds → ds = cs) :
    relayTo blake2 relayType dest ec header hash tc cs = .ok [] := by
  unfold relayTo
  cases hds : Sharding.shardNumForBytes dest.encode tc with
  | none => rfl
  | some ds => exact if_pos (h ds hds).symm

theorem processRelayExtrinsic_transfer {info : SignatureInfo} {call : Call}
    (hdecode : UncheckedExtrinsic.decode args tx.encode = some (⟨some info, call⟩, rest))
    (hdest : transferDest call = some dest) :
    ∃ relayType, call.transferType = some relayType ∧
      processRelayExtrinsic args blake2 tx.encode header hash tc cs =
        relayTo blake2 relayType dest tx.encode header hash tc cs := by
  unfold processRelayExtrinsic
  rw [hdecode]
  unfold transferDest at hdest
  split at hdest
  · obtain rfl := Option.some.inj hdest
    exact ⟨.balance, rfl, rfl⟩
  · obtain rfl := Option.some.inj hdest
    exact ⟨.assets, rfl, rfl⟩
  · simp at hdest

theorem processRelayExtrinsic_other {uxt : UncheckedExtrinsic}
    (hdecode : UncheckedExtrinsic.decode args tx.encode = some (uxt, rest))
    (h : uxt.signature = none ∨ transferDest uxt.function = none) :
    processRelayExtrinsic args blake2 tx.encode header hash tc cs = .ok [] := by
  unfold processRelayExtrinsic
  rw [hdecode]
  obtain ⟨_ | info, call⟩ := uxt
  · rfl
  · have hdest : transferDest call = none := h.resolve_left (by simp)
    cases call <;> first | rfl | simp [transferDest] at hdest

theorem processRelayExtrinsic_leaves {num : UInt16}
    (h : minerShard args cs tc tx = some num) :
    ∃ info call rest relayType, UncheckedExtrinsic.decode args tx.encode =
        some (⟨some info, call⟩, rest) ∧ call.transferType = some relayType ∧
      processRelayExtrinsic args blake2 tx.encode header hash tc cs =
        (fun broadcast => [broadcast]) <$>
          broadcastRelay blake2 relayType tx.encode header hash num := by
  obtain ⟨info, call, rest, dest, hdecode, hdest, hnum, hne⟩ := (minerShard_eq_some ..).mp h
  obtain ⟨relayType, htype, hprocess⟩ := processRelayExtrinsic_transfer args blake2 hdecode hdest
  exact ⟨info, call, rest, relayType, hdecode, htype, hprocess.trans (relayTo_other blake2 hnum hne)⟩

theorem processRelayExtrinsic_stays {uxt : UncheckedExtrinsic}
    (hdecode : UncheckedExtrinsic.decode args tx.encode = some (uxt, rest))
    (h : minerShard args cs tc tx = none) :
    processRelayExtrinsic args blake2 tx.encode header hash tc cs = .ok [] := by
  obtain ⟨_ | info, call⟩ := uxt
  · exact processRelayExtrinsic_other args blake2 hdecode (.inl rfl)
  · cases hdest : transferDest call with
    | none => exact processRelayExtrinsic_other args blake2 hdecode (.inr hdest)
    | some dest =>
      obtain ⟨relayType, _, hprocess⟩ := processRelayExtrinsic_transfer args blake2 hdecode hdest
      rw [hprocess]
      apply relayTo_same
      intro ds hds
      by_contra hne
      have hsome : minerShard args cs tc tx = some ds :=
        (minerShard_eq_some ..).mpr ⟨info, call, rest, dest, hdecode, hdest, hds, hne⟩
      simp [h] at hsome

-- The handler gets past an item: the item is an extrinsic of its own, and not too long for
-- a relay if it needs one.
def Passes (shardNum shardCount : UInt16) (tx : OpaqueExtrinsic) : Prop :=
  UncheckedExtrinsic.decode args tx.encode ≠ none ∧
    (minerShard args shardNum shardCount tx ≠ none → tx.encode.length < 2 ^ 32)

theorem processRelayExtrinsic_returns :
    (processRelayExtrinsic args blake2 tx.encode header hash tc cs).Returns ↔
      Passes args cs tc tx := by
  unfold Passes
  cases hdecode : UncheckedExtrinsic.decode args tx.encode with
  | none =>
    refine iff_of_false ?_ (by simp)
    unfold processRelayExtrinsic
    rw [hdecode]
    exact Run.not_returns_error _
  | some read =>
    cases hshard : minerShard args cs tc tx with
    | none =>
      rw [processRelayExtrinsic_stays args blake2 hdecode hshard]
      exact iff_of_true (Run.returns_ok _) (by simp)
    | some num =>
      obtain ⟨_, _, _, relayType, _, _, hprocess⟩ :=
        processRelayExtrinsic_leaves args blake2 hshard
      rw [hprocess, Run.returns_map, broadcastRelay_returns]
      simp

end Process

end Yeeroot.Foreign
