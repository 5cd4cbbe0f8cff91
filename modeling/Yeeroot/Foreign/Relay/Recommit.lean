import Yeeroot.Executive
import Yeeroot.Foreign.Relay
import Yeeroot.SrPrimitives.Lemmas

namespace Yeeroot.Foreign

open Scale

variable (args : SubstrateArgs) (blake2 : Bytes → H256)

-- The address that a signed transfer of coins or of an asset names.
def signedDest (uxt : UncheckedExtrinsic) : Option Address :=
  match uxt.signature, uxt.function with
  | some _, .balancesTransfer dest _ => some dest
  | some _, .assetsTransfer _ _ dest _ => some dest
  | _, _ => none

def LeavesShard (ec : Bytes) (tc cs : UInt16) : Prop :=
  ∃ uxt rest dest ds, UncheckedExtrinsic.decode args ec = some (uxt, rest) ∧
    signedDest uxt = some dest ∧ Sharding.shardNumForBytes dest.encode tc = some ds ∧ cs ≠ ds

theorem relayTo_eq_ok {relayType : RelayTypes} {dest : Address} {ec : Bytes} {header : Header}
    {hash : H256} {tc cs : UInt16} {sent : List Broadcast}
    (h : relayTo blake2 relayType dest ec header hash tc cs = .ok sent) :
    (∃ relay, sent = [relay]) ↔
      ∃ ds, Sharding.shardNumForBytes dest.encode tc = some ds ∧ cs ≠ ds := by
  unfold relayTo at h
  cases hds : Sharding.shardNumForBytes dest.encode tc with
  | none =>
    simp only [hds, Except.ok.injEq] at h
    simp [← h]
  | some ds =>
    simp only [hds] at h
    split_ifs at h with hsame
    · simp [← Except.ok.inj h, hsame]
    · simp only [Run.bind_eq_ok, Run.pure_eq_ok] at h
      obtain ⟨relay, _, rfl⟩ := h
      simp [hsame]

theorem processRelayExtrinsic_sent {ec : Bytes} {header : Header} {hash : H256} {tc cs : UInt16}
    {sent : List Broadcast}
    (h : processRelayExtrinsic args blake2 ec header hash tc cs = .ok sent) :
    (∃ relay, sent = [relay]) ↔ LeavesShard args ec tc cs := by
  simp only [processRelayExtrinsic, unwrap, Run.bind_eq_ok, Run.expect_eq_ok, Prod.exists] at h
  obtain ⟨uxt, rest, hdecode, h⟩ := h
  have hleaves : LeavesShard args ec tc cs ↔ ∃ dest ds, signedDest uxt = some dest ∧
      Sharding.shardNumForBytes dest.encode tc = some ds ∧ cs ≠ ds := by
    simp [LeavesShard, hdecode]
  rw [hleaves]
  obtain ⟨_ | info, function⟩ := uxt
  · obtain rfl := (Run.pure_eq_ok _ _).mp h
    simp [signedDest]
  · cases function
    case balancesTransfer dest value => simpa [signedDest] using relayTo_eq_ok blake2 h
    case assetsTransfer shardCode id dest amount => simpa [signedDest] using relayTo_eq_ok blake2 h
    all_goals
      obtain rfl := (Run.pure_eq_ok _ _).mp h
      simp [signedDest]

theorem recommitRelay_sends_nothing {client : LocalClient} {request : RecommitRelay}
    {sent : List Broadcast} (h : recommitRelay args blake2 client request = .ok sent) :
    ∀ relay, sent ≠ [relay] := by
  intro relay hsent
  unfold recommitRelay at h
  split at h
  · rw [← Except.ok.inj h] at hsent
    simp at hsent
  · simp only [Run.bind_eq_ok] at h
    obtain ⟨tc, _, cs, _, h⟩ := h
    obtain ⟨uxt, rest, dest, _, hdecode, hdest, _⟩ :=
      (processRelayExtrinsic_sent args blake2 h).mp ⟨relay, hsent⟩
    have hsigned : uxt.isSigned = true := by
      unfold signedDest at hdest
      split at hdest <;> simp_all [UncheckedExtrinsic.isSigned]
    have hlong := UncheckedExtrinsic.le_length_of_decode hdecode hsigned
    simp [RecommitRelay.encode, request.hash.property] at hlong

def NamesTransfer (client : LocalClient) (request : RecommitRelay) : Prop :=
  ∃ body tx tc cs, client.blockBody request.hash = some body ∧
    body[request.index.toNat]? = some tx ∧ client.shardCount request.hash = some tc ∧
    client.currShard request.hash = some cs ∧ LeavesShard args tx.encode tc cs

theorem importEvent_sent {client : LocalClient} {request : RecommitRelay}
    {sents : List (List Broadcast)} (h : importEvent args blake2 client request.hash = .ok sents) :
    (∃ relay, sents[request.index.toNat]? = some [relay]) ↔ NamesTransfer args client request := by
  simp only [importEvent, unwrap, Run.bind_eq_ok, Run.expect_eq_ok] at h
  obtain ⟨header, _, body, hbody, tc, htc, cs, hcs, hsents⟩ := h
  simp only [NamesTransfer, hbody, htc, hcs, Option.some.injEq, exists_and_left, exists_eq_left']
  rcases Run.getElem?_of_mapM hsents request.index.toNat with
    ⟨htx, hsent⟩ | ⟨tx, sent, htx, hsent, hprocess⟩
  · simp [htx, hsent]
  · simp [htx, hsent, ← processRelayExtrinsic_sent args blake2 hprocess]

-- A recommit repeats nothing: it does what is asked only where nothing was relayed.
theorem recommit_repeats_relay_iff {client : LocalClient} {request : RecommitRelay}
    {sents : List (List Broadcast)}
    (himport : importEvent args blake2 client request.hash = .ok sents) :
    (∀ relay, sents[request.index.toNat]? = some [relay] →
      recommitRelay args blake2 client request = .ok [relay]) ↔
    ¬ NamesTransfer args client request := by
  rw [← importEvent_sent args blake2 himport]
  constructor
  · rintro h ⟨relay, hrelay⟩
    exact recommitRelay_sends_nothing args blake2 (h relay hrelay) relay rfl
  · intro h relay hrelay
    exact absurd ⟨relay, hrelay⟩ h

-- A chain of shard 1 of 2 that knows one block, with a transfer to an account of shard 0
-- and one to an account of its own.
def ownTransfer : UncheckedExtrinsic :=
  { plainTransfer with function := .balancesTransfer (.id (filled 32 3)) 5 }

def oneBlockClient : LocalClient where
  header _ := some ⟨zero256, 1, []⟩
  blockBody _ := some [plainTransfer.toOpaque, ownTransfer.toOpaque]
  shardCount _ := some 2
  currShard _ := some 1

theorem importEvent_oneBlockClient : ∃ relay,
    importEvent plainSubstrate.args plainSubstrate.blake2 oneBlockClient (filled 32 3) =
      .ok [[relay], []] ∧ relay.shard = 0 := by
  have himport : ((importEvent plainSubstrate.args plainSubstrate.blake2 oneBlockClient
      (filled 32 3)).toOption.bind fun sents => some (sents.map (List.map Broadcast.shard))) =
      some [[0], []] := by
    decide +kernel
  obtain ⟨sents, hsents, hshards⟩ := Run.exists_of_toOption himport
  have hmap := Option.some.inj hshards
  simp only [List.map_eq_cons_iff, List.map_eq_nil_iff] at hmap
  obtain ⟨_, _, rfl, ⟨relay, _, rfl, hshard, rfl⟩, _, _, rfl, rfl, rfl⟩ := hmap
  exact ⟨relay, hsents, hshard⟩

-- The second extrinsic of the block stays in the shard: no relay to repeat.
theorem recommit_repeats_relay_iff_oneBlock : ∃ sents,
    importEvent plainSubstrate.args plainSubstrate.blake2 oneBlockClient (filled 32 3) =
      .ok sents ∧ sents.length = 2 ∧
    ∀ relay, sents[1]? = some [relay] → recommitRelay plainSubstrate.args plainSubstrate.blake2
      oneBlockClient ⟨filled 32 3, 1⟩ = .ok [relay] := by
  obtain ⟨relay, himport, _⟩ := importEvent_oneBlockClient
  let request : RecommitRelay := ⟨filled 32 3, 1⟩
  have hblock : importEvent plainSubstrate.args plainSubstrate.blake2 oneBlockClient request.hash =
      .ok [[relay], []] := himport
  have hstays : ¬ NamesTransfer plainSubstrate.args oneBlockClient request := by
    rw [← importEvent_sent plainSubstrate.args plainSubstrate.blake2 hblock]
    rintro ⟨_, hsent⟩
    cases hsent
  exact ⟨_, himport, rfl,
    (recommit_repeats_relay_iff plainSubstrate.args plainSubstrate.blake2 hblock).mpr hstays⟩

theorem recommit_panics : ∃ relay,
    importEvent plainSubstrate.args plainSubstrate.blake2 oneBlockClient (filled 32 3) =
      .ok [[relay], []] ∧
    relay.shard = 0 ∧
    recommitRelay plainSubstrate.args plainSubstrate.blake2 oneBlockClient ⟨filled 32 3, 0⟩ =
      .error ⟨"called `Option::unwrap()` on a `None` value"⟩ := by
  obtain ⟨relay, himport, hshard⟩ := importEvent_oneBlockClient
  have hrecommit : (recommitRelay plainSubstrate.args plainSubstrate.blake2 oneBlockClient
      ⟨filled 32 3, 0⟩).panic? = some ⟨"called `Option::unwrap()` on a `None` value"⟩ := by
    decide +kernel
  exact ⟨relay, himport, hshard, Run.eq_error_of_panic? hrecommit⟩

end Yeeroot.Foreign
