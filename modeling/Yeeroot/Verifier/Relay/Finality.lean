import Yeeroot.Pow.WorkProof.Theorems
import Yeeroot.Verifier.Verify.Lemmas

namespace Yeeroot.Verifier

open Scale
open Yeeroot.Pow

-- `finalized num hash` tells whether the node's light client of shard `num` has finalized
-- this block.
variable (build : Build) (v : PowVerifier) (finalized : UInt16 → H256 → Bool)

-- The block that a relay names is final on the chain of its origin's sender. A relay whose
-- origin cannot be read is of no shard, and the runtime credits nothing for it.
def SourceFinal (v : RelayVerifier) (relay : RelayCall) : Prop :=
  ∀ origin sourceShard, OriginExtrinsic.decode relay.relayType relay.tx.bytes = some origin →
    Sharding.shardNumFor origin.sender v.extra.shardCount = some sourceShard →
    finalized sourceShard relay.hash = true

-- Each unsigned relay of a block with this header that the node accepts is of a final block.
def AcceptsFinalOnly (args : SubstrateArgs) (header : BlockHeader H256) (proof : Option Bytes) :
    Prop :=
  ∀ body block, verify build v header proof (some body) = .ok (.ok block) →
    ∀ relay, ReadFromItem args body relay.unsigned → SourceFinal finalized v.relay relay

-- The relay check asks the light client for its proof of the block, not whether the block
-- is final. So it keeps the blocks that are not final out only if no proof of them has been
-- stored.
theorem accepts_final_only_iff (args : SubstrateArgs) {header : BlockHeader H256}
    {proof : Option Bytes} {block : ImportBlock}
    (haccepted : verify build v header proof none = .ok (.ok block)) :
    AcceptsFinalOnly build v finalized args header proof ↔
      ∀ relay, v.relay.Listed v.hashing.blake2 relay → SourceFinal finalized v.relay relay := by
  constructor
  · intro h relay hlisted
    obtain ⟨checked, hheader, hproof, _, _⟩ := (verify_eq_ok build v _ _ _ _).mp haccepted
    obtain ⟨hpre, _, _, hsealed⟩ := checkHeader_eq_ok build v hheader
    have hlong : 66 ≤ relay.tx.bytes.length := by
      obtain ⟨origin, _, _, _, horigin, _⟩ := hlisted
      exact OriginExtrinsic.le_length_of_decode _ _ _ horigin
    have hbody := (checkRelayTransfer_unsigned v.relay
      (shardInfo_of_checkSealed build v hsealed) hlong).mpr hlisted
    refine h [relay.unsigned.toOpaque] _ ((verify_eq_ok build v _ _ _ _).mpr
      ⟨checked, hheader, hproof, (checkBody_eq_ok v _ _).mpr (hpre ▸ hbody), rfl⟩) relay ?_
    exact ⟨_, List.mem_singleton_self _, [], UncheckedExtrinsic.decode_unsigned args relay⟩
  · intro h body block' hverify relay hread origin sourceShard horigin hsource
    obtain ⟨checked, _, _, hbody, _⟩ := (verify_eq_ok build v _ _ _ _).mp hverify
    have hlong := OriginExtrinsic.le_length_of_decode _ _ _ horigin
    have hlisted := listed_of_readFromItem v.relay ((checkBody_eq_ok v _ _).mp hbody) hread hlong
    exact h relay hlisted origin sourceShard horigin hsource

-- A node of two shards that knows the block before, and a block of its shard.
def plainHashing : Hashing H256 where
  toLibrary := Merkle.Reference.library fun left right =>
    plainSubstrate.blake2 (left.val ++ right.val)
  codec := .fixed 32
  debug _ := ""
  header _ := zero256
  source root _ _ := root
  target _ := 0
  blake2 := plainSubstrate.blake2
  provesBareLeaf := true

def plainPowVerifier (shard : UInt16) (listed : List H256) : PowVerifier where
  hashing := plainHashing
  client := ⟨fun _ => some ⟨zero256, 0, zero256, zero256, []⟩, fun _ => none⟩
  context := ⟨BitVec.allOnes 256, 1, 1, 2, 1⟩
  relay := plainVerifier shard listed

def plainNonceSeal : PowSeal H256 :=
  ⟨filled 32 0, BitVec.allOnes 256, 0, .nonce ⟨⟨[], Nat.two_pow_pos 32⟩, 0⟩, zero256⟩

def plainNonceBlock (shard : UInt16) : BlockHeader H256 :=
  (plainBlock zero256 1 shard 2).push plainHashing.codec plainNonceSeal

def plainImport (shard : UInt16) (body : Option (List OpaqueExtrinsic)) : ImportBlock :=
  ⟨plainBlock zero256 1 shard 2, powSeal plainHashing.codec plainNonceSeal, none, body⟩

-- The only block with a stored proof is final.
theorem accepts_final_only_iff_finalized :
    verify .checked (plainPowVerifier 0 [plainSubstrate.blake2 plainTransfer.encode])
      (plainNonceBlock 0) none none = .ok (.ok (plainImport 0 none)) ∧
    AcceptsFinalOnly .checked (plainPowVerifier 0 [plainSubstrate.blake2 plainTransfer.encode])
      (fun num hash => num = 1 ∧ hash = filled 32 3) plainSubstrate.args (plainNonceBlock 0) none := by
  have haccepted : verify .checked
      (plainPowVerifier 0 [plainSubstrate.blake2 plainTransfer.encode]) (plainNonceBlock 0) none none =
        .ok (.ok (plainImport 0 none)) := by
    decide +kernel
  refine ⟨haccepted, (accepts_final_only_iff _ _ _ _ haccepted).mpr ?_⟩
  intro relay hlisted origin sourceShard horigin hsource
  obtain ⟨origin', sourceShard', bytes, _, horigin', hsource', hbytes, _⟩ := hlisted
  obtain rfl := Option.some.inj (horigin.symm.trans horigin')
  obtain rfl := Option.some.inj (hsource.symm.trans hsource')
  simp only [plainPowVerifier, plainVerifier] at hbytes
  split_ifs at hbytes with hstored
  simpa using hstored

-- Nothing is final on shard 1, and the node accepts a block with a relay from there.
theorem accepts_unfinalized_relay :
    verify .checked (plainPowVerifier 0 [plainSubstrate.blake2 plainTransfer.encode])
      (plainNonceBlock 0) none (some [(plainRelay .balance 0).unsigned.toOpaque]) =
        .ok (.ok (plainImport 0 (some [(plainRelay .balance 0).unsigned.toOpaque]))) ∧
    ¬ AcceptsFinalOnly .checked (plainPowVerifier 0 [plainSubstrate.blake2 plainTransfer.encode])
      (fun _ _ => false) plainSubstrate.args (plainNonceBlock 0) none := by
  have haccepted : verify .checked
      (plainPowVerifier 0 [plainSubstrate.blake2 plainTransfer.encode]) (plainNonceBlock 0) none
        (some [(plainRelay .balance 0).unsigned.toOpaque]) =
        .ok (.ok (plainImport 0 (some [(plainRelay .balance 0).unsigned.toOpaque]))) := by
    decide +kernel
  refine ⟨haccepted, fun hfinal => ?_⟩
  have hread := UncheckedExtrinsic.decode_unsigned plainSubstrate.args (plainRelay .balance 0)
  have hsource : ((OriginExtrinsic.decode .balance plainTransfer.encode).bind fun origin =>
      Sharding.shardNumFor origin.sender 2) = some 1 := by
    decide +kernel
  obtain ⟨origin, horigin, hsource⟩ := Option.bind_eq_some_iff.mp hsource
  exact absurd (hfinal _ _ haccepted _ ⟨_, List.mem_singleton_self _, [], hread⟩ origin 1 horigin
    hsource) (by decide)

end Yeeroot.Verifier
