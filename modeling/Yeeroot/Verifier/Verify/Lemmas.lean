import Yeeroot.Verifier.Relay.Authenticity
import Yeeroot.Verifier.Verify

namespace Yeeroot.Verifier

open Scale
open Yeeroot.Pow

section ThenCheck

variable {ε α β : Type}

-- A check that can reject as well as panic, and what runs after it has passed.
def thenCheck (check : Run (Except ε α)) (next : α → Run (Except ε β)) : Run (Except ε β) :=
  match check with
  | .error panic => .error panic
  | .ok (.error rejection) => .ok (.error rejection)
  | .ok (.ok value) => next value

theorem thenCheck_eq_ok (check : Run (Except ε α)) (next : α → Run (Except ε β)) (result : β) :
    thenCheck check next = .ok (.ok result) ↔
      ∃ value, check = .ok (.ok value) ∧ next value = .ok (.ok result) := by
  rcases check with panic | rejection | value <;> simp [thenCheck]

end ThenCheck

variable (build : Build) (v : PowVerifier)

theorem checkSealed_eq (header : BlockHeader H256) (sealed : PowSeal H256) :
    checkSealed build v header sealed =
      thenCheck (checkPowTarget build v header sealed) fun _ =>
        thenCheck (checkShardInfo build v.chain v.context.genesisScaleOutObserveBlocks
          v.relay.extra (shardHeader header)) fun _ =>
            thenCheck (Rejection.lift <$> checkWorkProof build v.hashing header sealed) fun _ =>
              .ok (.ok ()) := by
  unfold checkSealed
  rcases checkPowTarget build v header sealed with panic | rejection | _
  · rfl
  · rfl
  · simp only [thenCheck, bind, Except.bind]
    rcases checkShardInfo build v.chain v.context.genesisScaleOutObserveBlocks v.relay.extra
      (shardHeader header) with panic | rejection | _
    · rfl
    · rfl
    · rcases checkWorkProof build v.hashing header sealed with panic | message | _ <;> rfl

theorem shardInfo_of_checkSealed {header : BlockHeader H256} {sealed : PowSeal H256}
    (h : checkSealed build v header sealed = .ok (.ok ())) :
    lastLog header.logs DigestItem.asShardingInfo ≠ none := by
  simp only [checkSealed_eq, thenCheck_eq_ok] at h
  obtain ⟨_, _, _, hinfo, _⟩ := h
  unfold checkShardInfo at hinfo
  obtain ⟨info, hinfo, _⟩ := (Run.bind_eq_ok _ _ _).mp hinfo
  rw [Run.expect_eq_ok] at hinfo
  exact Option.ne_none_iff_exists'.mpr ⟨info, hinfo⟩

-- What `check_header` removes: the seal, which has to be the last digest item.
def preHeader (header : BlockHeader H256) : BlockHeader H256 :=
  { header with logs := header.logs.dropLast }

theorem checkHeader_eq {header : BlockHeader H256} {item : DigestItem} {sealed : PowSeal H256}
    (hlast : header.logs.getLast? = some item) (hseal : asPowSeal v.hashing.codec item = some sealed) :
    checkHeader build v header =
      thenCheck (checkSealed build v (preHeader header) sealed) fun _ =>
        .ok (.ok (preHeader header, item, sealed)) := by
  simp only [checkHeader, hlast, hseal]
  unfold preHeader
  rcases checkSealed build v { header with logs := header.logs.dropLast } sealed with
    panic | rejection | _ <;> rfl

theorem checkHeader_eq_ok {header : BlockHeader H256}
    {checked : BlockHeader H256 × DigestItem × PowSeal H256}
    (h : checkHeader build v header = .ok (.ok checked)) :
    checked.1 = preHeader header ∧ header.logs.getLast? = some checked.2.1 ∧
      asPowSeal v.hashing.codec checked.2.1 = some checked.2.2 ∧
      checkSealed build v (preHeader header) checked.2.2 = .ok (.ok ()) := by
  cases hlast : header.logs.getLast? with
  | none => simp [checkHeader, hlast, reject] at h
  | some item =>
    cases hseal : asPowSeal v.hashing.codec item with
    | none => simp [checkHeader, hlast, hseal, reject] at h
    | some sealed =>
      rw [checkHeader_eq build v hlast hseal, thenCheck_eq_ok] at h
      obtain ⟨_, hsealed, h⟩ := h
      obtain rfl := Except.ok.inj (Except.ok.inj h)
      exact ⟨rfl, rfl, hseal, hsealed⟩

theorem verify_eq (header : BlockHeader H256) (proof : Option Bytes)
    (body : Option (List OpaqueExtrinsic)) :
    verify build v header proof body =
      thenCheck (checkHeader build v header) fun checked =>
        thenCheck (Rejection.lift <$> checkRelayMerkleProof v.relay.ml proof checked.2.2.relayProof)
          fun _ => thenCheck (checkBody v checked.1 body) fun _ =>
            .ok (.ok ⟨checked.1, checked.2.1, proof, body⟩) := by
  unfold verify
  rcases checkHeader build v header with panic | rejection | checked
  · rfl
  · rfl
  · simp only [thenCheck, bind, Except.bind]
    rcases checkRelayMerkleProof v.relay.ml proof checked.2.2.relayProof with panic | message | _
    · rfl
    · rfl
    · simp only [Functor.map, Except.map, Rejection.lift]
      rcases checkBody v checked.1 body with panic | rejection | _ <;> rfl

theorem map_lift_eq_ok {α : Type} (checked : Run (Except String α)) (value : α) :
    Rejection.lift <$> checked = .ok (.ok value) ↔ checked = .ok (.ok value) := by
  rcases checked with panic | message | _ <;> simp [Functor.map, Except.map, Rejection.lift]

theorem verify_eq_ok (header : BlockHeader H256) (proof : Option Bytes)
    (body : Option (List OpaqueExtrinsic)) (block : ImportBlock) :
    verify build v header proof body = .ok (.ok block) ↔
      ∃ checked, checkHeader build v header = .ok (.ok checked) ∧
        checkRelayMerkleProof v.relay.ml proof checked.2.2.relayProof = .ok (.ok ()) ∧
        checkBody v checked.1 body = .ok (.ok ()) ∧
        ⟨checked.1, checked.2.1, proof, body⟩ = block := by
  simp only [verify_eq, thenCheck_eq_ok, map_lift_eq_ok, Except.ok.injEq, Unique.exists_iff,
    PUnit.default_eq_unit]

theorem checkBody_eq_ok (header : BlockHeader H256) (body : List OpaqueExtrinsic) :
    checkBody v header (some body) = .ok (.ok ()) ↔
      checkRelayTransfer v.hashing.blake2 v.relay header.logs body = .ok (.ok ()) := by
  rw [← map_lift_eq_ok]
  rfl

end Yeeroot.Verifier
