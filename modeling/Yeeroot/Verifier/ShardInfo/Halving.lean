import Yeeroot.Sharding.Utils.Lemmas
import Yeeroot.Verifier.Relay.Finality
import Yeeroot.Verifier.Verify.Returns

namespace Yeeroot.Verifier

open Scale
open Yeeroot.Pow

section Halve

variable {original num count : UInt16}

theorem halve_count (original : UInt16) (fuel : Nat) (num count : UInt16) :
    ∃ j, (halve original fuel num count).2.toNat = count.toNat / 2 ^ j := by
  induction fuel generalizing num count with
  | zero => exact ⟨0, (Nat.div_one _).symm⟩
  | succ fuel ih =>
    rw [halve]
    split_ifs
    · obtain ⟨j, hj⟩ := ih (if count / 2 ≤ num then num - count / 2 else num) (count / 2)
      refine ⟨j + 1, hj.trans ?_⟩
      rw [UInt16.toNat_div, Nat.div_div_eq_div_mul, Nat.pow_succ, Nat.mul_comm]
      rfl
    · exact ⟨0, (Nat.div_one _).symm⟩

theorem count_of_getOriginalShardNum {num' : UInt16}
    (h : getOriginalShardNum num count original = .ok num') :
    ∃ j, original.toNat = count.toNat / 2 ^ j := by
  obtain ⟨j, hj⟩ := halve_count original 16 num count
  simp only [getOriginalShardNum] at h
  split_ifs at h with hne
  exact ⟨j, (not_not.mp hne) ▸ hj⟩

theorem halve_step {a : Nat} (fuel : Nat) (hcount : count.toNat = 2 ^ (a + 1)) (hnum : num < count)
    (hmore : original < count) :
    ∃ num' count', halve original (fuel + 1) num count = halve original fuel num' count' ∧
      count'.toNat = 2 ^ a ∧ num'.toNat = num.toNat % 2 ^ a := by
  have hhalf : (count / 2).toNat = 2 ^ a := by
    rw [UInt16.toNat_div, hcount, pow_succ]
    exact Nat.mul_div_cancel _ (by decide)
  have hlt := UInt16.lt_iff_toNat_lt.mp hnum
  rw [hcount, pow_succ] at hlt
  rw [halve, if_pos hmore]
  refine ⟨_, _, rfl, hhalf, ?_⟩
  split_ifs with hle
  · have hle' := UInt16.le_iff_toNat_le.mp hle
    rw [hhalf] at hle'
    rw [UInt16.toNat_sub_of_le _ _ hle, hhalf, Nat.mod_eq_sub_mod hle', Nat.mod_eq_of_lt (by omega)]
  · have hgt := UInt16.lt_iff_toNat_lt.mp (UInt16.not_le.mp hle)
    rw [hhalf] at hgt
    rw [Nat.mod_eq_of_lt hgt]

theorem halve_pow {b d fuel : Nat} (hfuel : d ≤ fuel) (hcount : count.toNat = 2 ^ (b + d))
    (hnum : num < count) (horiginal : original.toNat = 2 ^ b) :
    (halve original fuel num count).2 = original ∧
      (halve original fuel num count).1.toNat = num.toNat % 2 ^ b := by
  induction d generalizing fuel num count with
  | zero =>
    have hsame : count = original := UInt16.toNat_inj.mp (hcount.trans horiginal.symm)
    have hlt := UInt16.lt_iff_toNat_lt.mp hnum
    rw [halve_of_le fuel num (by rw [hsame]; exact UInt16.le_refl _)]
    exact ⟨hsame, (Nat.mod_eq_of_lt (hcount ▸ hlt)).symm⟩
  | succ d ih =>
    obtain ⟨fuel, rfl⟩ : ∃ n, fuel = n + 1 := ⟨fuel - 1, by omega⟩
    have hmore : original < count := by
      rw [UInt16.lt_iff_toNat_lt, hcount, horiginal]
      exact Nat.pow_lt_pow_right (by decide) (by omega)
    rw [← Nat.add_assoc] at hcount
    obtain ⟨num', count', heq, hcount', hnum'⟩ := halve_step fuel hcount hnum hmore
    have hlt' : num' < count' := by
      rw [UInt16.lt_iff_toNat_lt, hcount', hnum']
      exact Nat.mod_lt _ (Nat.two_pow_pos _)
    obtain ⟨hend, hrest⟩ := ih (Nat.le_of_succ_le_succ hfuel) hcount' hlt'
    rw [heq]
    refine ⟨hend, hrest.trans ?_⟩
    rw [hnum', Nat.mod_mod_of_dvd _ (Nat.pow_dvd_pow 2 (Nat.le_add_right b d))]

theorem getOriginalShardNum_pow {a b : Nat} (hb : b ≤ a) (hcount : count.toNat = 2 ^ a)
    (hnum : num < count) (horiginal : original.toNat = 2 ^ b) :
    ∃ num', getOriginalShardNum num count original = .ok num' ∧
      num'.toNat = num.toNat % 2 ^ b := by
  obtain ⟨d, rfl⟩ := Nat.exists_eq_add_of_le hb
  have hlt := count.toNat_lt
  rw [hcount] at hlt
  have hfuel : b + d < 16 := (Nat.pow_lt_pow_iff_right (by decide)).mp hlt
  obtain ⟨hend, hrest⟩ := halve_pow (show d ≤ 16 by omega) hcount hnum horiginal
  refine ⟨(halve original 16 num count).1, ?_, hrest⟩
  simp [getOriginalShardNum, hend]

theorem original_cases {a : Nat} {num' : UInt16} (hcount : count.toNat = 2 ^ a)
    (hnum : num < count) (h : getOriginalShardNum num count original = .ok num') :
    original = 0 ∨ ∃ b ≤ a, original.toNat = 2 ^ b ∧ num'.toNat = num.toNat % 2 ^ b := by
  obtain ⟨j, hj⟩ := count_of_getOriginalShardNum h
  rw [hcount] at hj
  by_cases hle : j ≤ a
  · rw [Nat.pow_div hle (by decide)] at hj
    obtain ⟨num'', hok, hmod⟩ := getOriginalShardNum_pow (Nat.sub_le a j) hcount hnum hj
    obtain rfl := Except.ok.inj (h.symm.trans hok)
    exact .inr ⟨a - j, Nat.sub_le a j, hj, hmod⟩
  · left
    apply UInt16.toNat_inj.mp
    rw [hj, UInt16.toNat_zero]
    exact Nat.div_eq_of_lt (Nat.pow_lt_pow_right (by decide) (by omega))

end Halve

theorem shard_map_refines :
    (∀ a ≤ 15, ∀ b ≤ a, ∀ bytes : Bytes, 2 ≤ bytes.length →
      ∃ num num', Sharding.shardNumForBytes bytes (UInt16.ofNat (2 ^ a)) = some num ∧
        num.toNat < 2 ^ a ∧
        Sharding.shardNumForBytes bytes (UInt16.ofNat (2 ^ b)) = some num' ∧
        num'.toNat = num.toNat % 2 ^ b ∧
        getOriginalShardNum num (UInt16.ofNat (2 ^ a)) (UInt16.ofNat (2 ^ b)) = .ok num') ∧
    ∀ (bytes : Bytes) (count : UInt16), (¬ ∃ k, count.toNat = 2 ^ k) →
      Sharding.shardNumForBytes bytes count = none := by
  constructor
  · intro a ha b hb bytes hlength
    have hwide := Sharding.toNat_ofNat_two_pow ha
    have hnarrow := Sharding.toNat_ofNat_two_pow (hb.trans ha)
    have hlt : Sharding.tailValue bytes % 2 ^ a < 2 ^ a := Nat.mod_lt _ (Nat.two_pow_pos a)
    have hsmall : 2 ^ a < 2 ^ 16 := Nat.pow_lt_pow_right (by decide) (by omega)
    have hnum : (UInt16.ofNat (Sharding.tailValue bytes % 2 ^ a)).toNat =
        Sharding.tailValue bytes % 2 ^ a :=
      UInt16.toNat_ofNat_of_lt' (hlt.trans hsmall)
    have hinside : UInt16.ofNat (Sharding.tailValue bytes % 2 ^ a) < UInt16.ofNat (2 ^ a) := by
      rw [UInt16.lt_iff_toNat_lt, hnum, hwide]
      exact hlt
    obtain ⟨num', hok, hmod⟩ := getOriginalShardNum_pow hb hwide hinside hnarrow
    refine ⟨_, num', ?_, ?_, ?_, hmod, hok⟩
    · exact (Sharding.shardNumForBytes_eq_some _ _ _).mpr ⟨hlength, a, by omega, hwide, hnum⟩
    · rw [hnum]
      exact hlt
    · refine (Sharding.shardNumForBytes_eq_some _ _ _).mpr ⟨hlength, b, by omega, hnarrow, ?_⟩
      rw [hmod, hnum, Nat.mod_mod_of_dvd _ (Nat.pow_dvd_pow 2 hb)]
  · intro bytes count hnot
    rw [Option.eq_none_iff_forall_ne_some]
    intro num h
    obtain ⟨_, k, _, hcount, _⟩ := (Sharding.shardNumForBytes_eq_some _ _ _).mp h
    exact hnot ⟨k, hcount⟩

section Accepted

theorem count_ne_zero_of_multi {H : Type} [DecidableEq H] {build : Build} {hashing : Hashing H}
    {header : BlockHeader H} {sealed : PowSeal H} {multi : ProofMulti H} {num count : UInt16}
    (hinfo : header.shardInfo = some (num, count)) (hmulti : sealed.workProof = .multi multi)
    (hwork : Passes build hashing header sealed) : count ≠ 0 := by
  rintro rfl
  simp only [Passes, checkWorkProof, hmulti] at hwork
  have hsealed := (checkMulti_eq_ok hinfo).mp hwork
  obtain ⟨_, hcount⟩ := proofShard_eq_ok hsealed.leaves
  have hzero : UInt16.ofNat (2 ^ multi.merkleProof.length) = 0 := by
    rcases hcount with hcount | hcount <;> exact hcount
  have hpow := Sharding.toNat_ofNat_two_pow (Nat.le_of_lt_succ hsealed.short)
  have hpos := Nat.two_pow_pos multi.merkleProof.length
  rw [hzero, UInt16.toNat_zero] at hpow
  omega

-- The shard of an accepted header: a count that the node's count is doubled from, and the
-- node's number under it.
structure WellFormed (extra : ShardExtra) (num count : UInt16) : Prop where
  pow : ∃ k, count.toNat = 2 ^ k
  pos : 1 ≤ count.toNat
  le : count ≤ extra.shardCount
  num : num.toNat = extra.shardNum.toNat % count.toNat

-- The last halving takes the count from one to zero, so a count of zero is found as well,
-- and a nonce says nothing of the count.
theorem accepted_shard_info_iff {build : Build} {hashing : Hashing H256}
    {chain : H256 → Option Header} {observeBlocks : UInt64} {extra : ShardExtra}
    {header : BlockHeader H256} {sealed : PowSeal H256}
    (hpow : ∃ k, extra.shardCount.toNat = 2 ^ k) (hinside : extra.shardNum < extra.shardCount)
    (hshard : checkShardInfo build chain observeBlocks extra (shardHeader header) = .ok (.ok ()))
    (hwork : Passes build hashing header sealed) :
    ∃ num count, header.shardInfo = some (num, count) ∧
      (WellFormed extra num count ↔ count ≠ 0 ∨ ∃ multi, sealed.workProof = .multi multi) := by
  obtain ⟨k, hpow⟩ := hpow
  obtain ⟨num, count, _, hinfo, _, _, _, horiginal⟩ := (checkShardInfo_eq_ok _ _ _ _ _).mp hshard
  refine ⟨num, count, hinfo, ?_⟩
  constructor
  · intro h
    left
    rintro rfl
    exact absurd h.pos (by decide)
  · intro h
    have hne : count ≠ 0 := by
      rcases h with hne | ⟨multi, hmulti⟩
      · exact hne
      · exact count_ne_zero_of_multi hinfo hmulti hwork
    rcases original_cases hpow hinside horiginal with hzero | ⟨b, hb, hcount, hnum⟩
    · exact absurd hzero hne
    · refine ⟨⟨b, hcount⟩, ?_, ?_, by rw [hcount, hnum]⟩
      · rw [hcount]
        exact Nat.two_pow_pos b
      · rw [UInt16.le_iff_toNat_le, hcount, hpow]
        exact Nat.pow_le_pow_right (by decide) hb

end Accepted

theorem accepted_shard_info_plain :
    checkShardInfo .checked (plainPowVerifier 1 []).chain 1 (plainPowVerifier 1 []).relay.extra
      (shardHeader (plainBlock zero256 1 1 2)) = .ok (.ok ()) ∧
    Passes .checked plainHashing (plainBlock zero256 1 1 2) plainNonceSeal ∧
    WellFormed (plainPowVerifier 1 []).relay.extra 1 2 := by
  have hshard : checkShardInfo .checked (plainPowVerifier 1 []).chain 1
      (plainPowVerifier 1 []).relay.extra (shardHeader (plainBlock zero256 1 1 2)) =
        .ok (.ok ()) := by
    decide +kernel
  have hwork : Passes .checked plainHashing (plainBlock zero256 1 1 2) plainNonceSeal := by
    exact ⟨_, rfl⟩
  refine ⟨hshard, hwork, ?_⟩
  obtain ⟨num, count, hinfo, hiff⟩ := accepted_shard_info_iff ⟨1, rfl⟩ (by decide) hshard hwork
  have hplain : (plainBlock zero256 1 1 2).shardInfo = some (1, 2) := by decide +kernel
  obtain ⟨rfl, rfl⟩ := Prod.mk.inj (Option.some.inj (hplain.symm.trans hinfo))
  exact hiff.mpr (.inl (by decide))

-- A node of shard 1 of 2 verifies a block that says it is of shard 0 of 0.
theorem zero_shard_count_accepted :
    verify .checked (plainPowVerifier 1 [])
      ((plainBlock zero256 1 0 0).push plainHashing.codec plainNonceSeal) none none =
        .ok (.ok ⟨plainBlock zero256 1 0 0, powSeal plainHashing.codec plainNonceSeal, none,
          none⟩) ∧
    (plainBlock zero256 1 0 0).shardInfo = some (0, 0) ∧
    ¬ ∃ k, (0 : UInt16).toNat = 2 ^ k := by
  refine ⟨by decide +kernel, by decide +kernel, ?_⟩
  intro h
  obtain ⟨k, hk⟩ := h
  have hpos := Nat.two_pow_pos k
  rw [UInt16.toNat_zero] at hk
  omega

end Yeeroot.Verifier
