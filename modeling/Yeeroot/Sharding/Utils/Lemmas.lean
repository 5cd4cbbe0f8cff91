import Mathlib.Tactic.IntervalCases
import Yeeroot.Sharding.Utils

namespace Yeeroot.Sharding

open Scale

theorem toNat_ofNat_two_pow {k : Nat} (hk : k ≤ 15) : (UInt16.ofNat (2 ^ k)).toNat = 2 ^ k := by
  have hsmall : 2 ^ k < 2 ^ 16 := Nat.pow_lt_pow_right (by decide) (by omega)
  exact UInt16.toNat_ofNat_of_lt' hsmall

theorem toNat_log2Loop (fuel : Nat) (s i : UInt16) (hs : s.toNat < 2 ^ fuel)
    (hi : i.toNat + fuel ≤ 16) :
    (log2Loop fuel s i).toNat = i.toNat + if s = 0 then 0 else Nat.log2 s.toNat + 1 := by
  induction fuel generalizing s i with
  | zero =>
    have hz : s = 0 := UInt16.toNat_inj.mp (by simpa using hs)
    simp [log2Loop, hz]
  | succ fuel ih =>
    unfold log2Loop
    by_cases hz : s = 0
    · simp [hz]
    · have hpos : 0 < s.toNat := Nat.pos_of_ne_zero fun h => hz (UInt16.toNat_inj.mp (by simpa using h))
      have hlt : 0 < s := UInt16.lt_iff_toNat_lt.mpr (by simpa using hpos)
      have hhalf : (s >>> 1).toNat = s.toNat / 2 := by
        simp [UInt16.toNat_shiftRight, Nat.shiftRight_eq_div_pow]
      have hinc : (i + 1).toNat = i.toNat + 1 := by
        rw [UInt16.toNat_add]
        simp only [UInt16.toNat_one]
        omega
      rw [if_pos hlt, ih _ _ (by rw [hhalf]; omega) (by omega), hinc]
      simp only [hz, if_false]
      by_cases hone : s.toNat = 1
      · have hzero : s >>> 1 = 0 := UInt16.toNat_inj.mp (by rw [hhalf, hone]; rfl)
        simp [hzero, hone, show Nat.log2 1 = 0 by decide]
      · have hne : s >>> 1 ≠ 0 := fun h => by
          have := congrArg UInt16.toNat h
          rw [hhalf] at this
          simp at this
          omega
        rw [if_neg hne, hhalf, Nat.log2_def s.toNat, if_pos (by omega)]
        omega

theorem toNat_log2 (n : UInt16) (h : n ≠ 0) : (log2 n).toNat = Nat.log2 n.toNat := by
  have hl := toNat_log2Loop 16 n 0 n.toNat_lt (by simp)
  simp only [h, if_false, UInt16.toNat_zero, Nat.zero_add] at hl
  unfold log2
  rw [UInt16.toNat_sub_of_le _ _ (UInt16.le_iff_toNat_le.mpr (by rw [hl]; simp)), hl]
  simp

theorem log2_lt (n : UInt16) (h : n ≠ 0) : Nat.log2 n.toNat < 16 := by
  have hpos : n.toNat ≠ 0 := fun hz => h (UInt16.toNat_inj.mp (by simpa using hz))
  rw [Nat.log2_lt hpos]
  exact n.toNat_lt

theorem toNat_pow2 (digits : UInt16) (h : digits.toNat < 16) :
    (pow2 digits).toNat = 2 ^ digits.toNat := by
  have hpow : 2 ^ digits.toNat < 2 ^ 16 := Nat.pow_lt_pow_right (by decide) h
  simp only [pow2, UInt16.toNat_shiftLeft, UInt16.toNat_one, Nat.mod_eq_of_lt h,
    Nat.one_shiftLeft]
  exact Nat.mod_eq_of_lt hpow

theorem getDigits_eq_some (count digits : UInt16) :
    getDigits count = some digits ↔ digits.toNat < 16 ∧ count.toNat = 2 ^ digits.toNat := by
  unfold getDigits
  constructor
  · intro h
    split_ifs at h with hz hp
    simp only [Option.some.injEq] at h
    subst h
    have hlt : (log2 count).toNat < 16 := by rw [toNat_log2 count hz]; exact log2_lt count hz
    exact ⟨hlt, by rw [← toNat_pow2 _ hlt, hp]⟩
  · intro hcase
    obtain ⟨hlt, hc⟩ := hcase
    have hz : count ≠ 0 := by
      rintro rfl
      have hpos : 0 < 2 ^ digits.toNat := Nat.two_pow_pos _
      rw [← hc] at hpos
      exact absurd hpos (by decide)
    have hd : log2 count = digits := by
      apply UInt16.toNat_inj.mp
      rw [toNat_log2 count hz, hc, Nat.log2_two_pow]
    have hp : pow2 digits = count := UInt16.toNat_inj.mp (by rw [toNat_pow2 _ hlt, hc])
    simp [hz, hd, hp]

private theorem toNat_mask (digits : Fin 16) :
    (~~~((~~~0 : UInt16) <<< UInt16.ofNat digits.val)).toNat = 2 ^ digits.val - 1 := by
  revert digits
  decide

theorem toNat_and_mask (a digits : UInt16) (h : digits.toNat < 16) :
    (a &&& ~~~((~~~0 : UInt16) <<< digits)).toNat = a.toNat % 2 ^ digits.toNat := by
  have hm := toNat_mask ⟨digits.toNat, h⟩
  simp only [UInt16.ofNat_toNat] at hm
  rw [UInt16.toNat_and, hm, Nat.and_two_pow_sub_one_eq_mod]

-- The last two bytes, read big endian: all that the shard map looks at.
def tailValue (bytes : Bytes) : Nat :=
  (fromBeBytes (bytes.getD (bytes.length - 2) 0) (bytes.getD (bytes.length - 1) 0)).toNat

-- The shard map is the tail value modulo the count, for counts that are powers of two.
theorem shardNumForBytes_eq_some (bytes : Bytes) (count num : UInt16) :
    shardNumForBytes bytes count = some num ↔
      2 ≤ bytes.length ∧ ∃ k < 16, count.toNat = 2 ^ k ∧ num.toNat = tailValue bytes % 2 ^ k := by
  unfold shardNumForBytes
  split_ifs with hlen
  · simp only [false_iff, not_and]
    omega
  · simp only [Option.map_eq_some_iff, getDigits_eq_some]
    constructor
    · intro h
      obtain ⟨digits, ⟨hlt, hc⟩, rfl⟩ := h
      exact ⟨by omega, digits.toNat, hlt, hc, toNat_and_mask _ _ hlt⟩
    · intro h
      obtain ⟨-, k, hk, hc, hn⟩ := h
      have hd : (UInt16.ofNat k).toNat = k := by
        rw [UInt16.toNat_ofNat']
        omega
      refine ⟨UInt16.ofNat k, ⟨by omega, by rw [hd, hc]⟩, ?_⟩
      apply UInt16.toNat_inj.mp
      rw [toNat_and_mask _ _ (by omega), hd, hn]
      rfl

theorem shardNumForBytes_lt (bytes : Bytes) (count num : UInt16)
    (h : shardNumForBytes bytes count = some num) : num < count := by
  obtain ⟨-, k, -, hc, hn⟩ := (shardNumForBytes_eq_some bytes count num).mp h
  rw [UInt16.lt_iff_toNat_lt, hc, hn]
  exact Nat.mod_lt _ (by positivity)

theorem shardNumForBytes_double {bytes : Bytes} {count num : UInt16}
    (hdouble : (count + count).toNat = 2 * count.toNat)
    (h : shardNumForBytes bytes count = some num) :
    ∃ num', shardNumForBytes bytes (count + count) = some num' ∧
      num'.toNat % count.toNat = num.toNat := by
  obtain ⟨hlen, k, hk, hpow, hmod⟩ := (shardNumForBytes_eq_some _ _ _).mp h
  have hcount : (count + count).toNat = 2 ^ (k + 1) := by
    rw [hdouble, hpow, pow_succ]
    omega
  have hk' : k + 1 < 16 := by
    have hlt := (count + count).toNat_lt
    rw [hcount] at hlt
    exact (Nat.pow_lt_pow_iff_right (by decide)).mp hlt
  have hbound : tailValue bytes % 2 ^ (k + 1) < 2 ^ (k + 1) := Nat.mod_lt _ (Nat.two_pow_pos _)
  have hle : 2 ^ (k + 1) ≤ 2 ^ 15 := Nat.pow_le_pow_right (by decide) (by omega)
  have hnum' : (UInt16.ofNat (tailValue bytes % 2 ^ (k + 1))).toNat =
      tailValue bytes % 2 ^ (k + 1) := by
    apply UInt16.toNat_ofNat_of_lt'
    simp only [UInt16.size]
    omega
  refine ⟨_, (shardNumForBytes_eq_some _ _ _).mpr ⟨hlen, k + 1, hk', hcount, hnum'⟩, ?_⟩
  rw [hnum', hpow, hmod, Nat.mod_mod_of_dvd _ (pow_dvd_pow 2 (Nat.le_succ k))]

end Yeeroot.Sharding
