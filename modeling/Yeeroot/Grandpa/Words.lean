import Mathlib.Data.List.Basic
import Mathlib.Data.UInt
import Yeeroot.Grandpa.Voters

namespace Yeeroot.Grandpa

-- `Bitfield` as the source has it, in words of 64 bits.
inductive WordField where
  | blank
  | live (words : List UInt64)
  deriving DecidableEq

namespace WordField

def withVoters (nVoters : Nat) : List UInt64 := List.replicate ((nVoters * 2 + 63) / 64) 0

-- The bits of a word are counted from the left.
def setLiveBit (words : List UInt64) (bitIdx nVoters : Nat) :
    Except BitfieldError (List UInt64) :=
  match words[bitIdx / 64]? with
  | some word => .ok (words.set (bitIdx / 64) (word ||| 1 <<< (63 - bitIdx % 64).toUInt64))
  | none => .error (.indexOutOfBounds (bitIdx / 2) nVoters)

def setBit (field : WordField) (bit nVoters : Nat) : Except BitfieldError WordField := do
  let words := match field with
    | .blank => withVoters nVoters
    | .live words => words
  let words ← setLiveBit words bit nVoters
  return .live words

def merge : WordField → WordField → Except BitfieldError WordField
  | .blank, .blank => .ok .blank
  | .live words, .blank => .ok (.live words)
  | .blank, .live words => .ok (.live words)
  | .live a, .live b =>
    if a.length ≠ b.length then .error (.lengthMismatch a.length b.length)
    else .ok (.live (List.zipWith (· ||| ·) a b))

def prevoteBit : UInt64 := (1 : UInt64) <<< 63

def precommitBit : UInt64 := (1 : UInt64) <<< 62

-- The two bits of a voter are shifted out at a time. A word is left once it has no bits any more.
def weighWord (lookup : Nat → UInt64) : Nat → Nat → UInt64 → UInt64 × UInt64 → UInt64 × UInt64
  | 0, _, _, sums => sums
  | rounds + 1, idx, word, sums =>
    if word = 0 then sums
    else
      let prevote := if word &&& prevoteBit = prevoteBit then sums.1 + lookup idx else sums.1
      let precommit :=
        if word &&& precommitBit = precommitBit then sums.2 + lookup idx else sums.2
      weighWord lookup rounds (idx + 1) (word <<< 2) (prevote, precommit)

def weighWords (lookup : Nat → UInt64) : Nat → List UInt64 → UInt64 × UInt64 → UInt64 × UInt64
  | _, [], sums => sums
  | valIdx, word :: words, sums =>
    weighWords lookup (valIdx + 32) words (weighWord lookup 32 valIdx word sums)

def totalWeight (field : WordField) (lookup : Nat → UInt64) : UInt64 × UInt64 :=
  match field with
  | .blank => (0, 0)
  | .live words => weighWords lookup 0 words (0, 0)

section Bits

def leading (count : Nat) (word : UInt64) : List Bool :=
  (List.range count).map word.toBitVec.getMsbD

def bits (words : List UInt64) : List Bool := words.flatMap (leading 64)

def toBitfield : WordField → Bitfield
  | .blank => .blank
  | .live words => .live (bits words)

theorem length_leading (count : Nat) (word : UInt64) : (leading count word).length = count := by
  rw [leading, List.length_map, List.length_range]

theorem length_bits (words : List UInt64) : (bits words).length = words.length * 64 := by
  induction words with
  | nil => rfl
  | cons word words ih =>
    rw [bits, List.flatMap_cons, List.length_append, length_leading, ← bits, ih,
      List.length_cons]
    omega

theorem bits_cons (word : UInt64) (words : List UInt64) :
    bits (word :: words) = leading 64 word ++ bits words := List.flatMap_cons

theorem bits_withVoters (nVoters : Nat) :
    bits (withVoters nVoters) = Bitfield.withVoters nVoters := by
  have hzero : leading 64 0 = List.replicate 64 false := by decide
  rw [withVoters, Bitfield.withVoters]
  induction (nVoters * 2 + 63) / 64 with
  | zero => rfl
  | succ count ih =>
    rw [List.replicate_succ, bits_cons, ih, hzero, List.replicate_append_replicate]
    congr 1
    omega

theorem bits_zipWith {f : UInt64 → UInt64 → UInt64} {g : Bool → Bool → Bool}
    (hfg : ∀ a b i, (f a b).toBitVec.getMsbD i = g (a.toBitVec.getMsbD i) (b.toBitVec.getMsbD i))
    {a b : List UInt64} (hlength : a.length = b.length) :
    bits (List.zipWith f a b) = List.zipWith g (bits a) (bits b) := by
  induction a generalizing b with
  | nil => rfl
  | cons word words ih =>
    cases b with
    | nil => cases hlength
    | cons word' words' =>
      have hword : leading 64 (f word word') =
          List.zipWith g (leading 64 word) (leading 64 word') := by
        rw [leading, leading, leading, List.zipWith_map]
        simp [hfg]
      rw [List.zipWith_cons_cons, bits_cons, bits_cons, bits_cons, List.zipWith_append
        (by rw [length_leading, length_leading]), hword, ih (Nat.succ.inj hlength)]

theorem getMsbD_bit : ∀ off < 64, ∀ i < 64,
    ((1 : UInt64) <<< (63 - off).toUInt64).toBitVec.getMsbD i = decide (off = i) := by
  decide +kernel

theorem leading_setBit (word : UInt64) {off : Nat} (hoff : off < 64) :
    leading 64 (word ||| 1 <<< (63 - off).toUInt64) = (leading 64 word).set off true := by
  refine List.ext_getElem (by simp [leading]) fun i hi _ => ?_
  have hlt : i < 64 := by simpa [leading] using hi
  rw [List.getElem_set]
  simp only [leading, List.getElem_map, List.getElem_range, UInt64.toBitVec_or, BitVec.getMsbD_or,
    getMsbD_bit off hoff i hlt]
  split_ifs with heq
  · simp [heq]
  · simp [heq]

theorem bits_set {words : List UInt64} {idx off : Nat} (hoff : off < 64) {word : UInt64}
    (hword : words[idx]? = some word) :
    bits (words.set idx (word ||| 1 <<< (63 - off).toUInt64)) =
      (bits words).set (idx * 64 + off) true := by
  induction words generalizing idx with
  | nil => cases hword
  | cons first words ih =>
    cases idx with
    | zero =>
      obtain rfl : first = word := Option.some.inj hword
      rw [List.set_cons_zero, bits_cons, bits_cons, leading_setBit first hoff, Nat.zero_mul,
        Nat.zero_add, List.set_append_left _ _ (by rw [length_leading]; exact hoff)]
    | succ idx =>
      rw [List.set_cons_succ, bits_cons, bits_cons, ih hword, List.set_append_right _ _
        (by rw [length_leading]; omega), length_leading]
      congr 2
      omega

end Bits

section Weigh

variable (lookup : Nat → UInt64)

theorem weigh_replicate (idx count : Nat) :
    Bitfield.weigh lookup idx (List.replicate (count * 2) false) = (0, 0) := by
  induction count generalizing idx with
  | zero => rfl
  | succ count ih =>
    have hcount : (count + 1) * 2 = count * 2 + 1 + 1 := by omega
    rw [hcount, List.replicate_succ, List.replicate_succ, Bitfield.weigh, ih]
    rfl

theorem weigh_append (count idx : Nat) {first rest : List Bool}
    (hlength : first.length = count * 2) :
    Bitfield.weigh lookup idx (first ++ rest) =
      ((Bitfield.weigh lookup idx first).1 + (Bitfield.weigh lookup (idx + count) rest).1,
        (Bitfield.weigh lookup idx first).2 + (Bitfield.weigh lookup (idx + count) rest).2) := by
  induction count generalizing idx first with
  | zero =>
    obtain rfl := List.length_eq_zero_iff.mp (by omega : first.length = 0)
    simp [Bitfield.weigh]
  | succ count ih =>
    obtain ⟨prevoted, tail, rfl⟩ := List.exists_cons_of_length_pos (by omega : 0 < first.length)
    rw [List.length_cons] at hlength
    obtain ⟨precommitted, tail, rfl⟩ :=
      List.exists_cons_of_length_pos (by omega : 0 < tail.length)
    rw [List.length_cons] at hlength
    have htail : tail.length = count * 2 := by omega
    have hidx : idx + 1 + count = idx + (count + 1) := by omega
    simp only [List.cons_append, Bitfield.weigh, ih (idx + 1) htail, hidx, UInt64.add_assoc]

theorem leading_succ (count : Nat) (word : UInt64) :
    leading ((count + 1) * 2) word =
      word.toBitVec.getMsbD 0 :: word.toBitVec.getMsbD 1 :: leading (count * 2) (word <<< 2) := by
  have hcount : (count + 1) * 2 = count * 2 + 1 + 1 := by omega
  have hshift : (word <<< 2).toBitVec = word.toBitVec <<< 2 := by
    rw [UInt64.toBitVec_shiftLeft]
    rfl
  rw [leading, hcount, List.range_succ_eq_map, List.map_cons, List.range_succ_eq_map,
    List.map_cons, List.map_cons, List.map_map, List.map_map, leading, hshift]
  simp [BitVec.getMsbD_shiftLeft, Function.comp_def, Nat.add_assoc]

theorem and_eq_self_iff {mask : UInt64} {bit : Nat} (hbit : bit < 64)
    (hmask : mask.toBitVec = BitVec.twoPow 64 (63 - bit)) (word : UInt64) :
    word &&& mask = mask ↔ word.toBitVec.getMsbD bit = true := by
  rw [← UInt64.toBitVec_inj, UInt64.toBitVec_and, hmask, BitVec.and_twoPow,
    BitVec.getMsbD_eq_getLsbD]
  have hpos : (0#64 : BitVec 64) ≠ BitVec.twoPow 64 (63 - bit) := by
    intro hzero
    have htop := congrArg (fun word => word.getLsbD (63 - bit)) hzero
    simp [BitVec.getLsbD_twoPow] at htop
    omega
  split_ifs with hset
  · simp [hset, hbit]
  · simp [hset, hpos]

-- By induction over the voters that are left in the word.
theorem weighWord_eq (rounds idx : Nat) (word : UInt64) (sums : UInt64 × UInt64) :
    weighWord lookup rounds idx word sums =
      (sums.1 + (Bitfield.weigh lookup idx (leading (rounds * 2) word)).1,
        sums.2 + (Bitfield.weigh lookup idx (leading (rounds * 2) word)).2) := by
  induction rounds generalizing idx word sums with
  | zero => simp [weighWord, leading, Bitfield.weigh]
  | succ rounds ih =>
    by_cases hzero : word = 0
    · have hfalse : leading ((rounds + 1) * 2) word =
          List.replicate ((rounds + 1) * 2) false := by
        rw [hzero, leading, List.eq_replicate_iff]
        simp
      rw [hfalse, weigh_replicate, weighWord, if_pos hzero]
      simp
    · have hprevote : word &&& prevoteBit = prevoteBit ↔ _ :=
        and_eq_self_iff (by omega : 0 < 64) rfl word
      have hprecommit : word &&& precommitBit = precommitBit ↔ _ :=
        and_eq_self_iff (by omega : 1 < 64) rfl word
      rw [weighWord, if_neg hzero, ih, leading_succ, Bitfield.weigh]
      simp only [hprevote, hprecommit]
      cases word.toBitVec.getMsbD 0 <;> cases word.toBitVec.getMsbD 1 <;>
        simp [UInt64.add_assoc]

theorem weighWords_eq (words : List UInt64) (valIdx : Nat) (sums : UInt64 × UInt64) :
    weighWords lookup valIdx words sums =
      (sums.1 + (Bitfield.weigh lookup valIdx (bits words)).1,
        sums.2 + (Bitfield.weigh lookup valIdx (bits words)).2) := by
  induction words generalizing valIdx sums with
  | nil => simp [weighWords, bits, Bitfield.weigh]
  | cons word words ih =>
    rw [weighWords, ih, weighWord_eq, bits_cons,
      weigh_append lookup 32 valIdx (length_leading 64 word)]
    simp only [UInt64.add_assoc]

end Weigh

theorem bits_setLiveBit (words : List UInt64) (bit nVoters : Nat) :
    (setLiveBit words bit nVoters).map bits = Bitfield.setLiveBit (bits words) bit nVoters := by
  rw [setLiveBit, Bitfield.setLiveBit, length_bits]
  cases hword : words[bit / 64]? with
  | none =>
    have hle := List.getElem?_eq_none_iff.mp hword
    rw [if_neg (by omega)]
    rfl
  | some word =>
    have hlt := (List.getElem?_eq_some_iff.mp hword).1
    have hbit : bit / 64 * 64 + bit % 64 = bit := by omega
    have hset := bits_set (Nat.mod_lt bit (by omega)) hword
    rw [hbit] at hset
    rw [if_pos (by omega), ← hset]
    rfl

theorem toBitfield_setBit (field : WordField) (bit nVoters : Nat) :
    (field.setBit bit nVoters).map toBitfield = field.toBitfield.setBit bit nVoters := by
  cases field with
  | blank =>
    have hblank := bits_setLiveBit (withVoters nVoters) bit nVoters
    rw [bits_withVoters] at hblank
    simp only [setBit, Bitfield.setBit, toBitfield, ← hblank]
    cases setLiveBit (withVoters nVoters) bit nVoters <;> rfl
  | live words =>
    simp only [setBit, Bitfield.setBit, toBitfield, ← bits_setLiveBit]
    cases setLiveBit words bit nVoters <;> rfl

-- The source refuses fields of different lengths in words, the model of bits in bits.
theorem toBitfield_merge (a b : WordField) :
    (a.merge b).map toBitfield = a.toBitfield.merge b.toBitfield := by
  cases a <;> cases b <;> try rfl
  next a b =>
    simp only [merge, Bitfield.merge, toBitfield, length_bits]
    by_cases hlength : a.length = b.length
    · rw [if_neg (by simpa using hlength), if_neg (by simpa using hlength)]
      simp only [Except.map, toBitfield]
      rw [bits_zipWith (fun a b i => by rw [UInt64.toBitVec_or, BitVec.getMsbD_or]) hlength]
    · rw [if_pos hlength, if_pos (by omega), Nat.mul_div_cancel _ (by omega),
        Nat.mul_div_cancel _ (by omega)]
      rfl

-- The fields of words do what the fields of bits do: a bit is set or refused alike, fields are
-- merged or refused alike, and the loop over the words, which leaves a word early and shifts it,
-- weighs every bit once.
theorem words_refine_bits :
    (∀ (field : WordField) (bit nVoters : Nat),
      (field.setBit bit nVoters).map toBitfield = field.toBitfield.setBit bit nVoters) ∧
    (∀ a b : WordField, (a.merge b).map toBitfield = a.toBitfield.merge b.toBitfield) ∧
    ∀ (field : WordField) (lookup : Nat → UInt64),
      field.totalWeight lookup = field.toBitfield.totalWeight lookup := by
  refine ⟨toBitfield_setBit, toBitfield_merge, fun field lookup => ?_⟩
  cases field with
  | blank => rfl
  | live words =>
    rw [totalWeight, weighWords_eq, toBitfield, Bitfield.totalWeight]
    simp

end WordField

end Yeeroot.Grandpa
