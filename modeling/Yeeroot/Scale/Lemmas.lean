import Yeeroot.Scale

namespace Yeeroot.Scale

variable {input rest : Bytes}

@[simp] theorem readByte_cons (byte : UInt8) (rest : Bytes) :
    readByte (byte :: rest) = some (byte, rest) := rfl

@[simp] theorem readByte_nil : readByte [] = none := rfl

theorem readByte_eq_some (input : Bytes) (byte : UInt8) (rest : Bytes) :
    readByte input = some (byte, rest) ↔ input = byte :: rest := by
  cases input <;> simp [readByte]

theorem readBytes_append (bytes rest : Bytes) :
    readBytes bytes.length (bytes ++ rest) = some (bytes, rest) := by
  simp [readBytes]

theorem readBytes_eq_some (n : Nat) (input bytes rest : Bytes) :
    readBytes n input = some (bytes, rest) ↔ bytes.length = n ∧ input = bytes ++ rest := by
  unfold readBytes
  split_ifs with h
  · simp only [Option.some.injEq, Prod.mk.injEq]
    constructor
    · intro hcase
      obtain ⟨rfl, rfl⟩ := hcase
      exact ⟨by simp [h], (List.take_append_drop n input).symm⟩
    · intro hcase
      obtain ⟨rfl, rfl⟩ := hcase
      simp
  · simp only [false_iff]
    intro hcase
    obtain ⟨rfl, rfl⟩ := hcase
    simp at h

@[simp] theorem readFixed_append {n : Nat} (bytes : FixedBytes n) (rest : Bytes) :
    readFixed n (bytes.val ++ rest) = some (bytes, rest) := by
  obtain ⟨bytes, rfl⟩ := bytes
  simp [readFixed]

theorem readFixed_eq_some {n : Nat} (input : Bytes) (bytes : FixedBytes n) (rest : Bytes) :
    readFixed n input = some (bytes, rest) ↔ input = bytes.val ++ rest := by
  constructor
  · intro h
    unfold readFixed at h
    split_ifs at h
    simp only [Option.some.injEq, Prod.mk.injEq] at h
    obtain ⟨rfl, rfl⟩ := h
    exact (List.take_append_drop n input).symm
  · rintro rfl
    exact readFixed_append bytes rest

@[simp] theorem length_encodeLE (n value : Nat) : (encodeLE n value).length = n := by
  induction n generalizing value with
  | zero => rfl
  | succ n ih => simp [encodeLE, ih]

theorem valueLE_encodeLE (n value : Nat) (h : value < 256 ^ n) :
    valueLE (encodeLE n value) = value := by
  induction n generalizing value with
  | zero => simp_all [encodeLE, valueLE]
  | succ n ih =>
    have hdiv : value / 256 < 256 ^ n := by
      rw [Nat.pow_succ] at h
      exact Nat.div_lt_of_lt_mul (by omega)
    simp only [encodeLE, valueLE, ih _ hdiv, UInt8.toNat_ofNat']
    omega

theorem valueLE_lt (bytes : Bytes) : valueLE bytes < 256 ^ bytes.length := by
  induction bytes with
  | nil => simp [valueLE]
  | cons byte rest ih =>
    have hb := byte.toNat_lt
    simp only [valueLE, List.length_cons, Nat.pow_succ]
    omega

theorem encodeLE_valueLE (bytes : Bytes) : encodeLE bytes.length (valueLE bytes) = bytes := by
  induction bytes with
  | nil => rfl
  | cons byte bytes ih =>
    have hlt := byte.toNat_lt
    have hlow : (byte.toNat + 256 * valueLE bytes) % 256 = byte.toNat := by omega
    have hhigh : (byte.toNat + 256 * valueLE bytes) / 256 = valueLE bytes := by omega
    rw [List.length_cons, valueLE, encodeLE, hlow, hhigh, ih, UInt8.ofNat_toNat]

theorem le_valueLE_of_mem {byte : UInt8} {bytes : Bytes} (h : byte ∈ bytes) :
    byte.toNat ≤ valueLE bytes := by
  induction bytes with
  | nil => cases h
  | cons first bytes ih =>
    rw [valueLE]
    rcases List.mem_cons.mp h with rfl | h
    · omega
    · have hle := ih h
      omega

theorem last_le_valueLE {bytes : Bytes} (last : UInt8) (h : bytes ≠ []) :
    256 * last.toNat ≤ valueLE (bytes ++ [last]) := by
  obtain ⟨first, tail, rfl⟩ := List.exists_cons_of_ne_nil h
  have hle : last.toNat ≤ valueLE (tail ++ [last]) := le_valueLE_of_mem (by simp)
  rw [List.cons_append, valueLE]
  omega

theorem decodeLE_append (n value : Nat) (rest : Bytes) (h : value < 256 ^ n) :
    decodeLE n (encodeLE n value ++ rest) = some (value, rest) := by
  have hr := readBytes_append (encodeLE n value) rest
  rw [length_encodeLE] at hr
  simp [decodeLE, hr, valueLE_encodeLE n value h]

theorem decodeLE_eq_some (n : Nat) (input : Bytes) (value : Nat) (rest : Bytes) :
    decodeLE n input = some (value, rest) ↔
      ∃ bytes, bytes.length = n ∧ valueLE bytes = value ∧ input = bytes ++ rest := by
  simp only [decodeLE, Option.bind_eq_bind, Option.bind_eq_some_iff, Option.pure_def,
    Option.some.injEq, Prod.mk.injEq, Prod.exists, readBytes_eq_some]
  constructor
  · intro h
    obtain ⟨bytes, tail, ⟨hlen, hin⟩, hv, rfl⟩ := h
    exact ⟨bytes, hlen, hv, hin⟩
  · intro h
    obtain ⟨bytes, hlen, hv, hin⟩ := h
    exact ⟨bytes, rest, ⟨hlen, hin⟩, hv, rfl⟩

@[simp] theorem decodeU16_append (value : UInt16) (rest : Bytes) :
    decodeU16 (encodeLE 2 value.toNat ++ rest) = some (value, rest) := by
  have hlt := value.toNat_lt
  simp [decodeU16, decodeLE_append 2 value.toNat rest (by omega)]

theorem decodeU16_eq_some {value : UInt16} (h : decodeU16 input = some (value, rest)) :
    input = encodeLE 2 value.toNat ++ rest := by
  simp only [decodeU16, Option.bind_eq_bind, Option.bind_eq_some_iff, Prod.exists,
    decodeLE_eq_some, Option.pure_def, Option.some.injEq, Prod.mk.injEq] at h
  obtain ⟨_, _, ⟨bytes, hlen, rfl, rfl⟩, rfl, rfl⟩ := h
  have hlt : valueLE bytes < 2 ^ 16 := by simpa [hlen] using valueLE_lt bytes
  have hbytes := encodeLE_valueLE bytes
  rw [hlen] at hbytes
  rw [UInt16.toNat_ofNat', Nat.mod_eq_of_lt hlt, hbytes]

theorem decodeU16_eq_none (h : input.length < 2) : decodeU16 input = none := by
  have hshort : ¬ 2 ≤ input.length := by omega
  simp [decodeU16, decodeLE, readBytes, hshort]

@[simp] theorem decodeU64_append (value : UInt64) (rest : Bytes) :
    decodeU64 (encodeLE 8 value.toNat ++ rest) = some (value, rest) := by
  have hlt := value.toNat_lt
  simp [decodeU64, decodeLE_append 8 value.toNat rest (by omega)]

theorem lt_pow_bytesNeeded (value : Nat) : value < 256 ^ bytesNeeded value := by
  have hlog : value < 2 ^ (Nat.log2 value + 1) := Nat.lt_log2_self
  have hle : Nat.log2 value + 1 ≤ 8 * bytesNeeded value := by unfold bytesNeeded; omega
  calc
    value < 2 ^ (Nat.log2 value + 1) := hlog
    _ ≤ 2 ^ (8 * bytesNeeded value) := Nat.pow_le_pow_right (by decide) hle
    _ = 256 ^ bytesNeeded value := by rw [Nat.pow_mul]

theorem bytesNeeded_le (value n : Nat) (hpos : 0 < n) (h : value < 256 ^ n) :
    bytesNeeded value ≤ n := by
  unfold bytesNeeded
  by_cases hz : value = 0
  · subst hz
    simp only [Nat.log2_zero]
    omega
  · have hlog : Nat.log2 value < 8 * n := by
      rw [Nat.log2_lt hz, Nat.pow_mul]
      exact h
    omega

theorem four_le_bytesNeeded (value : Nat) (h : 2 ^ 30 ≤ value) : 4 ≤ bytesNeeded value := by
  have hlog : 30 ≤ Nat.log2 value := (Nat.le_log2 (by omega)).mpr h
  unfold bytesNeeded
  omega

-- The encoder's modes, each with the mode bits the decoder reads back.
theorem decodeCompact_append (width value : Nat) (rest : Bytes) (hw : 4 ≤ width)
    (h : value < 256 ^ width) (hwide : width ≤ 16) :
    decodeCompact width (encodeCompact value ++ rest) = some (value, rest) := by
  unfold encodeCompact
  split_ifs with h6 h14 h30
  · have hb : (UInt8.ofNat (value * 4)).toNat = value * 4 := by
      rw [UInt8.toNat_ofNat']; omega
    have hv : value * 4 / 4 = value := by omega
    simp only [decodeCompact, List.cons_append, List.nil_append, readByte_cons,
      Option.bind_eq_bind, Option.bind_some, hb, hv, Nat.mul_mod_left, Option.pure_def]
  · have hd := decodeLE_append 2 (value * 4 + 1) rest (by omega)
    simp only [encodeLE] at hd ⊢
    have hb : (UInt8.ofNat ((value * 4 + 1) % 256)).toNat % 4 = 1 := by
      rw [UInt8.toNat_ofNat']; omega
    simp only [List.cons_append, List.nil_append] at hd ⊢
    simp only [decodeCompact, readByte_cons, Option.bind_eq_bind, Option.bind_some, hb, hd,
      Option.pure_def, Option.some.injEq, Prod.mk.injEq, and_true]
    omega
  · have hd := decodeLE_append 4 (value * 4 + 2) rest (by omega)
    simp only [encodeLE] at hd ⊢
    have hb : (UInt8.ofNat ((value * 4 + 2) % 256)).toNat % 4 = 2 := by
      rw [UInt8.toNat_ofNat']; omega
    have hv : (value * 4 + 2) / 4 = value := by omega
    have hfit : value < 2 ^ (8 * width) := by rw [Nat.pow_mul]; exact h
    simp only [List.cons_append, List.nil_append] at hd ⊢
    simp only [decodeCompact, readByte_cons, Option.bind_eq_bind, Option.bind_some, hb, hd,
      hv, hfit, ite_true, Option.pure_def]
  · have hmin := four_le_bytesNeeded value (by omega)
    have hmax := bytesNeeded_le value width (by omega) h
    have hb : (UInt8.ofNat ((bytesNeeded value - 4) * 4 + 3)).toNat =
        (bytesNeeded value - 4) * 4 + 3 := by
      rw [UInt8.toNat_ofNat']; omega
    have hmode : ((bytesNeeded value - 4) * 4 + 3) % 4 = 3 := by omega
    have hn : ((bytesNeeded value - 4) * 4 + 3) / 4 + 4 = bytesNeeded value := by omega
    simp only [decodeCompact, List.cons_append, readByte_cons, Option.bind_eq_bind,
      Option.bind_some, hb, hmode, hn, hmax, ite_true]
    exact decodeLE_append _ value rest (lt_pow_bytesNeeded value)

theorem length_encodeCompact_le (value n : Nat) (hpos : 0 < n) (hn : 4 ≤ n)
    (h : value < 256 ^ n) : (encodeCompact value).length ≤ n + 1 := by
  have hmin := bytesNeeded_le value n hpos h
  unfold encodeCompact
  split_ifs <;> simp only [List.length_cons, List.length_nil, length_encodeLE] <;> omega

theorem length_encodeCompact_pos (value : Nat) : 0 < (encodeCompact value).length := by
  unfold encodeCompact
  split_ifs <;> simp

theorem length_encodeCompact_of_lt_6 (value : Nat) (h : value < 2 ^ 6) :
    (encodeCompact value).length = 1 := by
  rw [encodeCompact, if_pos h]
  rfl

theorem length_encodeCompact_of_lt_14 (value : Nat) (h : value < 2 ^ 14) :
    (encodeCompact value).length ≤ 2 := by
  unfold encodeCompact
  split_ifs <;> simp

theorem length_encodeCompact_of_lt_30 (value : Nat) (h : value < 2 ^ 30) :
    (encodeCompact value).length ≤ 4 := by
  unfold encodeCompact
  split_ifs <;> simp

-- The strings that the decoder accepts for a value, one rule for each mode.
inductive CompactBytes (width : Nat) : Bytes → Nat → Prop where
  | one (first : UInt8) : CompactBytes width [first] (first.toNat / 4)
  | two (bytes : Bytes) (hlen : bytes.length = 2) : CompactBytes width bytes (valueLE bytes / 4)
  | four (bytes : Bytes) (hlen : bytes.length = 4) : CompactBytes width bytes (valueLE bytes / 4)
  | big (first : UInt8) (bytes : Bytes) (hmin : 4 ≤ bytes.length) (hmax : bytes.length ≤ width) :
      CompactBytes width (first :: bytes) (valueLE bytes)

theorem compactBytes_of_decodeCompact {width : Nat} {value : Nat}
    (h : decodeCompact width input = some (value, rest)) :
    ∃ consumed, input = consumed ++ rest ∧ CompactBytes width consumed value := by
  cases input with
  | nil => simp [decodeCompact] at h
  | cons first tail =>
    simp only [decodeCompact, readByte_cons, Option.bind_eq_bind, Option.bind_some] at h
    split at h
    · simp only [Option.pure_def, Option.some.injEq, Prod.mk.injEq] at h
      obtain ⟨rfl, rfl⟩ := h
      exact ⟨[first], rfl, .one first⟩
    · simp only [Option.bind_eq_some_iff, Prod.exists, decodeLE_eq_some, Option.pure_def,
        Option.some.injEq, Prod.mk.injEq] at h
      obtain ⟨_, _, ⟨bytes, hlen, rfl, hin⟩, rfl, rfl⟩ := h
      exact ⟨bytes, hin, .two bytes hlen⟩
    · simp only [Option.bind_eq_some_iff, Prod.exists, decodeLE_eq_some] at h
      obtain ⟨_, _, ⟨bytes, hlen, rfl, hin⟩, hif⟩ := h
      split_ifs at hif
      simp only [Option.pure_def, Option.some.injEq, Prod.mk.injEq] at hif
      obtain ⟨rfl, rfl⟩ := hif
      exact ⟨bytes, hin, .four bytes hlen⟩
    · split_ifs at h with hn
      obtain ⟨bytes, hlen, rfl, hin⟩ := (decodeLE_eq_some _ _ _ _).mp h
      exact ⟨first :: bytes, by rw [hin]; rfl, .big first bytes (by omega) (by omega)⟩

namespace CompactBytes

variable {width value : Nat} {consumed : Bytes}

theorem value_lt (h : CompactBytes width consumed value) (hw : 4 ≤ width) : value < 256 ^ width := by
  have hlarge : 256 ^ 4 ≤ 256 ^ width := Nat.pow_le_pow_right (by decide) hw
  cases h with
  | one first =>
    have hfirst := first.toNat_lt
    omega
  | two bytes hlen | four bytes hlen =>
    have hlt := valueLE_lt consumed
    rw [hlen] at hlt
    omega
  | big first bytes hmin hmax =>
    exact (valueLE_lt bytes).trans_le (Nat.pow_le_pow_right (by decide) hmax)

theorem length_encodeCompact (h : CompactBytes width consumed value) :
    (encodeCompact value).length ≤ consumed.length := by
  cases h with
  | one first =>
    have hfirst := first.toNat_lt
    rw [length_encodeCompact_of_lt_6 _ (by omega)]
    simp
  | two bytes hlen =>
    have hlt := valueLE_lt consumed
    rw [hlen] at hlt ⊢
    exact length_encodeCompact_of_lt_14 _ (by omega)
  | four bytes hlen =>
    have hlt := valueLE_lt consumed
    rw [hlen] at hlt ⊢
    exact length_encodeCompact_of_lt_30 _ (by omega)
  | big first bytes hmin hmax =>
    rw [List.length_cons]
    exact length_encodeCompact_le _ _ (by omega) hmin (valueLE_lt bytes)

theorem length_le (h : CompactBytes width consumed value) (hw : 4 ≤ width) :
    consumed.length ≤ width + 1 := by
  cases h with
  | one first => simp
  | two bytes hlen | four bytes hlen => omega
  | big first bytes hmin hmax =>
    rw [List.length_cons]
    omega

theorem last_le {init : Bytes} {last : UInt8} (h : CompactBytes width (init ++ [last]) value)
    (hinit : init ≠ []) : 64 * last.toNat ≤ value := by
  have hlast := last_le_valueLE last hinit
  generalize hbytes : init ++ [last] = bytes at h hlast
  cases h with
  | one first =>
    have hlen := congrArg List.length hbytes
    have hpos := List.length_pos_iff.mpr hinit
    rw [List.length_append, List.length_singleton, List.length_singleton] at hlen
    omega
  | two hlen | four hlen => omega
  | big first bytes hmin hmax =>
    obtain ⟨first', tail, rfl⟩ := List.exists_cons_of_ne_nil hinit
    rw [List.cons_append] at hbytes
    obtain ⟨_, rfl⟩ := List.cons.inj hbytes
    have htail : tail ≠ [] := by
      rintro rfl
      simp at hmin
    have hle := last_le_valueLE last htail
    omega

end CompactBytes

-- Whatever mode was used, the decoder consumed at least the shortest encoding
-- of the value it returns.
theorem decodeCompact_consumed (width : Nat) (input : Bytes) (value : Nat) (rest : Bytes)
    (hw : 4 ≤ width) (h : decodeCompact width input = some (value, rest)) :
    ∃ consumed, input = consumed ++ rest ∧ (encodeCompact value).length ≤ consumed.length ∧
      value < 256 ^ width := by
  obtain ⟨consumed, hin, hbytes⟩ := compactBytes_of_decodeCompact h
  exact ⟨consumed, hin, hbytes.length_encodeCompact, hbytes.value_lt hw⟩

theorem length_of_decodeCompact {width : Nat} {value : Nat} (hw : 4 ≤ width)
    (h : decodeCompact width input = some (value, rest)) :
    rest.length < input.length := by
  obtain ⟨consumed, rfl, hlen, _⟩ := decodeCompact_consumed width input value rest hw h
  have hpos := length_encodeCompact_pos value
  rw [List.length_append]
  omega

@[simp] theorem decodeByteVec_append (vec : ByteVec) (rest : Bytes) :
    decodeByteVec (encodeByteVec vec ++ rest) = some (vec, rest) := by
  have hfits := vec.fits
  have hd := decodeCompact_append 4 vec.bytes.length (vec.bytes ++ rest) (by decide)
    (by omega) (by decide)
  rw [decodeByteVec, encodeByteVec, List.append_assoc, hd]
  simp only [Option.bind_eq_bind, Option.bind_some]
  rw [dif_pos ⟨by simp, hfits⟩]
  simp

theorem decodeByteVec_eq_some (input : Bytes) (vec : ByteVec) (rest : Bytes) :
    decodeByteVec input = some (vec, rest) ↔
      decodeCompact 4 input = some (vec.bytes.length, vec.bytes ++ rest) := by
  simp only [decodeByteVec, Option.bind_eq_bind, Option.bind_eq_some_iff, Prod.exists]
  constructor
  · intro hcase
    obtain ⟨length, tail, hd, h⟩ := hcase
    split_ifs at h with hle
    simp only [Option.pure_def, Option.some.injEq, Prod.mk.injEq] at h
    obtain ⟨rfl, rfl⟩ := h
    simpa [hle.1] using hd
  · intro hd
    refine ⟨_, _, hd, ?_⟩
    rw [dif_pos ⟨by simp, vec.fits⟩]
    simp

end Yeeroot.Scale
