import Yeeroot.Pow.Seal
import Yeeroot.Scale.BigEndian

namespace Yeeroot.Rpc

open Scale Yeeroot.Pow

-- `io::ErrorKind`, as far as it is used.
inductive ErrorKind where
  | invalidInput
  deriving DecidableEq

class SerdeHex (α : Type) where
  intoBytes : α → Except ErrorKind Bytes
  fromBytes : Bytes → Run (Except ErrorKind α)

-- A `usize` that falls below zero panics here, or is out of bounds where it is used.
def subUsize (a b : Nat) : Run Nat :=
  if b ≤ a then .ok (a - b) else .error ⟨"attempt to subtract with overflow"⟩

def setByte (bytes : Bytes) (j : Nat) (byte : UInt8) : Run Bytes :=
  if j < bytes.length then .ok (bytes.set j byte)
  else .error ⟨s!"index out of bounds: the len is {bytes.length} but the index is {j}"⟩

def getByte (bytes : Bytes) (j : Nat) : Run UInt8 :=
  Run.expect bytes[j]? s!"index out of bounds: the len is {bytes.length} but the index is {j}"

-- The body of the loop in `from_bytes`: byte `i` from the right.
def alignByte (size : Nat) (src : Bytes) (bytes : Bytes) (i : Nat) : Run Bytes := do
  let j ← subUsize size i
  let j ← subUsize j 1
  let k ← subUsize src.length i
  let k ← subUsize k 1
  let byte ← getByte src k
  setByte bytes j byte

-- `from_bytes` of the integers, with `from_be_bytes` of the type.
def fromBytesOf {α : Type} (size : Nat) (fromBeBytes : Bytes → α) (src : Bytes) :
    Run (Except ErrorKind α) :=
  if size < src.length then .ok (.error .invalidInput)
  else do
    let bytes ← (List.range src.length).foldlM (alignByte size src) (List.replicate size 0)
    return .ok (fromBeBytes bytes)

instance : SerdeHex UInt64 where
  intoBytes value := .ok (encodeBE 8 value.toNat)
  fromBytes := fromBytesOf 8 fun bytes => UInt64.ofNat (valueBE bytes)

instance : SerdeHex UInt32 where
  intoBytes value := .ok (encodeBE 4 value.toNat)
  fromBytes := fromBytesOf 4 fun bytes => UInt32.ofNat (valueBE bytes)

instance : SerdeHex UInt16 where
  intoBytes value := .ok (encodeBE 2 value.toNat)
  fromBytes := fromBytesOf 2 fun bytes => UInt16.ofNat (valueBE bytes)

-- `copy_from_slice` asks for equal lengths.
instance : SerdeHex ExtraData where
  intoBytes data := .ok data.val
  fromBytes src :=
    if h : src.length = 40 then .ok (.ok ⟨src, h⟩)
    else .error ⟨"destination and source slices have different lengths"⟩

section Loop

variable {size : Nat} {src : Bytes}

-- The bytes after some turns of the loop: the end of the source behind zeros.
def aligned (size : Nat) (src : Bytes) (turns : Nat) : Bytes :=
  List.replicate (size - turns) 0 ++ src.drop (src.length - turns)

theorem alignByte_aligned {i : Nat} (hi : i < src.length) (hsize : src.length ≤ size) :
    alignByte size src (aligned size src i) i = .ok (aligned size src (i + 1)) := by
  have hget : src[src.length - i - 1]? = some src[src.length - i - 1] :=
    List.getElem?_eq_getElem (by omega)
  have hlength : (aligned size src i).length = size := by
    simp only [aligned, List.length_append, List.length_replicate, List.length_drop]
    omega
  have hset : (aligned size src i).set (size - i - 1) src[src.length - i - 1] =
      aligned size src (i + 1) := by
    have hzeros : List.replicate (size - i) (0 : UInt8) =
        List.replicate (size - (i + 1)) 0 ++ [0] := by
      rw [← List.replicate_succ']
      congr 1
      omega
    have hdrop : src.drop (src.length - (i + 1)) =
        src[src.length - i - 1] :: src.drop (src.length - i) := by
      have hindex : src.length - (i + 1) = src.length - i - 1 := by omega
      have hnext : src.length - i = src.length - i - 1 + 1 := by omega
      rw [hindex, List.drop_eq_getElem_cons (by omega), ← hnext]
    have hplace : size - i - 1 = (List.replicate (size - (i + 1)) (0 : UInt8)).length := by
      rw [List.length_replicate]
      omega
    rw [aligned, aligned, hzeros, hdrop, hplace, List.append_assoc,
      List.set_append_right _ _ (by simp)]
    simp
  have hj : subUsize size i = .ok (size - i) := if_pos (by omega)
  have hj' : subUsize (size - i) 1 = .ok (size - i - 1) := if_pos (by omega)
  have hk : subUsize src.length i = .ok (src.length - i) := if_pos (by omega)
  have hk' : subUsize (src.length - i) 1 = .ok (src.length - i - 1) := if_pos (by omega)
  have hbyte : getByte src (src.length - i - 1) = .ok src[src.length - i - 1] := by
    rw [getByte, hget]
    rfl
  have hwritten : setByte (aligned size src i) (size - i - 1) src[src.length - i - 1] =
      .ok (aligned size src (i + 1)) := by
    rw [setByte, if_pos (by omega), hset]
  simp only [alignByte, hj, hj', hk, hk', hbyte, hwritten, bind, Except.bind]

-- The invariant carries the loop to any turn.
theorem foldlM_alignByte (hsize : src.length ≤ size) (turns : Nat) (hturns : turns ≤ src.length) :
    (List.range turns).foldlM (alignByte size src) (List.replicate size 0) =
      .ok (aligned size src turns) := by
  induction turns with
  | zero =>
    simp only [List.range_zero, List.foldlM_nil, aligned, Nat.sub_zero, List.drop_length,
      List.append_nil]
    rfl
  | succ turns ih =>
    have hstep := alignByte_aligned (show turns < src.length by omega) hsize
    rw [List.range_succ, List.foldlM_append, ih (by omega)]
    simp only [List.foldlM_cons, List.foldlM_nil, bind, Except.bind, hstep]
    rfl

theorem fromBytesOf_of_le {α : Type} (fromBeBytes : Bytes → α) (hsize : src.length ≤ size) :
    fromBytesOf size fromBeBytes src =
      .ok (.ok (fromBeBytes (List.replicate (size - src.length) 0 ++ src))) := by
  rw [fromBytesOf, if_neg (by omega), foldlM_alignByte hsize src.length le_rfl]
  simp only [aligned, Nat.sub_self, List.drop_zero]
  rfl

end Loop

theorem fromBytesOf_drop {α : Type} {size value : Nat} (fromNat : Nat → α)
    (hvalue : value < 256 ^ size) {k : Nat}
    (hzeros : ∀ byte ∈ (encodeBE size value).take k, byte = 0) :
    fromBytesOf size (fun bytes => fromNat (valueBE bytes)) ((encodeBE size value).drop k) =
      .ok (.ok (fromNat value)) := by
  have hlength : ((encodeBE size value).drop k).length ≤ size := by
    rw [List.length_drop, length_encodeBE]
    omega
  have hpadding : ∀ byte ∈ List.replicate (size - ((encodeBE size value).drop k).length)
      (0 : UInt8), byte = 0 := by
    intro byte hbyte
    exact List.eq_of_mem_replicate hbyte
  have hrest : valueBE ((encodeBE size value).drop k) = value := by
    rw [← valueBE_zeros_append hzeros, List.take_append_drop, valueBE_encodeBE size value hvalue]
  rw [fromBytesOf_of_le _ hlength, valueBE_zeros_append hpadding, hrest]

def RoundTrips (α : Type) [SerdeHex α] : Prop :=
  ∀ value : α, ∃ bytes, SerdeHex.intoBytes value = .ok bytes ∧
    SerdeHex.fromBytes bytes = .ok (.ok value)

-- Leading zeros may be left out, any number of them.
def ReadsShort (α : Type) [SerdeHex α] : Prop :=
  ∀ (value : α) (bytes : Bytes), SerdeHex.intoBytes value = .ok bytes →
    ∀ k, (∀ byte ∈ bytes.take k, byte = 0) → SerdeHex.fromBytes (bytes.drop k) = .ok (.ok value)

def Refuses (α : Type) [SerdeHex α] (src : Bytes) : Prop :=
  ∃ kind, (SerdeHex.fromBytes src : Run (Except ErrorKind α)) = .ok (.error kind)

theorem ReadsShort.roundTrips {α : Type} [SerdeHex α] (h : ReadsShort α)
    (hwrites : ∀ value : α, ∃ bytes, SerdeHex.intoBytes value = .ok bytes) : RoundTrips α := by
  intro value
  obtain ⟨bytes, hbytes⟩ := hwrites value
  exact ⟨bytes, hbytes, h value bytes hbytes 0 (by simp)⟩

theorem fromBytesOf_refuses {α : Type} {size : Nat} {src : Bytes} (fromBeBytes : Bytes → α)
    (h : size < src.length) :
    fromBytesOf size fromBeBytes src = .ok (.error .invalidInput) := by
  rw [fromBytesOf, if_pos h]

theorem readsShort_of {α : Type} [SerdeHex α] {size : Nat} {toNat : α → Nat} {ofNat : Nat → α}
    (hwrites : ∀ value, SerdeHex.intoBytes value = .ok (encodeBE size (toNat value)))
    (hreads : SerdeHex.fromBytes = fromBytesOf size fun bytes => ofNat (valueBE bytes))
    (hlt : ∀ value, toNat value < 256 ^ size) (hinverse : ∀ value, ofNat (toNat value) = value) :
    ReadsShort α := by
  intro value bytes hbytes k hzeros
  obtain rfl := Except.ok.inj ((hwrites value).symm.trans hbytes)
  rw [hreads, fromBytesOf_drop ofNat (hlt value) hzeros, hinverse]

theorem readsShort_uInt64 : ReadsShort UInt64 :=
  readsShort_of (fun _ => rfl) rfl UInt64.toNat_lt fun _ => UInt64.ofNat_toNat

theorem readsShort_uInt32 : ReadsShort UInt32 :=
  readsShort_of (fun _ => rfl) rfl UInt32.toNat_lt fun _ => UInt32.ofNat_toNat

theorem readsShort_uInt16 : ReadsShort UInt16 :=
  readsShort_of (fun _ => rfl) rfl UInt16.toNat_lt fun _ => UInt16.ofNat_toNat

theorem fromBytes_extraData (data : ExtraData) :
    SerdeHex.fromBytes data.val = .ok (.ok data) := by
  obtain ⟨bytes, hlength⟩ := data
  exact dif_pos hlength

theorem not_refuses_extraData (src : Bytes) : ¬ Refuses ExtraData src := by
  rintro ⟨kind, hkind⟩
  by_cases h : src.length = 40
  · have hread := fromBytes_extraData ⟨src, h⟩
    simp only at hread
    rw [hread] at hkind
    cases hkind
  · simp only [SerdeHex.fromBytes, dif_neg h] at hkind
    cases hkind

-- The integers read every acceptable length and refuse the others. `ExtraData` panics on
-- every length but its own.
theorem hex_codec_iff (src : Bytes) :
    (RoundTrips UInt64 ∧ RoundTrips UInt32 ∧ RoundTrips UInt16 ∧ RoundTrips ExtraData) ∧
    (ReadsShort UInt64 ∧ ReadsShort UInt32 ∧ ReadsShort UInt16) ∧
    ((8 < src.length → Refuses UInt64 src) ∧ (4 < src.length → Refuses UInt32 src) ∧
      (2 < src.length → Refuses UInt16 src)) ∧
    ((src.length ≠ 40 → Refuses ExtraData src) ↔ src.length = 40) := by
  refine ⟨⟨?_, ?_, ?_, ?_⟩, ⟨readsShort_uInt64, readsShort_uInt32, readsShort_uInt16⟩,
    ⟨fun h => ?_, fun h => ?_, fun h => ?_⟩, ?_⟩
  · exact readsShort_uInt64.roundTrips fun value => ⟨_, rfl⟩
  · exact readsShort_uInt32.roundTrips fun value => ⟨_, rfl⟩
  · exact readsShort_uInt16.roundTrips fun value => ⟨_, rfl⟩
  · intro data
    exact ⟨data.val, rfl, fromBytes_extraData data⟩
  · exact ⟨.invalidInput, fromBytesOf_refuses _ h⟩
  · exact ⟨.invalidInput, fromBytesOf_refuses _ h⟩
  · exact ⟨.invalidInput, fromBytesOf_refuses _ h⟩
  · constructor
    · intro h
      by_contra hlength
      exact not_refuses_extraData src (h hlength)
    · intro hlength hne
      exact absurd hlength hne

-- The bytes of `"0x"`.
theorem extraData_panics :
    ([] : Bytes).length ≠ 40 ∧ ¬ Refuses ExtraData [] ∧
    (SerdeHex.fromBytes [] : Run (Except ErrorKind ExtraData)) =
      .error ⟨"destination and source slices have different lengths"⟩ :=
  ⟨by decide, not_refuses_extraData [], rfl⟩

end Yeeroot.Rpc
