import Mathlib.Data.List.FinRange
import Yeeroot.Bech32

namespace Yeeroot.Bech32.Reference

open Scale

-- A bech32 whose checksums are recomputed when they are verified.
inductive Error where
  | missingSeparator
  | invalidChecksum
  | invalidLength
  | invalidChar
  | invalidPadding
  | mixedCase
  deriving DecidableEq

section Digits

def charset : List Char :=
  ['q', 'p', 'z', 'r', 'y', '9', 'x', '8', 'g', 'f', '2', 't', 'v', 'd', 'w', '0',
    's', '3', 'j', 'n', '5', '4', 'k', 'h', 'c', 'e', '6', 'm', 'u', 'a', '7', 'l']

def charOf (digit : Fin 32) : Char := charset.getD digit.val 'q'

def digitOf (c : Char) : Option (Fin 32) := (List.finRange 32).find? fun digit => charOf digit = c

theorem digitOf_charOf (digit : Fin 32) : digitOf (charOf digit) = some digit := by
  revert digit
  decide

theorem charOf_of_digitOf {c : Char} {digit : Fin 32} (h : digitOf c = some digit) :
    charOf digit = c := by
  have hfound := List.find?_some h
  simpa using hfound

theorem charOf_ne_separator (digit : Fin 32) : charOf digit ≠ '1' := by
  revert digit
  decide

theorem toLower_charOf (digit : Fin 32) : (charOf digit).toLower = charOf digit := by
  revert digit
  decide

theorem mapM_digitOf (data : List (Fin 32)) : (data.map charOf).mapM digitOf = some data := by
  induction data with
  | nil => rfl
  | cons digit data ih => simp [digitOf_charOf, ih]

theorem map_charOf_of_mapM {text : Text} {data : List (Fin 32)}
    (h : text.mapM digitOf = some data) : data.map charOf = text := by
  induction text generalizing data with
  | nil =>
    simp at h
    simp [← h]
  | cons c text ih =>
    simp only [List.mapM_cons, Option.bind_eq_bind, Option.bind_eq_some_iff] at h
    obtain ⟨digit, hdigit, digits, hdigits, h⟩ := h
    obtain rfl := Option.some.inj h
    rw [List.map_cons, charOf_of_digitOf hdigit, ih hdigits]

end Digits

section Checksum

def generators : List Nat := [0x3b6a57b2, 0x26508e6d, 0x1ea119fa, 0x3d4233dd, 0x2a1462b3]

def polymodStep (chk value : Nat) : Nat :=
  let top := chk >>> 25
  generators.zipIdx.foldl (fun chk (generator, i) => if top.testBit i then chk ^^^ generator else chk)
    (((chk &&& 0x1ffffff) <<< 5) ^^^ value)

def expandHrp (hrp : Text) : List Nat :=
  hrp.map (fun c => c.toNat >>> 5) ++ 0 :: hrp.map fun c => c.toNat &&& 31

def checksum (hrp : Text) (data : List (Fin 32)) : List (Fin 32) :=
  let polymod := (expandHrp hrp ++ data.map Fin.val ++ List.replicate 6 0).foldl polymodStep 1 ^^^ 1
  (List.range 6).map fun i => Fin.ofNat 32 (polymod >>> (5 * (5 - i)))

theorem length_checksum (hrp : Text) (data : List (Fin 32)) : (checksum hrp data).length = 6 := by
  simp [checksum]

end Checksum

section Text

def validHrp (hrp : Text) : Bool :=
  hrp ≠ [] && hrp.length ≤ 83 && (hrp.all fun c => 33 ≤ c.toNat && c.toNat ≤ 126) &&
    Text.toLower hrp = hrp

def write (hrp : Text) (digits : List (Fin 32)) : Text := hrp ++ '1' :: digits.map charOf

def encode (hrp : Text) (data : List (Fin 32)) : Except Error Text :=
  if validHrp hrp then .ok (write hrp (data ++ checksum hrp data)) else .error .invalidChar

-- The digits after the last separator, with their checksum.
def decodeDigits (hrp : Text) (digits : List (Fin 32)) : Except Error (Text × List (Fin 32)) :=
  let data := digits.take (digits.length - 6)
  if digits = data ++ checksum hrp data then .ok (hrp, data) else .error .invalidChecksum

def decode (text : Text) : Except Error (Text × List (Fin 32)) :=
  let low := Text.toLower text
  if text.length < 8 then .error .invalidLength
  else if text ≠ low ∧ text ≠ text.map Char.toUpper then .error .mixedCase
  else
    match low.reverse.dropWhile (· ≠ '1') with
    | [] => .error .missingSeparator
    | _ :: hrp =>
      if validHrp hrp.reverse then
        match (low.reverse.takeWhile (· ≠ '1')).reverse.mapM digitOf with
        | none => .error .invalidChar
        | some digits => decodeDigits hrp.reverse digits
      else .error .invalidChar

theorem validHrp_iff {hrp : Text} : validHrp hrp = true ↔ hrp ≠ [] ∧ hrp.length ≤ 83 ∧
    (∀ c ∈ hrp, 33 ≤ c.toNat ∧ c.toNat ≤ 126) ∧ Text.toLower hrp = hrp := by
  simp [validHrp, and_assoc]

theorem validHrp_of_isLower {hrp : Text} (hne : hrp ≠ []) (hlength : hrp.length ≤ 83)
    (hlower : ∀ c ∈ hrp, c.isLower = true) : validHrp hrp = true := by
  have hrange : ∀ c ∈ hrp, 97 ≤ c.toNat ∧ c.toNat ≤ 122 := by
    intro c hc
    obtain ⟨hle, hge⟩ := (Bool.and_eq_true _ _).mp (hlower c hc)
    exact ⟨of_decide_eq_true hle, of_decide_eq_true hge⟩
  refine validHrp_iff.mpr ⟨hne, hlength, fun c hc => ?_, ?_⟩
  · have h := hrange c hc
    omega
  · rw [Text.toLower]
    conv_rhs => rw [← List.map_id hrp]
    apply List.map_congr_left
    intro c hc
    have h := hrange c hc
    have hupper : ¬ (c.val ≥ 'A'.val ∧ c.val ≤ 'Z'.val) := by
      rintro ⟨_, hle⟩
      have hle' : c.toNat ≤ 90 := UInt32.le_iff_toNat_le.mp hle
      omega
    exact dif_neg hupper

theorem toLower_write {hrp : Text} (h : Text.toLower hrp = hrp) (digits : List (Fin 32)) :
    Text.toLower (write hrp digits) = write hrp digits := by
  have hdigits : (digits.map charOf).map Char.toLower = digits.map charOf := by
    rw [List.map_map]
    apply List.map_congr_left
    intro digit _
    exact toLower_charOf digit
  rw [Text.toLower] at h ⊢
  rw [write, List.map_append, h, List.map_cons, hdigits]
  rfl

theorem split_write (hrp : Text) (digits : List (Fin 32)) :
    (write hrp digits).reverse.dropWhile (· ≠ '1') = '1' :: hrp.reverse ∧
    (write hrp digits).reverse.takeWhile (· ≠ '1') = (digits.map charOf).reverse := by
  have hdigits : ∀ c ∈ (digits.map charOf).reverse, decide (c ≠ '1') = true := by
    intro c hc
    obtain ⟨digit, _, rfl⟩ := List.mem_map.mp (List.mem_reverse.mp hc)
    exact decide_eq_true (charOf_ne_separator digit)
  have htext : (write hrp digits).reverse = (digits.map charOf).reverse ++ '1' :: hrp.reverse := by
    simp [write]
  rw [htext, List.dropWhile_append_of_pos hdigits, List.takeWhile_append_of_pos hdigits]
  constructor <;> simp

theorem decode_encode {hrp text : Text} {data : List (Fin 32)} (h : encode hrp data = .ok text) :
    decode text = .ok (Text.toLower hrp, data) := by
  unfold encode at h
  split_ifs at h with hvalid
  obtain rfl := Except.ok.inj h
  obtain ⟨hne, _, _, hlower⟩ := validHrp_iff.mp hvalid
  obtain ⟨hdrop, htake⟩ := split_write hrp (data ++ checksum hrp data)
  have hlength : ¬ (write hrp (data ++ checksum hrp data)).length < 8 := by
    have hpos := List.length_pos_iff.mpr hne
    simp only [write, List.length_append, List.length_cons, List.length_map, length_checksum]
    omega
  have hdigits : decodeDigits hrp (data ++ checksum hrp data) = .ok (hrp, data) := by
    have htaken : (data ++ checksum hrp data).take ((data ++ checksum hrp data).length - 6) =
        data := by
      rw [List.length_append, length_checksum, Nat.add_sub_cancel, List.take_left]
    rw [decodeDigits, htaken, if_pos rfl]
  unfold decode
  rw [toLower_write hlower, if_neg hlength, if_neg (by simp), hdrop, htake, hlower]
  simp only [List.reverse_reverse, hvalid, if_true, mapM_digitOf, hdigits]

theorem encode_decode {text hrp : Text} {data : List (Fin 32)}
    (h : decode text = .ok (hrp, data)) : encode hrp data = .ok (Text.toLower text) := by
  simp only [decode] at h
  split_ifs at h
  have hsplit := List.takeWhile_append_dropWhile (p := (· ≠ '1')) (l := (Text.toLower text).reverse)
  cases hdrop : (Text.toLower text).reverse.dropWhile (· ≠ '1') with
  | nil =>
    rw [hdrop] at h
    cases h
  | cons c rest =>
    have hc : c = '1' := by
      have hhead := List.head?_dropWhile_not (· ≠ '1') (Text.toLower text).reverse
      rw [hdrop] at hhead
      simpa using hhead
    simp only [hdrop] at h
    split_ifs at h with hvalid
    cases hdigits : ((Text.toLower text).reverse.takeWhile (· ≠ '1')).reverse.mapM digitOf with
    | none =>
      rw [hdigits] at h
      cases h
    | some digits =>
      simp only [hdigits, decodeDigits] at h
      split_ifs at h with hsum
      obtain ⟨rfl, rfl⟩ := Prod.mk.inj (Except.ok.inj h)
      have hlow : Text.toLower text = write rest.reverse digits := by
        rw [← List.reverse_reverse (Text.toLower text), ← hsplit, hdrop, hc,
          List.reverse_append, List.reverse_cons, List.append_assoc,
          ← map_charOf_of_mapM hdigits]
        rfl
      rw [encode, if_pos hvalid, ← hsum, hlow]

end Text

section Bits

def bitsOfByte (byte : UInt8) : List Bool := (List.range 8).map fun i => byte.toNat.testBit (7 - i)

def bitsOfDigit (digit : Fin 32) : List Bool := (List.range 5).map fun i => digit.val.testBit (4 - i)

def valueOfBits (bits : List Bool) : Nat := bits.foldl (fun value bit => 2 * value + bit.toNat) 0

-- The last digit is filled up with zeros.
def digitsOfBits : List Bool → List (Fin 32)
  | [] => []
  | a :: b :: c :: d :: e :: bits => Fin.ofNat 32 (valueOfBits [a, b, c, d, e]) :: digitsOfBits bits
  | bits => [Fin.ofNat 32 (valueOfBits (bits ++ List.replicate (5 - bits.length) false))]

-- What is left of the last byte is dropped.
def bytesOfBits : List Bool → Bytes
  | a :: b :: c :: d :: e :: f :: g :: h :: bits =>
    UInt8.ofNat (valueOfBits [a, b, c, d, e, f, g, h]) :: bytesOfBits bits
  | _ => []

def toBase32 (bytes : Bytes) : List (Fin 32) := digitsOfBits (bytes.flatMap bitsOfByte)

-- The digits must be those of the bytes, with nothing in the padding.
def fromBase32 (data : List (Fin 32)) : Except Error Bytes :=
  let bytes := bytesOfBits (data.flatMap bitsOfDigit)
  if toBase32 bytes = data then .ok bytes else .error .invalidPadding

theorem ofBits_byte (byte : UInt8) (rest : List Bool) :
    bytesOfBits (bitsOfByte byte ++ rest) = byte :: bytesOfBits rest := by
  have hbyte : ∀ n < 256, valueOfBits ((List.range 8).map fun i => Nat.testBit n (7 - i)) = n := by
    decide +kernel
  have hvalue := hbyte byte.toNat byte.toNat_lt
  simp only [List.range, List.range.loop, List.map_cons, List.map_nil] at hvalue
  simp only [bitsOfByte, List.range, List.range.loop, List.map_cons, List.map_nil,
    List.cons_append, List.nil_append, bytesOfBits, hvalue, UInt8.ofNat_toNat]

theorem bytesOfBits_flatMap (bytes : Bytes) {rest : List Bool} (h : rest.length < 8) :
    bytesOfBits (bytes.flatMap bitsOfByte ++ rest) = bytes := by
  induction bytes with
  | nil =>
    match rest, h with
    | [], _ | [_], _ | [_, _], _ | [_, _, _], _ | [_, _, _, _], _ | [_, _, _, _, _], _
    | [_, _, _, _, _, _], _ | [_, _, _, _, _, _, _], _ => rfl
  | cons byte bytes ih => rw [List.flatMap_cons, List.append_assoc, ofBits_byte, ih]

theorem bitsOfDigit_valueOfBits (a b c d e : Bool) :
    bitsOfDigit (Fin.ofNat 32 (valueOfBits [a, b, c, d, e])) = [a, b, c, d, e] := by
  revert a b c d e
  decide

theorem flatMap_digitsOfBits (bits : List Bool) :
    ∃ padding, padding.length < 5 ∧ (digitsOfBits bits).flatMap bitsOfDigit = bits ++ padding := by
  fun_induction digitsOfBits bits with
  | case1 => exact ⟨[], by simp, rfl⟩
  | case2 a b c d e bits ih =>
    obtain ⟨padding, hlength, hbits⟩ := ih
    refine ⟨padding, hlength, ?_⟩
    rw [List.flatMap_cons, bitsOfDigit_valueOfBits, hbits]
    rfl
  | case3 bits hne hshort =>
    refine ⟨List.replicate (5 - bits.length) false, ?_, ?_⟩
    · have hpos := List.length_pos_iff.mpr hne
      rw [List.length_replicate]
      omega
    · match bits, hne, hshort with
      | [a], _, _ => exact bitsOfDigit_valueOfBits a false false false false
      | [a, b], _, _ => exact bitsOfDigit_valueOfBits a b false false false
      | [a, b, c], _, _ => exact bitsOfDigit_valueOfBits a b c false false
      | [a, b, c, d], _, _ => exact bitsOfDigit_valueOfBits a b c d false
      | a :: b :: c :: d :: e :: bits, _, hshort => exact absurd rfl (hshort a b c d e bits)

theorem fromBase32_toBase32 (bytes : Bytes) : fromBase32 (toBase32 bytes) = .ok bytes := by
  obtain ⟨padding, hlength, hbits⟩ := flatMap_digitsOfBits (bytes.flatMap bitsOfByte)
  have hbytes : bytesOfBits ((toBase32 bytes).flatMap bitsOfDigit) = bytes := by
    rw [toBase32, hbits, bytesOfBits_flatMap bytes (by omega)]
  rw [fromBase32, hbytes, if_pos rfl]

theorem toBase32_fromBase32 {data : List (Fin 32)} {bytes : Bytes}
    (h : fromBase32 data = .ok bytes) : toBase32 bytes = data := by
  simp only [fromBase32] at h
  split_ifs at h with hdata
  obtain rfl := Except.ok.inj h
  exact hdata

end Bits

def bech32 : Bech32 Error := ⟨encode, decode, toBase32, fromBase32⟩

theorem documented : bech32.Documented where
  encodes _ _ hne hlength hlower :=
    ⟨_, if_pos (validHrp_of_isLower hne hlength hlower)⟩
  decode_encode := decode_encode
  encode_decode := encode_decode
  fromBase32_toBase32 := fromBase32_toBase32
  toBase32_fromBase32 := toBase32_fromBase32

end Yeeroot.Bech32.Reference
