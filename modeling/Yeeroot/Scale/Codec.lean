import Yeeroot.Scale.Lemmas

namespace Yeeroot.Scale

namespace Codec

variable {α β : Type}

def fixed (n : Nat) : Codec (FixedBytes n) where
  encode := Subtype.val
  decode := readFixed n
  decode_append := readFixed_append

def unit : Codec Unit where
  encode _ := []
  decode input := some ((), input)
  decode_append _ _ := rfl

def bool : Codec Bool where
  encode value := [if value then 1 else 0]
  decode input := (readByte input).map fun (byte, rest) => (decide (byte = 1), rest)
  decode_append value rest := by cases value <;> simp

def prod (first : Codec α) (second : Codec β) : Codec (α × β) where
  encode pair := first.encode pair.1 ++ second.encode pair.2
  decode input := (first.decode input).bind fun (a, rest) =>
    (second.decode rest).map fun (b, rest) => ((a, b), rest)
  decode_append pair rest := by
    simp [List.append_assoc, first.decode_append, second.decode_append]

def map (codec : Codec α) (f : α → β) (g : β → α) (hfg : ∀ b, f (g b) = b) : Codec β where
  encode b := codec.encode (g b)
  decode input := (codec.decode input).map fun (a, rest) => (f a, rest)
  decode_append b rest := by simp [codec.decode_append, hfg]

theorem decodeOption_append (codec : Codec α) (value : Option α) (rest : Bytes) :
    decodeOption codec.decode (encodeOption codec.encode value ++ rest) = some (value, rest) := by
  cases value <;> simp [decodeOption, encodeOption, codec.decode_append]

theorem decodeItems_append (codec : Codec α) (items : List α) (rest : Bytes) :
    decodeItems codec.decode items.length (items.flatMap codec.encode ++ rest) =
      some (items, rest) := by
  induction items with
  | nil => simp [decodeItems]
  | cons item items ih => simp [decodeItems, codec.decode_append, ih]

theorem decodeVec_append (codec : Codec α) (items : List α) (rest : Bytes)
    (h : items.length < 2 ^ 32) :
    decodeVec codec.decode (encodeVec codec.encode items ++ rest) = some (items, rest) := by
  have hlength := decodeCompact_append 4 items.length (items.flatMap codec.encode ++ rest)
    (by decide) (by omega) (by decide)
  rw [decodeVec, encodeVec, List.append_assoc, hlength]
  exact codec.decodeItems_append items rest

-- Every item follows a one, and a zero ends the list.
def encodeList (codec : Codec α) : List α → Bytes
  | [] => [0]
  | item :: items => 1 :: (codec.encode item ++ encodeList codec items)

def decodeList (codec : Codec α) : Nat → Bytes → Option (List α × Bytes)
  | 0, _ => none
  | fuel + 1, input => do
    let (more, input) ← readByte input
    if more = 0 then return ([], input)
    else do
      let (item, input) ← codec.decode input
      let (items, input) ← decodeList codec fuel input
      return (item :: items, input)

theorem length_lt_encodeList (codec : Codec α) (items : List α) :
    items.length < (codec.encodeList items).length := by
  induction items with
  | nil => simp [encodeList]
  | cons item items ih =>
    simp only [encodeList, List.length_cons, List.length_append]
    omega

theorem length_encodeList (codec : Codec α) {n : Nat} (h : ∀ item, (codec.encode item).length = n)
    (items : List α) : (codec.encodeList items).length = items.length * (n + 1) + 1 := by
  induction items with
  | nil => simp [encodeList]
  | cons item items ih =>
    simp only [encodeList, List.length_cons, List.length_append, h item, ih, Nat.add_mul]
    omega

theorem decodeList_append (codec : Codec α) (items : List α) (rest : Bytes) (fuel : Nat)
    (hfuel : items.length < fuel) :
    codec.decodeList fuel (codec.encodeList items ++ rest) = some (items, rest) := by
  induction items generalizing fuel with
  | nil =>
    obtain ⟨fuel, rfl⟩ := Nat.exists_eq_succ_of_ne_zero (by omega : fuel ≠ 0)
    simp [decodeList, encodeList]
  | cons item items ih =>
    obtain ⟨fuel, rfl⟩ := Nat.exists_eq_succ_of_ne_zero (by omega : fuel ≠ 0)
    have htail := ih fuel (by simpa using hfuel)
    simp [decodeList, encodeList, codec.decode_append, htail]

def list (codec : Codec α) : Codec (List α) where
  encode := codec.encodeList
  decode input := codec.decodeList input.length input
  decode_append items rest := by
    apply codec.decodeList_append
    have hlen := codec.length_lt_encodeList items
    rw [List.length_append]
    omega

def option (codec : Codec α) : Codec (Option α) where
  encode := encodeOption codec.encode
  decode := decodeOption codec.decode
  decode_append := codec.decodeOption_append

def nat : Codec Nat := unit.list.map List.length (fun n => List.replicate n ()) (by simp)

end Codec

end Yeeroot.Scale
