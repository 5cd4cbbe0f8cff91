import Yeeroot.Scale

namespace Yeeroot

open Scale

-- A string, by its characters.
abbrev Text := List Char

def Text.toLower (text : Text) : Text := text.map Char.toLower

-- What is used of a bech32 library. The data part is made of digits of five bits.
structure Bech32 (ε : Type) where
  encode : Text → List (Fin 32) → Except ε Text
  decode : Text → Except ε (Text × List (Fin 32))
  toBase32 : Bytes → List (Fin 32)
  fromBase32 : List (Fin 32) → Except ε Bytes

namespace Bech32

variable {ε : Type}

-- Encoding and decoding are inverse to each other, up to the letter case of what is decoded.
structure Documented (bech32 : Bech32 ε) : Prop where
  encodes : ∀ hrp data, hrp ≠ [] → hrp.length ≤ 83 → (∀ c ∈ hrp, c.isLower = true) →
    ∃ text, bech32.encode hrp data = .ok text
  decode_encode : ∀ {hrp data text}, bech32.encode hrp data = .ok text →
    bech32.decode text = .ok (Text.toLower hrp, data)
  encode_decode : ∀ {text hrp data}, bech32.decode text = .ok (hrp, data) →
    bech32.encode hrp data = .ok (Text.toLower text)
  fromBase32_toBase32 : ∀ bytes, bech32.fromBase32 (bech32.toBase32 bytes) = .ok bytes
  toBase32_fromBase32 : ∀ {data bytes}, bech32.fromBase32 data = .ok bytes →
    bech32.toBase32 bytes = data

end Bech32

end Yeeroot
