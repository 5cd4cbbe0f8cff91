import Yeeroot.Bech32.Reference
import Yeeroot.Primitives.Lemmas

namespace Yeeroot

open Scale

namespace Hrp

def YEE : Text := ['y', 'e', 'e']

def TYEE : Text := ['t', 'y', 'e', 'e']

def text : Hrp → Text
  | .mainnet => YEE
  | .testnet => TYEE

def ofText (text : Text) : Run Hrp :=
  if text = YEE then .ok .mainnet
  else if text = TYEE then .ok .testnet
  else .error ⟨"internal error: entered unreachable code"⟩

theorem ofText_text (hrp : Hrp) : ofText hrp.text = .ok hrp := by
  cases hrp <;> rfl

theorem toLower_text (hrp : Hrp) : Text.toLower hrp.text = hrp.text := by
  cases hrp <;> decide

theorem ofText_eq_ok {text : Text} {hrp : Hrp} : ofText text = .ok hrp ↔ text = hrp.text := by
  constructor
  · intro h
    unfold ofText at h
    split_ifs at h with hyee htyee
    · obtain rfl := Except.ok.inj h
      exact hyee
    · obtain rfl := Except.ok.inj h
      exact htyee
  · rintro rfl
    exact ofText_text hrp

end Hrp

namespace AddressCodec

structure Address where
  text : Text
  deriving DecidableEq

section Codec

variable {ε : Type} (bech32 : Bech32 ε)

-- For an array of `n` bytes. The copy asks for as many bytes, and comes before the prefix is
-- looked at.
def fromAddress (n : Nat) (address : Address) : Run (Except ε (FixedBytes n × Hrp)) :=
  match bech32.decode address.text with
  | .error error => .ok (.error error)
  | .ok (hrpText, data) =>
    match bech32.fromBase32 data with
    | .error error => .ok (.error error)
    | .ok buf =>
      if h : buf.length = n then do
        let hrp ← Hrp.ofText hrpText
        return .ok (⟨buf, h⟩, hrp)
      else .error ⟨"destination and source slices have different lengths"⟩

def toAddress {n : Nat} (bytes : FixedBytes n) (hrp : Hrp) : Except ε Address :=
  (bech32.encode hrp.text (bech32.toBase32 bytes.val)).map Address.mk

end Codec

variable {ε : Type} {bech32 : Bech32 ε}

theorem exists_toAddress (hbech32 : bech32.Documented) {n : Nat} (bytes : FixedBytes n)
    (hrp : Hrp) : ∃ text, bech32.encode hrp.text (bech32.toBase32 bytes.val) = .ok text := by
  cases hrp <;>
    exact hbech32.encodes _ _ (by decide) (by decide) (List.all_eq_true.mp (by decide))

theorem fromAddress_toAddress (hbech32 : bech32.Documented) {n : Nat} (bytes : FixedBytes n)
    (hrp : Hrp) : ∃ address, toAddress bech32 bytes hrp = .ok address ∧
      fromAddress bech32 n address = .ok (.ok (bytes, hrp)) := by
  obtain ⟨text, htext⟩ := exists_toAddress hbech32 bytes hrp
  refine ⟨⟨text⟩, ?_, ?_⟩
  · rw [toAddress, htext]
    rfl
  · have hdecode := hbech32.decode_encode htext
    have hbytes := hbech32.fromBase32_toBase32 bytes.val
    simp only [fromAddress, hdecode, hbytes, Hrp.toLower_text, Hrp.ofText_text,
      dif_pos bytes.property, bind, Except.bind]
    rfl

-- The account and the address of the source's own test.
example : toAddress Bech32.Reference.bech32
    (⟨[0, 1, 2, 3, 4, 5, 6, 7, 8, 9, 0, 1, 2, 3, 4, 5, 6, 7, 8, 9, 0, 1, 2, 3, 4, 5, 6, 7, 8, 9,
      0, 1], rfl⟩ : FixedBytes 32) .testnet =
      .ok ⟨"tyee1qqqsyqcyq5rqwzqfqqqsyqcyq5rqwzqfqqqsyqcyq5rqwzqfqqqs0a78ky".toList⟩ := by
  decide +kernel

-- The string does not panic, and what is read from it is written as the same string in lower
-- case.
def Faithful (bech32 : Bech32 ε) (n : Nat) (address : Address) : Prop :=
  (∃ error, fromAddress bech32 n address = .ok (.error error)) ∨
    ∃ bytes hrp written, fromAddress bech32 n address = .ok (.ok (bytes, hrp)) ∧
      toAddress bech32 bytes hrp = .ok written ∧ written.text = Text.toLower address.text

-- A string that bech32 decodes to bytes has as many as the array, after a prefix of this chain.
def WellSized (bech32 : Bech32 ε) (n : Nat) (address : Address) : Prop :=
  ∀ hrpText data buf, bech32.decode address.text = .ok (hrpText, data) →
    bech32.fromBase32 data = .ok buf → buf.length = n ∧ (hrpText = Hrp.YEE ∨ hrpText = Hrp.TYEE)

theorem faithful_iff (hbech32 : bech32.Documented) (n : Nat) (address : Address) :
    Faithful bech32 n address ↔ WellSized bech32 n address := by
  constructor
  · rintro (⟨error, hrefused⟩ | ⟨bytes, hrp, written, hread, _⟩) hrpText data buf hdecode hbuf
    · simp only [fromAddress, hdecode, hbuf] at hrefused
      split_ifs at hrefused
      obtain ⟨hrp, _, hrefused⟩ := (Run.bind_eq_ok _ _ _).mp hrefused
      cases hrefused
    · simp only [fromAddress, hdecode, hbuf] at hread
      split_ifs at hread with hlength
      obtain ⟨hrp', hhrp, _⟩ := (Run.bind_eq_ok _ _ _).mp hread
      have htext := Hrp.ofText_eq_ok.mp hhrp
      refine ⟨hlength, ?_⟩
      cases hrp' with
      | mainnet => exact .inl htext
      | testnet => exact .inr htext
  · intro hsized
    cases hdecode : bech32.decode address.text with
    | error error => exact .inl ⟨error, by rw [fromAddress, hdecode]⟩
    | ok decoded =>
      obtain ⟨hrpText, data⟩ := decoded
      cases hbuf : bech32.fromBase32 data with
      | error error => exact .inl ⟨error, by simp only [fromAddress, hdecode, hbuf]⟩
      | ok buf =>
        obtain ⟨hlength, hchain⟩ := hsized hrpText data buf hdecode hbuf
        obtain ⟨hrp, rfl⟩ : ∃ hrp : Hrp, hrpText = hrp.text := by
          rcases hchain with rfl | rfl
          · exact ⟨.mainnet, rfl⟩
          · exact ⟨.testnet, rfl⟩
        have hwritten := hbech32.encode_decode hdecode
        refine .inr ⟨⟨buf, hlength⟩, hrp, ⟨Text.toLower address.text⟩, ?_, ?_, rfl⟩
        · simp only [fromAddress, hdecode, hbuf, dif_pos hlength, Hrp.ofText_text, bind,
            Except.bind]
          rfl
        · rw [toAddress, hbech32.toBase32_fromBase32 hbuf, hwritten]
          rfl

-- An account can be written and read back. A string is read faithfully unless bech32
-- decodes it to another number of bytes or with another prefix: these panic.
theorem address_codec_iff (hbech32 : bech32.Documented) :
    (∀ (account : AccountId) (hrp : Hrp), ∃ address,
      toAddress bech32 account hrp = .ok address ∧
        fromAddress bech32 32 address = .ok (.ok (account, hrp))) ∧
    ∀ address, Faithful bech32 32 address ↔ WellSized bech32 32 address :=
  ⟨fromAddress_toAddress hbech32, faithful_iff hbech32 32⟩

theorem address_codec_reference : Bech32.Reference.bech32.Documented ∧
    (∀ (account : AccountId) (hrp : Hrp), ∃ address,
      toAddress Bech32.Reference.bech32 account hrp = .ok address ∧
        fromAddress Bech32.Reference.bech32 32 address = .ok (.ok (account, hrp))) ∧
    ∀ address, Faithful Bech32.Reference.bech32 32 address ↔
      WellSized Bech32.Reference.bech32 32 address :=
  ⟨Bech32.Reference.documented, address_codec_iff Bech32.Reference.documented⟩

-- Twenty bytes after the prefix of this chain, and an account after another prefix.
def shortAddress : Address :=
  ⟨"yee1qqqsyqcyq5rqwzqfqqqsyqcyq5rqwzqfyw0as5".toList⟩

def foreignAddress : Address :=
  ⟨"dot1qqqsyqcyq5rqwzqfqqqsyqcyq5rqwzqfqqqsyqcyq5rqwzqfqqqskuv8nl".toList⟩

theorem foreign_address_panics :
    ¬ Faithful Bech32.Reference.bech32 32 shortAddress ∧
    ¬ Faithful Bech32.Reference.bech32 32 foreignAddress := by
  have hshort : fromAddress Bech32.Reference.bech32 32 shortAddress =
      .error ⟨"destination and source slices have different lengths"⟩ := by
    decide +kernel
  have hforeign : fromAddress Bech32.Reference.bech32 32 foreignAddress =
      .error ⟨"internal error: entered unreachable code"⟩ := by
    decide +kernel
  refine ⟨?_, ?_⟩
  · rintro (⟨error, h⟩ | ⟨bytes, hrp, written, h, _⟩)
    · cases hshort.symm.trans h
    · cases hshort.symm.trans h
  · rintro (⟨error, h⟩ | ⟨bytes, hrp, written, h, _⟩)
    · cases hforeign.symm.trans h
    · cases hforeign.symm.trans h

end AddressCodec

end Yeeroot
