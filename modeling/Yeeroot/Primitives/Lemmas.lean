import Yeeroot.Primitives
import Yeeroot.Scale.Lemmas

namespace Yeeroot

open Scale

variable {α β : Type}

theorem Run.bind_eq_ok {ε α β : Type} (value : Except ε α) (next : α → Except ε β) (result : β) :
    value >>= next = .ok result ↔ ∃ a, value = .ok a ∧ next a = .ok result := by
  cases value with
  | error panic => simp [bind, Except.bind]
  | ok a => simp [bind, Except.bind]

theorem Run.pure_eq_ok (value result : α) :
    (pure value : Run α) = .ok result ↔ result = value := by
  simp [pure, Except.pure, eq_comm]

theorem Run.expect_eq_ok (value : Option α) (message : String) (result : α) :
    Run.expect value message = .ok result ↔ value = some result := by
  cases value <;> simp [Run.expect]

-- The run does not panic.
def Run.Returns {α : Type} (run : Run α) : Prop := ∃ a, run = .ok a

theorem Run.returns_ok (value : α) : Run.Returns (.ok value) := ⟨value, rfl⟩

theorem Run.returns_pure (value : α) : Run.Returns (pure value) := ⟨value, rfl⟩

theorem Run.not_returns_error (panic : Panic) :
    ¬ Run.Returns (.error panic : Run α) := by
  simp [Run.Returns]

theorem Run.returns_bind (value : Run α) (next : α → Run β) :
    Run.Returns (value >>= next) ↔ ∃ a, value = .ok a ∧ Run.Returns (next a) := by
  simp only [Run.Returns, Run.bind_eq_ok]
  constructor
  · intro h
    obtain ⟨result, a, hvalue, hresult⟩ := h
    exact ⟨a, hvalue, result, hresult⟩
  · intro h
    obtain ⟨a, hvalue, result, hresult⟩ := h
    exact ⟨result, a, hvalue, hresult⟩

theorem Run.returns_map (run : Run α) (f : α → β) :
    Run.Returns (f <$> run) ↔ Run.Returns run := by
  cases run <;> simp [Run.Returns, Functor.map, Except.map]

theorem Run.map_eq_ok (run : Run α) (f : α → β) (result : β) :
    f <$> run = .ok result ↔ ∃ a, run = .ok a ∧ result = f a := by
  cases run <;> simp [Functor.map, Except.map, eq_comm]

theorem Run.getElem?_of_mapM {f : α → Run β} {items : List α} {results : List β}
    (h : items.mapM f = .ok results) (i : Nat) :
    (items[i]? = none ∧ results[i]? = none) ∨
      ∃ item result, items[i]? = some item ∧ results[i]? = some result ∧ f item = .ok result := by
  induction items generalizing results i with
  | nil =>
    obtain rfl := Except.ok.inj h
    exact .inl ⟨rfl, rfl⟩
  | cons item items ih =>
    simp only [List.mapM_cons, Run.bind_eq_ok, Run.pure_eq_ok] at h
    obtain ⟨result, hresult, rest, hrest, rfl⟩ := h
    cases i with
    | zero => exact .inr ⟨item, result, rfl, rfl, hresult⟩
    | succ i => exact ih hrest i

theorem Run.returns_mapM {f : α → Run β} {items : List α} (h : ∀ item ∈ items, Run.Returns (f item))
    : Run.Returns (items.mapM f) := by
  induction items with
  | nil => exact ⟨[], rfl⟩
  | cons item items ih =>
    obtain ⟨result, hresult⟩ := h item List.mem_cons_self
    obtain ⟨results, hresults⟩ := ih fun other hother => h other (List.mem_cons_of_mem _ hother)
    refine ⟨result :: results, ?_⟩
    rw [List.mapM_cons, hresult, hresults]
    rfl

-- A concrete run is evaluated as an option and read back here.
theorem Run.exists_of_toOption {run : Run α} {view : α → Option β} {result : β}
    (h : run.toOption.bind view = some result) : ∃ a, run = .ok a ∧ view a = some result := by
  cases run with
  | error panic => simp [Except.toOption] at h
  | ok a => exact ⟨a, rfl, h⟩

def Run.panic? {α : Type} : Run α → Option Panic
  | .error panic => some panic
  | .ok _ => none

theorem Run.eq_error_of_panic? {run : Run α} {panic : Panic} (h : run.panic? = some panic) :
    run = .error panic := by
  cases run with
  | error panic' => rw [Option.some.inj h]
  | ok a => simp [Run.panic?] at h

theorem Address.length_encode_index_le (i : UInt32) : (Address.index i).encode.length ≤ 5 := by
  simp only [Address.encode]
  split_ifs <;> simp

theorem Address.length_encode_pos (address : Address) : 0 < address.encode.length := by
  cases address with
  | id account => simp [Address.encode]
  | index i =>
    simp only [Address.encode]
    split_ifs <;> simp

theorem Address.length_of_decode {input rest : Bytes} {address : Address}
    (h : Address.decode input = some (address, rest)) : rest.length < input.length := by
  simp only [Address.decode, Option.bind_eq_bind, Option.bind_eq_some_iff, Prod.exists,
    readByte_eq_some] at h
  obtain ⟨first, tail, rfl, h⟩ := h
  -- An index of either width.
  have hindex : ∀ (width low : Nat), ((decodeLE width tail).bind fun read =>
      if low < read.1 then some (Address.index (UInt32.ofNat read.1), read.2) else none) =
        some (address, rest) → rest.length ≤ tail.length := by
    intro width low hread
    simp only [Option.bind_eq_some_iff, Prod.exists, decodeLE_eq_some] at hread
    obtain ⟨value, after, ⟨bytes, _, _, rfl⟩, hread⟩ := hread
    by_cases hlow : low < value
    · rw [if_pos hlow, Option.some.injEq, Prod.mk.injEq] at hread
      rw [← hread.2, List.length_append]
      omega
    · rw [if_neg hlow] at hread
      cases hread
  have hrest : rest.length ≤ tail.length := by
    split_ifs at h
    · simp only [Option.pure_def, Option.some.injEq, Prod.mk.injEq] at h
      rw [h.2]
    · exact hindex 2 0xef h
    · exact hindex 4 0xffff h
    · simp only [Option.bind_eq_some_iff, Prod.exists, readFixed_eq_some, Option.pure_def,
        Option.some.injEq, Prod.mk.injEq] at h
      obtain ⟨account, _, rfl, _, rfl⟩ := h
      rw [List.length_append]
      omega
  rw [List.length_cons]
  omega

theorem MortalEra.exponent_pos (era : MortalEra) : era.encoded.toNat % 16 ≠ 0 := by
  intro h
  have hv := era.valid.1
  rw [eraPeriod, h] at hv
  exact absurd hv (by decide)

theorem MortalEra.encode_eq (era : MortalEra) : ∃ first second, first ≠ 0 ∧
    (Era.mortal era).encode = [first, second] := by
  refine ⟨_, _, ?_, rfl⟩
  intro h
  have hz := congrArg UInt8.toNat h
  rw [UInt8.toNat_ofNat'] at hz
  have := era.exponent_pos
  simp at hz
  omega

@[simp] theorem Era.decode_append (era : Era) (rest : Bytes) :
    Era.decode (era.encode ++ rest) = some (era, rest) := by
  cases era with
  | immortal => simp [Era.decode, Era.encode]
  | mortal era =>
    obtain ⟨first, second, hne, he⟩ := era.encode_eq
    have hd := decodeU16_append era.encoded rest
    change decodeU16 ((Era.mortal era).encode ++ rest) = _ at hd
    rw [he] at hd ⊢
    simp only [List.cons_append, List.nil_append] at hd ⊢
    simp [Era.decode, hne, hd, era.valid]

theorem Era.length_encode_le (era : Era) : era.encode.length ≤ 2 := by
  cases era <;> simp [Era.encode]

@[simp] theorem RelayTypes.decode_append (relayType : RelayTypes) (rest : Bytes) :
    RelayTypes.decode (relayType.encode ++ rest) = some (relayType, rest) := by
  cases relayType <;> rfl

@[simp] theorem RelayTypes.length_encode (relayType : RelayTypes) :
    relayType.encode.length = 1 := by
  cases relayType <;> rfl

end Yeeroot
