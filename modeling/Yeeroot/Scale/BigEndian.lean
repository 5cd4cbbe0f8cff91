import Yeeroot.Scale.Lemmas

namespace Yeeroot.Scale

def encodeBE (n value : Nat) : Bytes := (encodeLE n value).reverse

def valueBE (bytes : Bytes) : Nat := valueLE bytes.reverse

@[simp] theorem length_encodeBE (n value : Nat) : (encodeBE n value).length = n := by
  rw [encodeBE, List.length_reverse, length_encodeLE]

theorem valueBE_encodeBE (n value : Nat) (h : value < 256 ^ n) :
    valueBE (encodeBE n value) = value := by
  rw [valueBE, encodeBE, List.reverse_reverse, valueLE_encodeLE n value h]

theorem valueLE_append_zeros (bytes : Bytes) {zeros : Bytes} (h : ∀ byte ∈ zeros, byte = 0) :
    valueLE (bytes ++ zeros) = valueLE bytes := by
  induction bytes with
  | nil =>
    induction zeros with
    | nil => rfl
    | cons byte zeros ih =>
      obtain ⟨rfl, hzeros⟩ := List.forall_mem_cons.mp h
      have hrest := ih hzeros
      simp only [List.nil_append, valueLE] at hrest ⊢
      rw [hrest]
      rfl
  | cons byte bytes ih => rw [List.cons_append, valueLE, valueLE, ih]

theorem valueBE_zeros_append {zeros : Bytes} (h : ∀ byte ∈ zeros, byte = 0) (bytes : Bytes) :
    valueBE (zeros ++ bytes) = valueBE bytes := by
  rw [valueBE, List.reverse_append]
  apply valueLE_append_zeros
  intro byte hbyte
  exact h byte (List.mem_reverse.mp hbyte)

end Yeeroot.Scale
