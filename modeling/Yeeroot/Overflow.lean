import Yeeroot.Primitives.Lemmas

namespace Yeeroot

-- Integer overflow wraps in a release build and panics in a checked one.
inductive Build where
  | release
  | checked
  deriving DecidableEq

namespace Build

variable {α : Type} (build : Build)

def guard (overflows : Prop) [Decidable overflows] (message : String) (wrapped : α) : Run α :=
  if build = .checked ∧ overflows then .error ⟨message⟩ else .ok wrapped

def add16 (a b : UInt16) : Run UInt16 :=
  build.guard (2 ^ 16 ≤ a.toNat + b.toNat) "attempt to add with overflow" (a + b)

def mul16 (a b : UInt16) : Run UInt16 :=
  build.guard (2 ^ 16 ≤ a.toNat * b.toNat) "attempt to multiply with overflow" (a * b)

-- A wrapping shift takes the distance modulo the width.
def shl16 (a b : UInt16) : Run UInt16 :=
  build.guard (16 ≤ b.toNat) "attempt to shift left with overflow" (a <<< b)

def add32 (a b : UInt32) : Run UInt32 :=
  build.guard (2 ^ 32 ≤ a.toNat + b.toNat) "attempt to add with overflow" (a + b)

def add64 (a b : UInt64) : Run UInt64 :=
  build.guard (2 ^ 64 ≤ a.toNat + b.toNat) "attempt to add with overflow" (a + b)

def sub64 (a b : UInt64) : Run UInt64 :=
  build.guard (a.toNat < b.toNat) "attempt to subtract with overflow" (a - b)

def mul64 (a b : UInt64) : Run UInt64 :=
  build.guard (2 ^ 64 ≤ a.toNat * b.toNat) "attempt to multiply with overflow" (a * b)

def add128 (a b : Balance) : Run Balance :=
  build.guard (2 ^ 128 ≤ a.toNat + b.toNat) "attempt to add with overflow" (a + b)

end Build

-- A zero divisor panics in either build.
def rem64 (a b : UInt64) : Run UInt64 :=
  if b = 0 then .error ⟨"attempt to calculate the remainder with a divisor of zero"⟩
  else .ok (a % b)

theorem toNat_sub_one {n : UInt64} (h : n ≠ 0) : 0 < n.toNat ∧ (n - 1).toNat = n.toNat - 1 := by
  have hpos : n.toNat ≠ 0 := fun hz => h (UInt64.toNat_inj.mp hz)
  have hlt := n.toNat_lt
  rw [UInt64.toNat_sub, show (1 : UInt64).toNat = 1 from rfl]
  omega

theorem rem64_eq_ok {a b rest : UInt64} : rem64 a b = .ok rest ↔ b ≠ 0 ∧ a % b = rest := by
  unfold rem64
  split_ifs with hzero <;> simp [hzero]

theorem Build.guard_eq_ok {α : Type} {build : Build} {overflows : Prop} [Decidable overflows]
    {message : String} {wrapped value : α} :
    build.guard overflows message wrapped = .ok value ↔
      ¬ (build = .checked ∧ overflows) ∧ wrapped = value := by
  unfold Build.guard
  split_ifs with h
  · simp [h]
  · simp [h]

-- The run computes this value. A checked build panics instead unless the condition holds.
def Build.Computes {α : Type} (build : Build) (run : Run α) (fits : Prop) (value : α) : Prop :=
  ∀ result, run = .ok result ↔ (build = .checked → fits) ∧ value = result

namespace Build.Computes

variable {α β : Type} {build : Build} {fits fits' : Prop} {value : α} {value' : β}

theorem congr {run : Run α} (h : build.Computes run fits value) (hfits : fits ↔ fits') :
    build.Computes run fits' value := by
  rw [← propext hfits]
  exact h

theorem ok (build : Build) (value : α) : build.Computes (.ok value) True value := by
  intro result
  simp

theorem guard (build : Build) {overflows : Prop} [Decidable overflows] {message : String}
    (hfits : ¬ overflows ↔ fits) (value : α) :
    build.Computes (build.guard overflows message value) fits value := by
  intro result
  rw [Build.guard_eq_ok, not_and, hfits]

theorem bind {run : Run α} {next : α → Run β} (h : build.Computes run fits value)
    (hnext : build.Computes (next value) fits' value') :
    build.Computes (run >>= next) (fits ∧ fits') value' := by
  intro result
  rw [Run.bind_eq_ok]
  constructor
  · intro hrun
    obtain ⟨a, ha, hresult⟩ := hrun
    obtain ⟨hfits, rfl⟩ := (h a).mp ha
    obtain ⟨hfits', hvalue⟩ := (hnext result).mp hresult
    exact ⟨fun hchecked => ⟨hfits hchecked, hfits' hchecked⟩, hvalue⟩
  · intro hcase
    obtain ⟨hboth, hvalue⟩ := hcase
    exact ⟨value, (h value).mpr ⟨fun hchecked => (hboth hchecked).1, rfl⟩,
      (hnext result).mpr ⟨fun hchecked => (hboth hchecked).2, hvalue⟩⟩

theorem map {run : Run α} (h : build.Computes run fits value) (f : α → β) :
    build.Computes (run >>= fun a => pure (f a)) fits (f value) :=
  (h.bind (ok build (f value))).congr (and_iff_left trivial)

theorem add16 (a b : UInt16) :
    build.Computes (build.add16 a b) (a.toNat + b.toNat < 2 ^ 16) (a + b) :=
  .guard build Nat.not_le _

theorem add32 (a b : UInt32) :
    build.Computes (build.add32 a b) (a.toNat + b.toNat < 2 ^ 32) (a + b) :=
  .guard build Nat.not_le _

theorem add64 (a b : UInt64) :
    build.Computes (build.add64 a b) (a.toNat + b.toNat < 2 ^ 64) (a + b) :=
  .guard build Nat.not_le _

theorem mul16 (a b : UInt16) :
    build.Computes (build.mul16 a b) (a.toNat * b.toNat < 2 ^ 16) (a * b) :=
  .guard build Nat.not_le _

theorem mul64 (a b : UInt64) :
    build.Computes (build.mul64 a b) (a.toNat * b.toNat < 2 ^ 64) (a * b) :=
  .guard build Nat.not_le _

theorem shl16 (a b : UInt16) :
    build.Computes (build.shl16 a b) (b.toNat < 16) (a <<< b) :=
  .guard build Nat.not_le _

theorem sub64 (a b : UInt64) :
    build.Computes (build.sub64 a b) (b.toNat ≤ a.toNat) (a - b) :=
  .guard build Nat.not_lt _

theorem add128 (a b : Balance) :
    build.Computes (build.add128 a b) (a.toNat + b.toNat < 2 ^ 128) (a + b) :=
  .guard build Nat.not_le _

end Build.Computes

theorem sub64_one_eq_ok {build : Build} {number below : UInt64} :
    build.sub64 number 1 = .ok below ↔ ¬ (build = .checked ∧ number = 0) ∧ number - 1 = below := by
  have hzero : (1 : UInt64).toNat ≤ number.toNat ↔ number ≠ 0 := by
    rw [show (1 : UInt64).toNat = 1 from rfl, ne_eq, ← UInt64.toNat_inj, UInt64.toNat_zero]
    omega
  rw [Build.Computes.sub64 _ _ below, hzero, not_and]

end Yeeroot
