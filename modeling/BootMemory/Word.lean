import BootMemory.Fault

/-!
# Arithmetic within a 64-bit word

Lengths, ends of ranges and counters are natural numbers, but they live in 64-bit words.
Each operation here gives the natural result when that fits a word and faults otherwise,
so the place where a word could run over is visible at its use.
-/

set_option autoImplicit false

namespace BootMemory.Word

/-- The largest number that fits a word. -/
def max : Nat := 2 ^ 64 - 1

/-- The sum, if it fits a word. -/
def add (a b : Nat) : Except Fault Nat :=
  if a + b < 2 ^ 64 then .ok (a + b) else .error .overflow

/-- The difference, if it is not negative. -/
def sub (a b : Nat) : Except Fault Nat :=
  if b ≤ a then .ok (a - b) else .error .overflow

/-- The product, if it fits a word. -/
def mul (a b : Nat) : Except Fault Nat :=
  if a * b < 2 ^ 64 then .ok (a * b) else .error .overflow

/-- The sum, or the largest word if the sum does not fit. -/
def addSaturating (a b : Nat) : Nat := min (a + b) max

/-- A sum of words succeeds exactly when it fits a word. -/
theorem add_eq_ok_iff {a b c : Nat} : add a b = .ok c ↔ a + b < 2 ^ 64 ∧ c = a + b := by
  unfold add
  split
  case isTrue fits =>
    exact ⟨fun h => ⟨fits, (Except.ok.inj h).symm⟩, fun h => congrArg Except.ok h.2.symm⟩
  case isFalse excess => exact ⟨fun h => (nomatch h), fun h => absurd h.1 excess⟩

/-- A difference of words succeeds exactly when it is not below zero. -/
theorem sub_eq_ok_iff {a b c : Nat} : sub a b = .ok c ↔ b ≤ a ∧ c = a - b := by
  unfold sub
  split
  case isTrue fits =>
    exact ⟨fun h => ⟨fits, (Except.ok.inj h).symm⟩, fun h => congrArg Except.ok h.2.symm⟩
  case isFalse excess => exact ⟨fun h => (nomatch h), fun h => absurd h.1 excess⟩

/-- A product of words succeeds exactly when it fits a word. -/
theorem mul_eq_ok_iff {a b c : Nat} : mul a b = .ok c ↔ a * b < 2 ^ 64 ∧ c = a * b := by
  unfold mul
  split
  case isTrue fits =>
    exact ⟨fun h => ⟨fits, (Except.ok.inj h).symm⟩, fun h => congrArg Except.ok h.2.symm⟩
  case isFalse excess => exact ⟨fun h => (nomatch h), fun h => absurd h.1 excess⟩

end BootMemory.Word
