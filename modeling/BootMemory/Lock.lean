import BootMemory.Fault

/-!
# Spin locks

A lock is a flag in front of a value. Who finds the flag clear sets it and holds a guard;
dropping a guard clears the flag. Who finds it set has to wait.

A guard is made before the outcome of an attempt is known. A refused attempt therefore drops
a guard, too, and clears the flag of the holder: after a refusal the lock is open.

The interrupt-safe lock differs only while interrupts can be masked. A hosted program has
no business with the interrupt flag, which reads as clear.
-/

set_option autoImplicit false

namespace BootMemory

/-- A flag and the value it guards. -/
structure SpinLock (α : Type) where
  locked : Bool
  value : α
  deriving DecidableEq

namespace SpinLock

variable {α ρ : Type}

def ofValue (value : α) : SpinLock α := ⟨false, value⟩

def unlock (lock : SpinLock α) : SpinLock α := { lock with locked := false }

/-- Tries once to get a guard, and says whether there is one. -/
def tryLock (lock : SpinLock α) : Bool × SpinLock α :=
  if lock.locked then (false, lock.unlock) else (true, { lock with locked := true })

/-- Gets a guard; there is no answer if it would have to wait. -/
def lock? (lock : SpinLock α) : Option (SpinLock α) :=
  if lock.locked then none else some { lock with locked := true }

/-- The value with a change made through a guard. -/
def modify (change : α → α) (lock : SpinLock α) : SpinLock α :=
  { lock with value := change lock.value }

/-- Runs a section under a guard. The section leaves a value behind, also when it faults, and
the guard is dropped in either case. There is no answer if the lock would have to wait. -/
def withLock? (section? : α → Except Fault ρ × α) (lock : SpinLock α) :
    Option (Except Fault ρ × SpinLock α) := do
  let held ← lock.lock?
  let (answer, value) := section? held.value
  some (answer, unlock { held with value })

def describe (kind : String) (lock : SpinLock α) : String :=
  kind ++ " \x7b locked: " ++ toString lock.locked ++ ", .. \x7d"

/-- After a refused attempt the lock is open. -/
theorem tryLock_of_locked {lock : SpinLock α} (h : lock.locked = true) :
    lock.tryLock = (false, lock.unlock) := by simp [tryLock, h]

/-- An attempt, granted or refused, turns the flag over. -/
theorem locked_tryLock (lock : SpinLock α) : lock.tryLock.2.locked = !lock.locked := by
  unfold tryLock unlock
  split <;> simp_all

end SpinLock

/-- Whether interrupts are enabled, as far as a hosted program can tell. -/
def interruptsEnabled : Bool := false

end BootMemory
