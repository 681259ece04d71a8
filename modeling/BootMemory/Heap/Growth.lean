import BootMemory.Paging.Error
import BootMemory.Word
import BootMemory.Traced

/-!
# Growth of an arena

A heap lives in an arena of units of sixteen bytes that grows at its end. How it grows is a
strategy: `extend` adds at least a number of units, and says how many, or fails and adds
none. A strategy may need pages from somewhere, which it is given as a second state.

The plainest strategy, `BumpBreak`, moves a break through a region that is usable from the
start.
-/

set_option autoImplicit false

namespace BootMemory

/-- The number of bytes of a unit, the granule of a heap. -/
def unitBytes : Nat := 16

/-- The smallest growth worth asking for, in units, unless a strategy knows better. -/
def defaultMinChunk : Nat := 128

/-- Why an arena did not grow. -/
inductive GrowthError where
  /-- The region or window is used up. -/
  | exhausted
  /-- A page could not be backed. -/
  | backing (cause : MappingError)
  deriving DecidableEq, Repr

namespace GrowthError

def name : GrowthError → String
  | exhausted => "Exhausted"
  | backing cause => "Backing(" ++ cause.name ++ ")"

def message : GrowthError → String
  | exhausted => "the heap window is exhausted"
  | backing cause => "failed to back a heap page: " ++ cause.message

end GrowthError

/-- Where an arena lies, and in which steps it likes to grow. -/
class ArenaRegion (γ : Type) where
  /-- The address of the first unit. -/
  base : γ → Nat
  /-- The smallest growth worth asking for, in units. -/
  minChunk : γ → Nat

/-- A way to add units at the end of an arena; `β` is where the pages come from. -/
class ArenaGrowth (γ β : Type) where
  /-- Adds at least so many units, and says how many. -/
  extend : Nat → γ → β → Traced (Except GrowthError Nat × γ × β)

/-- The break after so many more units, if they fit below a limit. -/
def advance? (brk units limit : Nat) : Option Nat :=
  let target := brk + units * unitBytes
  if target ≤ limit ∧ target < 2 ^ 64 then some target else none

/-- A break that moves through a usable region of `capacity` bytes. -/
structure BumpBreak where
  base : Nat
  capacity : Nat
  used : Nat
  deriving DecidableEq

namespace BumpBreak

/-- The whole units of a region. -/
def ofRegion (base bytes : Nat) : BumpBreak := ⟨base, bytes / unitBytes * unitBytes, 0⟩

/-- Moves the break by exactly so many units. -/
def extend (units : Nat) (bump : BumpBreak) : Except GrowthError Nat × BumpBreak :=
  match advance? bump.used units bump.capacity with
  | some used => (.ok units, { bump with used })
  | none => (.error .exhausted, bump)

instance : ArenaRegion BumpBreak where
  base := BumpBreak.base
  minChunk _ := defaultMinChunk

instance {β : Type} : ArenaGrowth BumpBreak β where
  extend units bump pages :=
    let (answer, bump) := bump.extend units
    pure (answer, bump, pages)

end BumpBreak

end BootMemory
