import BootMemory.Address.Basic

/-!
# Faults

A fault stops a run for good: the program found itself in a state it refuses to go on
from. It is kept apart from the answers that an operation may give (no frame left, page
already mapped), which are ordinary results. A fault names its cause; the words for it
are written once, in `Fault.message`.
-/

set_option autoImplicit false

namespace BootMemory

/-- Why a run stopped. -/
inductive Fault where
  /-- Arithmetic left the range of its machine word. -/
  | overflow
  /-- An index lies outside its array. -/
  | bounds
  /-- A value breaks a rule of the operation it was given to. -/
  | assertion
  /-- The words given to a bitmap are too few for its bits. -/
  | storageTooSmall
  /-- A frame was returned that is already free. -/
  | doubleFree (frame : Frame)
  /-- An address was used that nothing is mapped at. -/
  | pageFault (addr : VirtAddr)
  /-- A heap block starts outside the arena. -/
  | outsideArena (index units : Nat)
  /-- A block was returned to a heap that it does not belong to. -/
  | foreignBlock (pointer : Nat)
  /-- A block was returned that no heap owns. -/
  | unownedBlock (pointer : Nat)
  /-- The program stopped itself, with a reason. -/
  | stopped (reason : String)
  deriving DecidableEq

namespace Fault

def message : Fault → String
  | overflow => "arithmetic overflow"
  | bounds => "index out of bounds"
  | assertion => "assertion failed"
  | storageTooSmall => "bitmap storage too small"
  | doubleFree frame => "double free of frame " ++ frame.text
  | pageFault addr => "page fault at address " ++ addr.text
  | outsideArena index units =>
    s!"heap index {index} outside the arena of {units} units"
  | foreignBlock pointer => "freeing " ++ Text.hex pointer ++ " not owned by this heap"
  | unownedBlock pointer => "dealloc of " ++ Text.hex pointer ++ " owned by no heap"
  | stopped reason => reason

end Fault

end BootMemory
