import BootMemory.CommandLine.Arguments
import BootMemory.Frames.Allocator
import BootMemory.Heap.Growth
import BootMemory.MemoryMap.Error

/-!
# Failures to start

Every reason for which the memory of the system cannot be brought up. All are final.
-/

set_option autoImplicit false

namespace BootMemory

/-- Why memory was not brought up. -/
inductive BootError where
  | arguments (cause : ArgumentError)
  | memoryMap (cause : MemoryMapError)
  | frames (cause : FrameError)
  | heap (cause : GrowthError)
  | heapAlreadyInstalled
  deriving DecidableEq, Repr

namespace BootError

def name : BootError → String
  | arguments cause => "BootInfo(" ++ cause.name ++ ")"
  | memoryMap cause => "MemoryMap(" ++ cause.name ++ ")"
  | frames cause => "Frames(" ++ cause.name ++ ")"
  | heap cause => "Heap(" ++ cause.name ++ ")"
  | heapAlreadyInstalled => "HeapAlreadyInstalled"

def message : BootError → String
  | arguments cause => "invalid boot information: " ++ cause.message
  | memoryMap cause => "unusable memory map: " ++ cause.message
  | frames cause => "frame allocator: " ++ cause.message
  | heap cause => "kernel heap: " ++ cause.message
  | heapAlreadyInstalled => "a kernel heap is already installed"

end BootError

end BootMemory
