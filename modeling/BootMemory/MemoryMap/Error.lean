/-!
# Unusable memory maps

The two ways in which a firmware list cannot be turned into a memory map.
-/

set_option autoImplicit false

namespace BootMemory

/-- Why a firmware list gives no memory map. -/
inductive MemoryMapError where
  /-- Nothing is left that the kernel can keep track of. -/
  | empty
  /-- Nothing of what is left may be used. -/
  | noUsableMemory
  deriving DecidableEq, Repr

namespace MemoryMapError

def name : MemoryMapError → String
  | empty => "Empty"
  | noUsableMemory => "NoUsableMemory"

def message : MemoryMapError → String
  | empty => "the firmware memory map is empty"
  | noUsableMemory => "the firmware memory map contains no usable memory"

end MemoryMapError

end BootMemory
