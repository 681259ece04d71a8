import BootMemory.Address.Align

/-!
# The kernel image

The bytes of physical memory that the loaded kernel occupies, from its start up to, but
not including, its end.
-/

set_option autoImplicit false

namespace BootMemory

/-- The bounds of the loaded kernel; the start is not above the end. -/
structure KernelImage where
  start : PhysAddr
  stop : PhysAddr
  start_le_stop : start.toNat ≤ stop.toNat
  deriving DecidableEq

namespace KernelImage

/-- The image between two addresses, if they are in order. -/
def ofBounds (start stop : PhysAddr) : Except Fault KernelImage :=
  if h : start.toNat ≤ stop.toNat then .ok ⟨start, stop, h⟩ else .error .assertion

def size (image : KernelImage) : Nat := image.stop.toNat - image.start.toNat

def isEmpty (image : KernelImage) : Bool := image.size == 0

/-- The end of the last page that the image touches. -/
def pageStop (image : KernelImage) : PhysAddr := image.stop.alignUp .small

/-- Whether the bytes from `first` up to `stop` start before the image ends and end after
it starts. -/
def overlaps (image : KernelImage) (first stop : Nat) : Bool :=
  first < image.stop.toNat && image.start.toNat < stop

def describe (image : KernelImage) : String :=
  "KernelImage \x7b start: " ++ image.start.describe ++ ", end: " ++ image.stop.describe ++
    " \x7d"

end KernelImage

end BootMemory
