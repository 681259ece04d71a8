import BootMemory.Layout
import BootMemory.Word

/-!
# The alias of low memory

While the system starts, the first megabytes of physical memory show up in the upper half of
the address space, at a fixed distance from their physical addresses. Words of physical
memory can be reached there as long as they lie below the end of the alias.
-/

set_option autoImplicit false

namespace BootMemory.LowAlias

/-- The first physical address that the alias does not reach. -/
def reach : Nat := Layout.bootMappedBytes

/-- Where a number of 32-bit words from a physical address on can be reached. -/
def view (addr : PhysAddr) (words : Nat) : Except Fault Nat := do
  let bytes ← Word.mul words 4
  let stop ← Word.add addr.toNat bytes
  if stop ≤ reach then Word.add addr.toNat Layout.kernelVirtualOffset
  else .error .assertion

end BootMemory.LowAlias
