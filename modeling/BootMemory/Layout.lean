import BootMemory.Address.Basic

/-!
# Memory layout

The fixed places of a 32-bit kernel that runs in the upper half of its address space.
The kernel image is loaded at 1 MiB and runs 3 GiB above that. The last slot of the page
directory points back at the directory, so the page tables show up in the last 4 MiB.
The heap has a window of its own below that.
-/

set_option autoImplicit false

namespace BootMemory.Layout

def kernelPhysicalBase : Nat := 0x100000

def kernelVirtualBase : Nat := 0xC0100000

/-- The distance between low physical memory and its alias in the upper half. -/
def kernelVirtualOffset : Nat := kernelVirtualBase - kernelPhysicalBase

/-- How much low physical memory the alias covers while the system starts. -/
def bootMappedBytes : Nat := 0x400000

/-- The highest physical address that a page table entry can name. -/
def maxPhysicalAddress : Nat := 0xFFFFFFFF

def entriesPerTable : Nat := 1024

/-- The directory slot that points at the directory itself. -/
def recursiveSlot : Nat := 1023

/-- The start of the 4 MiB window through which every page table is visible. -/
def recursiveWindowBase : Nat := recursiveSlot * PageSize.large.bytes

/-- Where the directory is visible through its own slot. -/
def directoryWindow : Nat := recursiveWindowBase + recursiveSlot * PageSize.small.bytes

def heapBase : Nat := 0xD0000000

/-- The size of the window that the kernel heap may fill. -/
def heapMaxBytes : Nat := 0x4000000

/-- How much of the kernel heap is mapped while the system starts. -/
def heapInitialBytes : Nat := 0x100000

/-- The size of the region that serves allocations before the kernel heap exists. -/
def bootstrapHeapBytes : Nat := 64 * 1024

/-- Below this address no allocator keeps its own data. -/
def lowMemoryLimit : Nat := 0x100000

/-- The heap window ends before the window of the page tables starts. -/
theorem heapBase_add_heapMaxBytes_le : heapBase + heapMaxBytes ≤ recursiveWindowBase := by
  decide

/-- The directory is visible in the last page of the address space. -/
theorem directoryWindow_eq : directoryWindow = 0xFFFFF000 := by decide

end BootMemory.Layout
