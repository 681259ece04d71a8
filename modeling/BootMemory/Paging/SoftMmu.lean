import BootMemory.Paging.Window

/-!
# A simulated MMU

Simulated RAM behind a simulated page walk. RAM is a store of frames, each seen as a page
table. An address is resolved as a processor does it: the directory frame, the entry that
the upper bits select, the frame of that entry, and the entry that the middle bits select.
The directory's last entry is an ordinary entry here, so the window works exactly as long as
that entry points back at the directory.

A frame that nobody has used holds junk that looks present, so a new table that is not
cleared is noticed. A frame counts as used from its first reading or writing on.
-/

set_option autoImplicit false

namespace BootMemory

/-- RAM, the frame of the page directory, and the pages that were invalidated, newest
first. -/
structure SoftMmu where
  directory : Frame
  ram : TableStore
  invalidated : List VirtAddr

namespace SoftMmu

/-- What RAM holds before anybody writes to it. -/
def junk : PageEntry := PageEntry.ofBits 0xBAD00007

/-- RAM with an empty directory in a frame, except for the last entry, which points back. -/
def ofDirectory (directory : Frame) : Except Fault SoftMmu := do
  let entry ← PageEntry.mapping directory .kernel
  let blank : TableStore := ⟨.filled junk, []⟩
  let ram := blank.save directory.index (PageTable.zeroed.set .recursive entry)
  return ⟨directory, ram, []⟩

/-- The directory entry that covers an address. -/
def directoryEntry (mmu : SoftMmu) (addr : VirtAddr) : PageEntry :=
  (mmu.ram.load mmu.directory.index).get addr.directoryIndex

/-- The address that a virtual address resolves to, if both levels are present. -/
def resolve (mmu : SoftMmu) (addr : VirtAddr) : Option PhysAddr :=
  let upper := mmu.directoryEntry addr
  if upper.present then
    let lower := (mmu.ram.load upper.frame.index).get addr.tableIndex
    if lower.present then some (lower.addressAt addr.pageOffset) else none
  else
    none

/-- The RAM after a walk, which uses the directory frame and, if it gets there, the frame of
the table. -/
def afterWalk (mmu : SoftMmu) (addr : VirtAddr) : SoftMmu :=
  let upper := mmu.directoryEntry addr
  let ram := mmu.ram.touch mmu.directory.index
  { mmu with ram := if upper.present then ram.touch upper.frame.index else ram }

def walk (mmu : SoftMmu) (addr : VirtAddr) : Option PhysAddr × SoftMmu :=
  (mmu.resolve addr, mmu.afterWalk addr)

/-- The frame of the page that an address lies in. -/
def pageAt (addr : VirtAddr) (mmu : SoftMmu) : Traced (Nat × SoftMmu) :=
  match mmu.walk addr with
  | (none, _) => pageFault addr
  | (some target, walked) =>
    let frame := (target.page .small).index
    pure (frame, { walked with ram := walked.ram.touch frame })

def touchedFrames (mmu : SoftMmu) : Nat := mmu.ram.size

/-- The pages that were invalidated, oldest first. -/
def invalidations (mmu : SoftMmu) : List VirtAddr := mmu.invalidated.reverse

/-- The same memory with no invalidation on record. -/
def clearInvalidations (mmu : SoftMmu) : SoftMmu := { mmu with invalidated := [] }

instance : TableWindow SoftMmu where
  directory := pageAt directoryWindow
  table slot := pageAt slot.window
  load mmu place := mmu.ram.load place
  save mmu place table := { mmu with ram := mmu.ram.save place table }
  invalidate addr mmu := { mmu with invalidated := addr :: mmu.invalidated }

end SoftMmu

end BootMemory
