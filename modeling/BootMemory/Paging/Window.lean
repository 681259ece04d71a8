import BootMemory.Paging.Table
import BootMemory.Traced

/-!
# Windows onto page tables

The page tables of the running system are edited through a window that shows the directory
and every table. A window tells where the directory and the table of a slot are to be found,
reads and writes tables there, and forgets translations that the processor may have cached.
Looking for a table may fault when nothing is mapped where it should show up.

Kernel paging is eager: every page is mapped before it is used, so a page fault always means
an error in the program, and `pageFault` ends the run.

This module has the plainest window, `FlatWindow`: the table of slot `i` is table `i` of a
block of memory, whatever the directory says, and the directory is the last one. Nothing is
cached and nothing faults.
-/

set_option autoImplicit false

namespace BootMemory

/-- Ends a run that used an address at which nothing is mapped. -/
def pageFault {α : Type} (addr : VirtAddr) : Traced α := do
  Traced.report .error fun _ => .ok ("page fault at address " ++ addr.text)
  Traced.fault (.pageFault addr)

/-- Access to the page tables of an address space. Places are numbers whose meaning is the
window's own business. -/
class TableWindow (ω : Type) where
  /-- The place of the directory. -/
  directory : ω → Traced (Nat × ω)
  /-- The place of the table of a slot. -/
  table : TableIndex → ω → Traced (Nat × ω)
  /-- The table at a place. -/
  load : ω → Nat → PageTable
  /-- The window with another table at a place. -/
  save : ω → Nat → PageTable → ω
  /-- Forgets the cached translation of a page. -/
  invalidate : VirtAddr → ω → ω

namespace TableWindow

variable {ω : Type} [TableWindow ω]

/-- The entry at a position of the table at a place. -/
def loadEntry (window : ω) (place : Nat) (index : TableIndex) : PageEntry :=
  (load window place).get index

/-- The window with another entry at a position of the table at a place. -/
def saveEntry (window : ω) (place : Nat) (index : TableIndex) (entry : PageEntry) : ω :=
  save window place ((load window place).set index entry)

end TableWindow

/-- A block of memory that holds the tables of all slots side by side. -/
structure FlatWindow where
  tables : TableStore

namespace FlatWindow

/-- The block of empty tables, except that the directory's last entry points at the frame of
the directory. -/
def ofDirectory (directory : Frame) : Except Fault FlatWindow := do
  let entry ← PageEntry.mapping directory .kernel
  let blank : TableStore := ⟨.zeroed, []⟩
  return ⟨blank.save TableIndex.recursive.val (PageTable.zeroed.set .recursive entry)⟩

instance : TableWindow FlatWindow where
  directory window := pure (TableIndex.recursive.val, window)
  table slot window := pure (slot.val, window)
  load window place := window.tables.load place
  save window place table := ⟨window.tables.save place table⟩
  invalidate _ window := window

end FlatWindow

end BootMemory
