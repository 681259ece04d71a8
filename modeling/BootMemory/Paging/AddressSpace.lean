import BootMemory.Frames.Source
import BootMemory.Paging.Error
import BootMemory.Paging.Window

/-!
# Address spaces

Pages of 4 KiB are mapped and unmapped one at a time, through a window onto the tables. A
page table is made when the first page of its 4 MiB is mapped, and given back when the last
one is unmapped. Table frames come from a frame source; a data frame goes back to it when
its page is unmapped.

Arguments are checked in a fixed order: alignment, reach of the physical address, and the
window's own pages, which cannot be mapped. A directory entry restricts every page below
it, so it is widened when a page asks for more than it allows.

Only a page whose entry changes is invalidated, and the window page of a table when the
directory entry of that table comes or goes.
-/

set_option autoImplicit false

namespace BootMemory.AddressSpace

open TableWindow

variable {ω σ : Type} [TableWindow ω] [FrameSource σ]

/-- What to do with a page that is mapped already. -/
inductive MapMode where
  /-- Refuse. -/
  | fresh
  /-- Replace the mapping. -/
  | bootstrap
  deriving DecidableEq, Repr

/-- The complaint about the arguments of a mapping, if there is one. -/
def checkMap (phys : PhysAddr) (virt : VirtAddr) : Except MappingError Unit :=
  if !phys.isAligned .small || !virt.isAligned .small then .error .unaligned
  else if Layout.maxPhysicalAddress < phys.toNat then .error .unaddressable
  else if TableIndex.isRecursive virt.directoryIndex then .error .recursiveWindow
  else .ok ()

/-- The complaint about the argument of an unmapping, if there is one. -/
def checkUnmap (virt : VirtAddr) : Except MappingError Unit :=
  if !virt.isAligned .small then .error .unaligned
  else if TableIndex.isRecursive virt.directoryIndex then .error .recursiveWindow
  else .ok ()

/-- The directory entry with the rights that the flags ask for added to its own. -/
def widen (entry : PageEntry) (flags : PageFlags) : PageEntry :=
  { entry with
    user := entry.user || flags.user
    writable := entry.writable || flags.readWrite }

/-- Sees to it that the directory has a table for a slot that allows what the flags ask for.
A new table takes a frame and starts empty. -/
def ensureTable (slot : TableIndex) (flags : PageFlags) (space : ω) (frames : σ) :
    Traced (Except MappingError Unit × ω × σ) := do
  let (place, space) ← directory space
  let entry := loadEntry space place slot
  if entry.present then
    return (.ok (), saveEntry space place slot (widen entry flags), frames)
  else
    match FrameSource.allocate frames with
    | none => return (.error .outOfFrames, space, frames)
    | some (frame, frames) =>
      let pointer ← PageEntry.mapping frame flags.asPresent
      let space := saveEntry space place slot pointer
      let space := invalidate (TableIndex.window slot) space
      let (tablePlace, space) ← table slot space
      let space := save space tablePlace .zeroed
      Traced.report .debug fun _ => .ok ("page table for " ++
        (TableIndex.firstAddress slot).text ++ " at " ++ frame.text)
      return (.ok (), space, frames)

/-- Writes the entry of a page into its table, which exists. -/
def install (phys : PhysAddr) (virt : VirtAddr) (flags : PageFlags) (mode : MapMode)
    (space : ω) : Traced (Except MappingError Unit × ω) := do
  let (place, space) ← table virt.directoryIndex space
  let old := loadEntry space place virt.tableIndex
  if old.present && mode == .fresh then
    return (.error .alreadyMapped, space)
  if old.present then
    Traced.report .trace fun _ =>
      .ok ("remapping " ++ virt.text ++ " (was " ++ old.address.text ++ ")")
  let new ← PageEntry.mapping (phys.page .small) flags.asPresent
  let space := invalidate virt (saveEntry space place virt.tableIndex new)
  Traced.report .trace fun _ =>
    .ok ("mapped " ++ virt.text ++ " -> " ++ phys.text ++ " " ++ flags.describe)
  return (.ok (), space)

/-- Maps the page at `virt` to the frame at `phys`. -/
def map (phys : PhysAddr) (virt : VirtAddr) (flags : PageFlags) (mode : MapMode)
    (space : ω) (frames : σ) : Traced (Except MappingError Unit × ω × σ) := do
  match checkMap phys virt with
  | .error complaint => return (.error complaint, space, frames)
  | .ok () =>
    match ← ensureTable virt.directoryIndex flags space frames with
    | (.error complaint, space, frames) => return (.error complaint, space, frames)
    | (.ok (), space, frames) =>
      let (answer, space) ← install phys virt flags mode space
      return (answer, space, frames)

/-- Gives the table of a slot back if it maps nothing any more. -/
def releaseTable (slot : TableIndex) (directoryPlace tablePlace : Nat) (entry : PageEntry)
    (space : ω) (frames : σ) : Traced (ω × σ) := do
  if (load space tablePlace).isEmpty then
    let space := saveEntry space directoryPlace slot .empty
    let space := invalidate (TableIndex.window slot) space
    let frames ← FrameSource.free entry.frame frames
    Traced.report .debug fun _ =>
      .ok ("released page table for " ++ (TableIndex.firstAddress slot).text)
    return (space, frames)
  else
    return (space, frames)

/-- Unmaps the page at `virt` and gives its frame back. -/
def unmap (virt : VirtAddr) (space : ω) (frames : σ) :
    Traced (Except MappingError Frame × ω × σ) := do
  match checkUnmap virt with
  | .error complaint => return (.error complaint, space, frames)
  | .ok () =>
    let slot := virt.directoryIndex
    let (directoryPlace, space) ← directory space
    let upper := loadEntry space directoryPlace slot
    if !upper.present then
      return (.error .notMapped, space, frames)
    let (tablePlace, space) ← table slot space
    let lower := loadEntry space tablePlace virt.tableIndex
    if !lower.present then
      return (.error .notMapped, space, frames)
    let space := invalidate virt (saveEntry space tablePlace virt.tableIndex .empty)
    let frames ← FrameSource.free lower.frame frames
    Traced.report .trace fun _ =>
      .ok ("unmapped " ++ virt.text ++ " (was " ++ lower.address.text ++ ")")
    let (space, frames) ← releaseTable slot directoryPlace tablePlace upper space frames
    return (.ok lower.frame, space, frames)

/-- The table entry of a page, if its table exists. -/
def entry? (virt : VirtAddr) (space : ω) : Traced (Option PageEntry × ω) := do
  let slot := virt.directoryIndex
  let (directoryPlace, space) ← directory space
  if (loadEntry space directoryPlace slot).present then
    let (tablePlace, space) ← table slot space
    return (some (loadEntry space tablePlace virt.tableIndex), space)
  else
    return (none, space)

/-- The physical address that a virtual address translates to. -/
def translate (virt : VirtAddr) (space : ω) : Traced (Option PhysAddr × ω) := do
  let (entry, space) ← entry? virt space
  return ((entry.filter (·.present)).map (·.addressAt virt.pageOffset), space)

/-- Whether a page is mapped. -/
def isMapped (virt : VirtAddr) (space : ω) : Traced (Bool × ω) := do
  let (entry, space) ← entry? virt space
  return (entry.any (·.present), space)

end BootMemory.AddressSpace
