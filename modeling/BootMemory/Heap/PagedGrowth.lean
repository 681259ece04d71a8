import BootMemory.Heap.Growth
import BootMemory.KernelMemory

/-!
# Growth by pages

An arena in a window of virtual memory that is backed page by page as it grows. The bytes
given to the arena never exceed the bytes backed, and both never exceed the window. A step
that needs several pages either gets all of them or gives back those it got.

The address of a page is the start of the window plus an offset, both in 32 bits; a sum that
does not fit is a fault, also when only a message asks for it.
-/

set_option autoImplicit false

namespace BootMemory

/-- The bookkeeping of an arena that grows by pages. -/
structure PagedGrowth where
  /-- Where the program sees the first byte of the arena. -/
  window : Nat
  /-- The address at which the first page is backed. -/
  start : VirtAddr
  /-- The size of the window, in whole pages. -/
  maxBytes : Nat
  /-- The bytes given to the arena. -/
  brk : Nat
  /-- The bytes backed by pages. -/
  mapped : Nat
  deriving DecidableEq

namespace PagedGrowth

variable {β : Type} [PageBacking β]

/-- An arena without pages in the whole pages of a window. -/
def ofWindow (window : Nat) (start : VirtAddr) (maxBytes : Nat) : PagedGrowth :=
  ⟨window, start, roundDown maxBytes pageBytes, 0, 0⟩

/-- The address of the page at an offset into the window; the offset is cut to 32 bits. -/
def pageAt (growth : PagedGrowth) (offset : Nat) : Except Fault VirtAddr :=
  growth.start.add (offset % 2 ^ 32)

/-- How far the backing of pages has come: the offset of the next page, and the pages. -/
structure Progress (β : Type) where
  offset : Nat
  pages : β

/-- Backs the next page. A refusal ends the work. -/
def backNext (growth : PagedGrowth) (progress : Progress β) :
    Traced (Progress β ⊕ (MappingError × Progress β)) := do
  let addr ← growth.pageAt progress.offset
  match ← PageBacking.back addr progress.pages with
  | (.ok (), pages) => return .inl ⟨progress.offset + pageBytes, pages⟩
  | (.error cause, pages) => return .inr (cause, ⟨progress.offset, pages⟩)

/-- Takes away the pages between two offsets, from the lowest on. -/
def releaseRange (growth : PagedGrowth) (first stop : Nat) (pages : β) : Traced β :=
  Traced.foldl (fun pages index => do
    let addr ← growth.pageAt (first + index * pageBytes)
    PageBacking.release addr pages) pages (List.range ((stop - first) / pageBytes))

/-- Backs pages until at least `bytes` of the window are usable. -/
def backUntil (bytes : Nat) (growth : PagedGrowth) (pages : β) :
    Traced (Except GrowthError Unit × PagedGrowth × β) := do
  let first := growth.mapped
  let stop := (bytes + (pageBytes - 1)) / pageBytes * pageBytes
  match ← Traced.loop (backNext growth) ((stop - first) / pageBytes) ⟨first, pages⟩ with
  | .inr (cause, progress) =>
    Traced.report .warn fun _ => do
      let addr ← growth.pageAt progress.offset
      let done := (progress.offset - first) / pageBytes
      return "heap: backing " ++ addr.text ++ " failed (" ++ cause.message ++
        s!"), releasing {done} pages"
    let pages ← releaseRange growth first progress.offset progress.pages
    return (.error (.backing cause), growth, pages)
  | .inl progress =>
    if first < stop then
      Traced.report .debug fun _ => do
        let low ← growth.pageAt first
        let high ← growth.pageAt stop
        return "heap: backed " ++ low.text ++ " .. " ++ high.text
      return (.ok (), { growth with mapped := stop }, progress.pages)
    else
      return (.ok (), growth, progress.pages)

/-- Backs the first `bytes` of the window now. -/
def prefill (bytes : Nat) (growth : PagedGrowth) (pages : β) :
    Traced (Except GrowthError Unit × PagedGrowth × β) :=
  if growth.maxBytes < bytes then pure (.error .exhausted, growth, pages)
  else backUntil bytes growth pages

/-- Adds so many units and whatever is left of their last page. -/
def extend (units : Nat) (growth : PagedGrowth) (pages : β) :
    Traced (Except GrowthError Nat × PagedGrowth × β) := do
  match advance? growth.brk units growth.maxBytes with
  | none => return (.error .exhausted, growth, pages)
  | some target =>
    match ← backUntil target growth pages with
    | (.error cause, growth, pages) => return (.error cause, growth, pages)
    | (.ok (), growth, pages) =>
      let added := (growth.mapped - growth.brk) / unitBytes
      return (.ok added, { growth with brk := growth.mapped }, pages)

instance : ArenaRegion PagedGrowth where
  base := PagedGrowth.window
  minChunk _ := pageBytes / unitBytes

instance : ArenaGrowth PagedGrowth β where
  extend := extend

end PagedGrowth

end BootMemory
