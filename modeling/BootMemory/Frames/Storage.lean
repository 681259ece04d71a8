import BootMemory.KernelImage
import BootMemory.MemoryMap.Basic

/-!
# A home for the bitmaps

The bitmaps of the frame allocator live in RAM that the memory map itself offers. They
take whole pages of one available region, not below a floor, within the reach of the
program that has to write them, and beside the kernel image. Regions are tried in address
order. In a region that the kernel shares, the pages before the kernel are tried first and
then the pages right behind it.
-/

set_option autoImplicit false

namespace BootMemory

/-- Where the bitmaps ended up. -/
inductive StoragePlacement where
  /-- In the kernel's region, below the kernel. -/
  | beforeKernel
  /-- In the kernel's region, behind the kernel. -/
  | afterKernel
  /-- In a region that the kernel does not touch. -/
  | disjointFromKernel
  deriving DecidableEq, Repr

def StoragePlacement.name : StoragePlacement → String
  | beforeKernel => "BeforeKernel"
  | afterKernel => "AfterKernel"
  | disjointFromKernel => "DisjointFromKernel"

/-- The place of the bitmaps: a physical address and a number of 32-bit words. -/
structure BitmapStorage where
  start : Nat
  words : Nat
  placement : StoragePlacement
  deriving DecidableEq

namespace BitmapStorage

/-- The end of the last page that the words touch. -/
def stop (storage : BitmapStorage) : Nat :=
  roundUp (storage.start + storage.words * 4) pageBytes

/-- The number of bytes of whole pages that hold a number of words. -/
def span (words : Nat) : Nat := roundUp (words * 4) pageBytes

def describe (storage : BitmapStorage) : String :=
  "BitmapStorage \x7b start: PA(" ++ Text.hexAddress storage.start ++ "), words: " ++
    toString storage.words ++ ", placement: " ++ storage.placement.name ++ " \x7d"

/-- Whether `span` bytes from `start` on lie between two bounds. -/
def fits (low high span start : Nat) : Except Fault Bool :=
  if low ≤ start then do
    let stop ← Word.add start span
    return stop ≤ high
  else
    return false

/-- A place for a number of words in one region, if the region has one. -/
def placeIn? (kernel : KernelImage) (words floor reach : Nat) (region : Region) :
    Except Fault (Option BitmapStorage) := do
  let regionStop ← region.end?
  let needed := span words
  let low := roundUp (max region.base floor) pageBytes
  let high := roundDown (min regionStop reach) pageBytes
  if kernel.overlaps region.base regionStop then
    if (← fits low high needed low) && low + needed ≤ kernel.start.toNat then
      return some ⟨low, words, .beforeKernel⟩
    let after := max kernel.pageStop.toNat low
    return if ← fits low high needed after then some ⟨after, words, .afterKernel⟩ else none
  else
    return if ← fits low high needed low then some ⟨low, words, .disjointFromKernel⟩ else none

/-- The first place that one of the regions has. -/
def place? (kernel : KernelImage) (words floor reach : Nat) :
    List Region → Except Fault (Option BitmapStorage)
  | [] => .ok none
  | region :: rest => do
    match ← placeIn? kernel words floor reach region with
    | some storage => return some storage
    | none => place? kernel words floor reach rest

end BitmapStorage

end BootMemory
