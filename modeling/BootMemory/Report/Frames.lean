import BootMemory.Report.MemoryMap
import BootMemory.Report.Runs

/-!
# Reports of frames

The counters of a frame allocator, its stretches with their bitmaps, and where the bitmaps
are kept.
-/

set_option autoImplicit false

namespace BootMemory

open Report

/-- The words of a bitmap, by runs. -/
def Bitmap.wordRuns (bitmap : Bitmap) : Report :=
  Runs.report (Runs.repeated (bitmap.words.toList.map BitVec.toNat))

instance : Reportable BitmapStorage where
  report storage := record [("start", report storage.start), ("words", tally storage.words),
    ("end", report storage.stop), ("placement", report storage.placement.name)]

instance : Reportable FrameRegion where
  report region := record [("kind", report region.kind), ("first", report region.firstByte),
    ("last", report region.lastByte), ("total", tally region.total), ("used", tally region.used),
    ("reserved", tally region.reserved), ("size", tally (wordsFor region.total)),
    ("next", tally region.next), ("ones", tally region.bitmap.count)]

namespace FrameAllocator

/-- How many frames there are, are unavailable, were ever reserved, and are free. -/
def counts (allocator : FrameAllocator) : Report :=
  list [tally allocator.total, tally allocator.used, tally allocator.reserved,
    tally allocator.freeFrames]

/-- Everything that is fixed when the allocator starts, with the first counts. -/
def survey (allocator : FrameAllocator) : Report :=
  record [("storage", report allocator.storage), ("counts", allocator.counts),
    ("regions", report allocator.regions.toList),
    ("kernel", list [report allocator.kernel.start, report allocator.kernel.stop]),
    ("map_len", tally allocator.map.size)]

end FrameAllocator

end BootMemory
