import BootMemory.Boot.Context
import BootMemory.Heap.PageLedger
import BootMemory.Report.Paging

/-!
# Reports of heaps

How far an arena has grown, how much of it is free, and the layout that it started from.
-/

set_option autoImplicit false

namespace BootMemory

open Report

instance : Reportable BumpBreak where
  report bump := record [("used", tally bump.used), ("capacity", tally bump.capacity)]

def PagedGrowth.parts (growth : PagedGrowth) : List (String × Report) :=
  [("mapped", report growth.mapped), ("max", report growth.maxBytes),
    ("start", report growth.start)]

/-- How far an arena has grown, with the pages that a ledger holds. -/
def PagedGrowth.survey (growth : PagedGrowth) (ledger : PageLedger) : Report :=
  let pages := ledger.live.toList.map (·.toNat / pageBytes)
  record (("live", Runs.report (Runs.consecutive pages)) :: growth.parts)

namespace Heap

variable {γ : Type}

/-- How many free blocks, free units and units there are. -/
def stats (heap : Heap γ) : Except Fault Report := do
  let blocks ← heap.freeBlocks
  return list [tally blocks, tally heap.freeUnits, tally heap.arenaUnits]

end Heap

namespace GlobalHeap

/-- The heap that owns an address, and the distance of the address from its base. -/
def place (global : GlobalHeap) (pointer : Nat) : Report :=
  match global.locate? pointer with
  | some (inKernel, block) =>
    list [report (if inKernel then "kernel" else "bootstrap"),
      tally ((block + 1) * unitBytes)]
  | none => .empty

end GlobalHeap

instance : Reportable HeapLayout where
  report layout := record [("base", report layout.base), ("initial", report layout.initialBytes),
    ("max", report layout.maxBytes)]

namespace KernelMemory

/-- The frames, and what the address space has done since it was last asked. -/
def survey (memory : KernelMemory SoftMmu) : Report :=
  record [("counts", memory.frames.counts), ("mmu", report memory.space)]

/-- The same memory with no invalidation on record. -/
def clearInvalidations (memory : KernelMemory SoftMmu) : KernelMemory SoftMmu :=
  { memory with space := memory.space.clearInvalidations }

end KernelMemory

def MemoryContext.survey (context : MemoryContext SoftMmu) : Except Fault Report := do
  let frames := context.memory.frames
  let map ← frames.map.survey
  return record [("heap", report context.heap), ("memory", context.memory.survey),
    ("boot", record [("map", map), ("storage", report frames.storage),
      ("regions", report frames.regions.toList)])]

end BootMemory
