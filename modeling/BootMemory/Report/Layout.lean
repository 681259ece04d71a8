import BootMemory.Report.Heap

/-!
# Report of the layout

All fixed numbers of the system under the names by which tools know them.
-/

set_option autoImplicit false

namespace BootMemory.Layout

open Report

/-- The size, the shift and the name of a page size. -/
def pageSizePart (size : PageSize) : String × Report :=
  ("Size" ++ size.label,
    list [report size.bytes, tally size.shift, report size.label, report size.label])

/-- How memory is brought up unless somebody says otherwise. -/
def configPart (config : BootConfig) : String × Report :=
  ("default_boot_config", record [
    ("heap_base", report config.heap.base),
    ("heap_initial", report config.heap.initialBytes),
    ("heap_max", report config.heap.maxBytes),
    ("low_memory", report config.map.lowMemory),
    ("max_physical_address", report config.map.maxAddress.toNat),
    ("reclaim", report config.frames.reclaim.name),
    ("storage_floor", report config.frames.storageFloor)])

def survey : Report :=
  record [
    ("KERNEL_PHYSICAL_BASE", report kernelPhysicalBase),
    ("KERNEL_VIRTUAL_BASE", report kernelVirtualBase),
    ("KERNEL_VIRTUAL_OFFSET", report kernelVirtualOffset),
    ("BOOT_MAPPED_BYTES", report bootMappedBytes),
    ("MAX_PHYSICAL_ADDRESS", report maxPhysicalAddress),
    ("ENTRIES_PER_TABLE", tally entriesPerTable),
    ("RECURSIVE_SLOT", tally recursiveSlot),
    ("RECURSIVE_WINDOW_BASE", report recursiveWindowBase),
    ("DIRECTORY_WINDOW", report directoryWindow),
    ("KERNEL_HEAP_BASE", report heapBase),
    ("KERNEL_HEAP_MAX_SIZE", report heapMaxBytes),
    ("KERNEL_HEAP_INITIAL_SIZE", report heapInitialBytes),
    ("BOOTSTRAP_HEAP_SIZE", tally bootstrapHeapBytes),
    ("LOW_MEMORY_LIMIT", report lowMemoryLimit),
    ("PAGE_SIZE", report pageBytes),
    ("MAX_KERNEL_ARGS", tally Arguments.capacity),
    ("HEAP_SIZE_ARG", report HeapLayout.sizeKey),
    ("UNIT", tally unitBytes),
    ("SENTINEL", report sentinel),
    ("DEFAULT_MIN_CHUNK_UNITS", tally defaultMinChunk),
    pageSizePart .small, pageSizePart .large, configPart .standard]

end BootMemory.Layout
