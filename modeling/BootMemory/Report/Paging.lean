import BootMemory.Paging.SoftMmu
import BootMemory.Report.Frames

/-!
# Reports of page tables

Entries and flags alone are their words. A survey of an entry shows every field of it, and a
table is told about by the runs of its words.
-/

set_option autoImplicit false

namespace BootMemory

open Report

instance : Reportable PageEntry := ⟨fun entry => report entry.toBits⟩

instance : Reportable PageFlags := ⟨fun flags => report flags.toBits⟩

def PageEntry.survey (entry : PageEntry) : Report :=
  record [("bits", report entry), ("present", report entry.present),
    ("writable", report entry.writable), ("user", report entry.user),
    ("write_through", report entry.writeThrough),
    ("cache_disabled", report entry.cacheDisabled), ("accessed", report entry.accessed),
    ("dirty", report entry.dirty), ("page_size", report entry.pageSize),
    ("global", report entry.isGlobal), ("os_available", tally entry.osAvailable.val),
    ("frame_number", report entry.frameNumber.val), ("frame", report entry.frame),
    ("address", report entry.address), ("flags", report entry.flags),
    ("is_empty", report entry.isEmpty)]

/-- The flags among the bits of one word, and what they give together with those of another. -/
def PageFlags.survey (bits other : Nat) : Report :=
  let flags := ofBits bits
  record [("from_bits", report (ofBits? bits)), ("truncate", report flags),
    ("debug", report flags.describe), ("contains", report (flags.contains (ofBits other))),
    ("intersects", report (flags.intersects (ofBits other))),
    ("union", report (flags.union (ofBits other))), ("is_empty", report flags.isEmpty),
    ("is_all", report flags.isAll), ("composites", report [kernel, userReadWrite])]

namespace PageTable

/-- The words of a table, by runs. -/
def wordRuns (table : PageTable) : Report :=
  Runs.report (Runs.repeated (table.entries.toList.map PageEntry.toBits))

/-- The positions that are not empty, each with its word. -/
def occupied (table : PageTable) : Report :=
  let slots := table.entries.toList.zipIdx.filter fun slot => !slot.1.isEmpty
  list (slots.map fun slot => list [tally slot.2, report slot.1])

end PageTable

def TableIndex.survey (slot : TableIndex) : Report :=
  record [("index", tally slot.val), ("window", report slot.window),
    ("recursive", report slot.isRecursive)]

/-- The invalidated pages, and how many frames are in use. -/
instance : Reportable SoftMmu :=
  ⟨fun mmu => list [report mmu.invalidations, tally mmu.touchedFrames]⟩

end BootMemory
