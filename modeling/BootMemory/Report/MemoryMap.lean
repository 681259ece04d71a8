import BootMemory.KernelImage
import BootMemory.MemoryMap.Basic
import BootMemory.MemoryMap.Descriptor
import BootMemory.MemoryMap.Policy
import BootMemory.Report.Address

/-!
# Reports of what the loader hands over

Arguments, descriptors, the kernel image, and the memory map with the policy behind it. A
region is its base, its length and its kind. A report that needs the end of a region, or the
bytes of several, is refused where that number does not fit a word.
-/

set_option autoImplicit false

namespace BootMemory

open Report

instance : Reportable Arguments where
  report args := record [("len", tally args.size), ("is_empty", report args.isEmpty),
    ("args", list (args.pairs.map fun pair => list [report pair.1, report pair.2]))]

instance : Reportable MemoryKind := ⟨fun kind => report kind.name⟩

instance : Reportable Region :=
  ⟨fun region => list [report region.base, report region.length, report region.kind]⟩

instance : Reportable LowMemoryPolicy where
  report policy := record [("threshold", report policy.threshold), ("table", report policy.table),
    ("forced", report policy.forced)]

instance : Reportable Descriptor where
  report descriptor :=
    let kind := descriptor.kind
    record [("end", report descriptor.stop), ("debug", report descriptor.describe),
      ("kind", report kind), ("display", report kind.text), ("as_str", report kind.text),
      ("is_ram", report kind.isRam)]

namespace MemoryKind

def all : List MemoryKind := [available, reserved, acpiReclaimable, unspecified]

/-- The list of kinds leaves none out. -/
theorem mem_all (kind : MemoryKind) : kind ∈ all := by cases kind <;> simp [all]

def ofName? (name : String) : Option MemoryKind := all.find? (·.name == name)

end MemoryKind

namespace KernelImage

/-- The image, and which of some ranges of bytes share a byte with it. -/
def survey (image : KernelImage) (ranges : List (Nat × Nat)) : Report :=
  record [("len", report image.size), ("is_empty", report image.isEmpty),
    ("page_end", report image.pageStop),
    ("overlaps", report (ranges.map fun range => image.overlaps range.1 range.2)),
    ("debug", report image.describe)]

end KernelImage

namespace Region

/-- The region, which of some addresses it contains, and which of some ranges share a byte
with it. -/
def survey (region : Region) (addrs : List Nat) (ranges : List (Nat × Nat)) : Report :=
  record [("region", report region), ("end", report region.end?),
    ("display", report region.text), ("debug", report region.describe),
    ("contains", report (addrs.map region.contains)),
    ("overlaps", report (ranges.map fun range => region.overlaps range.1 range.2))]

end Region

namespace LowMemoryPolicy

def survey (policy : LowMemoryPolicy) : Except Fault Report := do
  let wellFormed ← policy.isWellFormed
  return record [("is_well_formed", report wellFormed), ("policy", report policy),
    ("debug", report policy.describe)]

end LowMemoryPolicy

namespace MemoryMap

/-- How many regions and bytes of a kind there are. -/
def kindPart (map : MemoryMap) (kind : MemoryKind) : Except Fault (String × Report) := do
  let bytes ← map.bytesOfKind kind
  return (kind.name, list [tally (map.ofKind kind).length, report bytes])

def survey (map : MemoryMap) : Except Fault Report := do
  let (low, high) ← map.span
  let kinds ← MemoryKind.all.mapM map.kindPart
  return record [("regions", report map.regions), ("len", tally map.size),
    ("is_empty", report map.isEmpty), ("span", list [report low, report high]),
    ("observed", report map.observedBytes), ("kinds", record kinds)]

end MemoryMap

end BootMemory
