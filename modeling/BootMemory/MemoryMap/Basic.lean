import BootMemory.Bisect
import BootMemory.MemoryMap.Region
import BootMemory.Traced

/-!
# The memory map

A memory map is a list of regions in address order, each starting where the one before
it ends. It also remembers how much RAM the firmware reported, which may be more than the
regions hold.
-/

set_option autoImplicit false

namespace BootMemory

/-- Regions in address order, and the number of bytes of RAM that the firmware reported. -/
structure MemoryMap where
  regions : List Region
  observedBytes : Nat
  deriving DecidableEq

namespace MemoryMap

/-- Whether every region ends where the next one starts. -/
def touching : List Region → Except Fault Bool
  | first :: second :: rest => do
    let stop ← first.end?
    if stop = second.base then touching (second :: rest) else return false
  | _ => .ok true

/-- The map of regions that touch. -/
def ofRegions (regions : List Region) (observedBytes : Nat) : Except Fault MemoryMap := do
  if ← touching regions then
    return ⟨regions, observedBytes⟩
  else
    .error .assertion

def size (map : MemoryMap) : Nat := map.regions.length

def isEmpty (map : MemoryMap) : Bool := map.regions.isEmpty

def ofKind (map : MemoryMap) (kind : MemoryKind) : List Region :=
  map.regions.filter (·.kind == kind)

/-- The lowest base and the highest end. -/
def span (map : MemoryMap) : Except Fault (Nat × Nat) :=
  match map.regions.head?, map.regions.getLast? with
  | some first, some last => do
    let stop ← last.end?
    return (first.base, stop)
  | _, _ => .ok (0, 0)

def bytesOfKind (map : MemoryMap) (kind : MemoryKind) : Except Fault Nat :=
  (map.ofKind kind).foldlM (fun sum region => Word.add sum region.length) 0

/-- Whether a region ends at an address or below it. -/
def endsBy (addr : Nat) (region : Region) : Except Fault Bool := do
  let stop ← region.end?
  return stop ≤ addr

/-- The region that an address lies in, if the map covers the address. It is looked for by halving:
the regions that end at the address or below it come first. -/
def regionContaining (map : MemoryMap) (addr : Nat) : Except Fault (Option Region) := do
  let index ← partitionPointM (endsBy addr) map.regions.toArray
  match map.regions[index]? with
  | none => return none
  | some region => return if ← region.contains addr then some region else none

/-- Writes the map to the journal, a line for each region. -/
def logRegions (map : MemoryMap) : Traced Unit := do
  Traced.report .info fun _ => return s!"Physical memory map ({map.size} regions):"
  Traced.foldl (fun _ region => Traced.report .info fun _ => return "  " ++ (← region.text))
    () map.regions
  Traced.report .info fun _ => do
    let available ← map.bytesOfKind .available
    return s!"Available: {available / 1024} KiB, observed RAM: {map.observedBytes / 1024} KiB"

end MemoryMap

end BootMemory
