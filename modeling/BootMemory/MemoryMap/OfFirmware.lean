import BootMemory.MemoryMap.Basic
import BootMemory.MemoryMap.Coalesce
import BootMemory.MemoryMap.Descriptor
import BootMemory.MemoryMap.Error
import BootMemory.MemoryMap.Policy

/-!
# Memory maps from firmware lists

A firmware list becomes a memory map in four steps. Descriptors that are empty or start
past the addressable limit are left out, and the others are clipped to the limit. The
addresses between the lowest and the highest bound are cut at every bound; each piece
gets the strictest kind that a descriptor claims for it, and a piece that nobody claims is
a hole. If the platform knows low memory better, its table replaces everything below its
threshold, and its forced ranges are reserved. What is left has to contain free RAM.

RAM beyond the limit cannot be used, but it counts as observed.
-/

set_option autoImplicit false

namespace BootMemory.MemoryMap

/-- What is left of a descriptor under an address limit, if anything is. -/
def keep? (limit : Nat) (descriptor : Descriptor) : Option Region :=
  let base := descriptor.base.toNat
  if descriptor.length = 0 ∨ limit ≤ base then none
  else some ⟨base, min descriptor.stop limit - base, descriptor.kind⟩

/-- What the journal says about a descriptor that is not taken as it is. -/
def screening (limit : Nat) (descriptor : Descriptor) : List Record :=
  let place := descriptor.base.toNat
  let kind := descriptor.kind.text
  if descriptor.length = 0 then
    [⟨.trace, fun _ => .ok ("Dropping empty memory descriptor at " ++ Text.hex place)⟩]
  else if limit ≤ place then
    [⟨.debug, fun _ => .ok ("Ignoring " ++ kind ++ " memory at " ++ Text.hex place ++
      " beyond the addressable limit")⟩]
  else if limit < descriptor.stop then
    [⟨.warn, fun _ => .ok ("Clipping " ++ kind ++ " memory at " ++ Text.hex place ++
      " to the addressable limit " ++ Text.hex limit)⟩]
  else
    []

/-- The bytes of RAM that a list reports, or the largest word. -/
def observed (descriptors : List Descriptor) : Nat :=
  descriptors.foldl (fun sum descriptor =>
    if descriptor.kind.isRam then Word.addSaturating sum descriptor.length.toNat else sum) 0

/-- Whether two regions of a list share a byte. -/
def overlapping : List Region → Bool
  | [] => false
  | region :: rest =>
    rest.any (fun other => region.base < other.stop && other.base < region.stop) ||
      overlapping rest

/-- Puts a number into an ascending list that does not have it yet. -/
def insertBound (bound : Nat) : List Nat → List Nat
  | [] => [bound]
  | first :: rest =>
    if bound < first then bound :: first :: rest
    else if bound = first then first :: rest
    else first :: insertBound bound rest

/-- All bases and ends of a list, in ascending order. -/
def bounds (entries : List Region) : List Nat :=
  entries.foldr (fun entry rest => insertBound entry.base (insertBound entry.stop rest)) []

/-- The strictest kind of the entries that cover the bytes from `low` up to `high`. -/
def kindOver (entries : List Region) (low high : Nat) : MemoryKind :=
  (entries.filter fun entry => entry.base ≤ low && high ≤ entry.stop).foldl
    (fun kind entry => kind.stricter entry.kind) .unspecified

/-- The pieces between consecutive bounds, each with its strictest kind. -/
def pieces (entries : List Region) : List Nat → List Region
  | low :: high :: rest =>
    ⟨low, high - low, kindOver entries low high⟩ :: pieces entries (high :: rest)
  | _ => []

/-- What the journal says about the holes among the pieces. -/
def holes (regions : List Region) : List Record :=
  (regions.filter (·.kind == .unspecified)).map fun hole =>
    ⟨.trace, fun _ =>
      .ok ("Filling hole [" ++ Text.hex hole.base ++ " - " ++ Text.hex hole.stop ++ ")")⟩

/-- What a policy keeps of regions in address order: everything at or above the threshold,
behind a hole if the regions start later. -/
def aboveThreshold (threshold : Nat) (regions : List Region) : List Region :=
  match regions.filter (threshold < ·.stop) with
  | [] => []
  | first :: rest =>
    let clip (region : Region) : Region :=
      let base := max region.base threshold
      ⟨base, region.stop - base, region.kind⟩
    if threshold < first.base then
      ⟨threshold, first.base - threshold, .unspecified⟩ :: (first :: rest).map clip
    else
      (first :: rest).map clip

/-- The regions with a policy applied: the table in place of low memory, and the forced
ranges reserved one after the other. -/
def applyPolicy (policy : LowMemoryPolicy) (regions : List Region) :
    Except Fault (List Region) := do
  let spliced ← Region.coalesce (policy.table ++ aboveThreshold policy.threshold regions)
  policy.forced.foldlM (fun done hole => do
    let stop ← hole.end?
    Region.reserve hole.base stop done) spliced

/-- The memory map that a firmware list describes under a configuration. -/
def ofFirmware (descriptors : List Descriptor) (config : MapConfig) :
    Traced (Except MemoryMapError MemoryMap) := do
  let limit := config.addressLimit
  Traced.reportAll (descriptors.flatMap (screening limit))
  let entries := descriptors.filterMap (keep? limit)
  if entries.isEmpty then
    return .error .empty
  if overlapping entries then
    Traced.report .warn fun _ => .ok
      "Firmware reported overlapping memory ranges, keeping the more restrictive type"
  let cuts := pieces entries (bounds entries)
  Traced.reportAll (holes cuts)
  let resolved ← Region.coalesce cuts
  let regions ← match config.lowMemory with
    | none => pure resolved
    | some policy => applyPolicy policy resolved
  if regions.any (·.kind == .available) then
    let map ← ofRegions regions (observed descriptors)
    return .ok map
  else
    return .error .noUsableMemory

end BootMemory.MemoryMap
