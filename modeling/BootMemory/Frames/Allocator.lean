import BootMemory.Bisect
import BootMemory.Frames.Region
import BootMemory.Frames.Source
import BootMemory.Frames.Storage
import BootMemory.Layout

/-!
# The frame allocator

Every whole frame of RAM below 4 GiB is tracked, one stretch of frames for each region of
the memory map. Free frames are handed out lowest first. A cursor points at the first
stretch that may have a free frame: all stretches before it are full, so a search that
starts at the cursor finds the lowest frame. Freeing a frame below the cursor moves the
cursor down.

At the start the kernel image and the bitmaps themselves are reserved, and RAM that still
holds firmware tables is reserved as well unless the configuration releases it.
-/

set_option autoImplicit false

namespace BootMemory

/-- What happens to RAM that holds firmware tables. -/
inductive ReclaimPolicy where
  /-- It stays reserved. -/
  | keepReserved
  /-- It is handed out like other RAM. -/
  | release
  deriving DecidableEq, Repr

def ReclaimPolicy.name : ReclaimPolicy → String
  | keepReserved => "KeepReserved"
  | release => "Release"

/-- How a frame allocator is set up. -/
structure FrameConfig where
  /-- The bitmaps are never placed below this address. -/
  storageFloor : Nat
  reclaim : ReclaimPolicy
  deriving DecidableEq

/-- The bitmaps stay out of the first megabyte, and firmware tables stay reserved. -/
def FrameConfig.standard : FrameConfig := ⟨Layout.lowMemoryLimit, .keepReserved⟩

/-- Why there is no frame allocator. -/
inductive FrameError where
  | noTrackableMemory
  | noBitmapStorage
  deriving DecidableEq, Repr

namespace FrameError

def name : FrameError → String
  | noTrackableMemory => "NoTrackableMemory"
  | noBitmapStorage => "NoBitmapStorage"

def message : FrameError → String
  | noTrackableMemory => "the memory map contains no trackable frame"
  | noBitmapStorage => "no available region can hold the frame bitmap"

end FrameError

/-- The tracked stretches of RAM, with the counters over all of them. -/
structure FrameAllocator where
  regions : Array FrameRegion
  /-- The first stretch that may have a free frame. -/
  cursor : Nat
  total : Nat
  used : Nat
  reserved : Nat
  storage : BitmapStorage
  kernel : KernelImage
  map : MemoryMap

namespace FrameAllocator

/-- A stretch of whole frames that is to be tracked. -/
structure Stretch where
  kind : MemoryKind
  first : Nat
  frames : Nat
  deriving DecidableEq

/-- The first address that a page table entry cannot name. -/
def addressLimit : Nat := Layout.maxPhysicalAddress + 1

/-- The whole frames of a region that lie below the limit, if there are any. -/
def stretch? (region : Region) : Traced (Option Stretch) := do
  let stop ← region.end?
  if addressLimit < stop then
    Traced.report .warn fun _ => do
      return "ignoring memory above " ++ Text.hex addressLimit ++ " in region " ++
        (← region.text)
  let frames := wholePages .small region.base (min stop addressLimit)
  if 0 < frames then
    return some ⟨region.kind, roundUp region.base pageBytes / pageBytes, frames⟩
  else
    return none

/-- The stretches of the RAM regions of a map, in address order. -/
def stretches : List Region → Traced (List Stretch)
  | [] => pure []
  | region :: rest => do
    if region.kind.isRam then
      let here ← stretch? region
      let others ← stretches rest
      return here.toList ++ others
    else
      stretches rest

/-- A stretch with all frames free or, if it is kept, all frames reserved. -/
def startRegion (keep : Bool) (next : Nat) (stretch : Stretch) : FrameRegion :=
  let bitmap := Bitmap.empty stretch.frames
  if keep then
    ⟨stretch.kind, stretch.first, bitmap.insertAll, stretch.frames, stretch.frames, next⟩
  else
    ⟨stretch.kind, stretch.first, bitmap, 0, 0, next⟩

/-- Reserves the frames that share a byte with the addresses from `start` up to `stop`, and
says how many were free. -/
def reserveRange (allocator : FrameAllocator) (start stop : Nat) : FrameAllocator × Nat :=
  let results := allocator.regions.map (·.reserve start stop)
  let fresh := results.foldl (fun sum result => sum + result.2) 0
  ({ allocator with
      regions := results.map (·.1)
      used := allocator.used + fresh
      reserved := allocator.reserved + fresh }, fresh)

/-- The allocator over a memory map. The bitmaps are placed below `reach`. -/
def ofMap (map : MemoryMap) (kernel : KernelImage) (reach : Nat) (config : FrameConfig) :
    Traced (Except FrameError FrameAllocator) := do
  let found ← stretches map.regions
  let total := (found.map Stretch.frames).sum
  if total = 0 then
    return .error .noTrackableMemory
  let words := (found.map fun stretch => wordsFor stretch.frames).sum
  match ← BitmapStorage.place? kernel words config.storageFloor reach
      (map.ofKind .available) with
  | none => return .error .noBitmapStorage
  | some storage =>
    Traced.report .debug fun _ => .ok (s!"frame bitmap: {words} words at " ++
      Text.hexAddress storage.start ++ " (" ++ storage.placement.name ++ ")")
    let regions := found.mapIdx fun index stretch =>
      let keep := stretch.kind != .available && config.reclaim == .keepReserved
      startRegion keep ((index + 1) % found.length) stretch
    let used := (regions.map FrameRegion.used).sum
    let start : FrameAllocator :=
      { regions := regions.toArray, cursor := 0, total, used, reserved := used, storage,
        kernel, map }
    let (withoutKernel, _) := start.reserveRange kernel.start.toNat kernel.stop.toNat
    let (ready, _) := withoutKernel.reserveRange storage.start storage.stop
    return .ok ready

/-- The position of the stretch that a frame belongs to. Only the first stretch that ends
behind the frame can be it. -/
def regionOf? (allocator : FrameAllocator) (frame : Frame) : Option Nat := do
  let index := partitionPoint (fun region => region.stop ≤ frame.index) allocator.regions
  let region ← allocator.regions[index]?
  if region.contains frame then some index else none

/-- The first free frame on the ring, seen from position `index`, as a position and a bit.
At most `steps` stretches are looked at. -/
def searchFrom (regions : Array FrameRegion) : Nat → Nat → Option (Nat × Nat)
  | 0, _ => none
  | steps + 1, index => do
    let region ← regions[index]?
    match region.lowestFree with
    | some bit => some (index, bit)
    | none => searchFrom regions steps region.next

/-- The lowest free frame, and the allocator without it. -/
def allocate (allocator : FrameAllocator) : Option (Frame × FrameAllocator) := do
  if allocator.used = allocator.total then none
  let (index, bit) ← searchFrom allocator.regions allocator.regions.size allocator.cursor
  let region ← allocator.regions[index]?
  let frame := region.frameAt bit
  some (frame, { allocator with
    regions := allocator.regions.modify index (·.take bit)
    cursor := index
    used := allocator.used + 1 })

/-- The allocator with a frame free again. Frames that are not tracked are none of its
business; a tracked frame has to be in use. -/
def free (frame : Frame) (allocator : FrameAllocator) : Traced FrameAllocator :=
  match allocator.regionOf? frame with
  | none => do
    Traced.report .debug fun _ => .ok ("ignoring free of untracked frame " ++ frame.text)
    return allocator
  | some index =>
    match allocator.regions[index]? with
    | none => return allocator
    | some region =>
      let bit := region.bitOf frame
      if region.bitmap.contains bit then
        return { allocator with
          regions := allocator.regions.modify index (·.release bit)
          used := allocator.used - 1
          cursor := min index allocator.cursor }
      else
        Traced.fault (.doubleFree frame)

/-- The allocator with `count` frames from number `first` on free again, the lowest first. -/
def freeRun (first count : Nat) (allocator : FrameAllocator) : Traced FrameAllocator := do
  let step (state : FrameAllocator × Nat) : Traced ((FrameAllocator × Nat) ⊕ Empty) := do
    let index ← Word.add first state.2
    return .inl (← state.1.free (.ofIndex index), state.2 + 1)
  match ← Traced.loop step count (allocator, 0) with
  | .inl (freed, _) => return freed

def freeFrames (allocator : FrameAllocator) : Nat := allocator.total - allocator.used

/-- Whether a frame is reserved, in use, or not tracked at all. -/
def isUsed (allocator : FrameAllocator) (frame : Frame) : Bool :=
  match allocator.regionOf? frame with
  | none => true
  | some index => allocator.regions[index]?.any fun region =>
    region.bitmap.contains (region.bitOf frame)

instance : FrameSource FrameAllocator where
  allocate := allocate
  free := free

/-- Writes the counters to the journal. -/
def logStatistics (allocator : FrameAllocator) : Traced Unit := do
  let storage := allocator.storage
  Traced.report .info fun _ => .ok "Physical memory manager initialized"
  Traced.report .info fun _ => .ok s!"  block size: {pageBytes} bytes"
  Traced.report .info fun _ => .ok (s!"  frames: {allocator.total} total, " ++
    s!"{allocator.used} used, {allocator.reserved} ever reserved, " ++
    s!"{allocator.freeFrames} free")
  Traced.report .info fun _ =>
    .ok s!"  usable memory: {allocator.freeFrames * pageBytes / 1048576} MiB"
  Traced.report .info fun _ =>
    .ok s!"  observed memory: {allocator.map.observedBytes / 1048576} MiB"
  Traced.report .info fun _ => .ok ("  bitmap: " ++ Text.hexAddress storage.start ++ ".." ++
    Text.hexAddress storage.stop ++ s!" ({allocator.regions.size} regions, " ++
    storage.placement.name ++ ")")

def describe (allocator : FrameAllocator) : String :=
  "FrameAllocator \x7b regions: " ++ toString allocator.regions.size ++
    ", total_frames: " ++ toString allocator.total ++
    ", used_frames: " ++ toString allocator.used ++
    ", reserved_frames: " ++ toString allocator.reserved ++
    ", storage: " ++ allocator.storage.describe ++ ", .. \x7d"

end FrameAllocator

end BootMemory
