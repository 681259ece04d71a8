import BootMemory.Heap.FreeList
import BootMemory.Heap.PagedGrowth

/-!
# The two heaps of the kernel

Allocations are served by two heaps. The bootstrap heap lives in a fixed region that exists
once in the whole program and goes to whoever asks first. The kernel heap lives in a window
of virtual memory; from the moment it is installed everything new comes from it. A block
goes back to the heap that owns its address, so early blocks can still be freed later.

Memory is reached by address here: `readAt` and `fillAt` find the heap that owns the address.
-/

set_option autoImplicit false

namespace BootMemory

/-- The fixed region of the bootstrap heap, and whether it has been handed out. -/
structure BootstrapRegion where
  base : Nat
  taken : Bool
  deriving DecidableEq

namespace BootstrapRegion

/-- Hands the region out; only the first call gets it. -/
def take (region : BootstrapRegion) : Option BumpBreak × BootstrapRegion :=
  if region.taken then (none, region)
  else (some (.ofRegion region.base Layout.bootstrapHeapBytes), { region with taken := true })

end BootstrapRegion

/-- The bootstrap heap and the kernel heap, as far as they exist. -/
structure GlobalHeap where
  bootstrap : Option (Heap BumpBreak)
  kernel : Option (Heap PagedGrowth)

namespace GlobalHeap

variable {β : Type} [PageBacking β]

def empty : GlobalHeap := ⟨none, none⟩

/-- Uses a heap as bootstrap heap, unless there is one. -/
def installBootstrap (heap : Heap BumpBreak) (global : GlobalHeap) :
    Except (Heap BumpBreak) GlobalHeap :=
  match global.bootstrap with
  | some _ => .error heap
  | none => .ok { global with bootstrap := some heap }

/-- Serves everything new from a heap, unless there is a kernel heap. -/
def installKernel (heap : Heap PagedGrowth) (global : GlobalHeap) :
    Traced (Except (Heap PagedGrowth) GlobalHeap) := do
  match global.kernel with
  | some _ => return .error heap
  | none =>
    Traced.report .debug fun _ => .ok ("kernel heap installed at " ++
      heap.growth.start.text ++ s!" ({heap.growth.mapped} bytes mapped)")
    return .ok { global with kernel := some heap }

/-- The bootstrap heap, which takes the fixed region if it does not exist yet. -/
def claimBootstrap (global : GlobalHeap) (region : BootstrapRegion) :
    Option (Heap BumpBreak) × BootstrapRegion :=
  match global.bootstrap with
  | some heap => (some heap, region)
  | none =>
    let (bump, region) := region.take
    (bump.map Heap.ofGrowth, region)

/-- Serves a layout from the kernel heap if there is one, and else from the bootstrap heap.
The answer is an address, or nothing. -/
def allocate (layout : BlockLayout) (global : GlobalHeap) (region : BootstrapRegion)
    (pages : β) : Traced (Option Nat × GlobalHeap × BootstrapRegion × β) := do
  match global.kernel with
  | some heap =>
    let (answer, heap, pages) ← heap.allocateLayout layout pages
    return (answer.toOption, { global with kernel := some heap }, region, pages)
  | none =>
    match global.claimBootstrap region with
    | (none, region) => return (none, global, region, pages)
    | (some heap, region) =>
      let (answer, heap, pages) ← heap.allocateLayout layout pages
      return (answer.toOption, { global with bootstrap := some heap }, region, pages)

/-- Frees the block at an address in the heap that owns the address. Address zero is no
block, and freeing it does nothing. -/
def deallocate (pointer : Nat) (global : GlobalHeap) : Traced GlobalHeap := do
  if pointer = 0 then
    return global
  match global.kernel.filter (·.owns pointer) with
  | some heap =>
    let heap ← heap.free pointer
    return { global with kernel := some heap }
  | none =>
    match global.bootstrap.filter (·.owns pointer) with
    | some heap =>
      let heap ← heap.free pointer
      return { global with bootstrap := some heap }
    | none => Traced.fault (.unownedBlock pointer)

/-- The place of an address: whether the kernel heap owns it, and its block there. -/
def locate? (global : GlobalHeap) (pointer : Nat) : Option (Bool × Nat) :=
  match global.kernel.bind (·.blockOf? pointer) with
  | some block => some (true, block)
  | none => (global.bootstrap.bind (·.blockOf? pointer)).map fun block => (false, block)

def arenaOf (global : GlobalHeap) (inKernel : Bool) : Arena :=
  if inKernel then (global.kernel.map (·.arena)).getD .empty
  else (global.bootstrap.map (·.arena)).getD .empty

/-- The first `count` bytes from an address on. -/
def readAt (global : GlobalHeap) (pointer count : Nat) : Array Nat :=
  match global.locate? pointer with
  | some (inKernel, block) => (global.arenaOf inKernel).bytes (block + 1) count
  | none => #[]

/-- Writes the first `count` bytes of units to an address. -/
def writeAt (pointer count : Nat) (source : Nat → HeapUnit) (global : GlobalHeap) :
    GlobalHeap :=
  match global.locate? pointer with
  | some (true, _) =>
    { global with kernel := global.kernel.map (·.writeAt pointer count source) }
  | some (false, _) =>
    { global with bootstrap := global.bootstrap.map (·.writeAt pointer count source) }
  | none => global

/-- Sets the first `count` bytes from an address on to a value. -/
def fillAt (pointer count value : Nat) (global : GlobalHeap) : GlobalHeap :=
  global.writeAt pointer count fun _ => .filled value

/-- Serves a layout with all bytes zero. -/
def allocateZeroed (layout : BlockLayout) (global : GlobalHeap) (region : BootstrapRegion)
    (pages : β) : Traced (Option Nat × GlobalHeap × BootstrapRegion × β) := do
  let (answer, global, region, pages) ← global.allocate layout region pages
  match answer with
  | none => return (none, global, region, pages)
  | some pointer => return (some pointer, global.fillAt pointer layout.size 0, region, pages)

/-- Serves a layout with the contents of an old block of `oldSize` bytes, as far as they fit,
and frees the old block. If nothing can be served, the old block stays. -/
def reallocate (pointer oldSize : Nat) (layout : BlockLayout) (global : GlobalHeap)
    (region : BootstrapRegion) (pages : β) :
    Traced (Option Nat × GlobalHeap × BootstrapRegion × β) := do
  let (answer, global, region, pages) ← global.allocate layout region pages
  match answer with
  | none => return (none, global, region, pages)
  | some fresh =>
    let old : Nat → HeapUnit :=
      match global.locate? pointer with
      | some (inKernel, block) => fun index =>
        (global.arenaOf inKernel).get (block + 1 + index)
      | none => fun _ => .zero
    let global := global.writeAt fresh (min oldSize layout.size) old
    let global ← global.deallocate pointer
    return (some fresh, global, region, pages)

end GlobalHeap

end BootMemory
