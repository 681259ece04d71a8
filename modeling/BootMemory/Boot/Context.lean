import BootMemory.Boot.Error
import BootMemory.Boot.HeapLayout
import BootMemory.Heap.Global
import BootMemory.MemoryMap.OfFirmware

/-!
# Bringing memory up

Memory comes up in the only order that works: the firmware list becomes a memory map, the
frame allocator is built over it with the kernel image and its own bitmaps reserved, the
first pages of the kernel heap are mapped in the address space, and the heap is installed.

A context holds what is there after the second step. How much RAM the firmware reported is
known as soon as there is a memory map, also when a later step fails.
-/

set_option autoImplicit false

namespace BootMemory

/-- How memory is brought up. -/
structure BootConfig where
  map : MapConfig
  frames : FrameConfig
  heap : HeapLayout
  deriving DecidableEq

def BootConfig.standard : BootConfig := ⟨.pc, .standard, .standard⟩

/-- What the loader hands over, and how much RAM the firmware reported, once that is known. -/
structure BootInfo where
  arguments : Arguments
  descriptors : List Descriptor
  observedBytes : Nat

/-- Turns the firmware list into a memory map, and notes how much RAM it reports. -/
def BootInfo.survey (config : MapConfig) (info : BootInfo) :
    Traced (Except MemoryMapError MemoryMap × BootInfo) := do
  Traced.report .info fun _ =>
    .ok s!"Normalizing {info.descriptors.length} firmware memory descriptors"
  match ← MemoryMap.ofFirmware info.descriptors config with
  | .error cause => return (.error cause, info)
  | .ok map =>
    map.logRegions
    return (.ok map, { info with observedBytes := map.observedBytes })

/-- Where the program sees the window of the kernel heap, and what memory it finds there. -/
structure HeapWindow where
  base : Nat
  arena : Arena

/-- The frames and the address space of the kernel, and the layout of its heap. -/
structure MemoryContext (ω : Type) where
  memory : KernelMemory ω
  heap : HeapLayout

namespace MemoryContext

variable {ω : Type} [TableWindow ω]

/-- Builds the memory map and the frame allocator and takes over an address space. Bitmaps are
placed below `reach`. -/
def start (info : BootInfo) (kernel : KernelImage) (reach : Nat) (space : ω)
    (config : BootConfig) : Traced (Except BootError (MemoryContext ω) × BootInfo) := do
  match ← info.survey config.map with
  | (.error cause, info) => return (.error (.memoryMap cause), info)
  | (.ok map, info) =>
    match ← FrameAllocator.ofMap map kernel reach config.frames with
    | .error cause => return (.error (.frames cause), info)
    | .ok frames =>
      frames.logStatistics
      let heap ← config.heap.withArguments info.arguments
      return (.ok ⟨⟨frames, space⟩, heap⟩, info)

/-- Maps the first pages of the kernel heap, which starts with an empty arena; what is in the
window stays there. -/
def initHeap (window : HeapWindow) (context : MemoryContext ω) :
    Traced (Except BootError (Heap PagedGrowth) × MemoryContext ω) := do
  let layout := context.heap
  let growth := PagedGrowth.ofWindow window.base layout.base layout.maxBytes
  let (answer, growth, memory) ← growth.prefill layout.initialBytes context.memory
  let context := { context with memory }
  match answer with
  | .error cause => return (.error (.heap cause), context)
  | .ok () =>
    Traced.report .info fun _ => .ok ("Kernel heap at " ++ layout.base.text ++
      s!": {growth.mapped / 1024} KiB mapped, up to {layout.maxBytes / 1024} KiB")
    return (.ok (Heap.ofArena window.arena growth), context)

end MemoryContext

/-- What is left when memory has been brought up, or not. -/
structure BootOutcome (ω : Type) where
  answer : Except BootError (MemoryContext ω)
  info : BootInfo
  global : GlobalHeap

variable {ω : Type} [TableWindow ω]

/-- Brings memory up and switches allocation to the kernel heap. -/
def initMemory (global : GlobalHeap) (info : BootInfo) (kernel : KernelImage) (reach : Nat)
    (space : ω) (window : HeapWindow) (config : BootConfig) : Traced (BootOutcome ω) := do
  match ← MemoryContext.start info kernel reach space config with
  | (.error cause, info) => return ⟨.error cause, info, global⟩
  | (.ok context, info) =>
    match ← context.initHeap window with
    | (.error cause, _) => return ⟨.error cause, info, global⟩
    | (.ok heap, context) =>
      match ← global.installKernel heap with
      | .error _ => return ⟨.error .heapAlreadyInstalled, info, global⟩
      | .ok global =>
        Traced.report .info fun _ => .ok "Memory subsystem online"
        return ⟨.ok context, info, global⟩

/-- Brings memory up; a failure ends the run. -/
def initMemoryOrStop (global : GlobalHeap) (info : BootInfo) (kernel : KernelImage)
    (reach : Nat) (space : ω) (window : HeapWindow) (config : BootConfig) :
    Traced (MemoryContext ω × BootOutcome ω) := do
  let outcome ← initMemory global info kernel reach space window config
  match outcome.answer with
  | .ok context => return (context, outcome)
  | .error cause =>
    Traced.report .error fun _ => .ok ("Memory initialization failed: " ++ cause.message)
    Traced.fault (.stopped ("memory initialization failed: " ++ cause.message))

end BootMemory
