import BootMemory.Frames.Allocator
import BootMemory.Paging.AddressSpace

/-!
# Kernel memory

The frame allocator and the address space that it feeds, owned together. Page tables and
data frames come from the same allocator, and a page that cannot be mapped costs nothing:
the frame taken for it goes back.

A heap that grows page by page needs only two things of all this: put RAM behind a page, and
take it away again. That is a `PageBacking`.
-/

set_option autoImplicit false

namespace BootMemory

/-- Something that puts RAM behind single pages. -/
class PageBacking (β : Type) where
  /-- Backs a page with a frame of its own; when it fails, nothing is mapped. -/
  back : VirtAddr → β → Traced (Except MappingError Unit × β)
  /-- Undoes `back`. -/
  release : VirtAddr → β → Traced β

/-- A frame allocator and an address space. -/
structure KernelMemory (ω : Type) where
  frames : FrameAllocator
  space : ω

namespace KernelMemory

variable {ω : Type} [TableWindow ω]

/-- Maps the page at `virt` to the frame at `phys`. -/
def map (phys : PhysAddr) (virt : VirtAddr) (flags : PageFlags) (mode : AddressSpace.MapMode)
    (memory : KernelMemory ω) : Traced (Except MappingError Unit × KernelMemory ω) := do
  let (answer, space, frames) ←
    AddressSpace.map phys virt flags mode memory.space memory.frames
  return (answer, ⟨frames, space⟩)

def unmap (virt : VirtAddr) (memory : KernelMemory ω) :
    Traced (Except MappingError Frame × KernelMemory ω) := do
  let (answer, space, frames) ← AddressSpace.unmap virt memory.space memory.frames
  return (answer, ⟨frames, space⟩)

/-- Maps the page at `virt` to a frame that was free. -/
def mapFresh (virt : VirtAddr) (flags : PageFlags) (memory : KernelMemory ω) :
    Traced (Except MappingError Frame × KernelMemory ω) := do
  match memory.frames.allocate with
  | none => return (.error .outOfFrames, memory)
  | some (frame, frames) =>
    let (answer, memory) ← map frame.base virt flags .fresh ⟨frames, memory.space⟩
    match answer with
    | .ok () => return (.ok frame, memory)
    | .error complaint =>
      let frames ← memory.frames.free frame
      return (.error complaint, { memory with frames })

def translate (virt : VirtAddr) (memory : KernelMemory ω) :
    Traced (Option PhysAddr × KernelMemory ω) := do
  let (answer, space) ← AddressSpace.translate virt memory.space
  return (answer, { memory with space })

def isMapped (virt : VirtAddr) (memory : KernelMemory ω) :
    Traced (Bool × KernelMemory ω) := do
  let (answer, space) ← AddressSpace.isMapped virt memory.space
  return (answer, { memory with space })

/-- Backs a page with a frame, for the kernel to read and write. -/
def back (virt : VirtAddr) (memory : KernelMemory ω) :
    Traced (Except MappingError Unit × KernelMemory ω) := do
  let (answer, memory) ← mapFresh virt .kernel memory
  return (answer.map fun _ => (), memory)

/-- Takes the frame behind a page away; a page that has none is only worth a warning. -/
def release (virt : VirtAddr) (memory : KernelMemory ω) : Traced (KernelMemory ω) := do
  let (answer, memory) ← unmap virt memory
  match answer with
  | .ok _ => return memory
  | .error complaint =>
    Traced.report .warn fun _ =>
      .ok ("releasing heap page " ++ virt.text ++ ": " ++ complaint.message)
    return memory

instance : PageBacking (KernelMemory ω) where
  back := back
  release := release

end KernelMemory

end BootMemory
