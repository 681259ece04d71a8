import BootMemory.Traced

/-!
# Sources of frames

Whoever edits page tables needs frames to put tables into, and gives frames back. A
`FrameSource` hands out one frame at a time until it has none, and takes frames back.

The plainest source, `FrameStack`, hands out the frame that came back last, and fresh
frames of a range in ascending order when nothing has come back.
-/

set_option autoImplicit false

namespace BootMemory

/-- Something that hands out frames and takes them back. -/
class FrameSource (σ : Type) where
  /-- One frame and the source without it, or nothing if the source is empty. -/
  allocate : σ → Option (Frame × σ)
  /-- The source with a frame back in it. -/
  free : Frame → σ → Traced σ

/-- Returned frames, the last one first, on top of the fresh frames from `next` up to
`stop`. -/
structure FrameStack where
  next : Nat
  stop : Nat
  returned : List Frame
  deriving DecidableEq

namespace FrameStack

/-- The source of the fresh frames from `first` up to `stop`. -/
def ofRange (first stop : Nat) : FrameStack := ⟨first, stop, []⟩

/-- The frame that came back last, or else the next fresh one. -/
def pop (stack : FrameStack) : Option (Frame × FrameStack) :=
  match stack.returned with
  | frame :: rest => some (frame, { stack with returned := rest })
  | [] =>
    if stack.next < stack.stop then
      some (Frame.ofIndex stack.next, { stack with next := stack.next + 1 })
    else
      none

instance : FrameSource FrameStack where
  allocate := pop
  free frame stack := pure { stack with returned := frame :: stack.returned }

end FrameStack

end BootMemory
