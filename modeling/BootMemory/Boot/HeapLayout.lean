import BootMemory.CommandLine.Arguments
import BootMemory.CommandLine.Size
import BootMemory.Layout
import BootMemory.Traced

/-!
# The layout of the kernel heap

Where the window of the kernel heap starts, how large it may become, and how much of it is
mapped while the system starts. The command line may change the last of these; a size that
is larger than the window is cut to it, and something that is no size is ignored.
-/

set_option autoImplicit false

namespace BootMemory

/-- The window of the kernel heap. -/
structure HeapLayout where
  base : VirtAddr
  initialBytes : Nat
  maxBytes : Nat
  deriving DecidableEq

namespace HeapLayout

def standard : HeapLayout where
  base := ⟨Layout.heapBase, by decide⟩
  initialBytes := Layout.heapInitialBytes
  maxBytes := Layout.heapMaxBytes

/-- The argument that sets how much is mapped while the system starts. -/
def sizeKey : String := "heap_size"

/-- The layout with the size that the command line asks for, if it asks for one. -/
def withArguments (args : Arguments) (layout : HeapLayout) : Traced HeapLayout := do
  match args.get? sizeKey with
  | none => return layout
  | some text =>
    match Size.ofString? text with
    | none =>
      Traced.report .warn fun _ =>
        .ok ("ignoring " ++ sizeKey ++ "=" ++ text ++ ": not a size")
      return layout
    | some bytes =>
      if layout.maxBytes < bytes then
        Traced.report .warn fun _ => .ok (sizeKey ++ "=" ++ text ++
          s!" exceeds the heap window, using {layout.maxBytes} bytes")
      return { layout with initialBytes := min bytes layout.maxBytes }

/-- Where the kernel, which runs in the address space it maps into, sees the window; address
zero is no place. -/
def window (layout : HeapLayout) : Option VirtAddr :=
  if layout.base.toNat = 0 then none else some layout.base

end HeapLayout

end BootMemory
