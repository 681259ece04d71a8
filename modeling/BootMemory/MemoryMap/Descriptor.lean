import BootMemory.MemoryMap.Region

/-!
# Firmware descriptors

The firmware describes memory by a list of records of three machine words: a base, a
length and a type code. Nothing is promised about the list: descriptors come in any
order, overlap, are empty, or reach past the last address. The end of a descriptor is
therefore cut off at the last number that fits a word.
-/

set_option autoImplicit false

namespace BootMemory

/-- One record of the firmware's memory list. -/
structure Descriptor where
  base : UInt64
  length : UInt64
  code : UInt32
  deriving DecidableEq

namespace Descriptor

/-- The first address past the descriptor, or the largest word. -/
def stop (descriptor : Descriptor) : Nat :=
  Word.addSaturating descriptor.base.toNat descriptor.length.toNat

/-- The kind of memory that the type code stands for. -/
def kind (descriptor : Descriptor) : MemoryKind := MemoryKind.ofCode descriptor.code.toNat

def describe (descriptor : Descriptor) : String :=
  "RawMemoryDescriptor \x7b base: " ++ toString descriptor.base.toNat ++ ", length: " ++
    toString descriptor.length.toNat ++ ", kind: " ++ toString descriptor.code.toNat ++
    " \x7d"

end Descriptor

end BootMemory
