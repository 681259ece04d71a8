/-!
# Refused mappings

The reasons for which a page cannot be mapped or unmapped.
-/

set_option autoImplicit false

namespace BootMemory

/-- Why a page was not mapped or unmapped. -/
inductive MappingError where
  | outOfFrames
  | alreadyMapped
  | notMapped
  | recursiveWindow
  | unaligned
  | unaddressable
  deriving DecidableEq, Repr

namespace MappingError

def name : MappingError → String
  | outOfFrames => "OutOfFrames"
  | alreadyMapped => "AlreadyMapped"
  | notMapped => "NotMapped"
  | recursiveWindow => "RecursiveWindow"
  | unaligned => "Unaligned"
  | unaddressable => "Unaddressable"

def message : MappingError → String
  | outOfFrames => "no physical frame available for a page table"
  | alreadyMapped => "virtual page is already mapped"
  | notMapped => "virtual page is not mapped"
  | recursiveWindow => "address lies inside the recursive page table window"
  | unaligned => "address is not page aligned"
  | unaddressable => "physical address is not reachable by 32-bit paging"

def all : List MappingError :=
  [outOfFrames, alreadyMapped, notMapped, recursiveWindow, unaligned, unaddressable]

def ofName? (text : String) : Option MappingError := all.find? (·.name == text)

end MappingError

end BootMemory
