import BootMemory.Layout
import BootMemory.MemoryMap.Region

/-!
# Platform policy

What a platform knows better than its firmware. Below a threshold the firmware's list is
thrown away and replaced by a fixed table, which has to cover the addresses up to the
threshold without gap or overlap. Some ranges are reserved wherever the map covers them.
A configuration also says how far the kernel can address memory at all.
-/

set_option autoImplicit false

namespace BootMemory

/-- What replaces the firmware's description of low memory. -/
structure LowMemoryPolicy where
  threshold : Nat
  table : List Region
  forced : List Region
  deriving DecidableEq

namespace LowMemoryPolicy

/-- Whether regions that are not empty follow each other from `expected` up to
`threshold`. -/
def tiles (threshold : Nat) : Nat → List Region → Except Fault Bool
  | expected, [] => .ok (expected == threshold)
  | expected, region :: rest =>
    if region.base ≠ expected ∨ region.length = 0 then .ok false
    else do
      let stop ← region.end?
      tiles threshold stop rest

/-- Whether the table covers the addresses below the threshold exactly once. -/
def isWellFormed (policy : LowMemoryPolicy) : Except Fault Bool :=
  tiles policy.threshold 0 policy.table

def describe (policy : LowMemoryPolicy) : String :=
  let list (regions : List Region) : String :=
    "[" ++ String.intercalate ", " (regions.map Region.describe) ++ "]"
  "LowMemoryPolicy \x7b threshold: " ++ toString policy.threshold ++ ", table: " ++
    list policy.table ++ ", forced_reserved: " ++ list policy.forced ++ " \x7d"

/-- The first megabyte of a PC, and the hole that old expansion cards use. -/
def pc : LowMemoryPolicy where
  threshold := 0x100000
  table :=
    [⟨0x0, 0x400, .reserved⟩, ⟨0x400, 0x100, .reserved⟩, ⟨0x500, 0x7700, .available⟩,
      ⟨0x7C00, 0x200, .reserved⟩, ⟨0x7E00, 0x78200, .available⟩,
      ⟨0x80000, 0x20000, .reserved⟩, ⟨0xA0000, 0x60000, .reserved⟩]
  forced := [⟨0xF00000, 0x100000, .reserved⟩]

/-- The table of the PC covers its megabyte. -/
theorem isWellFormed_pc : pc.isWellFormed = .ok true := rfl

end LowMemoryPolicy

/-- How a firmware list is turned into a memory map. -/
structure MapConfig where
  /-- The highest address that the kernel can keep track of. -/
  maxAddress : UInt64
  /-- What replaces low memory, if the platform says. -/
  lowMemory : Option LowMemoryPolicy
  deriving DecidableEq

namespace MapConfig

/-- No limit and no platform knowledge. -/
def generic : MapConfig := ⟨0xFFFFFFFFFFFFFFFF, none⟩

/-- A 32-bit PC. -/
def pc : MapConfig := ⟨UInt64.ofNat Layout.maxPhysicalAddress, some .pc⟩

/-- The first address that the kernel cannot keep track of, or the largest word. -/
def addressLimit (config : MapConfig) : Nat := Word.addSaturating config.maxAddress.toNat 1

end MapConfig

end BootMemory
