import BootMemory.Word

/-!
# Memory kinds and regions

A region is a range of physical bytes of one kind. Kinds are ordered by how much they
restrict the use of the memory; where two claims overlap, the more restrictive one wins.

The end of a region is the sum of its base and its length. As a number it always exists;
a program that computes it faults if it does not fit a 64-bit word, which `Region.end?`
says.
-/

set_option autoImplicit false

namespace BootMemory

/-- What memory may be used for. -/
inductive MemoryKind where
  /-- Free RAM. -/
  | available
  /-- Memory of the firmware or of a device. -/
  | reserved
  /-- RAM that holds firmware tables until they have been read. -/
  | acpiReclaimable
  /-- Memory that nobody described. -/
  | unspecified
  deriving DecidableEq, Repr

namespace MemoryKind

/-- The kind that a firmware type code stands for; unknown codes are reserved memory. -/
def ofCode (code : Nat) : MemoryKind :=
  if code = 1 then available
  else if code = 3 then acpiReclaimable
  else reserved

/-- Whether the firmware counts the memory as installed RAM. -/
def isRam : MemoryKind → Bool
  | available => true
  | acpiReclaimable => true
  | reserved => false
  | unspecified => false

/-- How restrictive a kind is. -/
def precedence : MemoryKind → Nat
  | unspecified => 0
  | available => 1
  | acpiReclaimable => 2
  | reserved => 3

/-- No two kinds share a precedence, so one of any two kinds wins. -/
theorem precedence_injective {a b : MemoryKind} (h : a.precedence = b.precedence) : a = b := by
  cases a <;> cases b <;> first | rfl | simp [precedence] at h

/-- The more restrictive of two kinds. -/
def stricter (a b : MemoryKind) : MemoryKind :=
  if a.precedence ≤ b.precedence then b else a

def text : MemoryKind → String
  | available => "available"
  | reserved => "reserved"
  | acpiReclaimable => "acpi reclaimable"
  | unspecified => "unspecified"

def name : MemoryKind → String
  | available => "Available"
  | reserved => "Reserved"
  | acpiReclaimable => "AcpiReclaimable"
  | unspecified => "Unspecified"

end MemoryKind

/-- The bytes from `base` up to `base + length`, all of one kind. -/
structure Region where
  base : Nat
  length : Nat
  kind : MemoryKind
  deriving DecidableEq

namespace Region

/-- The first address past the region, as a number without a bound. -/
def stop (region : Region) : Nat := region.base + region.length

/-- The first address past the region, if it fits a word. -/
def end? (region : Region) : Except Fault Nat := Word.add region.base region.length

/-- The end of a region can be computed exactly when it fits a word. -/
theorem end?_eq_ok_iff {region : Region} {n : Nat} :
    region.end? = .ok n ↔ region.stop < 2 ^ 64 ∧ n = region.stop := Word.add_eq_ok_iff

/-- A region that ends within a word has its end computed. -/
theorem end?_of_lt {region : Region} (h : region.stop < 2 ^ 64) :
    region.end? = .ok region.stop := end?_eq_ok_iff.mpr ⟨h, rfl⟩

/-- The region from `base` up to `stop`; the bounds have to be in order. -/
def ofBounds (base stop : Nat) (kind : MemoryKind) : Except Fault Region :=
  if base ≤ stop then .ok ⟨base, stop - base, kind⟩ else .error .assertion

/-- Bounds in the right order make the region between them. -/
theorem ofBounds_of_le {base stop : Nat} (kind : MemoryKind) (h : base ≤ stop) :
    ofBounds base stop kind = .ok ⟨base, stop - base, kind⟩ := by simp [ofBounds, h]

/-- Whether an address lies in the region. The end is looked at only for addresses that
are not below the base. -/
def contains (region : Region) (addr : Nat) : Except Fault Bool :=
  if region.base ≤ addr then do
    let stop ← region.end?
    return addr < stop
  else
    return false

/-- Whether the bytes from `first` up to `stop` start before the region ends and end after
it starts. -/
def overlaps (region : Region) (first stop : Nat) : Except Fault Bool := do
  let regionStop ← region.end?
  return first < regionStop && region.base < stop

/-- One line about the region: bounds, size in KiB and kind. -/
def text (region : Region) : Except Fault String := do
  let stop ← region.end?
  return "[" ++ Text.hexWide region.base ++ " - " ++ Text.hexWide stop ++ ") " ++
    Text.rightAligned 8 (region.length / 1024) ++ " KiB  " ++ region.kind.text

def describe (region : Region) : String :=
  "MemoryRegion \x7b base: " ++ toString region.base ++ ", length: " ++
    toString region.length ++ ", kind: " ++ region.kind.name ++ " \x7d"

end Region

end BootMemory
