import BootMemory.Word

/-!
# Rounding to a multiple

`roundDown` gives the last multiple at or below a number, `roundUp` the first multiple at
or above it. Rounding up stays inside a 64-bit word: where the next multiple would not
fit, the last one that fits is the answer. Both are asked for powers of two only, and
`alignDown` and `alignUp` refuse every other granularity.

`wholePages` counts the pages that lie inside a range of bytes.
-/

set_option autoImplicit false

namespace BootMemory

/-- The last multiple of `granule` that is not above `n`. -/
def roundDown (n granule : Nat) : Nat := n / granule * granule

/-- The first multiple of `granule` that is not below `n`, or, if it does not fit a word,
the last multiple that is not above `n`. -/
def roundUp (n granule : Nat) : Nat :=
  if n + (granule - 1) < 2 ^ 64 then roundDown (n + (granule - 1)) granule
  else roundDown n granule

/-- Whether a number is a power of two. -/
def isPowerOfTwo (n : Nat) : Bool := 2 ^ n.log2 == n

/-- Rounds down to a power of two. -/
def alignDown (n granule : Nat) : Except Fault Nat :=
  if isPowerOfTwo granule then .ok (roundDown n granule) else .error .assertion

/-- Rounds up to a power of two, staying inside a word. -/
def alignUp (n granule : Nat) : Except Fault Nat :=
  if isPowerOfTwo granule then .ok (roundUp n granule) else .error .assertion

/-- Rounding down never goes above the number. -/
theorem roundDown_le (n granule : Nat) : roundDown n granule ≤ n := Nat.div_mul_le_self _ _

/-- Rounding a word up gives a word again: the sum saturates. -/
theorem roundUp_lt {n granule : Nat} (h : n < 2 ^ 64) : roundUp n granule < 2 ^ 64 := by
  unfold roundUp
  split
  case isTrue fits => exact Nat.lt_of_le_of_lt (roundDown_le _ _) fits
  case isFalse => exact Nat.lt_of_le_of_lt (roundDown_le _ _) h

/-- The number of pages that lie inside the bytes from `first` up to, but not including,
`stop`. -/
def wholePages (size : PageSize) (first stop : Nat) : Nat :=
  (roundDown stop size.bytes - roundUp first size.bytes) / size.bytes

namespace PhysAddr

/-- The base of the page that contains the address. -/
def alignDown (size : PageSize) (addr : PhysAddr) : PhysAddr :=
  ⟨roundDown addr.toNat size.bytes, Nat.lt_of_le_of_lt (roundDown_le _ _) addr.isLt⟩

/-- The first page base that is not below the address, or the last page base of all. -/
def alignUp (size : PageSize) (addr : PhysAddr) : PhysAddr :=
  ⟨roundUp addr.toNat size.bytes, roundUp_lt addr.isLt⟩

/-- The address `n` bytes further up, if there is one. -/
def add? (addr : PhysAddr) (n : Nat) : Option PhysAddr :=
  if h : addr.toNat + n < 2 ^ 64 then some ⟨addr.toNat + n, h⟩ else none

def add (addr : PhysAddr) (n : Nat) : Except Fault PhysAddr :=
  match addr.add? n with
  | some sum => .ok sum
  | none => .error .overflow

def sub (addr other : PhysAddr) : Except Fault Nat := Word.sub addr.toNat other.toNat

end PhysAddr

namespace PhysPage

variable {size : PageSize}

def stop (page : PhysPage size) : Except Fault PhysAddr := page.base.add size.bytes

end PhysPage

namespace VirtAddr

/-- The base of the page that contains the address. -/
def alignDown (size : PageSize) (addr : VirtAddr) : VirtAddr :=
  ⟨roundDown addr.toNat size.bytes, Nat.lt_of_le_of_lt (roundDown_le _ _) addr.isLt⟩

/-- The address `n` bytes further up, if there is one. -/
def add? (addr : VirtAddr) (n : Nat) : Option VirtAddr :=
  if h : addr.toNat + n < 2 ^ 32 then some ⟨addr.toNat + n, h⟩ else none

def add (addr : VirtAddr) (n : Nat) : Except Fault VirtAddr :=
  match addr.add? n with
  | some sum => .ok sum
  | none => .error .overflow

def sub (addr other : VirtAddr) : Except Fault Nat := Word.sub addr.toNat other.toNat

/-- The address that two table indices select, if both are indices of a table. -/
def ofIndices? (directory table : Nat) : Except Fault VirtAddr :=
  if h : directory < 1024 ∧ table < 1024 then
    .ok (ofIndices ⟨directory, h.1⟩ ⟨table, h.2⟩)
  else
    .error .assertion

end VirtAddr

end BootMemory
