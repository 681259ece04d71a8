import BootMemory.Text.Numeral

/-!
# Addresses and pages

A physical address is a 64-bit number and a virtual address a 32-bit number; both carry
the bound in their type. A page of either space is named by its index, so a page is
aligned by construction: its base is the index times the page size, which is at most
the last aligned address. A `Frame` is a physical page of the small size.

Two sizes exist. The small one is the unit of mapping, the large one is the span of a
page directory entry.
-/

set_option autoImplicit false

namespace BootMemory

/-- The two page sizes: 4 KiB, the unit of mapping, and 4 MiB, the span of one
directory entry. -/
inductive PageSize where
  | small
  | large
  deriving DecidableEq, Repr

namespace PageSize

def shift : PageSize → Nat
  | small => 12
  | large => 22

def bytes : PageSize → Nat
  | small => 4096
  | large => 4194304

def label : PageSize → String
  | small => "4K"
  | large => "4M"

/-- The size of a page is two to the power of its shift. -/
theorem bytes_eq_two_pow (size : PageSize) : size.bytes = 2 ^ size.shift := by
  cases size <;> rfl

/-- No page is empty. -/
theorem bytes_pos (size : PageSize) : 0 < size.bytes := by
  cases size <;> decide

end PageSize

/-- The number of bytes in a frame or in a small page. -/
def pageBytes : Nat := PageSize.small.bytes

/-- A physical address: any 64-bit number. -/
@[ext]
structure PhysAddr where
  toNat : Nat
  isLt : toNat < 2 ^ 64
  deriving DecidableEq

/-- A virtual address: any 32-bit number. -/
@[ext]
structure VirtAddr where
  toNat : Nat
  isLt : toNat < 2 ^ 32
  deriving DecidableEq

/-- A page of physical memory, named by its index among the pages of its size. -/
@[ext]
structure PhysPage (size : PageSize) where
  index : Nat
  isLt : index * size.bytes < 2 ^ 64
  deriving DecidableEq

/-- A physical page of 4 KiB, the unit that allocators hand out. -/
abbrev Frame := PhysPage .small

/-- A page of the virtual address space, named by its index among the pages of its size. -/
@[ext]
structure VirtPage (size : PageSize) where
  index : Nat
  isLt : index * size.bytes < 2 ^ 32
  deriving DecidableEq

namespace PhysAddr

/-- The address with the low 64 bits of `n`. -/
def ofNat (n : Nat) : PhysAddr := ⟨n % 2 ^ 64, Nat.mod_lt _ (by decide)⟩

/-- An address is made from the low 64 bits of a number. -/
@[simp] theorem toNat_ofNat (n : Nat) : (ofNat n).toNat = n % 2 ^ 64 := rfl

def page (size : PageSize) (addr : PhysAddr) : PhysPage size :=
  ⟨addr.toNat / size.bytes,
    Nat.lt_of_le_of_lt (Nat.div_mul_le_self _ _) addr.isLt⟩

/-- The number of bytes between the base of the page and the address. -/
def offset (size : PageSize) (addr : PhysAddr) : Nat := addr.toNat % size.bytes

/-- Whether the address is the base of a page. -/
def isAligned (size : PageSize) (addr : PhysAddr) : Bool := addr.toNat % size.bytes == 0

/-- The address in eight or more upper-case digits. -/
def text (addr : PhysAddr) : String := Text.hexAddress addr.toNat

def describe (addr : PhysAddr) : String := "PA(" ++ addr.text ++ ")"

end PhysAddr

namespace PhysPage

variable {size : PageSize}

/-- The number of pages of a size. -/
def count (size : PageSize) : Nat := 2 ^ (64 - size.shift)

/-- The pages of one size fill the physical address space exactly. -/
theorem count_mul_bytes (size : PageSize) : count size * size.bytes = 2 ^ 64 := by
  cases size <;> decide

/-- The page with the given index; an index past the last page loses its high bits. -/
def ofIndex (size : PageSize) (index : Nat) : PhysPage size :=
  ⟨index % count size, by
    have hpos : 0 < count size := by cases size <;> decide
    have hlt := Nat.mul_lt_mul_of_pos_right (Nat.mod_lt index hpos) size.bytes_pos
    rwa [count_mul_bytes] at hlt⟩

/-- The page of an index is counted modulo the number of pages. -/
@[simp] theorem index_ofIndex (size : PageSize) (index : Nat) :
    (ofIndex size index).index = index % count size := rfl

def base (page : PhysPage size) : PhysAddr := ⟨page.index * size.bytes, page.isLt⟩

/-- The base of a physical page is its index times its size. -/
@[simp] theorem toNat_base (page : PhysPage size) :
    page.base.toNat = page.index * size.bytes := rfl

/-- The page that starts exactly at the address, if one does. -/
def ofAligned? (size : PageSize) (addr : PhysAddr) : Option (PhysPage size) :=
  if addr.isAligned size then some (addr.page size) else none

/-- The following page; the last page is followed by the first. -/
def next (page : PhysPage size) : PhysPage size := ofIndex size (page.index + 1)

def text (page : PhysPage size) : String := page.base.text ++ "/" ++ size.label

def describe (page : PhysPage size) : String :=
  "PhysicalPage<" ++ size.label ++ ">(" ++ page.base.text ++ ")"

end PhysPage

namespace Frame

/-- The frame with the given number; a number past the last frame loses its high bits. -/
def ofIndex (index : Nat) : Frame := PhysPage.ofIndex .small index

/-- The frame of an index is counted modulo the number of frames. -/
@[simp] theorem index_ofIndex (index : Nat) : (ofIndex index).index = index % 2 ^ 52 := rfl

end Frame

namespace VirtAddr

/-- The address with the low 32 bits of `n`. -/
def ofNat (n : Nat) : VirtAddr := ⟨n % 2 ^ 32, Nat.mod_lt _ (by decide)⟩

/-- A virtual address is made from the low 32 bits of a number. -/
@[simp] theorem toNat_ofNat (n : Nat) : (ofNat n).toNat = n % 2 ^ 32 := rfl

def page (size : PageSize) (addr : VirtAddr) : VirtPage size :=
  ⟨addr.toNat / size.bytes,
    Nat.lt_of_le_of_lt (Nat.div_mul_le_self _ _) addr.isLt⟩

/-- Whether the address is the base of a page. -/
def isAligned (size : PageSize) (addr : VirtAddr) : Bool := addr.toNat % size.bytes == 0

/-- Bits 31 to 22: the slot of the page directory that covers the address. -/
def directoryIndex (addr : VirtAddr) : Fin 1024 :=
  ⟨addr.toNat / 4194304, by have := addr.isLt; omega⟩

/-- Bits 21 to 12: the entry of the page table that covers the address. -/
def tableIndex (addr : VirtAddr) : Fin 1024 :=
  ⟨addr.toNat / 4096 % 1024, Nat.mod_lt _ (by decide)⟩

def pageOffset (addr : VirtAddr) : Fin 4096 := ⟨addr.toNat % 4096, Nat.mod_lt _ (by decide)⟩

/-- The page-aligned address that a directory slot and a table entry select. -/
def ofIndices (directory table : Fin 1024) : VirtAddr :=
  ⟨directory.val * 4194304 + table.val * 4096, by
    have := directory.isLt
    have := table.isLt
    omega⟩

/-- An address is made of its two indices and its offset. -/
theorem toNat_ofIndices_add_pageOffset (addr : VirtAddr) :
    (ofIndices addr.directoryIndex addr.tableIndex).toNat + addr.pageOffset.val = addr.toNat := by
  simp only [ofIndices, directoryIndex, tableIndex, pageOffset]
  omega

/-- An address put together from two indices has the first as its directory index. -/
@[simp] theorem directoryIndex_ofIndices (directory table : Fin 1024) :
    (ofIndices directory table).directoryIndex = directory := by
  apply Fin.ext
  have := table.isLt
  simp only [ofIndices, directoryIndex]
  omega

/-- An address put together from two indices has the second as its table index. -/
@[simp] theorem tableIndex_ofIndices (directory table : Fin 1024) :
    (ofIndices directory table).tableIndex = table := by
  apply Fin.ext
  have := table.isLt
  simp only [ofIndices, tableIndex]
  omega

/-- The address in eight or more upper-case digits. -/
def text (addr : VirtAddr) : String := Text.hexAddress addr.toNat

def describe (addr : VirtAddr) : String := "VA(" ++ addr.text ++ ")"

end VirtAddr

namespace VirtPage

variable {size : PageSize}

/-- The number of pages of a size. -/
def count (size : PageSize) : Nat := 2 ^ (32 - size.shift)

/-- The pages of one size fill the virtual address space exactly. -/
theorem count_mul_bytes (size : PageSize) : count size * size.bytes = 2 ^ 32 := by
  cases size <;> decide

def base (page : VirtPage size) : VirtAddr := ⟨page.index * size.bytes, page.isLt⟩

/-- The base of a virtual page is its index times its size. -/
@[simp] theorem toNat_base (page : VirtPage size) :
    page.base.toNat = page.index * size.bytes := rfl

/-- The following page; the last page is followed by the first. -/
def next (page : VirtPage size) : VirtPage size :=
  ⟨(page.index + 1) % count size, by
    have hpos : 0 < count size := by cases size <;> decide
    have hlt := Nat.mul_lt_mul_of_pos_right (Nat.mod_lt (page.index + 1) hpos) size.bytes_pos
    rwa [count_mul_bytes] at hlt⟩

def text (page : VirtPage size) : String := page.base.text ++ "/" ++ size.label

def describe (page : VirtPage size) : String :=
  "VirtualPage<" ++ size.label ++ ">(" ++ page.base.text ++ ")"

end VirtPage

end BootMemory
