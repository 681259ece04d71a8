import BootMemory.Address.Align
import BootMemory.Paging.Flags

/-!
# Page table entries

An entry of a page directory or a page table is a word of 32 bits: nine single bits, three
bits that the processor ignores, and the number of a frame in the upper twenty. The record
has a field for each of these, so every word is an entry and every entry a word.
-/

set_option autoImplicit false

namespace BootMemory

/-- One entry of a page directory or a page table. -/
@[ext]
structure PageEntry where
  present : Bool
  writable : Bool
  user : Bool
  writeThrough : Bool
  cacheDisabled : Bool
  accessed : Bool
  dirty : Bool
  pageSize : Bool
  isGlobal : Bool
  osAvailable : Fin 8
  frameNumber : Fin (2 ^ 20)
  deriving DecidableEq

namespace PageEntry

/-- The entry of a word; bits above the 32nd are ignored. -/
def ofBits (bits : Nat) : PageEntry where
  present := PageFlags.bitSet bits 0
  writable := PageFlags.bitSet bits 1
  user := PageFlags.bitSet bits 2
  writeThrough := PageFlags.bitSet bits 3
  cacheDisabled := PageFlags.bitSet bits 4
  accessed := PageFlags.bitSet bits 5
  dirty := PageFlags.bitSet bits 6
  pageSize := PageFlags.bitSet bits 7
  isGlobal := PageFlags.bitSet bits 8
  osAvailable := ⟨bits / 512 % 8, Nat.mod_lt _ (by decide)⟩
  frameNumber := ⟨bits / 4096 % 2 ^ 20, Nat.mod_lt _ (by decide)⟩

/-- The word of an entry. -/
def toBits (entry : PageEntry) : Nat :=
  entry.present.toNat + entry.writable.toNat * 2 + entry.user.toNat * 4 +
    entry.writeThrough.toNat * 8 + entry.cacheDisabled.toNat * 16 +
    entry.accessed.toNat * 32 + entry.dirty.toNat * 64 + entry.pageSize.toNat * 128 +
    entry.isGlobal.toNat * 256 + entry.osAvailable.val * 512 + entry.frameNumber.val * 4096

def empty : PageEntry := ofBits 0

def isEmpty (entry : PageEntry) : Bool := entry == empty

/-- The entry that points at a frame with flags. -/
def pointingAt (frameNumber : Fin (2 ^ 20)) (flags : PageFlags) : PageEntry where
  present := flags.present
  writable := flags.readWrite
  user := flags.user
  writeThrough := flags.writeThrough
  cacheDisabled := flags.cacheDisable
  accessed := false
  dirty := false
  pageSize := false
  isGlobal := flags.isGlobal
  osAvailable := 0
  frameNumber

/-- The entry that points at a frame below 4 GiB with flags. -/
def mapping (frame : Frame) (flags : PageFlags) : Except Fault PageEntry :=
  if h : frame.index < 2 ^ 20 then .ok (pointingAt ⟨frame.index, h⟩ flags)
  else .error .assertion

def frame (entry : PageEntry) : Frame :=
  ⟨entry.frameNumber.val, by
    have := entry.frameNumber.isLt
    simp only [PageSize.bytes]
    omega⟩

/-- The frame of an entry has the number that the entry stores. -/
@[simp] theorem index_frame (entry : PageEntry) :
    entry.frame.index = entry.frameNumber.val := rfl

/-- The first address of the frame that the entry points at. -/
def address (entry : PageEntry) : PhysAddr := entry.frame.base

/-- The flags of the entry, without the bits that the processor sets. -/
def flags (entry : PageEntry) : PageFlags where
  present := entry.present
  readWrite := entry.writable
  user := entry.user
  writeThrough := entry.writeThrough
  cacheDisable := entry.cacheDisabled
  isGlobal := entry.isGlobal

/-- The address `offset` bytes into the frame that the entry points at. -/
def addressAt (entry : PageEntry) (offset : Fin 4096) : PhysAddr :=
  ⟨entry.frameNumber.val * 4096 + offset.val, by
    have := entry.frameNumber.isLt
    have := offset.isLt
    omega⟩

/-- The entry with a number in the bits that the processor ignores. -/
def withOsAvailable (entry : PageEntry) (n : Nat) : Except Fault PageEntry :=
  if h : n < 8 then .ok { entry with osAvailable := ⟨n, h⟩ } else .error .assertion

/-- The entry with another frame number. -/
def withFrameNumber (entry : PageEntry) (n : Nat) : Except Fault PageEntry :=
  if h : n < 2 ^ 20 then .ok { entry with frameNumber := ⟨n, h⟩ } else .error .assertion

/-- An entry made from flags has those flags. -/
@[simp] theorem flags_pointingAt (frameNumber : Fin (2 ^ 20)) (flags : PageFlags) :
    (pointingAt frameNumber flags).flags = flags := rfl

/-- A bit as a number is the bit that was read. -/
theorem toNat_bitSet (n i : Nat) : (PageFlags.bitSet n i).toNat = n / 2 ^ i % 2 := by
  unfold PageFlags.bitSet
  have := Nat.mod_two_eq_zero_or_one (n / 2 ^ i)
  rcases this with h | h <;> simp [h]

/-- A word survives the way through its entry. -/
theorem toBits_ofBits {bits : Nat} (h : bits < 2 ^ 32) : (ofBits bits).toBits = bits := by
  simp only [ofBits, toBits, toNat_bitSet]
  omega

/-- A bit that holds the number of a truth value reads back as that value. -/
theorem bitSet_toNat (b : Bool) (n i : Nat) (h : n / 2 ^ i % 2 = b.toNat) :
    PageFlags.bitSet n i = b := by
  unfold PageFlags.bitSet
  cases b <;> simp [h]

/-- An entry survives the way through its word. -/
theorem ofBits_toBits (entry : PageEntry) : ofBits entry.toBits = entry := by
  have h0 := entry.present.toNat_le
  have h1 := entry.writable.toNat_le
  have h2 := entry.user.toNat_le
  have h3 := entry.writeThrough.toNat_le
  have h4 := entry.cacheDisabled.toNat_le
  have h5 := entry.accessed.toNat_le
  have h6 := entry.dirty.toNat_le
  have h7 := entry.pageSize.toNat_le
  have h8 := entry.isGlobal.toNat_le
  have h9 := entry.osAvailable.isLt
  have h10 := entry.frameNumber.isLt
  apply PageEntry.ext
  case osAvailable => apply Fin.ext; simp only [ofBits, toBits]; omega
  case frameNumber => apply Fin.ext; simp only [ofBits, toBits]; omega
  all_goals
    apply bitSet_toNat
    simp only [toBits]
    omega

end PageEntry

end BootMemory
