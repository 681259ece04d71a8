import BootMemory.Arithmetic

/-!
# Page flags

The protection and caching flags that a caller may ask for. They sit at fixed bit positions
of a page table entry; the other bits of an entry belong to the processor, to the frame
number or to nobody, and are no flags.
-/

set_option autoImplicit false

namespace BootMemory

/-- A set of protection and caching flags. -/
@[ext]
structure PageFlags where
  present : Bool
  readWrite : Bool
  user : Bool
  writeThrough : Bool
  cacheDisable : Bool
  isGlobal : Bool
  deriving DecidableEq, Repr

namespace PageFlags

def none : PageFlags := ⟨false, false, false, false, false, false⟩

def all : PageFlags := ⟨true, true, true, true, true, true⟩

/-- Data that only the kernel reads and writes. -/
def kernel : PageFlags := ⟨true, true, false, false, false, false⟩

/-- Data that user code reads and writes. -/
def userReadWrite : PageFlags := ⟨true, true, true, false, false, false⟩

/-- Whether bit `i` of a number is set. -/
def bitSet (n i : Nat) : Bool := n / 2 ^ i % 2 == 1

/-- The flags among the bits of a word. -/
def ofBits (bits : Nat) : PageFlags where
  present := bitSet bits 0
  readWrite := bitSet bits 1
  user := bitSet bits 2
  writeThrough := bitSet bits 3
  cacheDisable := bitSet bits 4
  isGlobal := bitSet bits 8

/-- The word that has exactly the bits of the flags. -/
def toBits (flags : PageFlags) : Nat :=
  flags.present.toNat + flags.readWrite.toNat * 2 + flags.user.toNat * 4 +
    flags.writeThrough.toNat * 8 + flags.cacheDisable.toNat * 16 + flags.isGlobal.toNat * 256

/-- The flags of a word that has no other bit. -/
def ofBits? (bits : Nat) : Option PageFlags :=
  if (ofBits bits).toBits = bits then some (ofBits bits) else Option.none

def union (a b : PageFlags) : PageFlags where
  present := a.present || b.present
  readWrite := a.readWrite || b.readWrite
  user := a.user || b.user
  writeThrough := a.writeThrough || b.writeThrough
  cacheDisable := a.cacheDisable || b.cacheDisable
  isGlobal := a.isGlobal || b.isGlobal

def inter (a b : PageFlags) : PageFlags where
  present := a.present && b.present
  readWrite := a.readWrite && b.readWrite
  user := a.user && b.user
  writeThrough := a.writeThrough && b.writeThrough
  cacheDisable := a.cacheDisable && b.cacheDisable
  isGlobal := a.isGlobal && b.isGlobal

def isEmpty (flags : PageFlags) : Bool := flags == none

def isAll (flags : PageFlags) : Bool := flags == all

def contains (a b : PageFlags) : Bool := a.inter b == b

def intersects (a b : PageFlags) : Bool := a.inter b != none

/-- The flags with the present flag among them. -/
def asPresent (flags : PageFlags) : PageFlags := { flags with present := true }

/-- The names of the flags, in the order of their bits. -/
def names (flags : PageFlags) : List String :=
  [(flags.present, "PRESENT"), (flags.readWrite, "READ_WRITE"), (flags.user, "USER"),
    (flags.writeThrough, "WRITE_THROUGH"), (flags.cacheDisable, "CACHE_DISABLE"),
    (flags.isGlobal, "GLOBAL")].filterMap fun flag => if flag.1 then some flag.2 else Option.none

/-- The flags by name; the empty set is written as the number zero. -/
def describe (flags : PageFlags) : String :=
  "PageFlags(" ++
    (if flags.isEmpty then "0x0" else String.intercalate " | " flags.names) ++ ")"

/-- Flags survive the way through their word. -/
theorem ofBits_toBits (flags : PageFlags) : ofBits flags.toBits = flags := by
  rcases flags with ⟨a, b, c, d, e, f⟩
  cases a <;> cases b <;> cases c <;> cases d <;> cases e <;> cases f <;> rfl

end PageFlags

end BootMemory
