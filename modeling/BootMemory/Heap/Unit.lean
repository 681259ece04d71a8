import BootMemory.Arithmetic

/-!
# Units of an arena

An arena consists of units of sixteen bytes. The unit in front of a block is its header and
holds two words of 64 bits, a link and a size; all other units belong to payloads. Both
readings are of the same memory, so a unit is kept as its two words, and its bytes are those
of the words, lowest byte first.

The memory does not end where the arena ends: it is there before the arena has grown into it,
and it keeps what is written to it, as `Arena.get_set` says for every unit. A payload starts
with a unit, and its bytes are numbered from there.
-/

set_option autoImplicit false

namespace BootMemory

/-- Sixteen bytes of an arena: two words of 64 bits. -/
structure HeapUnit where
  /-- The index of the next free block. -/
  link : Nat
  /-- The size of the block in units, with its header. -/
  size : Nat
  deriving DecidableEq, Repr

namespace HeapUnit

def zero : HeapUnit := ⟨0, 0⟩

/-- The byte of a word at a position below eight. -/
def wordByte (word position : Nat) : Nat := word / 256 ^ position % 256

/-- The word with another byte at a position below eight. -/
def withWordByte (word position byte : Nat) : Nat :=
  word - wordByte word position * 256 ^ position + byte * 256 ^ position

/-- The byte at a position below sixteen. -/
def byte (unit : HeapUnit) (position : Nat) : Nat :=
  if position < 8 then wordByte unit.link position else wordByte unit.size (position - 8)

/-- The unit with another byte at a position below sixteen. -/
def withByte (unit : HeapUnit) (position value : Nat) : HeapUnit :=
  if position < 8 then { unit with link := withWordByte unit.link position value }
  else { unit with size := withWordByte unit.size (position - 8) value }

/-- The word of eight equal bytes. -/
def wordOf (value : Nat) : Nat := value * 0x0101010101010101

def filled (value : Nat) : HeapUnit := ⟨wordOf value, wordOf value⟩

/-- The unit whose first `count` bytes are those of another unit. -/
def overwrite (unit other : HeapUnit) (count : Nat) : HeapUnit :=
  if 16 ≤ count then other
  else (List.range count).foldl (fun unit position => unit.withByte position (other.byte position))
    unit

end HeapUnit

/-- The memory from the first unit of an arena on. What was never written is zero. -/
structure Arena where
  /-- The units up to the last one that was written. -/
  written : Array HeapUnit

namespace Arena

def empty : Arena := ⟨#[]⟩

def get (arena : Arena) (index : Nat) : HeapUnit := arena.written.getD index .zero

def set (arena : Arena) (index : Nat) (unit : HeapUnit) : Arena :=
  let missing := index + 1 - arena.written.size
  ⟨(arena.written ++ Array.replicate missing HeapUnit.zero).setIfInBounds index unit⟩

/-- Nothing but zeros is in memory that was not written. -/
@[simp] theorem get_empty (index : Nat) : empty.get index = .zero := rfl

/-- A unit that is set is there, and no other unit changes. -/
theorem get_set (arena : Arena) (i j : Nat) (unit : HeapUnit) :
    (arena.set i unit).get j = if j = i then unit else arena.get j := by
  simp only [get, set, Array.getD_eq_getD_getElem?, Array.getElem?_setIfInBounds]
  by_cases h : i = j
  · subst h
    have : i < arena.written.size + (i + 1 - arena.written.size) := by omega
    simp [this]
  · rw [if_neg h, if_neg (fun e => h e.symm), Array.getElem?_append]
    split
    case isTrue => rfl
    case isFalse outside =>
      rw [Array.getElem?_replicate, Array.getElem?_eq_none (Nat.le_of_not_lt outside)]
      split <;> rfl

/-- The byte at a position behind the start of a unit. -/
def byteAt (arena : Arena) (start position : Nat) : Nat :=
  (arena.get (start + position / 16)).byte (position % 16)

def bytes (arena : Arena) (start count : Nat) : Array Nat :=
  Array.ofFn fun position : Fin count => byteAt arena start position.val

/-- Writes the first `count` bytes of units from the start of a unit on. The step that writes
unit number `index` writes the bytes that are left, at most sixteen of them. -/
def writeFrom (arena : Arena) (start count : Nat) (source : Nat → HeapUnit) : Arena :=
  (List.range ((count + 15) / 16)).foldl (fun arena index =>
    let unit := arena.get (start + index)
    arena.set (start + index) (unit.overwrite (source index) (count - index * 16))) arena

/-- Sets `count` bytes from the start of a unit on to a value. -/
def fill (arena : Arena) (start count value : Nat) : Arena :=
  writeFrom arena start count fun _ => .filled value

end Arena

end BootMemory
