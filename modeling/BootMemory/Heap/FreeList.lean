import BootMemory.Address.Align
import BootMemory.Heap.Growth
import BootMemory.Heap.Unit

/-!
# A next-fit heap

A heap serves blocks out of an arena of units. Every block starts with a header unit that
holds its size; a free block also holds the index of the next free block. The free blocks
form a ring in ascending order that starts and ends at a sentinel. The sentinel has no
bytes and lies outside the arena, and its index is above all others, so a walk along the
ring goes down exactly once, at the sentinel.

A search starts behind the cursor, which stands on the sentinel or on a free block, and ends
when it has come back to it. A block that is too large keeps its lower part on the ring and
gives its upper part away. A block that comes back is joined to the free blocks that it
touches. When nothing is large enough, the arena grows and the new units come back as a
block.
-/

set_option autoImplicit false

namespace BootMemory

/-- Why a heap did not serve a block. -/
inductive HeapError where
  | arenaExhausted
  | unsupportedAlignment
  | zeroSized
  deriving DecidableEq, Repr

namespace HeapError

def name : HeapError → String
  | arenaExhausted => "ArenaExhausted"
  | unsupportedAlignment => "UnsupportedAlignment"
  | zeroSized => "ZeroSized"

def message : HeapError → String
  | arenaExhausted => "the heap arena cannot grow any further"
  | unsupportedAlignment => "alignment above the heap granule is not supported"
  | zeroSized => "zero-sized allocation"

end HeapError

/-- A request for memory: a size in bytes and a power of two that the address is a multiple
of. -/
structure BlockLayout where
  size : Nat
  align : Nat
  deriving DecidableEq, Repr

/-- The layout of a size and an alignment. The alignment has to be a power of two, and the
size, rounded up to it, has to stay below half the address space. -/
def BlockLayout.ofSizeAlign? (size align : Nat) : Option BlockLayout :=
  if isPowerOfTwo align ∧ size + align ≤ 2 ^ 63 then some ⟨size, align⟩ else none

/-- The index of the sentinel. -/
def sentinel : Nat := 2 ^ 64 - 1

/-- A heap over an arena that grows by a strategy. -/
structure Heap (γ : Type) where
  /-- The first free block; this is the link of the sentinel. -/
  first : Nat
  /-- The free block behind which the next search starts. -/
  cursor : Nat
  /-- The memory of the arena, and what lies behind it. -/
  arena : Arena
  /-- The number of units in the arena. -/
  arenaUnits : Nat
  freeUnits : Nat
  growth : γ

namespace Heap

variable {γ β : Type}

/-- The heap with an empty arena that will grow into some memory. -/
def ofArena (arena : Arena) (growth : γ) : Heap γ := ⟨sentinel, sentinel, arena, 0, 0, growth⟩

/-- The heap with an empty arena that will grow into memory that was never written. -/
def ofGrowth (growth : γ) : Heap γ := ofArena .empty growth

def node (heap : Heap γ) (index : Nat) : Except Fault HeapUnit :=
  if index = sentinel then .ok ⟨heap.first, 0⟩
  else if index < heap.arenaUnits then .ok (heap.arena.get index)
  else .error (.outsideArena index heap.arenaUnits)

/-- The heap with another header at an index. The sentinel keeps its size. -/
def setNode (heap : Heap γ) (index : Nat) (unit : HeapUnit) : Except Fault (Heap γ) :=
  if index = sentinel then .ok { heap with first := unit.link }
  else if index < heap.arenaUnits then .ok { heap with arena := heap.arena.set index unit }
  else .error (.outsideArena index heap.arenaUnits)

/-- The heap with another link at an index. -/
def setLink (heap : Heap γ) (index link : Nat) : Except Fault (Heap γ) := do
  let unit ← heap.node index
  heap.setNode index { unit with link }

/-- The free blocks behind `index`, up to the sentinel. There are never more of them than
units in the arena, which `steps` counts down. -/
def freeFrom (heap : Heap γ) : Nat → Nat → List (Nat × Nat) →
    Except Fault (List (Nat × Nat))
  | 0, _, found => .ok found.reverse
  | steps + 1, index, found =>
    if index = sentinel then .ok found.reverse
    else do
      let unit ← heap.node index
      freeFrom heap steps unit.link ((index, unit.size) :: found)

/-- The free blocks in the order of the ring, each with its index and its size. -/
def freeList (heap : Heap γ) : Except Fault (List (Nat × Nat)) :=
  heap.freeFrom (heap.arenaUnits + 1) heap.first []

def freeBlocks (heap : Heap γ) : Except Fault Nat := do
  let blocks ← heap.freeList
  return blocks.length

/-- What a search finds: a free block, its header, and the block in front of it. -/
structure Fit where
  before : Nat
  index : Nat
  unit : HeapUnit

/-- Looks for a free block of at least `units`, from the one behind `before` on, until the
block at the cursor has been looked at. -/
def searchFrom (heap : Heap γ) (units : Nat) : Nat → Nat → Nat → Except Fault (Option Fit)
  | 0, _, _ => .ok none
  | steps + 1, before, index => do
    let unit ← heap.node index
    if units ≤ unit.size then return some ⟨before, index, unit⟩
    else if index = heap.cursor then return none
    else searchFrom heap units steps index unit.link

/-- The first free block of at least `units` behind the cursor. -/
def search (heap : Heap γ) (units : Nat) : Except Fault (Option Fit) := do
  let unit ← heap.node heap.cursor
  heap.searchFrom units (heap.arenaUnits + 1) heap.cursor unit.link

/-- Takes `units` out of a block that a search found: all of it if it has no more, else its
upper part. -/
def carve (heap : Heap γ) (units : Nat) (fit : Fit) : Except Fault (Heap γ × Nat) := do
  let (heap, taken) ←
    if fit.unit.size = units then do
      let heap ← heap.setLink fit.before fit.unit.link
      pure (heap, fit.index)
    else do
      let rest := fit.unit.size - units
      let heap ← heap.setNode fit.index { fit.unit with size := rest }
      let tail ← Word.add fit.index rest
      let heap ← heap.setNode tail ⟨0, units⟩
      pure (heap, tail)
  let freeUnits ← Word.sub heap.freeUnits units
  return ({ heap with cursor := fit.before, freeUnits }, taken)

/-- Takes a block of exactly `units` off the ring. -/
def take (units : Nat) (heap : Heap γ) : Traced (Option Nat × Heap γ) := do
  match ← heap.search units with
  | none => return (none, heap)
  | some fit =>
    let (heap, taken) ← heap.carve units fit
    Traced.report .trace fun _ => .ok s!"heap: took {units} units at index {taken}"
    return (some taken, heap)

/-- Whether a unit lies in the free block at an index. -/
def inFreeBlock (index : Nat) (unit : HeapUnit) (block : Nat) : Except Fault Bool :=
  if index = sentinel then .ok false
  else do
    let stop ← Word.add index unit.size
    return index ≤ block && block < stop

/-- Walks along the ring from `index` to the free block behind which `block` belongs. -/
def insertionFrom (heap : Heap γ) (block : Nat) : Nat → Nat → Except Fault (Option Nat)
  | 0, _ => .ok none
  | steps + 1, index => do
    let unit ← heap.node index
    if ← inFreeBlock index unit block then return none
    else if index < block && block < unit.link then return some index
    else if unit.link ≤ index && (index < block || block < unit.link) then return some index
    else insertionFrom heap block steps unit.link

/-- The free block behind which `block` belongs, or nothing if `block` lies in a free block.
A lap of the ring has at most one step more than the arena has units. -/
def insertionPoint (heap : Heap γ) (block : Nat) : Except Fault (Option Nat) :=
  heap.insertionFrom block (heap.arenaUnits + 1) heap.cursor

/-- The header of a block of `size` units that is free in front of `next`: its own, or that of
one block with the one at `next` if they touch. -/
def joinNext (heap : Heap γ) (block size next : Nat) : Except Fault HeapUnit := do
  if next = sentinel then return ⟨next, size⟩
  let stop ← Word.add block size
  if stop = next then
    let upper ← heap.node next
    let joined ← Word.add size upper.size
    return ⟨upper.link, joined⟩
  else
    return ⟨next, size⟩

/-- Puts the block with a header behind `before`, as one block with it if they touch. -/
def joinBefore (heap : Heap γ) (before block : Nat) (header : HeapUnit) :
    Except Fault (Heap γ) := do
  let lower ← heap.node before
  if before = sentinel then heap.setLink before block
  else
    let stop ← Word.add before lower.size
    if stop = block then
      let joined ← Word.add lower.size header.size
      heap.setNode before ⟨header.link, joined⟩
    else
      heap.setLink before block

/-- Puts `block` on the ring behind `before`, joined to the free blocks that it touches. -/
def link (heap : Heap γ) (before block : Nat) : Except Fault (Heap γ) := do
  let size := (← heap.node block).size
  let next := (← heap.node before).link
  let header ← heap.joinNext block size next
  let heap ← heap.setNode block header
  let heap ← heap.joinBefore before block header
  let freeUnits ← Word.add heap.freeUnits size
  return { heap with cursor := before, freeUnits }

/-- Puts a block back on the ring. A block that is free already is left alone. -/
def release (block : Nat) (heap : Heap γ) : Traced (Heap γ) := do
  match ← heap.insertionPoint block with
  | none =>
    Traced.report .error fun _ => .ok s!"heap: double free of block {block} ignored"
    return heap
  | some before => heap.link before block

/-- Asks the strategy for more units: first for a worthwhile step, and if that fails, for just
as many as are needed. -/
def requestUnits [ArenaRegion γ] [ArenaGrowth γ β] (units : Nat) (growth : γ) (pages : β) :
    Traced (Except GrowthError Nat × γ × β) := do
  let wanted := max units (ArenaRegion.minChunk growth)
  let (answer, growth, pages) ← ArenaGrowth.extend wanted growth pages
  match answer with
  | .ok added => return (.ok added, growth, pages)
  | .error cause =>
    if units < wanted then
      Traced.report .debug fun _ => .ok (s!"heap: growing by {wanted} units failed (" ++
        cause.message ++ s!"), retrying with {units}")
      ArenaGrowth.extend units growth pages
    else
      return (.error cause, growth, pages)

/-- Adds at least so many units to the arena, as a free block. -/
def grow [ArenaRegion γ] [ArenaGrowth γ β] (units : Nat) (heap : Heap γ) (pages : β) :
    Traced (Except HeapError Unit × Heap γ × β) := do
  let (answer, growth, pages) ← requestUnits units heap.growth pages
  let heap := { heap with growth }
  match answer with
  | .error cause =>
    Traced.report .debug fun _ => .ok ("heap: growth failed: " ++ cause.message)
    return (.error .arenaExhausted, heap, pages)
  | .ok added =>
    if added = 0 then
      return (.error .arenaExhausted, heap, pages)
    let chunk := heap.arenaUnits
    let arenaUnits ← Word.add chunk added
    let heap ← { heap with arenaUnits }.setNode chunk ⟨0, added⟩
    Traced.report .debug fun _ => .ok s!"heap: arena grew by {added} units to {arenaUnits}"
    let heap ← heap.release chunk
    return (.ok (), heap, pages)

/-- The address of the payload of a block. The sentinel has no payload: a search that runs into
a damaged header may find it as the upper part of a block, and the distance of its payload
from the base of the arena does not fit a word. -/
def payload [ArenaRegion γ] (heap : Heap γ) (block : Nat) : Except Fault Nat := do
  let first ← Word.add block 1
  let offset ← Word.mul first unitBytes
  return ArenaRegion.base heap.growth + offset

/-- The number of units of a block for so many bytes: one for the header and as many as hold
the bytes. -/
def unitsFor (bytes : Nat) : Nat := (bytes + (unitBytes - 1)) / unitBytes + 1

/-- Serves a block for so many bytes; the answer is the index of the block. -/
def allocateBlock [ArenaRegion γ] [ArenaGrowth γ β] (bytes : Nat) (heap : Heap γ) (pages : β) :
    Traced (Except HeapError Nat × Heap γ × β) := do
  if bytes = 0 then
    return (.error .zeroSized, heap, pages)
  let units := unitsFor bytes
  let (taken, heap) ← heap.take units
  match taken with
  | some block => return (.ok block, heap, pages)
  | none =>
    match ← heap.grow units pages with
    | (.error cause, heap, pages) => return (.error cause, heap, pages)
    | (.ok (), heap, pages) =>
      let (taken, heap) ← heap.take units
      match taken with
      | some block => return (.ok block, heap, pages)
      | none => return (.error .arenaExhausted, heap, pages)

/-- Serves so many bytes; the answer is the address of the first. -/
def allocate [ArenaRegion γ] [ArenaGrowth γ β] (bytes : Nat) (heap : Heap γ) (pages : β) :
    Traced (Except HeapError Nat × Heap γ × β) := do
  match ← heap.allocateBlock bytes pages with
  | (.error cause, heap, pages) => return (.error cause, heap, pages)
  | (.ok block, heap, pages) => return (.ok (← heap.payload block), heap, pages)

/-- Serves so many bytes, all zero. -/
def allocateZeroed [ArenaRegion γ] [ArenaGrowth γ β] (bytes : Nat) (heap : Heap γ)
    (pages : β) : Traced (Except HeapError Nat × Heap γ × β) := do
  match ← heap.allocateBlock bytes pages with
  | (.error cause, heap, pages) => return (.error cause, heap, pages)
  | (.ok block, heap, pages) =>
    let pointer ← heap.payload block
    let heap := { heap with arena := heap.arena.fill (block + 1) bytes 0 }
    return (.ok pointer, heap, pages)

/-- Serves a layout; alignments above the size of a unit are refused. -/
def allocateLayout [ArenaRegion γ] [ArenaGrowth γ β] (layout : BlockLayout) (heap : Heap γ)
    (pages : β) : Traced (Except HeapError Nat × Heap γ × β) :=
  if unitBytes < layout.align then pure (.error .unsupportedAlignment, heap, pages)
  else heap.allocate layout.size pages

/-- The block whose payload would start at an address, if the address is that of a unit of
the arena behind the first, or the end of the arena. -/
def blockOf? [ArenaRegion γ] (heap : Heap γ) (pointer : Nat) : Option Nat :=
  let base := ArenaRegion.base heap.growth
  let offset := pointer - base
  if pointer < base ∨ offset < unitBytes ∨ offset % unitBytes ≠ 0 then none
  else
    let block := offset / unitBytes - 1
    if block < heap.arenaUnits then some block else none

def owns [ArenaRegion γ] (heap : Heap γ) (pointer : Nat) : Bool := (heap.blockOf? pointer).isSome

/-- Takes a block back by the address of its payload. -/
def free [ArenaRegion γ] (pointer : Nat) (heap : Heap γ) : Traced (Heap γ) :=
  match heap.blockOf? pointer with
  | none => Traced.fault (.foreignBlock pointer)
  | some block => heap.release block

/-- The index of the unit at an address, which need not lie in the arena. -/
def unitAt [ArenaRegion γ] (heap : Heap γ) (pointer : Nat) : Nat :=
  (pointer - ArenaRegion.base heap.growth) / unitBytes

/-- The first `count` bytes from the unit at an address on. -/
def readAt [ArenaRegion γ] (heap : Heap γ) (pointer count : Nat) : Array Nat :=
  heap.arena.bytes (heap.unitAt pointer) count

/-- Writes the first `count` bytes of units from the unit at an address on. -/
def writeAt [ArenaRegion γ] (pointer count : Nat) (source : Nat → HeapUnit) (heap : Heap γ) :
    Heap γ :=
  { heap with arena := heap.arena.writeFrom (heap.unitAt pointer) count source }

/-- Sets the first `count` bytes from the unit at an address on to a value. -/
def fillAt [ArenaRegion γ] (pointer count value : Nat) (heap : Heap γ) : Heap γ :=
  heap.writeAt pointer count fun _ => .filled value

end Heap

end BootMemory
