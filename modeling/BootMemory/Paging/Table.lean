import BootMemory.Layout
import BootMemory.Paging.Entry

/-!
# Page tables

A page table has 1024 entries and maps 4 MiB; the page directory has the same shape, and
its entries point at page tables. A slot is a position in the directory. It names the table
that is responsible for a 4 MiB range, and it fixes where that table is visible: the last
slot points at the directory itself, so the table of slot `i` shows up in page `i` of the
last 4 MiB, and the directory in the last page of all.

A store of tables maps numbers to tables; a number that was never written has a blank table.
-/

set_option autoImplicit false

namespace BootMemory

/-- A position in a page directory or in a page table. -/
abbrev TableIndex := Fin 1024

/-- 1024 entries. -/
@[ext]
structure PageTable where
  entries : Vector PageEntry 1024

namespace PageTable

def filled (entry : PageEntry) : PageTable := ⟨Vector.replicate 1024 entry⟩

def zeroed : PageTable := filled .empty

def get (table : PageTable) (index : TableIndex) : PageEntry := table.entries[index]

def set (table : PageTable) (index : TableIndex) (entry : PageEntry) : PageTable :=
  ⟨table.entries.set index.val entry index.isLt⟩

def isEmpty (table : PageTable) : Bool := table.entries.toArray.all fun entry => !entry.present

def presentCount (table : PageTable) : Nat :=
  table.entries.toArray.foldl (fun sum entry => sum + entry.present.toNat) 0

/-- The position with a given number, if there is one. -/
def index? (i : Nat) : Except Fault TableIndex :=
  if h : i < 1024 then .ok ⟨i, h⟩ else .error .bounds

/-- Every entry of a filled table is the entry it was filled with. -/
@[simp] theorem get_filled (entry : PageEntry) (index : TableIndex) :
    (filled entry).get index = entry := by
  simp [filled, get]

/-- Writing one entry of a table changes that entry and no other. -/
theorem get_set (table : PageTable) (i j : TableIndex) (entry : PageEntry) :
    (table.set i entry).get j = if i = j then entry else table.get j := by
  simp only [set, get, Fin.getElem_fin, Vector.getElem_set, Fin.ext_iff]

/-- A table is empty when no position is present. -/
theorem isEmpty_iff (table : PageTable) :
    table.isEmpty = true ↔ ∀ index, (table.get index).present = false := by
  simp only [isEmpty, get, Fin.getElem_fin, Array.all_eq_true, Bool.not_eq_true']
  constructor
  · intro h index
    simpa using h index.val (by simp)
  · intro h i hi
    have hi : i < 1024 := by simpa using hi
    simpa using h ⟨i, hi⟩

end PageTable

namespace TableIndex

/-- The directory slot that points at the directory itself. -/
def recursive : TableIndex := ⟨1023, by decide⟩

/-- The directory slot with a given number. -/
def ofNat? (i : Nat) : Except Fault TableIndex :=
  if h : i < 1024 then .ok ⟨i, h⟩ else .error .assertion

/-- The page in which the table of a directory slot is visible. -/
def window (slot : TableIndex) : VirtAddr := VirtAddr.ofIndices recursive slot

/-- Whether a slot is the directory's own. -/
def isRecursive (slot : TableIndex) : Bool := slot == recursive

/-- The first address that the table of a slot is responsible for. -/
def firstAddress (slot : TableIndex) : VirtAddr := VirtAddr.ofIndices slot ⟨0, by decide⟩

end TableIndex

/-- The page in which the directory is visible. -/
def directoryWindow : VirtAddr := TableIndex.recursive.window

/-- The directory is visible where the layout says. -/
theorem toNat_directoryWindow : directoryWindow.toNat = Layout.directoryWindow := by decide

/-- Tables by number, each number at most once, and the table of all other numbers. -/
structure TableStore where
  blank : PageTable
  tables : List (Nat × PageTable)

namespace TableStore

/-- The list with the table of a number replaced, or added at the end. -/
def put (number : Nat) (table : PageTable) : List (Nat × PageTable) → List (Nat × PageTable)
  | [] => [(number, table)]
  | (other, old) :: rest =>
    if other = number then (number, table) :: rest else (other, old) :: put number table rest

/-- The table of a number. -/
def load (store : TableStore) (number : Nat) : PageTable :=
  (store.tables.lookup number).getD store.blank

/-- The store with another table for a number. -/
def save (store : TableStore) (number : Nat) (table : PageTable) : TableStore :=
  { store with tables := put number table store.tables }

/-- The store in which a number has a table of its own, the blank one if it had none. -/
def touch (store : TableStore) (number : Nat) : TableStore :=
  if (store.tables.lookup number).isSome then store else store.save number store.blank

def size (store : TableStore) : Nat := store.tables.length

/-- Putting a table under a number changes what is found there and nowhere else. -/
theorem lookup_put (number other : Nat) (table : PageTable) (tables : List (Nat × PageTable)) :
    (put number table tables).lookup other =
      if other = number then some table else tables.lookup other := by
  induction tables with
  | nil =>
    by_cases h : other = number
    · simp [put, h]
    · simp [put, List.lookup_cons, h, beq_eq_false_iff_ne.mpr h]
  | cons entry rest ih =>
    obtain ⟨key, old⟩ := entry
    unfold put
    by_cases hk : key = number
    · subst hk
      by_cases h : other = key
      · simp [h]
      · simp [List.lookup_cons, h, beq_eq_false_iff_ne.mpr h]
    · simp only [hk, ↓reduceIte, List.lookup_cons, ih]
      by_cases h : other = number
      · have hne : other ≠ key := fun he => hk (he.symm.trans h)
        simp [h, beq_eq_false_iff_ne.mpr (h ▸ hne)]
      · simp [h]

/-- A saved table is read back, and other numbers keep their tables. -/
theorem load_save (store : TableStore) (number other : Nat) (table : PageTable) :
    (store.save number table).load other =
      if other = number then table else store.load other := by
  simp only [save, load, lookup_put]
  split <;> rfl

/-- Touching a number changes no table. -/
@[simp] theorem load_touch (store : TableStore) (number other : Nat) :
    (store.touch number).load other = store.load other := by
  unfold touch
  split
  case isTrue => rfl
  case isFalse h =>
    rw [load_save]
    split
    case isTrue heq =>
      subst heq
      have hnone := Option.not_isSome_iff_eq_none.mp h
      simp [load, hnone]
    case isFalse => rfl

end TableStore

end BootMemory
