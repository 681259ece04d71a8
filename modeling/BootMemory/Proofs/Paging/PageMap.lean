import BootMemory.Paging.AddressSpace
import Mathlib.Control.Monad.Basic
import Mathlib.Logic.Function.Basic

/-!
# Partial maps of pages

All that a user of an address space has to know: which pages are mapped, to which frame, and
with which flags. The tables, the frames that hold them and the window through which they are
edited do not occur here. One thing shows through: a slot of the directory needs a frame of
its own as soon as a page of it is mapped.
-/

set_option autoImplicit false

namespace BootMemory

/-- Whether an address lies in the window onto the tables. -/
def VirtAddr.InWindow (addr : VirtAddr) : Prop := addr.directoryIndex = TableIndex.recursive

instance (addr : VirtAddr) : Decidable addr.InWindow :=
  inferInstanceAs (Decidable (addr.directoryIndex = TableIndex.recursive))

namespace VirtPage

/-- The directory slot that covers a page. -/
def slot (page : VirtPage .small) : TableIndex := page.base.directoryIndex

/-- The position of a page in the table of its slot. -/
def position (page : VirtPage .small) : TableIndex := page.base.tableIndex

/-- The page at a position of the table of a slot. -/
def ofIndices (slot position : TableIndex) : VirtPage .small :=
  (VirtAddr.ofIndices slot position).page .small

/-- The page of an address is told by the two indices of the address. -/
theorem page_eq_ofIndices (addr : VirtAddr) :
    addr.page .small = ofIndices addr.directoryIndex addr.tableIndex := by
  apply VirtPage.ext
  simp only [ofIndices, VirtAddr.page, VirtAddr.ofIndices, VirtAddr.directoryIndex,
    VirtAddr.tableIndex, PageSize.bytes]
  omega

/-- The page of an address is in the slot of the address. -/
@[simp] theorem slot_page (addr : VirtAddr) : (addr.page .small).slot = addr.directoryIndex := by
  apply Fin.ext
  simp only [slot, VirtAddr.directoryIndex, VirtAddr.page, toNat_base, PageSize.bytes]
  omega

/-- The page of an address is at the position of the address. -/
@[simp] theorem position_page (addr : VirtAddr) :
    (addr.page .small).position = addr.tableIndex := by
  apply Fin.ext
  simp only [position, VirtAddr.tableIndex, VirtAddr.page, toNat_base, PageSize.bytes]
  omega

/-- The page of two indices is in the slot of the first. -/
@[simp] theorem slot_ofIndices (slot position : TableIndex) :
    (ofIndices slot position).slot = slot := by
  rw [ofIndices, slot_page, VirtAddr.directoryIndex_ofIndices]

/-- The page of two indices is at the position of the second. -/
@[simp] theorem position_ofIndices (slot position : TableIndex) :
    (ofIndices slot position).position = position := by
  rw [ofIndices, position_page, VirtAddr.tableIndex_ofIndices]

/-- The base of a virtual page lies in that page. -/
theorem page_base (page : VirtPage .small) : page.base.page .small = page := by
  apply VirtPage.ext
  simp only [VirtAddr.page, toNat_base]
  exact Nat.mul_div_cancel _ PageSize.small.bytes_pos

/-- An aligned address is that of its page. -/
theorem base_page {addr : VirtAddr} (h : 4096 ∣ addr.toNat) : (addr.page .small).base = addr := by
  apply VirtAddr.ext
  exact Nat.div_mul_cancel h

/-- The base of a page is a multiple of the page size. -/
theorem dvd_base (page : VirtPage .small) : 4096 ∣ page.base.toNat :=
  ⟨page.index, Nat.mul_comm _ _⟩

/-- A page is named by its slot and its position. -/
@[simp] theorem ofIndices_slot_position (page : VirtPage .small) :
    ofIndices page.slot page.position = page := by
  rw [slot, position, ← page_eq_ofIndices, page_base]

end VirtPage

/-- The base of a frame lies in that frame. -/
theorem PhysPage.page_base (page : PhysPage .small) : page.base.page .small = page := by
  apply PhysPage.ext
  simp only [PhysAddr.page, toNat_base]
  exact Nat.mul_div_cancel _ PageSize.small.bytes_pos

/-- Where a page is mapped to: the number of a frame below 4 GiB, and the flags. -/
structure Mapping where
  number : Fin (2 ^ 20)
  flags : PageFlags
  deriving DecidableEq

namespace Mapping

/-- The frame that the page is mapped to. -/
def frame (target : Mapping) : Frame :=
  ⟨target.number.val, by
    have := target.number.isLt
    simp only [PageSize.bytes]
    omega⟩

/-- The address `offset` bytes into the frame. -/
def addressAt (target : Mapping) (offset : Fin 4096) : PhysAddr :=
  ⟨target.number.val * 4096 + offset.val, by
    have := target.number.isLt
    have := offset.isLt
    omega⟩

/-- The table entry that says so. -/
def entry (target : Mapping) : PageEntry := .pointingAt target.number target.flags

end Mapping

/-- For each page the mapping, if there is one. -/
abbrev PageMap := VirtPage .small → Option Mapping

namespace PageMap

/-- The map of no page. -/
def empty : PageMap := fun _ => none

/-- Whether some page of a slot is mapped. -/
def Populated (pages : PageMap) (slot : TableIndex) : Prop :=
  ∃ position, (pages (.ofIndices slot position)).isSome = true

instance (pages : PageMap) (slot : TableIndex) : Decidable (pages.Populated slot) :=
  inferInstanceAs (Decidable (∃ position, (pages (.ofIndices slot position)).isSome = true))

/-- A slot is populated exactly if one of its pages is in the map. -/
theorem populated_iff {pages : PageMap} {slot : TableIndex} :
    pages.Populated slot ↔ ∃ page, page.slot = slot ∧ (pages page).isSome = true := by
  constructor
  · rintro ⟨position, h⟩
    exact ⟨_, VirtPage.slot_ofIndices slot position, h⟩
  · rintro ⟨page, rfl, h⟩
    refine ⟨page.position, ?_⟩
    rwa [VirtPage.ofIndices_slot_position]

/-- The answer to a mapping, and the map after it. `dry` says that there is no frame left. -/
def map (pages : PageMap) (phys : PhysAddr) (virt : VirtAddr) (flags : PageFlags)
    (mode : AddressSpace.MapMode) (dry : Bool) : Except MappingError Unit × PageMap :=
  if ¬(4096 ∣ phys.toNat ∧ 4096 ∣ virt.toNat) then (.error .unaligned, pages)
  else if far : 2 ^ 32 ≤ phys.toNat then (.error .unaddressable, pages)
  else if virt.InWindow then (.error .recursiveWindow, pages)
  else if ¬pages.Populated virt.directoryIndex ∧ dry then (.error .outOfFrames, pages)
  else if mode = .fresh ∧ (pages (virt.page .small)).isSome then (.error .alreadyMapped, pages)
  else
    (.ok (), Function.update pages (virt.page .small)
      (some ⟨⟨phys.toNat / 4096, by omega⟩, flags.asPresent⟩))

/-- The answer to an unmapping, and the map after it. -/
def unmap (pages : PageMap) (virt : VirtAddr) : Except MappingError Frame × PageMap :=
  if ¬4096 ∣ virt.toNat then (.error .unaligned, pages)
  else if virt.InWindow then (.error .recursiveWindow, pages)
  else
    match pages (virt.page .small) with
    | none => (.error .notMapped, pages)
    | some target => (.ok target.frame, Function.update pages (virt.page .small) none)

/-- A mapping is refused and changes nothing, or updates the map at a page. -/
theorem map_cases (pages : PageMap) (phys : PhysAddr) (virt : VirtAddr) (flags : PageFlags)
    (mode : AddressSpace.MapMode) (dry : Bool) :
    (∃ complaint, pages.map phys virt flags mode dry = (.error complaint, pages)) ∨
      ∃ target, 4096 ∣ virt.toNat ∧ target.flags = flags.asPresent ∧
        pages.map phys virt flags mode dry =
          (.ok (), Function.update pages (virt.page .small) (some target)) := by
  unfold map
  split_ifs with haligned
  · exact .inl ⟨_, rfl⟩
  · exact .inl ⟨_, rfl⟩
  · exact .inl ⟨_, rfl⟩
  · exact .inl ⟨_, rfl⟩
  · exact .inr ⟨_, haligned.2, rfl, rfl⟩
  · exact .inl ⟨_, rfl⟩

/-- A fresh mapping is refused and changes nothing, or maps a page outside the window that was not
mapped. -/
theorem map_fresh_cases (pages : PageMap) (phys : PhysAddr) (virt : VirtAddr) (flags : PageFlags)
    (dry : Bool) :
    (∃ complaint, pages.map phys virt flags .fresh dry = (.error complaint, pages)) ∨
      ∃ target : Mapping, target.frame = phys.page .small ∧ 4096 ∣ virt.toNat ∧ ¬virt.InWindow ∧
        pages (virt.page .small) = none ∧ pages.map phys virt flags .fresh dry =
          (.ok (), Function.update pages (virt.page .small) (some target)) := by
  unfold map
  split_ifs with haligned hfar hwindow hdry htaken
  · exact .inl ⟨_, rfl⟩
  · exact .inl ⟨_, rfl⟩
  · exact .inl ⟨_, rfl⟩
  · exact .inl ⟨_, rfl⟩
  · refine .inr ⟨_, rfl, haligned.2, hwindow, ?_, rfl⟩
    rw [← Option.not_isSome_iff_eq_none]
    exact fun hsome => htaken ⟨rfl, hsome⟩
  · exact .inl ⟨_, rfl⟩

/-- An unmapping is refused and changes nothing, or unmaps a page outside the window that was
mapped. -/
theorem unmap_cases (pages : PageMap) (virt : VirtAddr) :
    (∃ complaint, pages.unmap virt = (.error complaint, pages)) ∨
      ∃ target, 4096 ∣ virt.toNat ∧ ¬virt.InWindow ∧ pages (virt.page .small) = some target ∧
        pages.unmap virt =
          (.ok target.frame, Function.update pages (virt.page .small) none) := by
  unfold unmap
  split_ifs with haligned hwindow
  · exact .inl ⟨_, rfl⟩
  · cases hmapped : pages (virt.page .small) with
    | none => exact .inl ⟨_, rfl⟩
    | some target => exact .inr ⟨target, haligned, hwindow, rfl, rfl⟩
  · exact .inl ⟨_, rfl⟩

/-- The table entry of a page, if some page of its slot is mapped. -/
def entryOf (pages : PageMap) (virt : VirtAddr) : Option PageEntry :=
  if pages.Populated virt.directoryIndex then
    some ((pages (virt.page .small)).elim .empty Mapping.entry)
  else
    none

/-- The physical address of a virtual one. -/
def translate (pages : PageMap) (virt : VirtAddr) : Option PhysAddr :=
  (pages (virt.page .small)).map (·.addressAt virt.pageOffset)

/-- Whether something is mapped at an address. The window shows the directory, and the tables
of the slots of which a page is mapped. -/
def shows (pages : PageMap) (virt : VirtAddr) : Bool :=
  if virt.InWindow then
    decide (virt.tableIndex = TableIndex.recursive ∨ pages.Populated virt.tableIndex)
  else
    (pages (virt.page .small)).isSome

end PageMap

/-- A call of an address space. -/
inductive PageCall where
  | map (phys : PhysAddr) (virt : VirtAddr) (flags : PageFlags) (mode : AddressSpace.MapMode)
  | unmap (virt : VirtAddr)
  | entry (virt : VirtAddr)
  | translate (virt : VirtAddr)
  | isMapped (virt : VirtAddr)

/-- What a call answers. -/
inductive PageAnswer where
  | mapped (answer : Except MappingError Unit)
  | unmapped (answer : Except MappingError Frame)
  | entry (answer : Option PageEntry)
  | address (answer : Option PhysAddr)
  | flag (mapped : Bool)
  deriving DecidableEq

/-- A call, whether there was no frame left when it was made, and its answer. -/
structure PageEvent where
  call : PageCall
  dry : Bool
  answer : PageAnswer

namespace PageMap

/-- Whether an answer is the one that the map gives. Of a page of the window, whose entry
belongs to the tables, the map knows only whether there is something. -/
def Answers (pages : PageMap) (dry : Bool) : PageCall → PageAnswer → Prop
  | .map phys virt flags mode, .mapped answer =>
    answer = (pages.map phys virt flags mode dry).1
  | .unmap virt, .unmapped answer => answer = (pages.unmap virt).1
  | .entry virt, .entry answer =>
    if virt.InWindow then
      ∃ entry, answer = some entry ∧ entry.present = pages.shows virt
    else answer = pages.entryOf virt
  | .translate virt, .address answer =>
    if virt.InWindow then answer.isSome = pages.shows virt
    else answer = pages.translate virt
  | .isMapped virt, .flag answer => answer = pages.shows virt
  | _, _ => False

/-- The map after a call. -/
def after (pages : PageMap) (dry : Bool) : PageCall → PageMap
  | .map phys virt flags mode => (pages.map phys virt flags mode dry).2
  | .unmap virt => (pages.unmap virt).2
  | .entry _ | .translate _ | .isMapped _ => pages

/-- A run of the map: the answer of every call is the one that the map gives. -/
inductive Run : PageMap → List PageEvent → PageMap → Prop
  | done (pages : PageMap) : Run pages [] pages
  | call {pages last : PageMap} {event : PageEvent} {events : List PageEvent}
      (answers : pages.Answers event.dry event.call event.answer)
      (rest : Run (pages.after event.dry event.call) events last) :
      Run pages (event :: events) last

end PageMap

end BootMemory
