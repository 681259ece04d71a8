import BootMemory.Proofs.Paging.PageMap
import BootMemory.Proofs.Paging.Tables
import Mathlib.Data.Fintype.Basic

/-!
# Tables as a partial map

Sound tables are separated, a slot other than the last has a table exactly as long as a page of
it is mapped, and the entries of page tables are either empty or written by a mapping. They are
viewed as the partial map of their pages; the window is not part of it.
-/

set_option autoImplicit false

namespace BootMemory

open TableIndex (recursive)

/-- The mapping that a table entry stands for. -/
def PageEntry.mapping? (entry : PageEntry) : Option Mapping :=
  if entry.present then some ⟨entry.frameNumber, entry.flags⟩ else none

/-- An entry that is empty, or as a mapping writes it. -/
def PageEntry.Tidy (entry : PageEntry) : Prop :=
  entry.mapping?.elim .empty Mapping.entry = entry

/-- An entry stands for a mapping exactly if it is present. -/
@[simp] theorem PageEntry.isSome_mapping? (entry : PageEntry) :
    entry.mapping?.isSome = entry.present := by
  unfold mapping?
  split <;> simp_all

/-- An entry stands for no mapping exactly if it is not present. -/
theorem PageEntry.mapping?_eq_none {entry : PageEntry} :
    entry.mapping? = none ↔ entry.present = false := by
  rw [← Option.isNone_iff_eq_none, ← Option.not_isSome, isSome_mapping?, Bool.not_eq_true']

/-- The empty entry is not present. -/
@[simp] theorem PageEntry.present_empty : PageEntry.empty.present = false := rfl

/-- The empty entry stands for no mapping. -/
@[simp] theorem PageEntry.mapping?_empty : PageEntry.empty.mapping? = none := rfl

/-- A mapping has the frame of its entry. -/
theorem PageEntry.frame_mapping (entry : PageEntry) :
    Mapping.frame ⟨entry.frameNumber, entry.flags⟩ = entry.frame := rfl

/-- The empty entry is tidy. -/
theorem PageEntry.tidy_empty : PageEntry.empty.Tidy := rfl

/-- An entry that was made points at its frame, with its flags. -/
theorem PageEntry.mapping_eq_ok {frame : Frame} {flags : PageFlags} {pointer : PageEntry}
    (h : PageEntry.mapping frame flags = .ok pointer) :
    pointer.flags = flags ∧ pointer.frame = frame := by
  unfold PageEntry.mapping at h
  split at h
  case isTrue =>
    cases h
    exact ⟨rfl, rfl⟩
  case isFalse => cases h

/-- The entry that a mapping writes stands for that mapping. -/
theorem Mapping.mapping?_entry {target : Mapping} (h : target.flags.present = true) :
    target.entry.mapping? = some target := if_pos h

/-- The entry that a mapping writes is tidy. -/
theorem Mapping.tidy_entry {target : Mapping} (h : target.flags.present = true) :
    target.entry.Tidy := by
  rw [PageEntry.Tidy, mapping?_entry h]
  rfl

namespace SoftMmu

variable {mmu next : SoftMmu} {slot : TableIndex}

/-- The tables as a partial map of pages. -/
def view (mmu : SoftMmu) : PageMap := fun page =>
  if page.slot ≠ recursive ∧ (mmu.slotEntry page.slot).present = true then
    ((mmu.slotTable page.slot).get page.position).mapping?
  else none

/-- Separated tables that are there exactly as long as they are needed, with tidy entries. -/
structure Sound (mmu : SoftMmu) : Prop extends Separated mmu where
  used : ∀ {slot : TableIndex}, slot ≠ recursive → (mmu.slotEntry slot).present = true →
    ∃ position, ((mmu.slotTable slot).get position).present = true
  tidy : ∀ {slot : TableIndex}, slot ≠ recursive → (mmu.slotEntry slot).present = true →
    ∀ position, ((mmu.slotTable slot).get position).Tidy

/-- Where a slot has a table, a page is mapped as the table says. -/
theorem view_of_present {page : VirtPage .small} (hslot : page.slot ≠ recursive)
    (hpresent : (mmu.slotEntry page.slot).present = true) :
    mmu.view page = ((mmu.slotTable page.slot).get page.position).mapping? :=
  if_pos ⟨hslot, hpresent⟩

/-- Where a slot has no table, no page is mapped. -/
theorem view_of_absent {page : VirtPage .small}
    (habsent : (mmu.slotEntry page.slot).present = false) : mmu.view page = none := by
  apply if_neg
  intro h
  rw [h.2] at habsent
  cases habsent

/-- A page that is mapped is outside the window, and its slot has a table. -/
theorem slot_of_view_eq_some {page : VirtPage .small} {target : Mapping}
    (h : mmu.view page = some target) :
    page.slot ≠ recursive ∧ (mmu.slotEntry page.slot).present = true := by
  by_contra hnot
  rw [view, if_neg hnot] at h
  cases h

/-- The pages of a slot are mapped as its table says. -/
theorem view_ofIndices_of_present (hslot : slot ≠ recursive)
    (hpresent : (mmu.slotEntry slot).present = true) (position : TableIndex) :
    mmu.view (.ofIndices slot position) = ((mmu.slotTable slot).get position).mapping? := by
  rw [view_of_present] <;> rw [VirtPage.slot_ofIndices]
  · rw [VirtPage.position_ofIndices]
  · exact hslot
  · exact hpresent

/-- Without a table no page of a slot is mapped. -/
theorem view_ofIndices_of_absent (habsent : (mmu.slotEntry slot).present = false)
    (position : TableIndex) : mmu.view (.ofIndices slot position) = none := by
  rw [view_of_absent]
  rwa [VirtPage.slot_ofIndices]

/-- No page of the window is in the map. -/
theorem view_of_recursive {page : VirtPage .small} (h : page.slot = recursive) :
    mmu.view page = none := if_neg fun hne => hne.1 h

/-- A slot has a table exactly if a page of it is mapped. -/
theorem Sound.populated_iff (h : mmu.Sound) (hslot : slot ≠ recursive) :
    mmu.view.Populated slot ↔ (mmu.slotEntry slot).present = true := by
  constructor
  · rintro ⟨position, hsome⟩
    by_contra habsent
    rw [view_ofIndices_of_absent (Bool.not_eq_true _ ▸ habsent)] at hsome
    cases hsome
  · intro hpresent
    obtain ⟨position, hused⟩ := h.used hslot hpresent
    refine ⟨position, ?_⟩
    rwa [view_ofIndices_of_present hslot hpresent, PageEntry.isSome_mapping?]

/-- The slots other than the last that have a table. -/
def populatedSlots (mmu : SoftMmu) : Finset TableIndex :=
  Finset.univ.filter fun slot => slot ≠ recursive ∧ (mmu.slotEntry slot).present = true

/-- A slot is populated if it is not the last and has a table. -/
theorem mem_populatedSlots {slot : TableIndex} :
    slot ∈ mmu.populatedSlots ↔ slot ≠ recursive ∧ (mmu.slotEntry slot).present = true := by
  simp only [populatedSlots, Finset.mem_filter, Finset.mem_univ, true_and]

/-- Tables that show the same pages are there for the same slots. -/
theorem Sound.present_eq_of_view_eq (h : mmu.Sound) (h' : next.Sound)
    (hview : next.view = mmu.view) (slot : TableIndex) :
    (next.slotEntry slot).present = (mmu.slotEntry slot).present := by
  by_cases hslot : slot = recursive
  · rw [hslot, h.present, h'.present]
  · rw [Bool.eq_iff_iff, ← h'.populated_iff hslot, ← h.populated_iff hslot, hview]

/-- Whether a slot has a table does not depend on the pages of other slots. -/
theorem present_of_update (h : mmu.Sound) (h' : next.Sound) {mapped : Option Mapping}
    {page : VirtPage .small} (hview : next.view = Function.update mmu.view page mapped)
    (hslot : slot ≠ recursive) (hother : slot ≠ page.slot) :
    (next.slotEntry slot).present = (mmu.slotEntry slot).present := by
  rw [Bool.eq_iff_iff, ← h'.populated_iff hslot, ← h.populated_iff hslot]
  have hsame : ∀ position, next.view (.ofIndices slot position) =
      mmu.view (.ofIndices slot position) := by
    intro position
    rw [hview, Function.update_of_ne]
    rintro rfl
    exact hother (VirtPage.slot_ofIndices slot position).symm
  simp only [PageMap.Populated, hsame]

/-- The same tables show the same pages. -/
theorem SameTables.view_eq (h : SameTables mmu next) : next.view = mmu.view := by
  funext page
  simp only [view, h.slotEntry_eq, h.slotTable_eq]

/-- Tables stay sound when they are only looked at. -/
theorem Sound.same (h : mmu.Sound) (same : SameTables mmu next) : next.Sound := by
  refine ⟨h.toSeparated.same same, fun {slot} => ?_, fun {slot} => ?_⟩
  · rw [same.slotEntry_eq, same.slotTable_eq]
    exact h.used
  · rw [same.slotEntry_eq, same.slotTable_eq]
    exact h.tidy

/-- Pages of other slots are mapped as before. -/
theorem Edited.view_eq (edit : Edited mmu slot next) {page : VirtPage .small}
    (h : page.slot ≠ slot) : next.view page = mmu.view page := by
  unfold view
  rw [edit.slotEntry_eq h]
  split
  case isTrue hpage => rw [edit.slotTable_eq h hpage.1 hpage.2]
  case isFalse => rfl

/-- Tables stay sound if the slot that changed is sound. -/
theorem Sound.edited (h : mmu.Sound) (edit : Edited mmu slot next) (separated : next.Separated)
    (hslot : (next.slotEntry slot).present = true →
      (∃ position, ((next.slotTable slot).get position).present = true) ∧
        ∀ position, ((next.slotTable slot).get position).Tidy) : next.Sound := by
  refine ⟨separated, fun {other} hinner hpresent => ?_, fun {other} hinner hpresent => ?_⟩
  · by_cases hother : other = slot
    · subst hother
      exact (hslot hpresent).1
    · rw [edit.slotEntry_eq hother] at hpresent
      rw [edit.slotTable_eq hother hinner hpresent]
      exact h.used hinner hpresent
  · by_cases hother : other = slot
    · subst hother
      exact (hslot hpresent).2
    · rw [edit.slotEntry_eq hother] at hpresent
      rw [edit.slotTable_eq hother hinner hpresent]
      exact h.tidy hinner hpresent

/-- If of the pages of the slot that changed only one is mapped differently, then the map
is updated at that page. -/
theorem Edited.view_eq_update {virt : VirtAddr} {target : Option Mapping}
    (edit : Edited mmu virt.directoryIndex next)
    (hslot : ∀ position, next.view (.ofIndices virt.directoryIndex position) =
      if position = virt.tableIndex then target
      else mmu.view (.ofIndices virt.directoryIndex position)) :
    next.view = Function.update mmu.view (virt.page .small) target := by
  funext page
  by_cases hpage : page.slot = virt.directoryIndex
  · have hname : page = .ofIndices virt.directoryIndex page.position := by
      rw [← hpage, VirtPage.ofIndices_slot_position]
    by_cases hposition : page.position = virt.tableIndex
    · have hsame : page = virt.page .small := by
        rw [hname, hposition, VirtPage.page_eq_ofIndices]
      rw [hname, hslot, if_pos hposition, ← hname, hsame, Function.update_self]
    · have hother : page ≠ virt.page .small := by
        rintro rfl
        apply hposition
        exact VirtPage.position_page virt
      rw [Function.update_of_ne hother, hname, hslot, if_neg hposition]
  · have hother : page ≠ virt.page .small := by
      rintro rfl
      apply hpage
      exact VirtPage.slot_page virt
    rw [Function.update_of_ne hother, edit.view_eq hpage]

/-- A new directory points at itself, and maps nothing else. -/
theorem ofDirectory_slotEntry {directory : Frame} (h : ofDirectory directory = .ok mmu) :
    mmu.directory = directory ∧ ∃ entry : PageEntry, entry.present = true ∧
      entry.frame = directory ∧
      ∀ slot, mmu.slotEntry slot = if recursive = slot then entry else .empty := by
  unfold ofDirectory PageEntry.mapping at h
  split at h
  case isFalse => cases h
  case isTrue hlow =>
    cases h
    refine ⟨rfl, .pointingAt ⟨directory.index, hlow⟩ .kernel, rfl, rfl, ?_⟩
    intro slot
    rw [slotEntry, TableStore.load_save, if_pos rfl, PageTable.get_set, PageTable.zeroed,
      PageTable.get_filled]

/-- The directory points at itself and at no table. -/
structure Blank (mmu : SoftMmu) : Prop where
  present_iff : ∀ slot, (mmu.slotEntry slot).present = true ↔ slot = recursive
  frame_eq : (mmu.slotEntry recursive).frame = mmu.directory

/-- A blank directory is sound: there are no tables to go wrong. -/
theorem Blank.sound (h : mmu.Blank) : mmu.Sound := by
  refine ⟨⟨⟨(h.present_iff recursive).mpr rfl, h.frame_eq⟩, ?_⟩, ?_, ?_⟩
  · intro slot other hslot hother _
    exact ((h.present_iff slot).mp hslot).trans ((h.present_iff other).mp hother).symm
  · intro slot hinner hslot
    exact absurd ((h.present_iff slot).mp hslot) hinner
  · intro slot hinner hslot
    exact absurd ((h.present_iff slot).mp hslot) hinner

/-- A blank directory maps no page. -/
theorem Blank.view_eq (h : mmu.Blank) : mmu.view = .empty := by
  funext page
  apply if_neg
  rintro ⟨hinner, hslot⟩
  exact hinner ((h.present_iff page.slot).mp hslot)

/-- A new directory is blank. -/
theorem blank_ofDirectory {directory : Frame} (h : ofDirectory directory = .ok mmu) :
    mmu.Blank := by
  obtain ⟨hdirectory, entry, hpresent, hframe, hentry⟩ := ofDirectory_slotEntry h
  constructor
  · intro slot
    rw [hentry]
    split_ifs with hslot
    · exact iff_of_true hpresent hslot.symm
    · exact iff_of_false Bool.false_ne_true fun heq => hslot heq.symm
  · rw [hentry, if_pos rfl, hframe, hdirectory]

/-- A new directory is sound, and the map of no page. -/
theorem sound_ofDirectory {directory : Frame} (h : ofDirectory directory = .ok mmu) :
    mmu.Sound ∧ mmu.view = .empty :=
  ⟨(blank_ofDirectory h).sound, (blank_ofDirectory h).view_eq⟩

end SoftMmu

end BootMemory
