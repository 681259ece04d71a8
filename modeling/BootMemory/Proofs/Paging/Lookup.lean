import BootMemory.Proofs.Paging.View

/-!
# Looking at an entry

To look at an entry, to translate an address and to ask whether a page is mapped is the same
walk through the window. It changes no table and never faults, not even for an address inside
the window, where it shows the directory. It needs no tables in frames of their own for that, and
it finds what the page walk of a processor finds, whatever is in the entries and in the frames.
-/

set_option autoImplicit false

namespace BootMemory.AddressSpace

open SoftMmu
open TableIndex (recursive)

variable {mmu : SoftMmu} {virt : VirtAddr}

/-- What the tables hold about a page, if its slot has a table. -/
def entryAt (mmu : SoftMmu) (virt : VirtAddr) : Option PageEntry :=
  if (mmu.slotEntry virt.directoryIndex).present = true then
    some ((mmu.slotTable virt.directoryIndex).get virt.tableIndex)
  else none

/-- Looking at an entry finds what the tables hold, and changes nothing. -/
theorem entry?_outcome (h : mmu.Windowed) (virt : VirtAddr) :
    ∃ next, ( entry? virt mmu).outcome = .ok (entryAt mmu virt, next) ∧
      SameTables mmu next := by
  obtain ⟨walked, hdirectory, hwalked⟩ := h.directory_outcome
  have hload := hwalked.loadEntry_directory virt.directoryIndex
  cases hpresent : (mmu.slotEntry virt.directoryIndex).present with
  | false =>
    refine ⟨walked, ?_, hwalked⟩
    simp [ entry?, entryAt, hdirectory, hload, hpresent]
  | true =>
    obtain ⟨shown, htable, hshown⟩ := h.table_outcome_of_same hwalked hpresent
    refine ⟨shown, ?_, hshown⟩
    simp only [ entry?, entryAt, Traced.outcome_bind, hdirectory, Outcome.ok_bind, hload,
      hpresent, ↓reduceIte, htable, Traced.outcome_pure, hshown.loadEntry_table]

/-- Outside the window the tables hold what the map says. -/
theorem entryAt_eq (h : mmu.Sound) (hwindow : ¬virt.InWindow) :
    entryAt mmu virt = mmu.view.entryOf virt := by
  unfold entryAt PageMap.entryOf
  have hpopulated := h.populated_iff hwindow
  by_cases hpresent : (mmu.slotEntry virt.directoryIndex).present = true
  · rw [if_pos hpresent, if_pos (hpopulated.mpr hpresent), VirtPage.page_eq_ofIndices,
      view_ofIndices_of_present hwindow hpresent]
    exact congrArg some (h.tidy hwindow hpresent _).symm
  · rw [if_neg hpresent, if_neg (mt hpopulated.mp hpresent)]

/-- Read as empty where there is no table, a page's entry is what the map says. -/
theorem getD_entryAt (h : mmu.Sound) {page : VirtPage .small} (hslot : page.slot ≠ recursive) :
    (entryAt mmu page.base).getD .empty = (mmu.view page).elim .empty Mapping.entry := by
  rw [entryAt_eq h hslot, PageMap.entryOf, VirtPage.page_base]
  by_cases hpopulated : mmu.view.Populated page.base.directoryIndex
  · rw [if_pos hpopulated, Option.getD_some]
  · have hnone : mmu.view page = none := by
      by_contra hsome
      exact hpopulated (PageMap.populated_iff.mpr
        ⟨page, rfl, Option.isSome_iff_ne_none.mpr hsome⟩)
    rw [if_neg hpopulated, hnone, Option.getD_none, Option.elim_none]

/-- In the window the tables hold the directory. -/
theorem entryAt_of_inWindow (h : mmu.Windowed) (hwindow : virt.InWindow) :
    entryAt mmu virt = some (mmu.slotEntry virt.tableIndex) := by
  have hdirectory : mmu.slotTable recursive = mmu.ram.load mmu.directory.index := by
    rw [slotTable, h.frame_eq]
  unfold entryAt
  rw [show virt.directoryIndex = recursive from hwindow, if_pos h.present, hdirectory]
  rfl

/-- The window shows the directory, and the tables that are there. -/
theorem present_slotEntry (h : mmu.Sound) (slot : TableIndex) :
    (mmu.slotEntry slot).present = decide (slot = recursive ∨ mmu.view.Populated slot) := by
  rw [Bool.eq_iff_iff, decide_eq_true_iff]
  by_cases hslot : slot = recursive
  · subst hslot
    exact iff_of_true h.present (.inl rfl)
  · rw [h.populated_iff hslot, or_iff_right hslot]

/-- Outside the window the map is read off the tables. -/
theorem entryAt_bind (mmu : SoftMmu) (hwindow : ¬virt.InWindow) :
    (entryAt mmu virt).bind PageEntry.mapping? = mmu.view (virt.page .small) := by
  unfold entryAt view
  rw [VirtPage.slot_page, VirtPage.position_page]
  by_cases hpresent : (mmu.slotEntry virt.directoryIndex).present = true
  · rw [if_pos hpresent, if_pos ⟨hwindow, hpresent⟩, Option.bind_some]
  · rw [if_neg hpresent, if_neg fun h => hpresent h.2, Option.bind_none]

/-- Something is mapped at an address exactly if the map shows it. -/
theorem any_present_entryAt (h : mmu.Sound) (virt : VirtAddr) :
    (entryAt mmu virt).any (·.present) = mmu.view.shows virt := by
  unfold PageMap.shows
  by_cases hwindow : virt.InWindow
  · rw [if_pos hwindow, entryAt_of_inWindow h.toWindowed hwindow, Option.any_some,
      present_slotEntry h]
  · rw [if_neg hwindow, ← entryAt_bind mmu hwindow]
    cases entryAt mmu virt with
    | none => rfl
    | some entry => rw [Option.any_some, Option.bind_some, PageEntry.isSome_mapping?]

/-- The address that an entry gives is the one of the mapping that it stands for. -/
theorem map_addressAt_filter (entry : Option PageEntry) (offset : Fin 4096) :
    (entry.filter (·.present)).map (·.addressAt offset) =
      (entry.bind PageEntry.mapping?).map (·.addressAt offset) := by
  cases entry with
  | none => rfl
  | some entry =>
    rw [Option.filter_some, Option.bind_some, PageEntry.mapping?]
    split <;> rfl

/-- Looking at an entry answers what the map answers. -/
theorem entry?_refines (h : mmu.Sound) (virt : VirtAddr) :
    ∃ answer next, ( entry? virt mmu).outcome = .ok (answer, next) ∧ SameTables mmu next ∧
      ∀ dry, mmu.view.Answers dry (.entry virt) (.entry answer) := by
  obtain ⟨next, houtcome, hsame⟩ := entry?_outcome h.toWindowed virt
  refine ⟨_, next, houtcome, hsame, ?_⟩
  intro dry
  simp only [PageMap.Answers]
  by_cases hwindow : virt.InWindow
  · rw [if_pos hwindow, ← any_present_entryAt h, entryAt_of_inWindow h.toWindowed hwindow]
    exact ⟨_, rfl, rfl⟩
  · rw [if_neg hwindow]
    exact entryAt_eq h hwindow

/-- Where an address translates to, as the tables have it. -/
def translation (mmu : SoftMmu) (virt : VirtAddr) : Option PhysAddr :=
  ((entryAt mmu virt).filter (·.present)).map (·.addressAt virt.pageOffset)

/-- The page walk finds what the tables hold. -/
theorem walk_eq_translation (mmu : SoftMmu) (addr : VirtAddr) :
    (mmu.walk addr).1 = translation mmu addr := by
  simp only [walk, resolve, translation, entryAt,
    show mmu.directoryEntry addr = mmu.slotEntry addr.directoryIndex from rfl]
  split_ifs with hupper hlower
  · rw [slotTable, Option.filter_some, if_pos hlower, Option.map_some]
  · rw [slotTable, Option.filter_some, if_neg hlower, Option.map_none]
  · rfl

/-- A translation finds what the tables hold, and changes nothing. -/
theorem translate_outcome (h : mmu.Windowed) (virt : VirtAddr) :
    ∃ next, (translate virt mmu).outcome = .ok (translation mmu virt, next) ∧
      SameTables mmu next := by
  obtain ⟨next, houtcome, hsame⟩ := entry?_outcome h virt
  refine ⟨next, ?_, hsame⟩
  simp [translate, translation, houtcome]

/-- Outside the window an address translates as the map says. -/
theorem translation_eq (mmu : SoftMmu) (hwindow : ¬virt.InWindow) :
    translation mmu virt = mmu.view.translate virt := by
  rw [translation, map_addressAt_filter, entryAt_bind mmu hwindow]
  rfl

/-- A translation answers what the map answers. -/
theorem translate_refines (h : mmu.Sound) (virt : VirtAddr) :
    ∃ answer next, (translate virt mmu).outcome = .ok (answer, next) ∧ SameTables mmu next ∧
      ∀ dry, mmu.view.Answers dry (.translate virt) (.address answer) := by
  obtain ⟨next, houtcome, hsame⟩ := translate_outcome h.toWindowed virt
  refine ⟨translation mmu virt, next, houtcome, hsame, fun dry => ?_⟩
  simp only [PageMap.Answers]
  by_cases hwindow : virt.InWindow
  · rw [if_pos hwindow, translation, map_addressAt_filter, ← any_present_entryAt h,
      entryAt_of_inWindow h.toWindowed hwindow, Option.isSome_map, Option.bind_some,
      PageEntry.isSome_mapping?, Option.any_some]
  · rw [if_neg hwindow]
    exact translation_eq mmu hwindow

/-- In the window an address translates as before if the slot that it shows has a table exactly if
it had one before. -/
theorem translation_window_eq {next : SoftMmu} (h : mmu.Windowed) (h' : next.Windowed)
    (steady : Steady mmu next) (hwindow : virt.InWindow)
    (hsame : (next.slotEntry virt.tableIndex).present = (mmu.slotEntry virt.tableIndex).present) :
    translation next virt = translation mmu virt := by
  rw [translation, translation, entryAt_of_inWindow h' hwindow, entryAt_of_inWindow h hwindow,
    Option.filter_some, Option.filter_some, hsame]
  cases hpresent : (mmu.slotEntry virt.tableIndex).present with
  | false => rfl
  | true =>
    have hframe := steady.frame_eq hpresent (hsame.trans hpresent)
    have hnumber : (next.slotEntry virt.tableIndex).frameNumber =
        (mmu.slotEntry virt.tableIndex).frameNumber := Fin.ext (congrArg PhysPage.index hframe)
    simp only [↓reduceIte, Option.map_some, PageEntry.addressAt, hnumber]

/-- Tables that show the same pages from the same frames translate every address to the same one,
also in the window. -/
theorem translation_eq_of_steady {next : SoftMmu} (h : mmu.Sound) (h' : next.Sound)
    (hview : next.view = mmu.view) (steady : Steady mmu next) (virt : VirtAddr) :
    translation next virt = translation mmu virt := by
  by_cases hwindow : virt.InWindow
  · exact translation_window_eq h.toWindowed h'.toWindowed steady hwindow
      (h.present_eq_of_view_eq h' hview virt.tableIndex)
  · rw [translation_eq next hwindow, translation_eq mmu hwindow, hview]

/-- The question whether a page is mapped is answered by the entry, and changes nothing. -/
theorem isMapped_outcome (h : mmu.Windowed) (virt : VirtAddr) :
    ∃ next, (isMapped virt mmu).outcome = .ok ((entryAt mmu virt).any (·.present), next) ∧
      SameTables mmu next := by
  obtain ⟨next, houtcome, hsame⟩ := entry?_outcome h virt
  refine ⟨next, ?_, hsame⟩
  simp [isMapped, houtcome]

/-- The question whether a page is mapped is answered as by the map. -/
theorem isMapped_refines (h : mmu.Sound) (virt : VirtAddr) :
    ∃ answer next, (isMapped virt mmu).outcome = .ok (answer, next) ∧ SameTables mmu next ∧
      ∀ dry, mmu.view.Answers dry (.isMapped virt) (.flag answer) := by
  obtain ⟨next, houtcome, hsame⟩ := isMapped_outcome h.toWindowed virt
  exact ⟨_, next, houtcome, hsame, fun dry => any_present_entryAt h virt⟩

/-! ## The page walk -/

/-- The page walk finds something exactly if the tables hold a present entry. -/
theorem isSome_walk (mmu : SoftMmu) (virt : VirtAddr) :
    (mmu.walk virt).1.isSome = (entryAt mmu virt).any (·.present) := by
  rw [walk_eq_translation, translation, Option.isSome_map, Option.isSome_filter]

/-- The tables hold nothing about a page whose directory entry is not present. -/
theorem entryAt_eq_none {mmu : SoftMmu} {virt : VirtAddr} :
    entryAt mmu virt = none ↔ (mmu.directoryEntry virt).present = false := by
  rw [entryAt, show mmu.directoryEntry virt = mmu.slotEntry virt.directoryIndex from rfl]
  cases (mmu.slotEntry virt.directoryIndex).present with
  | false => exact iff_of_true (if_neg Bool.false_ne_true) rfl
  | true =>
    rw [if_pos rfl]
    exact iff_of_false (Option.some_ne_none _) Bool.noConfusion

/-- What the tables hold about a page is the entry that the second step of a page walk reads. -/
theorem entryAt_eq_some {mmu : SoftMmu} {virt : VirtAddr} {entry : PageEntry}
    (h : entryAt mmu virt = some entry) :
    entry = (mmu.ram.load (mmu.directoryEntry virt).frame.index).get virt.tableIndex := by
  unfold entryAt at h
  split at h
  case isTrue => exact (Option.some.inj h).symm
  case isFalse => cases h

/-- Two addresses in one page have the same slot and the same position. -/
theorem indices_of_page_eq {addr : VirtAddr} (h : virt.page .small = addr.page .small) :
    virt.directoryIndex = addr.directoryIndex ∧ virt.tableIndex = addr.tableIndex := by
  constructor
  · rw [← VirtPage.slot_page virt, h, VirtPage.slot_page]
  · rw [← VirtPage.position_page virt, h, VirtPage.position_page]

/-- In the window page of a slot the page walk finds the frame that the slot's directory entry
points at. -/
theorem walk_window (h : mmu.Windowed) {slot : TableIndex}
    (hpage : virt.page .small = slot.window.page .small) :
    (mmu.walk virt).1 = if (mmu.slotEntry slot).present = true then
      some ((mmu.slotEntry slot).addressAt virt.pageOffset) else none := by
  obtain ⟨hupper, hlower⟩ := indices_of_page_eq hpage
  rw [TableIndex.window, VirtAddr.directoryIndex_ofIndices] at hupper
  rw [TableIndex.window, VirtAddr.tableIndex_ofIndices] at hlower
  rw [walk_eq_translation, translation, entryAt_of_inWindow h hupper, hlower, Option.filter_some]
  split <;> rfl

/-- The window reads what the page walk reads. As long as the last directory entry points at the
directory, every other entry and every other frame may hold anything: to look at an entry, to
translate an address and to ask whether a page is mapped is answered for every address, those in the
window included, without a page fault, as the page walk has it. No table changes. -/
theorem window_reads_walk (h : mmu.Windowed) (virt : VirtAddr) :
    (∃ next, (translate virt mmu).outcome = .ok ((mmu.walk virt).1, next) ∧
        SameTables mmu next) ∧
      (∃ next, (isMapped virt mmu).outcome = .ok ((mmu.walk virt).1.isSome, next) ∧
        SameTables mmu next) ∧
      (∃ found next, ( entry? virt mmu).outcome = .ok (found, next) ∧
        (found = none ↔ (mmu.directoryEntry virt).present = false) ∧
        (∀ entry, found = some entry →
          entry = (mmu.ram.load (mmu.directoryEntry virt).frame.index).get virt.tableIndex) ∧
        SameTables mmu next) ∧
      ∀ slot : TableIndex, virt.page .small = slot.window.page .small →
        (mmu.walk virt).1 = if (mmu.slotEntry slot).present = true then
          some ((mmu.slotEntry slot).addressAt virt.pageOffset) else none := by
  refine ⟨?_, ?_, ?_, fun slot hpage => walk_window h hpage⟩
  · rw [walk_eq_translation]
    exact translate_outcome h virt
  · rw [isSome_walk]
    exact isMapped_outcome h virt
  · obtain ⟨next, houtcome, hsame⟩ := entry?_outcome h virt
    exact ⟨_, next, houtcome, entryAt_eq_none, fun _ => entryAt_eq_some, hsame⟩

/-- Slot 5 points at the directory too, so its page 511 is the directory, and slots 7 and 8 share a
frame of junk, which shows up in their window pages and looks present. -/
theorem window_reads_walk_aliased :
    let entries := ((PageTable.zeroed.set 5 (.pointingAt 0x100 .kernel)).set 7
      (.pointingAt 0x200 .kernel)).set 8 (.pointingAt 0x200 .userReadWrite)
    let mmu : SoftMmu := ⟨Frame.ofIndex 0x100, ⟨.filled junk,
      [(0x100, entries.set recursive (.pointingAt 0x100 .kernel))]⟩, []⟩
    mmu.Windowed ∧
      (∃ next, (translate (.ofNat 0x17FF123) mmu).outcome = .ok (some (.ofNat 0x100123), next)) ∧
      (∃ next, (translate (.ofNat 0x2005123) mmu).outcome = .ok (some (.ofNat 0xBAD00123), next)) ∧
      (∃ next, (isMapped (.ofNat 0x1801123) mmu).outcome = .ok (false, next)) ∧
      (mmu.walk (.ofNat 0xFFC08123)).1 = some (.ofNat 0x200123) := by
  intro entries mmu
  have h : mmu.Windowed := ⟨by decide +kernel, by decide +kernel⟩
  obtain ⟨⟨first, hfirst, -⟩, -⟩ := window_reads_walk h (.ofNat 0x17FF123)
  obtain ⟨⟨second, hsecond, -⟩, -⟩ := window_reads_walk h (.ofNat 0x2005123)
  obtain ⟨-, ⟨third, hthird, -⟩, -⟩ := window_reads_walk h (.ofNat 0x1801123)
  obtain ⟨-, -, -, hshown⟩ := window_reads_walk h (.ofNat 0xFFC08123)
  rw [show (mmu.walk (.ofNat 0x17FF123)).1 = some (.ofNat 0x100123) by decide +kernel] at hfirst
  rw [show (mmu.walk (.ofNat 0x2005123)).1 = some (.ofNat 0xBAD00123) by decide +kernel] at hsecond
  rw [show (mmu.walk (.ofNat 0x1801123)).1 = none by decide +kernel] at hthird
  refine ⟨h, ⟨first, hfirst⟩, ⟨second, hsecond⟩, ⟨third, hthird⟩, ?_⟩
  rw [hshown 8 (by decide), if_pos (by decide +kernel)]
  decide +kernel

end BootMemory.AddressSpace
