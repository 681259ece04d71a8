import BootMemory.Proofs.Paging.Arguments
import BootMemory.Proofs.Paging.View

/-!
# Unmapping a page

An unmapping clears the entry of the page and gives its frame back; the table goes the same
way as soon as it is empty. Nothing of this faults but the source, which may refuse a frame
that is given back to it.
-/

set_option autoImplicit false

namespace BootMemory.AddressSpace

open SoftMmu TableWindow
open TableIndex (recursive)

variable {σ : Type} [FrameSource σ] {mmu : SoftMmu} {slot : TableIndex} {virt : VirtAddr}

/-- The source after frames were given back to it, one after the other. -/
def giveBack (returned : List Frame) (frames : σ) : Except Fault σ :=
  returned.foldlM (fun frames frame => (FrameSource.free frame frames).outcome) frames

/-- Giving no frames back leaves the source as it is. -/
theorem giveBack_nil (frames : σ) : giveBack [] frames = .ok frames := rfl

/-- Frames are given back one after the other, up to the first one that faults. -/
theorem giveBack_cons (frame : Frame) (returned : List Frame) (frames : σ) :
    giveBack (frame :: returned) frames =
      (FrameSource.free frame frames).outcome >>= giveBack returned := rfl

/-- The frames that an unmapping with a given answer gives back: the one of the page, and the one
of the table if it is not there any more. -/
def released (mmu next : SoftMmu) (slot : TableIndex) : Except MappingError Frame → List Frame
  | .error _ => []
  | .ok frame =>
    frame :: if (next.slotEntry slot).present then [] else [(mmu.slotEntry slot).frame]

/-- The table of a slot, unless it is empty. -/
structure Trimmed (mmu : SoftMmu) (slot : TableIndex) (table : PageTable) (next : SoftMmu) :
    Prop where
  edited : Edited mmu slot next
  separated : next.Separated
  present_eq : (next.slotEntry slot).present = !table.isEmpty
  frame_eq : (next.slotEntry slot).present = true →
    (next.slotEntry slot).frame = (mmu.slotEntry slot).frame
  table_eq : (next.slotEntry slot).present = true → next.slotTable slot = table

/-- A table is given back exactly if it is empty. -/
theorem releaseTable_outcome (hslot : slot ≠ recursive)
    (hpresent : (mmu.slotEntry slot).present = true) {table : PageTable} {space : SoftMmu}
    (written : TableSet mmu slot table space) :
    ∃ next, Trimmed mmu slot table next ∧
      ∀ frames : σ, (releaseTable slot mmu.directory.index (mmu.slotEntry slot).frame.index
          (mmu.slotEntry slot) space frames).outcome =
        (giveBack (if (next.slotEntry slot).present then [] else [(mmu.slotEntry slot).frame])
          frames).map (fun rest => (next, rest)) := by
  have hload : load space (mmu.slotEntry slot).frame.index = table := by
    rw [← written.table_eq, slotTable, written.entry_eq]
    rfl
  cases hempty : table.isEmpty with
  | false =>
    have hkept : (space.slotEntry slot).present = true := by
      rw [written.entry_eq]
      exact hpresent
    refine ⟨space, ⟨written.toEdited, written.separated, ?_, ?_, fun _ => written.table_eq⟩,
      fun frames => ?_⟩
    · rw [hkept, hempty]
      rfl
    · rw [written.entry_eq]
      exact fun _ => rfl
    · simp only [releaseTable, hload, hempty, hkept]
      rfl
  | true =>
    have hunlinked := (((SameTables.refl space).saved_entry space.directory.index slot
      .empty).invalidate slot.window).entrySet written.separated hslot
        fun hpresent => absurd hpresent Bool.false_ne_true
    refine ⟨_, ⟨written.toEdited.trans hunlinked.toEdited, hunlinked.separated, ?_, ?_, ?_⟩,
      fun frames => ?_⟩
    · rw [hunlinked.entry_eq, hempty]
      rfl
    · rw [hunlinked.entry_eq]
      intro hkept
      cases hkept
    · rw [hunlinked.entry_eq]
      intro hkept
      cases hkept
    · simp only [hunlinked.entry_eq, PageEntry.present_empty, Bool.false_eq_true]
      simp only [releaseTable, hload, hempty, ↓reduceIte, giveBack_cons, Traced.outcome_bind,
        Traced.outcome_report, Outcome.ok_bind, ← written.directory_eq]
      cases (FrameSource.free (mmu.slotEntry slot).frame frames).outcome <;> rfl

/-- Clearing the entry of a page, and giving its table back if it is empty then, takes the page
out of the map. -/
theorem Trimmed.cleared (h : mmu.Sound) (hslot : virt.directoryIndex ≠ recursive)
    (hpresent : (mmu.slotEntry virt.directoryIndex).present = true) {next : SoftMmu}
    (trimmed : Trimmed mmu virt.directoryIndex
      ((mmu.slotTable virt.directoryIndex).set virt.tableIndex .empty) next) :
    next.Sound ∧ next.view = Function.update mmu.view (virt.page .small) none := by
  constructor
  · apply h.edited trimmed.edited trimmed.separated
    intro hkept
    have hused := trimmed.present_eq
    rw [hkept, eq_comm, Bool.not_eq_true', ← Bool.not_eq_true, PageTable.isEmpty_iff] at hused
    obtain ⟨position, hposition⟩ := not_forall.mp hused
    rw [trimmed.table_eq hkept]
    refine ⟨⟨position, Bool.ne_false_iff.mp hposition⟩, ?_⟩
    intro other
    rw [PageTable.get_set]
    split
    case isTrue => exact PageEntry.tidy_empty
    case isFalse => exact h.tidy hslot hpresent other
  · apply trimmed.edited.view_eq_update
    intro position
    have hcleared : next.view (.ofIndices virt.directoryIndex position) =
        (((mmu.slotTable virt.directoryIndex).set virt.tableIndex .empty).get
          position).mapping? := by
      cases hkept : (next.slotEntry virt.directoryIndex).present with
      | true => rw [view_ofIndices_of_present hslot hkept, trimmed.table_eq hkept]
      | false =>
        have hempty := trimmed.present_eq
        rw [hkept, eq_comm, Bool.not_eq_false', PageTable.isEmpty_iff] at hempty
        rw [view_ofIndices_of_absent hkept, PageEntry.mapping?_eq_none.mpr (hempty position)]
    rw [hcleared, PageTable.get_set, view_ofIndices_of_present hslot hpresent]
    by_cases hposition : virt.tableIndex = position
    · rw [if_pos hposition, if_pos hposition.symm, PageEntry.mapping?_empty]
    · rw [if_neg hposition, if_neg (Ne.symm hposition)]

/-- An unmapping answers what the map answers, and the tables become what the map becomes, as
long as the source takes the frames that are given back to it. -/
theorem unmap_refines (h : mmu.Sound) (virt : VirtAddr) (frames : σ) :
    ∃ next, (unmap virt mmu frames).outcome =
        (giveBack (released mmu next virt.directoryIndex (mmu.view.unmap virt).1) frames).map
          (fun rest => ((mmu.view.unmap virt).1, next, rest)) ∧
      (next.Sound ∧ next.view = (mmu.view.unmap virt).2) ∧ Steady mmu next := by
  rcases checkUnmap_cases mmu.view virt with
    ⟨complaint, hcheck, hunmap⟩ | ⟨hcheck, hslot, hunmap⟩
  · rw [hunmap]
    refine ⟨mmu, ?_, ⟨h, rfl⟩, (SameTables.refl mmu).steady⟩
    simp [unmap, hcheck, released, giveBack_nil]
  obtain ⟨walked, hdirectory, hwalked⟩ := h.directory_outcome
  have hupper := hwalked.loadEntry_directory virt.directoryIndex
  rw [hunmap]
  cases hpresent : (mmu.slotEntry virt.directoryIndex).present with
  | false =>
    rw [view_of_absent (by rwa [VirtPage.slot_page])]
    refine ⟨walked, ?_, ⟨h.same hwalked, hwalked.view_eq⟩, hwalked.steady⟩
    simp [unmap, hcheck, hdirectory, hupper, hpresent, released, giveBack_nil]
  | true =>
    obtain ⟨shown, htable, hshown⟩ := h.table_outcome_of_same hwalked hpresent
    have hlower := hshown.loadEntry_table virt.directoryIndex virt.tableIndex
    have hview : mmu.view (virt.page .small) =
        ((mmu.slotTable virt.directoryIndex).get virt.tableIndex).mapping? := by
      rw [VirtPage.page_eq_ofIndices, view_ofIndices_of_present hslot hpresent]
    cases hmapped : ((mmu.slotTable virt.directoryIndex).get virt.tableIndex).present with
    | false =>
      rw [hview, PageEntry.mapping?_eq_none.mpr hmapped]
      refine ⟨shown, ?_, ⟨h.same hshown, hshown.view_eq⟩, hshown.steady⟩
      simp [unmap, hcheck, hdirectory, hupper, hpresent, htable, -PageEntry.index_frame, hlower,
        hmapped, released, giveBack_nil]
    | true =>
      have hwritten := ((hshown.saved_entry (mmu.slotEntry virt.directoryIndex).frame.index
        virt.tableIndex .empty).invalidate virt).tableSet h.toSeparated hslot hpresent
      obtain ⟨next, htrimmed, hrelease⟩ := releaseTable_outcome (σ := σ) hslot hpresent hwritten
      have hcleared := htrimmed.cleared h hslot hpresent
      rw [hview, PageEntry.mapping?, if_pos hmapped]
      refine ⟨next, ?_, hcleared, htrimmed.edited.steady fun _ => htrimmed.frame_eq⟩
      simp only [released, giveBack_cons, PageEntry.frame_mapping, unmap, hcheck,
        Traced.outcome_bind, hdirectory, Outcome.ok_bind, hupper, hpresent, Bool.not_true,
        Bool.false_eq_true, ↓reduceIte, htable, hlower, hmapped, Traced.outcome_report,
        Traced.outcome_pure, hrelease]
      cases (FrameSource.free ((mmu.slotTable virt.directoryIndex).get virt.tableIndex).frame
        frames).outcome with
      | error fault => rfl
      | ok rest =>
        rw [Outcome.ok_bind, Outcome.ok_bind]
        cases giveBack (if (next.slotEntry virt.directoryIndex).present then []
          else [(mmu.slotEntry virt.directoryIndex).frame]) rest <;> rfl

/-- What an unmapping gives back is told by the map: the frame of the page, and the one of its table
if that was the only page of the slot. -/
theorem released_eq {next : SoftMmu} (h : next.Sound)
    (hview : next.view = (mmu.view.unmap virt).2) :
    released mmu next virt.directoryIndex (mmu.view.unmap virt).1 =
      match mmu.view.unmap virt with
      | (.error _, _) => []
      | (.ok frame, pages) =>
        frame :: if pages.Populated virt.directoryIndex then []
          else [(mmu.slotEntry virt.directoryIndex).frame] := by
  rcases mmu.view.unmap_cases virt with ⟨complaint, hunmap⟩ | ⟨target, -, hwindow, -, hunmap⟩
  · rw [hunmap]
    rfl
  · rw [hunmap] at hview ⊢
    have hpopulated := h.populated_iff hwindow
    rw [hview] at hpopulated
    simp only [released, hpopulated]

end BootMemory.AddressSpace
