import BootMemory.Proofs.Paging.Arguments
import BootMemory.Proofs.Paging.View

/-!
# Mapping a page

A mapping makes a table ready for the slot of the page, and then writes the entry of the page.
A table that is there is kept; a new one goes into a frame that holds neither the directory
nor a table, becomes visible when the directory points at it, and is cleared before its
entries are looked at.
-/

set_option autoImplicit false

namespace BootMemory.AddressSpace

open SoftMmu TableWindow
open TableIndex (recursive)

variable {σ : Type} [FrameSource σ] {mmu ready next : SoftMmu} {frames rest : σ} {slot : TableIndex}
  {phys : PhysAddr} {virt : VirtAddr} {flags : PageFlags} {mode : MapMode}

/-! ## Making a table -/

/-- Widening an entry neither makes a table nor takes one away. -/
@[simp] theorem present_widen (entry : PageEntry) (flags : PageFlags) :
    (widen entry flags).present = entry.present := rfl

/-- The tables with a table for a slot, which is empty if it was not there before. -/
structure Ready (mmu : SoftMmu) (slot : TableIndex) (ready : SoftMmu) : Prop where
  edited : Edited mmu slot ready
  separated : ready.Separated
  present : (ready.slotEntry slot).present = true
  frame_eq : (mmu.slotEntry slot).present = true →
    (ready.slotEntry slot).frame = (mmu.slotEntry slot).frame
  table_eq : ready.slotTable slot =
    if (mmu.slotEntry slot).present = true then mmu.slotTable slot else .zeroed

/-- What a source pays for a change: the frame of the table of a slot if the table is new, and
nothing if it is not. -/
def Charged (mmu : SoftMmu) (slot : TableIndex) (frames : σ) (next : SoftMmu) (rest : σ) : Prop :=
  if (next.slotEntry slot).present = (mmu.slotEntry slot).present then rest = frames
  else FrameSource.allocate frames = some ((next.slotEntry slot).frame, rest)

/-- Tables that do not change cost nothing. -/
theorem charged_of_same (same : SameTables mmu next) (slot : TableIndex) (frames : σ) :
    Charged mmu slot frames next frames := by
  unfold Charged
  rw [same.slotEntry_eq, if_pos rfl]

/-- A frame that holds neither the directory nor a page table. -/
def Spare (mmu : SoftMmu) (frame : Frame) : Prop :=
  ∀ slot, (mmu.slotEntry slot).present = true → (mmu.slotEntry slot).frame ≠ frame

/-- What a change costs is read off the directory entry. -/
theorem Charged.of_entry (h : Charged mmu slot frames ready rest)
    (hentry : next.slotEntry slot = ready.slotEntry slot) :
    Charged mmu slot frames next rest := by
  unfold Charged at h ⊢
  rwa [hentry]

/-- A table that is there stays where it is. -/
theorem ensureTable_of_present (h : mmu.Separated) (hslot : slot ≠ recursive)
    (hpresent : (mmu.slotEntry slot).present = true) (flags : PageFlags) (frames : σ) :
    ∃ ready, (ensureTable slot flags mmu frames).outcome = .ok (.ok (), ready, frames) ∧
      Ready mmu slot ready ∧ Charged mmu slot frames ready frames := by
  obtain ⟨walked, hdirectory, hwalked⟩ := h.directory_outcome
  have hload := hwalked.loadEntry_directory slot
  have hwidened := (hwalked.saved_entry mmu.directory.index slot
    (widen (mmu.slotEntry slot) flags)).entrySet h hslot fun _ other hne hother heq =>
      hne (h.eq_of_frame_eq hother hpresent heq)
  have hframe : (widen (mmu.slotEntry slot) flags).frame ≠ mmu.directory := fun heq =>
    h.index_ne_directory hslot hpresent (congrArg PhysPage.index heq)
  refine ⟨_, ?_, ⟨hwidened.toEdited, hwidened.separated, ?_, ?_, ?_⟩, ?_⟩
  · simp [ensureTable, hdirectory, hload, hpresent]
  · rw [hwidened.entry_eq, present_widen]
    exact hpresent
  · rw [hwidened.entry_eq]
    exact fun _ => rfl
  · rw [if_pos hpresent]
    exact hwidened.table_eq hframe
  · rw [Charged, hwidened.entry_eq, present_widen, if_pos rfl]

/-- Without a frame no table is made. -/
theorem ensureTable_of_dry (h : mmu.Windowed) (habsent : (mmu.slotEntry slot).present = false)
    (hdry : FrameSource.allocate frames = none) (flags : PageFlags) :
    ∃ next, (ensureTable slot flags mmu frames).outcome =
      .ok (.error .outOfFrames, next, frames) ∧ SameTables mmu next := by
  obtain ⟨walked, hdirectory, hwalked⟩ := h.directory_outcome
  refine ⟨walked, ?_, hwalked⟩
  simp [ensureTable, hdirectory, hwalked.loadEntry_directory slot, habsent, hdry]

/-- A new table is made in a spare frame and cleared there. -/
theorem ensureTable_of_absent (h : mmu.Separated) (hslot : slot ≠ recursive)
    (habsent : (mmu.slotEntry slot).present = false) {frame : Frame}
    (htake : FrameSource.allocate frames = some (frame, rest)) (hlow : frame.index < 2 ^ 20)
    (hspare : Spare mmu frame) (flags : PageFlags) :
    ∃ ready, (ensureTable slot flags mmu frames).outcome = .ok (.ok (), ready, rest) ∧
      Ready mmu slot ready ∧ Charged mmu slot frames ready rest := by
  obtain ⟨walked, hdirectory, hwalked⟩ := h.directory_outcome
  have hpointer : PageEntry.mapping frame flags.asPresent =
      .ok (.pointingAt ⟨frame.index, hlow⟩ flags.asPresent) := dif_pos hlow
  -- The pointer is written first: only then does the window show the new frame.
  have hpointed := ((hwalked.saved_entry mmu.directory.index slot
    (.pointingAt ⟨frame.index, hlow⟩ flags.asPresent)).invalidate slot.window).entrySet h hslot
      fun _ other _ hother => hspare other hother
  have hpresent := congrArg PageEntry.present hpointed.entry_eq
  obtain ⟨shown, htable, hshown⟩ := hpointed.separated.table_outcome hpresent
  have hcleared := (hshown.saved _ .zeroed).tableSet hpointed.separated hslot hpresent
  rw [hpointed.entry_eq] at htable hcleared
  have hready := hcleared.entry_eq.trans hpointed.entry_eq
  refine ⟨_, ?_, ⟨hpointed.toEdited.trans hcleared.toEdited, hcleared.separated, ?_, ?_, ?_⟩, ?_⟩
  · simp [ensureTable, hdirectory, hwalked.loadEntry_directory slot, habsent, htake, hpointer,
      htable]
  · rw [hcleared.entry_eq]
    exact hpresent
  · rw [habsent]
    exact fun hthere => nomatch hthere
  · rw [habsent]
    exact hcleared.table_eq
  · rw [Charged, hready, habsent, if_neg]
    · exact htake
    · exact fun hfalse => nomatch hfalse

/-- Whether a source has no frame left. -/
def isDry (frames : σ) : Bool := (FrameSource.allocate frames).isNone

/-- A table is made ready for a slot, unless no page of the slot is mapped and there is no frame
left. If a table is needed, the frame for it must be spare. -/
theorem ensureTable_cases (h : mmu.Sound) (hslot : slot ≠ recursive) (flags : PageFlags)
    (hspare : ¬mmu.view.Populated slot → ∀ frame rest,
      FrameSource.allocate frames = some (frame, rest) → frame.index < 2 ^ 20 ∧ Spare mmu frame) :
    (¬mmu.view.Populated slot ∧ isDry frames = true) ∧
        (∃ next, (ensureTable slot flags mmu frames).outcome =
          .ok (.error .outOfFrames, next, frames) ∧ SameTables mmu next) ∨
      ¬(¬mmu.view.Populated slot ∧ isDry frames = true) ∧
        ∃ ready rest, (ensureTable slot flags mmu frames).outcome = .ok (.ok (), ready, rest) ∧
          Ready mmu slot ready ∧ Charged mmu slot frames ready rest := by
  cases hpresent : (mmu.slotEntry slot).present with
  | true =>
    refine .inr ⟨fun hempty => hempty.1 ((h.populated_iff hslot).mpr hpresent), ?_⟩
    obtain ⟨ready, houtcome, hready⟩ :=
      ensureTable_of_present h.toSeparated hslot hpresent flags frames
    exact ⟨ready, frames, houtcome, hready⟩
  | false =>
    have hempty : ¬mmu.view.Populated slot := by
      rw [h.populated_iff hslot, hpresent]
      exact Bool.false_ne_true
    cases htake : FrameSource.allocate frames with
    | none =>
      refine .inl ⟨⟨hempty, by rw [isDry, htake]; rfl⟩, ?_⟩
      exact ensureTable_of_dry h.toWindowed hpresent htake flags
    | some taken =>
      obtain ⟨frame, rest⟩ := taken
      obtain ⟨hlow, hown⟩ := hspare hempty frame rest htake
      refine .inr ⟨?_, ?_⟩
      · intro hdry
        rw [isDry, htake] at hdry
        cases hdry.2
      · obtain ⟨ready, houtcome, hready⟩ :=
          ensureTable_of_absent h.toSeparated hslot hpresent htake hlow hown flags
        exact ⟨ready, rest, houtcome, hready⟩

/-! ## Mapping a page -/

/-- A page that is mapped already is left alone if a fresh one was asked for. -/
theorem install_of_taken (h : mmu.Windowed)
    (hpresent : (mmu.slotEntry virt.directoryIndex).present = true)
    (htaken : ((mmu.slotTable virt.directoryIndex).get virt.tableIndex).present = true)
    (phys : PhysAddr) (flags : PageFlags) :
    ∃ next, (install phys virt flags .fresh mmu).outcome = .ok (.error .alreadyMapped, next) ∧
      SameTables mmu next := by
  obtain ⟨shown, htable, hshown⟩ := h.table_outcome hpresent
  have hold := hshown.loadEntry_table virt.directoryIndex virt.tableIndex
  refine ⟨shown, ?_, hshown⟩
  simp only [install, Traced.outcome_bind, htable, Outcome.ok_bind, hold, htaken]
  rfl

/-- Otherwise the entry of the page is written. -/
theorem install_outcome (h : mmu.Separated) (hslot : virt.directoryIndex ≠ recursive)
    (hpresent : (mmu.slotEntry virt.directoryIndex).present = true)
    (hfree : ((mmu.slotTable virt.directoryIndex).get virt.tableIndex).present = true →
      mode ≠ .fresh) {target : Mapping}
    (htarget : PageEntry.mapping (phys.page .small) flags.asPresent = .ok target.entry) :
    ∃ next, (install phys virt flags mode mmu).outcome = .ok (.ok (), next) ∧
      TableSet mmu virt.directoryIndex
        ((mmu.slotTable virt.directoryIndex).set virt.tableIndex target.entry) next := by
  obtain ⟨shown, htable, hshown⟩ := h.table_outcome hpresent
  have hold := hshown.loadEntry_table virt.directoryIndex virt.tableIndex
  have hwritten := (hshown.saved_entry (mmu.slotEntry virt.directoryIndex).frame.index
    virt.tableIndex target.entry).invalidate virt
  refine ⟨_, ?_, hwritten.tableSet h hslot hpresent⟩
  cases htaken : ((mmu.slotTable virt.directoryIndex).get virt.tableIndex).present with
  | false =>
    simp [install, htable, -PageEntry.index_frame, hold, htaken, htarget]
  | true =>
    have hmode : (mode == MapMode.fresh) = false := beq_eq_false_iff_ne.mpr (hfree htaken)
    simp [install, htable, -PageEntry.index_frame, hold, htaken, htarget, hmode]

/-- The entries of a table that was made ready are those of the map. -/
theorem Ready.mapping?_get (h : Ready mmu slot ready) (hslot : slot ≠ recursive)
    (position : TableIndex) :
    ((ready.slotTable slot).get position).mapping? = mmu.view (.ofIndices slot position) := by
  rw [h.table_eq]
  cases hpresent : (mmu.slotEntry slot).present with
  | false =>
    rw [view_ofIndices_of_absent hpresent]
    exact congrArg PageEntry.mapping? (PageTable.get_filled .empty position)
  | true => exact (view_ofIndices_of_present hslot hpresent position).symm

/-- The entries of a table that was made ready are tidy. -/
theorem Ready.tidy (h : Ready mmu slot ready) (hsound : mmu.Sound) (hslot : slot ≠ recursive)
    (position : TableIndex) : ((ready.slotTable slot).get position).Tidy := by
  rw [h.table_eq]
  split
  case isTrue hpresent => exact hsound.tidy hslot hpresent position
  case isFalse =>
    rw [PageTable.zeroed, PageTable.get_filled]
    exact PageEntry.tidy_empty

/-- A table that was made ready for a page that is mapped already changes nothing. -/
theorem Ready.sound (h : Ready mmu slot ready) (hsound : mmu.Sound) (hslot : slot ≠ recursive)
    (hpresent : (mmu.slotEntry slot).present = true) : ready.Sound ∧ ready.view = mmu.view := by
  have htable := h.table_eq
  rw [if_pos hpresent] at htable
  constructor
  · refine hsound.edited h.edited h.separated fun _ => ?_
    rw [htable]
    exact ⟨hsound.used hslot hpresent, hsound.tidy hslot hpresent⟩
  · funext page
    by_cases hpage : page.slot = slot
    · subst hpage
      rw [view_of_present hslot h.present, h.mapping?_get hslot, VirtPage.ofIndices_slot_position]
    · exact h.edited.view_eq hpage

/-- Writing the entry of a page updates the map at that page. -/
theorem Ready.written (h : Ready mmu virt.directoryIndex ready) (hsound : mmu.Sound)
    (hslot : virt.directoryIndex ≠ recursive) {target : Mapping}
    (htarget : target.flags.present = true) {next : SoftMmu}
    (written : TableSet ready virt.directoryIndex
      ((ready.slotTable virt.directoryIndex).set virt.tableIndex target.entry) next) :
    next.Sound ∧ next.view = Function.update mmu.view (virt.page .small) (some target) := by
  have edit := h.edited.trans written.toEdited
  have hpresent : (next.slotEntry virt.directoryIndex).present = true := by
    rw [written.entry_eq]
    exact h.present
  constructor
  · refine hsound.edited edit written.separated fun _ => ?_
    rw [written.table_eq]
    refine ⟨⟨virt.tableIndex, ?_⟩, ?_⟩
    · rw [PageTable.get_set, if_pos rfl]
      exact htarget
    · intro position
      rw [PageTable.get_set]
      split
      case isTrue => exact Mapping.tidy_entry htarget
      case isFalse => exact h.tidy hsound hslot position
  · apply edit.view_eq_update
    intro position
    rw [view_ofIndices_of_present hslot hpresent, written.table_eq, PageTable.get_set]
    by_cases hposition : virt.tableIndex = position
    · rw [if_pos hposition, if_pos hposition.symm, Mapping.mapping?_entry htarget]
    · rw [if_neg hposition, if_neg (Ne.symm hposition), h.mapping?_get hslot]

/-- A mapping answers what the map answers, and the tables become what the map becomes. If a
table is needed, the frame for it must be spare. -/
theorem map_refines (h : mmu.Sound) (flags : PageFlags) (mode : MapMode)
    (hspare : checkMap phys virt = .ok () → ¬mmu.view.Populated virt.directoryIndex →
      ∀ frame rest, FrameSource.allocate frames = some (frame, rest) →
        frame.index < 2 ^ 20 ∧ Spare mmu frame) :
    ∃ next rest, (map phys virt flags mode mmu frames).outcome =
        .ok ((mmu.view.map phys virt flags mode (isDry frames)).1, next, rest) ∧
      (next.Sound ∧ next.view = (mmu.view.map phys virt flags mode (isDry frames)).2) ∧
      Steady mmu next ∧ Charged mmu virt.directoryIndex frames next rest := by
  rcases checkMap_cases mmu.view phys virt flags mode (isDry frames) with
    ⟨complaint, hcheck, hmap⟩ | ⟨hcheck, hslot, target, htarget, hentry, hmap⟩
  · rw [hmap]
    refine ⟨mmu, frames, ?_, ⟨h, rfl⟩, (SameTables.refl mmu).steady,
      charged_of_same (.refl mmu) _ _⟩
    simp [map, hcheck]
  rw [hmap]
  rcases ensureTable_cases h hslot flags (hspare hcheck) with
    ⟨hdry, next, htable, hsame⟩ | ⟨hdry, ready, rest, htable, hready, hcharged⟩
  · rw [if_pos hdry]
    refine ⟨next, frames, ?_, ⟨h.same hsame, hsame.view_eq⟩, hsame.steady,
      charged_of_same hsame _ _⟩
    simp [map, hcheck, htable]
  have hsteady := hready.edited.steady fun hthere _ => hready.frame_eq hthere
  have hold := hready.mapping?_get hslot virt.tableIndex
  rw [← VirtPage.page_eq_ofIndices] at hold
  rw [if_neg hdry, ← hold, PageEntry.isSome_mapping?]
  split
  case isTrue htaken =>
    obtain ⟨rfl, htaken⟩ := htaken
    have hpresent : (mmu.slotEntry virt.directoryIndex).present = true := by
      rw [← h.populated_iff hslot]
      refine ⟨virt.tableIndex, ?_⟩
      rwa [← hready.mapping?_get hslot, PageEntry.isSome_mapping?]
    obtain ⟨hsound, hview⟩ := hready.sound h hslot hpresent
    obtain ⟨next, hinstall, hsame⟩ :=
      install_of_taken hready.separated.toWindowed hready.present htaken phys flags
    refine ⟨next, rest, ?_, ⟨hsound.same hsame, hsame.view_eq.trans hview⟩,
      hsteady.of_entries hsame.directory_eq hsame.slotEntry_eq,
      hcharged.of_entry (hsame.slotEntry_eq _)⟩
    simp [map, hcheck, htable, hinstall]
  case isFalse hfree =>
    obtain ⟨next, hinstall, hwritten⟩ := install_outcome hready.separated hslot hready.present
      (fun htaken hmode => hfree ⟨hmode, htaken⟩) hentry
    refine ⟨next, rest, ?_, hready.written h hslot htarget hwritten,
      hsteady.of_entries hwritten.directory_eq hwritten.entries_eq,
      hcharged.of_entry hwritten.entry_eq⟩
    simp [map, hcheck, htable, hinstall]

end BootMemory.AddressSpace
