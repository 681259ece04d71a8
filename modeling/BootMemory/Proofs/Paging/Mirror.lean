import BootMemory.Proofs.Paging.Lookup
import BootMemory.Proofs.Paging.Mapping
import BootMemory.Proofs.Paging.Unmapping

/-!
# Two windows side by side

A simulated MMU has its tables in frames that come from a source, full of junk until they are
cleared; a flat window has a table for every slot, which stays as it is when the slot is given up.
The flat window mirrors the MMU if both have the same directory, and the same table for every slot
that is present. What a flat window still holds for the other slots is never seen, because a table
is cleared on both sides before a slot becomes present again. So every operation of an address space
keeps the one a mirror of the other.
-/

set_option autoImplicit false

namespace BootMemory

open TableWindow
open TableIndex (recursive)

/-- Two steps with the same fault, or with values that a relation connects. -/
inductive Related {α β : Type} (R : α → β → Prop) : Except Fault α → Except Fault β → Prop
  | ok {first : α} {second : β} (h : R first second) : Related R (.ok first) (.ok second)
  | fault (cause : Fault) : Related R (.error cause) (.error cause)

/-- Steps that go on from related values in a related way are related. -/
theorem Related.bind {α β α' β' : Type} {R : α → β → Prop} {S : α' → β' → Prop}
    {first : Except Fault α} {second : Except Fault β} {rest : α → Except Fault α'}
    {rest' : β → Except Fault β'} (h : Related R first second)
    (hrest : ∀ value value', R value value' → Related S (rest value) (rest' value')) :
    Related S (first >>= rest) (second >>= rest') := by
  cases h with
  | ok h => exact hrest _ _ h
  | fault cause => exact .fault cause

namespace FlatWindow

variable {flat next last : FlatWindow} {slot : TableIndex}

/-- The directory entry of a slot. -/
def slotEntry (flat : FlatWindow) (slot : TableIndex) : PageEntry :=
  (flat.tables.load recursive.val).get slot

/-- The table that is kept for a slot, present or not. -/
def slotTable (flat : FlatWindow) (slot : TableIndex) : PageTable := flat.tables.load slot.val

/-- The flat window finds the directory in its last table, and nothing changes. -/
@[simp] theorem directory_outcome (flat : FlatWindow) :
    (directory flat).outcome = .ok (recursive.val, flat) := rfl

/-- The flat window finds the table of a slot at its number, and nothing changes. -/
@[simp] theorem table_outcome (flat : FlatWindow) (slot : TableIndex) :
    (table slot flat).outcome = .ok (slot.val, flat) := rfl

/-- The flat window has nothing to forget. -/
@[simp] theorem invalidate_eq (flat : FlatWindow) (addr : VirtAddr) :
    invalidate addr flat = flat := rfl

/-- An entry read from the last table is a directory entry. -/
theorem loadEntry_directory (flat : FlatWindow) (slot : TableIndex) :
    loadEntry flat recursive.val slot = flat.slotEntry slot := rfl

/-- An entry read from another table is an entry of the table of that slot. -/
theorem loadEntry_table (flat : FlatWindow) (slot position : TableIndex) :
    loadEntry flat slot.val position = (flat.slotTable slot).get position := rfl

/-- Outside one slot nothing has changed. -/
structure Edited (flat : FlatWindow) (slot : TableIndex) (next : FlatWindow) : Prop where
  slotEntry_eq : ∀ {other : TableIndex}, other ≠ slot → next.slotEntry other = flat.slotEntry other
  slotTable_eq : ∀ {other : TableIndex}, other ≠ slot → other ≠ recursive →
    next.slotTable other = flat.slotTable other

/-- Two edits of one slot are an edit of it. -/
theorem Edited.trans (h : Edited flat slot next) (h' : Edited next slot last) :
    Edited flat slot last := by
  refine ⟨fun hne => ?_, fun hne hinner => ?_⟩
  · rw [h'.slotEntry_eq hne, h.slotEntry_eq hne]
  · rw [h'.slotTable_eq hne hinner, h.slotTable_eq hne hinner]

/-- The directory entry of a slot has changed, and nothing else. -/
structure EntrySet (flat : FlatWindow) (slot : TableIndex) (entry : PageEntry)
    (next : FlatWindow) : Prop extends Edited flat slot next where
  entry_eq : next.slotEntry slot = entry
  table_eq : next.slotTable slot = flat.slotTable slot

/-- The table of a slot has changed, and nothing else. -/
structure TableSet (flat : FlatWindow) (slot : TableIndex) (table : PageTable)
    (next : FlatWindow) : Prop extends Edited flat slot next where
  entry_eq : next.slotEntry slot = flat.slotEntry slot
  table_eq : next.slotTable slot = table

/-- Writing a directory entry changes the entry of that slot, and nothing else. -/
theorem entrySet_saveEntry (flat : FlatWindow) (hslot : slot ≠ recursive) (entry : PageEntry) :
    EntrySet flat slot entry (saveEntry flat recursive.val slot entry) := by
  have hentry : ∀ other, (saveEntry flat recursive.val slot entry).slotEntry other =
      if slot = other then entry else flat.slotEntry other := by
    intro other
    have hload : (saveEntry flat recursive.val slot entry).tables.load recursive.val =
        (flat.tables.load recursive.val).set slot entry :=
      (TableStore.load_save _ _ _ _).trans (if_pos rfl)
    rw [FlatWindow.slotEntry, hload, PageTable.get_set]
    rfl
  have htable : ∀ other, other ≠ recursive →
      (saveEntry flat recursive.val slot entry).slotTable other = flat.slotTable other := by
    intro other hinner
    exact (TableStore.load_save _ _ _ _).trans (if_neg fun heq => hinner (Fin.ext heq))
  refine ⟨⟨fun hne => ?_, fun _ hinner => htable _ hinner⟩, ?_, htable slot hslot⟩
  · rw [hentry, if_neg hne.symm]
  · rw [hentry, if_pos rfl]

/-- Writing a table changes the table of that slot, and nothing else. -/
theorem tableSet_save (flat : FlatWindow) (hslot : slot ≠ recursive) (table : PageTable) :
    TableSet flat slot table (save flat slot.val table) := by
  have hentry : ∀ other, (save flat slot.val table).slotEntry other = flat.slotEntry other := by
    intro other
    exact congrArg (PageTable.get · other)
      ((TableStore.load_save _ _ _ _).trans (if_neg fun heq => hslot (Fin.ext heq.symm)))
  refine ⟨⟨fun _ => hentry _, fun hne _ => ?_⟩, hentry slot, ?_⟩
  · exact (TableStore.load_save _ _ _ _).trans (if_neg fun heq => hne (Fin.ext heq))
  · exact (TableStore.load_save _ _ _ _).trans (if_pos rfl)

end FlatWindow

/-! ## Mirrors -/

/-- The flat window has the directory of the simulated MMU, and the tables of the slots that are
present in it. -/
structure Mirrors (mmu : SoftMmu) (flat : FlatWindow) : Prop where
  separated : mmu.Separated
  entry_eq : ∀ slot, flat.slotEntry slot = mmu.slotEntry slot
  table_eq : ∀ {slot : TableIndex}, slot ≠ recursive → (mmu.slotEntry slot).present = true →
    flat.slotTable slot = mmu.slotTable slot

namespace Mirrors

variable {mmu next : SoftMmu} {flat last : FlatWindow} {slot : TableIndex}

/-- A mirror stays one when the tables are only looked at. -/
theorem same (h : Mirrors mmu flat) (same : SoftMmu.SameTables mmu next) : Mirrors next flat := by
  refine ⟨h.separated.same same, fun slot => ?_, fun {slot} hinner hpresent => ?_⟩
  · rw [same.slotEntry_eq, h.entry_eq]
  · rw [same.slotEntry_eq] at hpresent
    rw [same.slotTable_eq, h.table_eq hinner hpresent]

/-- Edits of one slot on both sides keep the mirror if they agree on that slot. -/
theorem edited (h : Mirrors mmu flat) (separated : next.Separated)
    (soft : SoftMmu.Edited mmu slot next) (plain : FlatWindow.Edited flat slot last)
    (hentry : last.slotEntry slot = next.slotEntry slot)
    (htable : (next.slotEntry slot).present = true → last.slotTable slot = next.slotTable slot) :
    Mirrors next last := by
  refine ⟨separated, fun other => ?_, fun {other} hinner hpresent => ?_⟩
  · by_cases hother : other = slot
    · rw [hother, hentry]
    · rw [plain.slotEntry_eq hother, soft.slotEntry_eq hother, h.entry_eq]
  · by_cases hother : other = slot
    · subst hother
      exact htable hpresent
    · rw [soft.slotEntry_eq hother] at hpresent
      rw [plain.slotTable_eq hother hinner, soft.slotTable_eq hother hinner hpresent,
        h.table_eq hinner hpresent]

/-- The same table written for a slot on both sides. -/
theorem tableSet (h : Mirrors mmu flat) {table : PageTable}
    (soft : SoftMmu.TableSet mmu slot table next)
    (plain : FlatWindow.TableSet flat slot table last) : Mirrors next last := by
  refine h.edited soft.separated soft.toEdited plain.toEdited ?_ fun _ => ?_
  · rw [plain.entry_eq, soft.entry_eq, h.entry_eq]
  · rw [plain.table_eq, soft.table_eq]

end Mirrors

namespace AddressSpace

open SoftMmu

variable {σ : Type} [FrameSource σ] {mmu : SoftMmu} {flat : FlatWindow} {slot : TableIndex}
  {virt : VirtAddr}

/-- The same answer from windows of which one mirrors the other. -/
def Shown {α : Type} (soft : α × SoftMmu) (plain : α × FlatWindow) : Prop :=
  soft.1 = plain.1 ∧ Mirrors soft.2 plain.2

/-- The same answer and the same frames, from windows of which one mirrors the other. -/
def Mirrored {α : Type} (soft : α × SoftMmu × σ) (plain : α × FlatWindow × σ) : Prop :=
  soft.1 = plain.1 ∧ Mirrors soft.2.1 plain.2.1 ∧ soft.2.2 = plain.2.2

/-- A table that is there shows the same entries in both windows, and so does the directory. -/
theorem get_slotTable_mirrors (h : Mirrors mmu flat)
    (hpresent : (mmu.slotEntry slot).present = true) (position : TableIndex) :
    (flat.slotTable slot).get position = (mmu.slotTable slot).get position := by
  by_cases hinner : slot = recursive
  · subst hinner
    have hdirectory : mmu.slotTable recursive = mmu.ram.load mmu.directory.index := by
      rw [slotTable, h.separated.frame_eq]
    rw [hdirectory]
    exact h.entry_eq position
  · rw [h.table_eq hinner hpresent]

/-- An entry is the same in both windows, also that of a page in the window. -/
theorem entry?_mirrors (h : Mirrors mmu flat) (virt : VirtAddr) :
    Related Shown ( entry? virt mmu).outcome ( entry? virt flat).outcome := by
  obtain ⟨next, houtcome, hsame⟩ := entry?_outcome h.separated.toWindowed virt
  have hplain : ( entry? virt flat).outcome = .ok (entryAt mmu virt, flat) := by
    have hupper := (flat.loadEntry_directory virt.directoryIndex).trans (h.entry_eq _)
    unfold entryAt
    cases hpresent : (mmu.slotEntry virt.directoryIndex).present with
    | false => simp [ entry?, hupper, hpresent]
    | true =>
      have hlower := (flat.loadEntry_table virt.directoryIndex virt.tableIndex).trans
        (get_slotTable_mirrors h hpresent _)
      simp [ entry?, hupper, hpresent, hlower]
  rw [houtcome, hplain]
  exact .ok ⟨rfl, h.same hsame⟩

/-- A table was made ready on both sides. -/
def Readied (slot : TableIndex) (soft : Except MappingError Unit × SoftMmu × σ)
    (plain : Except MappingError Unit × FlatWindow × σ) : Prop :=
  Mirrored soft plain ∧ (soft.1 = .ok () → (soft.2.1.slotEntry slot).present = true)

/-- A table that is there stays where it is, on both sides. -/
theorem ensureTable_mirrors_of_present (h : Mirrors mmu flat) (hslot : slot ≠ recursive)
    (hpresent : (mmu.slotEntry slot).present = true) (flags : PageFlags) (frames : σ) :
    Related (Readied slot) (ensureTable slot flags mmu frames).outcome
      (ensureTable slot flags flat frames).outcome := by
  obtain ⟨walked, hdirectory, hwalked⟩ := h.separated.directory_outcome
  have hupper := hwalked.loadEntry_directory slot
  have hplain := (flat.loadEntry_directory slot).trans (h.entry_eq slot)
  have hwidened := (hwalked.saved_entry mmu.directory.index slot
    (widen (mmu.slotEntry slot) flags)).entrySet h.separated hslot fun _ other hne hother heq =>
      hne (h.separated.eq_of_frame_eq hother hpresent heq)
  have hframe : (widen (mmu.slotEntry slot) flags).frame ≠ mmu.directory := fun heq =>
    h.separated.index_ne_directory hslot hpresent (congrArg PhysPage.index heq)
  have hflat := flat.entrySet_saveEntry hslot (widen (mmu.slotEntry slot) flags)
  have hmirrors := h.edited hwidened.separated hwidened.toEdited hflat.toEdited
    (hflat.entry_eq.trans hwidened.entry_eq.symm) fun _ => by
      rw [hflat.table_eq, hwidened.table_eq hframe, h.table_eq hslot hpresent]
      rfl
  have hthere : (SoftMmu.slotEntry (saveEntry walked mmu.directory.index slot
      (widen (mmu.slotEntry slot) flags)) slot).present = true := by
    rw [hwidened.entry_eq, present_widen]
    exact hpresent
  have hsoft : (ensureTable slot flags mmu frames).outcome = .ok (.ok (), saveEntry walked
      mmu.directory.index slot (widen (mmu.slotEntry slot) flags), frames) := by
    simp [ensureTable, hdirectory, hupper, hpresent]
  have hsame : (ensureTable slot flags flat frames).outcome = .ok (.ok (), saveEntry flat
      recursive.val slot (widen (mmu.slotEntry slot) flags), frames) := by
    simp [ensureTable, hplain, hpresent]
  rw [hsoft, hsame]
  exact .ok ⟨⟨rfl, hmirrors, rfl⟩, fun _ => hthere⟩

/-- A table that is made in a spare frame is cleared on both sides, whatever the frame or the slot
held before. -/
theorem ensureTable_mirrors_of_pointer (h : Mirrors mmu flat) (hslot : slot ≠ recursive)
    (habsent : (mmu.slotEntry slot).present = false) {frame : Frame} {frames rest : σ}
    (htake : FrameSource.allocate frames = some (frame, rest)) (hspare : Spare mmu frame)
    {flags : PageFlags} {pointer : PageEntry}
    (hpointer : PageEntry.mapping frame flags.asPresent = .ok pointer) :
    Related (Readied slot) (ensureTable slot flags mmu frames).outcome
      (ensureTable slot flags flat frames).outcome := by
  obtain ⟨walked, hdirectory, hwalked⟩ := h.separated.directory_outcome
  have hupper := hwalked.loadEntry_directory slot
  have hplain := (flat.loadEntry_directory slot).trans (h.entry_eq slot)
  obtain ⟨hflags, hframe⟩ := PageEntry.mapping_eq_ok hpointer
  have hthere : pointer.present = true := congrArg PageFlags.present hflags
  -- Between the two writes the tables differ: junk on the one side, a stale table on the other.
  have hpointed := ((hwalked.saved_entry mmu.directory.index slot pointer).invalidate
    slot.window).entrySet h.separated hslot fun _ other _ hother => by
      rw [hframe]
      exact hspare other hother
  have hpresent := (congrArg PageEntry.present hpointed.entry_eq).trans hthere
  obtain ⟨shown, htable, hshown⟩ := hpointed.separated.table_outcome hpresent
  have hcleared := (hshown.saved _ .zeroed).tableSet hpointed.separated hslot hpresent
  have hplainPointed := flat.entrySet_saveEntry hslot pointer
  have hplainCleared := (saveEntry flat recursive.val slot pointer).tableSet_save hslot .zeroed
  have hentry := hcleared.entry_eq.trans hpointed.entry_eq
  have hmirrors := h.edited hcleared.separated (hpointed.toEdited.trans hcleared.toEdited)
    (hplainPointed.toEdited.trans hplainCleared.toEdited)
    (by rw [hplainCleared.entry_eq, hplainPointed.entry_eq, hentry])
    fun _ => by rw [hplainCleared.table_eq, hcleared.table_eq]
  have hready := (congrArg PageEntry.present hentry).trans hthere
  have hsoft : (ensureTable slot flags mmu frames).outcome = .ok (.ok (), save shown
      (SoftMmu.slotEntry (invalidate slot.window
        (saveEntry walked mmu.directory.index slot pointer)) slot).frame.index .zeroed, rest) := by
    simp [ensureTable, hdirectory, hupper, habsent, htake, hpointer, htable]
  have hsame : (ensureTable slot flags flat frames).outcome = .ok (.ok (), save
      (saveEntry flat recursive.val slot pointer) slot.val .zeroed, rest) := by
    simp [ensureTable, hplain, habsent, htake, hpointer]
  rw [hsoft, hsame]
  exact .ok ⟨⟨rfl, hmirrors, rfl⟩, fun _ => hready⟩

/-- A table is made ready on both sides or on neither, if a frame for a new one is spare. -/
theorem ensureTable_mirrors (h : Mirrors mmu flat) (hslot : slot ≠ recursive) (flags : PageFlags)
    (frames : σ) (hspare : (mmu.slotEntry slot).present = false → ∀ frame rest,
      FrameSource.allocate frames = some (frame, rest) → Spare mmu frame) :
    Related (Readied slot) (ensureTable slot flags mmu frames).outcome
      (ensureTable slot flags flat frames).outcome := by
  obtain ⟨walked, hdirectory, hwalked⟩ := h.separated.directory_outcome
  have hupper := hwalked.loadEntry_directory slot
  have hplain := (flat.loadEntry_directory slot).trans (h.entry_eq slot)
  cases hpresent : (mmu.slotEntry slot).present with
  | true => exact ensureTable_mirrors_of_present h hslot hpresent flags frames
  | false =>
    cases htake : FrameSource.allocate frames with
    | none =>
      have hsoft : (ensureTable slot flags mmu frames).outcome =
          .ok (.error .outOfFrames, walked, frames) := by
        simp [ensureTable, hdirectory, hupper, hpresent, htake]
      have hsame : (ensureTable slot flags flat frames).outcome =
          .ok (.error .outOfFrames, flat, frames) := by
        simp [ensureTable, hplain, hpresent, htake]
      rw [hsoft, hsame]
      exact .ok ⟨⟨rfl, h.same hwalked, rfl⟩, fun hmade => by cases hmade⟩
    | some taken =>
      obtain ⟨frame, rest⟩ := taken
      cases hpointer : PageEntry.mapping frame flags.asPresent with
      | error cause =>
        -- A frame out of reach stops both runs.
        have hsoft : (ensureTable slot flags mmu frames).outcome = .error cause := by
          simp [ensureTable, hdirectory, hupper, hpresent, htake, hpointer]
        have hsame : (ensureTable slot flags flat frames).outcome = .error cause := by
          simp [ensureTable, hplain, hpresent, htake, hpointer]
        rw [hsoft, hsame]
        exact .fault cause
      | ok pointer =>
        exact ensureTable_mirrors_of_pointer h hslot hpresent htake
          (hspare hpresent frame rest htake) hpointer

/-- The entry of a page is written on both sides or on neither. -/
theorem install_mirrors (h : Mirrors mmu flat) (hslot : virt.directoryIndex ≠ recursive)
    (hpresent : (mmu.slotEntry virt.directoryIndex).present = true) {phys : PhysAddr}
    {flags : PageFlags} {target : Mapping}
    (htarget : PageEntry.mapping (phys.page .small) flags.asPresent = .ok target.entry)
    (mode : MapMode) :
    Related Shown (install phys virt flags mode mmu).outcome
      (install phys virt flags mode flat).outcome := by
  have hold := (flat.loadEntry_table virt.directoryIndex virt.tableIndex).trans
    (get_slotTable_mirrors h hpresent _)
  by_cases hrefused : mode = .fresh ∧
      ((mmu.slotTable virt.directoryIndex).get virt.tableIndex).present = true
  · obtain ⟨rfl, htaken⟩ := hrefused
    obtain ⟨next, hsoft, hsame⟩ :=
      install_of_taken h.separated.toWindowed hpresent htaken phys flags
    have hplain : (install phys virt flags .fresh flat).outcome =
        .ok (.error .alreadyMapped, flat) := by
      simp [install, hold, htaken]
    rw [hsoft, hplain]
    exact .ok ⟨rfl, h.same hsame⟩
  · obtain ⟨next, hsoft, hwritten⟩ := install_outcome h.separated hslot hpresent
      (fun htaken hmode => hrefused ⟨hmode, htaken⟩) htarget
    have hflat := flat.tableSet_save hslot
      ((flat.slotTable virt.directoryIndex).set virt.tableIndex target.entry)
    have hplain : (install phys virt flags mode flat).outcome = .ok (.ok (), save flat
        virt.directoryIndex.val
        ((flat.slotTable virt.directoryIndex).set virt.tableIndex target.entry)) := by
      cases htaken : ((mmu.slotTable virt.directoryIndex).get virt.tableIndex).present with
      | false =>
        simp [install, hold, htaken, htarget]
        rfl
      | true =>
        have hmode : (mode == MapMode.fresh) = false :=
          beq_eq_false_iff_ne.mpr fun hmode => hrefused ⟨hmode, htaken⟩
        simp [install, hold, htaken, htarget, hmode]
        rfl
    rw [h.table_eq hslot hpresent] at hflat
    rw [hsoft, hplain, h.table_eq hslot hpresent]
    exact .ok ⟨rfl, h.tableSet hwritten hflat⟩

/-- A mapping does the same on both sides, if the source hands out no frame for a new table that
holds the directory or a table. -/
theorem map_mirrors (h : Mirrors mmu flat) (phys : PhysAddr) (virt : VirtAddr) (flags : PageFlags)
    (mode : MapMode) (frames : σ) (hspare : checkMap phys virt = .ok () →
      (mmu.slotEntry virt.directoryIndex).present = false → ∀ frame rest,
        FrameSource.allocate frames = some (frame, rest) → Spare mmu frame) :
    Related Mirrored (map phys virt flags mode mmu frames).outcome
      (map phys virt flags mode flat frames).outcome := by
  rcases checkMap_cases .empty phys virt flags mode false with
    ⟨complaint, hcheck, -⟩ | ⟨hcheck, hslot, target, -, htarget, -⟩
  · simp only [map, hcheck, Traced.outcome_pure]
    exact .ok ⟨rfl, h, rfl⟩
  simp only [map, hcheck, Traced.outcome_bind]
  refine (ensureTable_mirrors h hslot flags frames (hspare hcheck)).bind ?_
  rintro ⟨answer, ready, rest⟩ ⟨_, made, _⟩ ⟨⟨rfl, hmirrors, rfl⟩, hthere⟩
  cases answer with
  | error complaint => exact .ok ⟨rfl, hmirrors, rfl⟩
  | ok =>
    simp only [Traced.outcome_bind]
    refine (install_mirrors hmirrors hslot (hthere rfl) htarget mode).bind ?_
    rintro ⟨answer, next⟩ ⟨_, last⟩ ⟨rfl, hmirrors⟩
    exact .ok ⟨rfl, hmirrors, rfl⟩

/-- A table is given back on both sides or on neither. The flat window keeps what was in it. -/
theorem releaseTable_mirrors {space : SoftMmu} (h : Mirrors space flat) (hslot : slot ≠ recursive)
    (hpresent : (space.slotEntry slot).present = true) (entry : PageEntry) (frames : σ) :
    Related (fun soft plain => Mirrors soft.1 plain.1 ∧ soft.2 = plain.2)
      (releaseTable slot space.directory.index (space.slotEntry slot).frame.index entry space
        frames).outcome
      (releaseTable slot recursive.val slot.val entry flat frames).outcome := by
  have hsoft : load space (space.slotEntry slot).frame.index = space.slotTable slot := rfl
  have hplain : load flat slot.val = space.slotTable slot := h.table_eq hslot hpresent
  simp only [releaseTable, hsoft, hplain]
  split
  case isTrue =>
    have hunlinked := (((SameTables.refl space).saved_entry space.directory.index slot
      .empty).invalidate slot.window).entrySet h.separated hslot
        fun hpresent => absurd hpresent Bool.false_ne_true
    have hflat := flat.entrySet_saveEntry hslot .empty
    have hmirrors := h.edited hunlinked.separated hunlinked.toEdited hflat.toEdited
      (hflat.entry_eq.trans hunlinked.entry_eq.symm) fun hthere => by
        rw [hunlinked.entry_eq] at hthere
        cases hthere
    simp only [Traced.outcome_bind, Traced.outcome_report, Traced.outcome_pure, Outcome.ok_bind]
    cases (FrameSource.free entry.frame frames).outcome with
    | error cause => exact .fault cause
    | ok rest => exact .ok ⟨hmirrors, rfl⟩
  case isFalse => exact .ok ⟨h, rfl⟩

/-- An unmapping does the same on both sides. -/
theorem unmap_mirrors (h : Mirrors mmu flat) (virt : VirtAddr) (frames : σ) :
    Related Mirrored (unmap virt mmu frames).outcome (unmap virt flat frames).outcome := by
  rcases checkUnmap_cases .empty virt with ⟨complaint, hcheck, -⟩ | ⟨hcheck, hslot, -⟩
  · simp only [unmap, hcheck, Traced.outcome_pure]
    exact .ok ⟨rfl, h, rfl⟩
  obtain ⟨walked, hdirectory, hwalked⟩ := h.separated.directory_outcome
  have hupper := hwalked.loadEntry_directory virt.directoryIndex
  have hplain := (flat.loadEntry_directory virt.directoryIndex).trans (h.entry_eq _)
  cases hpresent : (mmu.slotEntry virt.directoryIndex).present with
  | false =>
    have hsoft : (unmap virt mmu frames).outcome = .ok (.error .notMapped, walked, frames) := by
      simp [unmap, hcheck, hdirectory, hupper, hpresent]
    have hsame : (unmap virt flat frames).outcome = .ok (.error .notMapped, flat, frames) := by
      simp [unmap, hcheck, hplain, hpresent]
    rw [hsoft, hsame]
    exact .ok ⟨rfl, h.same hwalked, rfl⟩
  | true =>
    obtain ⟨shown, htable, hshown⟩ := h.separated.table_outcome_of_same hwalked hpresent
    have hlower := hshown.loadEntry_table virt.directoryIndex virt.tableIndex
    have hold := (flat.loadEntry_table virt.directoryIndex virt.tableIndex).trans
      (get_slotTable_mirrors h hpresent _)
    cases hmapped : ((mmu.slotTable virt.directoryIndex).get virt.tableIndex).present with
    | false =>
      have hsoft : (unmap virt mmu frames).outcome = .ok (.error .notMapped, shown, frames) := by
        simp [unmap, hcheck, hdirectory, hupper, hpresent, htable, -PageEntry.index_frame, hlower,
          hmapped]
      have hsame : (unmap virt flat frames).outcome = .ok (.error .notMapped, flat, frames) := by
        simp [unmap, hcheck, hplain, hpresent, hold, hmapped]
      rw [hsoft, hsame]
      exact .ok ⟨rfl, h.same hshown, rfl⟩
    | true =>
      have hwritten := ((hshown.saved_entry (mmu.slotEntry virt.directoryIndex).frame.index
        virt.tableIndex .empty).invalidate virt).tableSet h.separated hslot hpresent
      have hflat := flat.tableSet_save hslot
        ((flat.slotTable virt.directoryIndex).set virt.tableIndex .empty)
      rw [h.table_eq hslot hpresent] at hflat
      have hkept := (congrArg PageEntry.present hwritten.entry_eq).trans hpresent
      have hrelease := fun rest : σ => releaseTable_mirrors (h.tableSet hwritten hflat) hslot hkept
        (mmu.slotEntry virt.directoryIndex) rest
      simp only [hwritten.directory_eq, hwritten.entry_eq] at hrelease
      have hsave : saveEntry flat virt.directoryIndex.val virt.tableIndex .empty =
          save flat virt.directoryIndex.val
            ((mmu.slotTable virt.directoryIndex).set virt.tableIndex .empty) := by
        rw [← h.table_eq hslot hpresent]
        rfl
      simp only [unmap, hcheck, Traced.outcome_bind, hdirectory, Outcome.ok_bind, hupper, hpresent,
        Bool.not_true, Bool.false_eq_true, ↓reduceIte, htable, hlower, hmapped,
        Traced.outcome_report, Traced.outcome_pure, FlatWindow.directory_outcome,
        FlatWindow.table_outcome, FlatWindow.invalidate_eq, hplain, hold, hsave]
      cases (FrameSource.free ((mmu.slotTable virt.directoryIndex).get virt.tableIndex).frame
        frames).outcome with
      | error cause => exact .fault cause
      | ok rest =>
        refine (hrelease rest).bind ?_
        rintro ⟨next, left⟩ ⟨last, _⟩ ⟨hmirrors, rfl⟩
        exact .ok ⟨rfl, hmirrors, rfl⟩

end AddressSpace

end BootMemory
