import BootMemory.Paging.SoftMmu
import BootMemory.Proofs.Outcome

/-!
# The tables of a simulated MMU

What a simulated MMU holds is read here as its directory entries and the page tables that they
point at. The tables are separated if the last directory entry points at the directory and no
two present directory entries share a frame: the directory and the page tables are then in
frames of their own, an edit through the window reaches exactly the table it is meant for, and
the entries of all other slots stay as they are.
-/

set_option autoImplicit false

namespace BootMemory.SoftMmu

open TableIndex (recursive)

variable {mmu walked next last : SoftMmu} {slot : TableIndex} {table : PageTable} {number : Nat}

/-- The directory entry of a slot. -/
def slotEntry (mmu : SoftMmu) (slot : TableIndex) : PageEntry :=
  (mmu.ram.load mmu.directory.index).get slot

/-- The table that the directory entry of a slot points at. -/
def slotTable (mmu : SoftMmu) (slot : TableIndex) : PageTable :=
  mmu.ram.load (mmu.slotEntry slot).frame.index

/-! ## Looking at tables -/

/-- The same directory frame and the same tables. -/
structure SameTables (mmu next : SoftMmu) : Prop where
  directory_eq : next.directory = mmu.directory
  load_eq : ∀ number, next.ram.load number = mmu.ram.load number

/-- The tables are the same if nothing was done. -/
protected theorem SameTables.refl (mmu : SoftMmu) : SameTables mmu mmu := ⟨rfl, fun _ => rfl⟩

/-- Tables that stay the same twice in a row stay the same. -/
theorem SameTables.trans (h : SameTables mmu walked) (h' : SameTables walked next) :
    SameTables mmu next :=
  ⟨h'.directory_eq.trans h.directory_eq,
    fun number => (h'.load_eq number).trans (h.load_eq number)⟩

/-- Where the tables are the same, so are the directory entries. -/
theorem SameTables.slotEntry_eq (h : SameTables mmu next) (slot : TableIndex) :
    next.slotEntry slot = mmu.slotEntry slot := by
  unfold slotEntry
  rw [h.directory_eq, h.load_eq]

/-- Where the tables are the same, so are the tables that the slots point at. -/
theorem SameTables.slotTable_eq (h : SameTables mmu next) (slot : TableIndex) :
    next.slotTable slot = mmu.slotTable slot := by
  unfold slotTable
  rw [h.slotEntry_eq, h.load_eq]

/-- An entry of the directory is read as it was before anybody looked. -/
theorem SameTables.loadEntry_directory (h : SameTables mmu walked) (slot : TableIndex) :
    TableWindow.loadEntry walked mmu.directory.index slot = mmu.slotEntry slot := by
  rw [slotEntry, ← h.load_eq]
  rfl

/-- An entry of the table of a slot is read as it was before anybody looked. -/
theorem SameTables.loadEntry_table (h : SameTables mmu walked) (slot position : TableIndex) :
    TableWindow.loadEntry walked (mmu.slotEntry slot).frame.index position =
      (mmu.slotTable slot).get position := by
  rw [slotTable, ← h.load_eq]
  rfl

/-- The last directory entry points at the directory. -/
structure Windowed (mmu : SoftMmu) : Prop where
  present : (mmu.slotEntry recursive).present = true
  frame_eq : (mmu.slotEntry recursive).frame = mmu.directory

/-- The window stays in place when the tables are only looked at. -/
theorem Windowed.same (h : mmu.Windowed) (same : SameTables mmu next) : next.Windowed := by
  constructor
  · rw [same.slotEntry_eq]
    exact h.present
  · rw [same.slotEntry_eq, same.directory_eq]
    exact h.frame_eq

/-- An address that an entry leads to lies in the frame of the entry. -/
theorem page_addressAt (entry : PageEntry) (offset : Fin 4096) :
    (entry.addressAt offset).page .small = entry.frame := by
  apply PhysPage.ext
  have := offset.isLt
  simp only [PhysAddr.page, PageEntry.addressAt, PageEntry.index_frame, PageSize.bytes]
  omega

/-- The window shows the table of a slot where the slot's directory entry points. -/
theorem Windowed.resolve_window (h : mmu.Windowed) (hslot : (mmu.slotEntry slot).present = true) :
    mmu.resolve slot.window = some ((mmu.slotEntry slot).addressAt slot.window.pageOffset) := by
  have hupper : mmu.directoryEntry slot.window = mmu.slotEntry recursive := by
    rw [directoryEntry, TableIndex.window, VirtAddr.directoryIndex_ofIndices]
    rfl
  have hlower : (mmu.ram.load (mmu.slotEntry recursive).frame.index).get slot.window.tableIndex =
      mmu.slotEntry slot := by
    rw [h.frame_eq, TableIndex.window, VirtAddr.tableIndex_ofIndices]
    rfl
  simp only [resolve, hupper, h.present, hlower, hslot, ↓reduceIte]

/-- A page at which something is mapped is found, and finding it changes no table. -/
theorem pageAt_outcome {addr : VirtAddr} {target : PhysAddr} (h : mmu.resolve addr = some target) :
    ∃ walked, (pageAt addr mmu).outcome = .ok ((target.page .small).index, walked) ∧
      SameTables mmu walked := by
  simp only [pageAt, walk, h]
  refine ⟨_, rfl, rfl, ?_⟩
  intro number
  simp only [afterWalk, TableStore.load_touch]
  split <;> simp only [TableStore.load_touch]

/-- The table of a present slot is found. -/
theorem Windowed.table_outcome (h : mmu.Windowed) (hslot : (mmu.slotEntry slot).present = true) :
    ∃ walked, (TableWindow.table slot mmu).outcome =
      .ok ((mmu.slotEntry slot).frame.index, walked) ∧ SameTables mmu walked := by
  have hfound := pageAt_outcome (h.resolve_window hslot)
  rwa [page_addressAt] at hfound

/-- The table of a present slot is found after another table was. -/
theorem Windowed.table_outcome_of_same (h : mmu.Windowed) (same : SameTables mmu walked)
    (hslot : (mmu.slotEntry slot).present = true) :
    ∃ shown, (TableWindow.table slot walked).outcome =
      .ok ((mmu.slotEntry slot).frame.index, shown) ∧ SameTables mmu shown := by
  rw [← same.slotEntry_eq] at hslot
  obtain ⟨shown, htable, hshown⟩ := (h.same same).table_outcome hslot
  rw [same.slotEntry_eq] at htable
  exact ⟨shown, htable, same.trans hshown⟩

/-- The directory is found. -/
theorem Windowed.directory_outcome (h : mmu.Windowed) :
    ∃ walked, (TableWindow.directory mmu).outcome = .ok (mmu.directory.index, walked) ∧
      SameTables mmu walked := by
  have hfound := h.table_outcome h.present
  rwa [h.frame_eq] at hfound

/-! ## Editing tables -/

/-- One table has changed. -/
structure Saved (mmu : SoftMmu) (number : Nat) (table : PageTable) (next : SoftMmu) : Prop where
  directory_eq : next.directory = mmu.directory
  load_eq : ∀ other, next.ram.load other = if other = number then table else mmu.ram.load other

/-- Writing a table after looking at some changes that table, and no other. -/
theorem SameTables.saved (h : SameTables mmu walked) (number : Nat) (table : PageTable) :
    Saved mmu number table (TableWindow.save walked number table) := by
  refine ⟨h.directory_eq, ?_⟩
  intro other
  rw [← h.load_eq]
  exact TableStore.load_save walked.ram number other table

/-- Writing an entry after looking at tables changes its table, and no other. -/
theorem SameTables.saved_entry (h : SameTables mmu walked) (number : Nat) (position : TableIndex)
    (entry : PageEntry) :
    Saved mmu number ((mmu.ram.load number).set position entry)
      (TableWindow.saveEntry walked number position entry) := by
  rw [← h.load_eq]
  exact h.saved number _

/-- Making the processor forget a page changes no table. -/
theorem Saved.invalidate (h : Saved mmu number table next) (addr : VirtAddr) :
    Saved mmu number table (TableWindow.invalidate addr next) := ⟨h.directory_eq, h.load_eq⟩

/-- Of the whole memory only the directory entry of a slot has changed. -/
abbrev Rewritten (mmu : SoftMmu) (slot : TableIndex) (entry : PageEntry) (next : SoftMmu) : Prop :=
  Saved mmu mmu.directory.index ((mmu.ram.load mmu.directory.index).set slot entry) next

/-- Writing an entry of the directory changes that entry alone. -/
theorem Rewritten.slotEntry_eq {entry : PageEntry} (rewritten : Rewritten mmu slot entry next)
    (other : TableIndex) :
    next.slotEntry other = if slot = other then entry else mmu.slotEntry other := by
  rw [slotEntry, rewritten.directory_eq, rewritten.load_eq, if_pos rfl, PageTable.get_set]
  rfl

/-- Writing another table changes no entry of the directory. -/
theorem Saved.slotEntry_of_ne (saved : Saved mmu number table next)
    (hne : number ≠ mmu.directory.index) (other : TableIndex) :
    next.slotEntry other = mmu.slotEntry other := by
  rw [slotEntry, saved.directory_eq, saved.load_eq, if_neg hne.symm]
  rfl

/-- Tables may be looked at after one was written. -/
theorem Saved.same (saved : Saved mmu number table next) (same : SameTables next last) :
    Saved mmu number table last := by
  refine ⟨same.directory_eq.trans saved.directory_eq, fun other => ?_⟩
  rw [same.load_eq, saved.load_eq]

/-- The directory has a given entry for a slot, and for all other slots the entry that it had. -/
structure Entered (mmu : SoftMmu) (slot : TableIndex) (entry : PageEntry) (next : SoftMmu) :
    Prop where
  directory_eq : next.directory = mmu.directory
  slotEntry_eq : ∀ other, next.slotEntry other = if slot = other then entry else mmu.slotEntry other

/-- The slot that was written has the entry that was written. -/
theorem Entered.self_eq {entry : PageEntry} (h : Entered mmu slot entry next) :
    next.slotEntry slot = entry := (h.slotEntry_eq slot).trans (if_pos rfl)

/-- A directory in which one entry was written has that entry, and the others as they were. -/
theorem Rewritten.entered {entry : PageEntry} (rewritten : Rewritten mmu slot entry next) :
    Entered mmu slot entry next := ⟨rewritten.directory_eq, rewritten.slotEntry_eq⟩

/-- Writing another table leaves every directory entry as it is. -/
theorem Saved.entered_self (saved : Saved mmu number table next)
    (hne : number ≠ mmu.directory.index) (slot : TableIndex) :
    Entered mmu slot (mmu.slotEntry slot) next := by
  refine ⟨saved.directory_eq, fun other => ?_⟩
  rw [saved.slotEntry_of_ne hne]
  split
  case isTrue h => rw [h]
  case isFalse => rfl

/-- Of two entries for one slot the second one counts. -/
theorem Entered.trans {entry other : PageEntry} (h : Entered mmu slot entry walked)
    (h' : Entered walked slot other next) : Entered mmu slot other next := by
  refine ⟨h'.directory_eq.trans h.directory_eq, fun position => ?_⟩
  rw [h'.slotEntry_eq, h.slotEntry_eq]
  split <;> rfl

/-- Tables other than the directory may be written afterwards. -/
theorem Entered.saved {entry : PageEntry} (h : Entered mmu slot entry walked)
    (saved : Saved walked number table next) (hne : number ≠ mmu.directory.index) :
    Entered mmu slot entry next := by
  refine ⟨saved.directory_eq.trans h.directory_eq, fun other => ?_⟩
  rw [saved.slotEntry_of_ne (by rwa [h.directory_eq]), h.slotEntry_eq]

/-- The last directory entry stays in place if another one is written. -/
theorem Windowed.entered (h : mmu.Windowed) (hslot : slot ≠ recursive) {entry : PageEntry}
    (entered : Entered mmu slot entry next) : next.Windowed := by
  have hkept := (entered.slotEntry_eq recursive).trans (if_neg hslot)
  constructor
  · rw [hkept]
    exact h.present
  · rw [hkept, entered.directory_eq]
    exact h.frame_eq

/-- The last directory entry is the only one that points at the directory. -/
structure Anchored (mmu : SoftMmu) : Prop extends Windowed mmu where
  index_ne : ∀ {slot : TableIndex}, slot ≠ recursive → (mmu.slotEntry slot).present = true →
    (mmu.slotEntry slot).frame.index ≠ mmu.directory.index

/-- No table becomes the directory when tables are only looked at. -/
theorem Anchored.same (h : mmu.Anchored) (same : SameTables mmu next) : next.Anchored := by
  refine ⟨h.toWindowed.same same, fun {slot} => ?_⟩
  rw [same.slotEntry_eq, same.directory_eq]
  exact h.index_ne

/-- An entry may be written that does not point at the directory. -/
theorem Anchored.entered (h : mmu.Anchored) (hslot : slot ≠ recursive) {entry : PageEntry}
    (hother : entry.present = true → entry.frame.index ≠ mmu.directory.index)
    (entered : Entered mmu slot entry next) : next.Anchored := by
  refine ⟨h.toWindowed.entered hslot entered, fun {other} => ?_⟩
  rw [entered.slotEntry_eq, entered.directory_eq]
  split
  case isTrue => exact fun _ => hother
  case isFalse => exact h.index_ne

/-- The last directory entry points at the directory, and no two present entries share a
frame. -/
structure Separated (mmu : SoftMmu) : Prop extends Windowed mmu where
  eq_of_frame_eq : ∀ {slot other : TableIndex}, (mmu.slotEntry slot).present = true →
    (mmu.slotEntry other).present = true →
    (mmu.slotEntry slot).frame = (mmu.slotEntry other).frame → slot = other

/-- Tables stay separated when they are only looked at. -/
theorem Separated.same (h : mmu.Separated) (same : SameTables mmu next) : next.Separated := by
  refine ⟨h.toWindowed.same same, fun {slot other} => ?_⟩
  rw [same.slotEntry_eq, same.slotEntry_eq]
  exact h.eq_of_frame_eq

/-- The table of a slot is not in the frame of another slot's table. -/
theorem Separated.index_ne (h : mmu.Separated) {other : TableIndex} (hne : other ≠ slot)
    (hother : (mmu.slotEntry other).present = true) (hslot : (mmu.slotEntry slot).present = true) :
    (mmu.slotEntry other).frame.index ≠ (mmu.slotEntry slot).frame.index := fun heq =>
  hne (h.eq_of_frame_eq hother hslot (PhysPage.ext heq))

/-- The table of a slot is not in the frame of the directory. -/
theorem Separated.index_ne_directory (h : mmu.Separated) (hne : slot ≠ recursive)
    (hslot : (mmu.slotEntry slot).present = true) :
    (mmu.slotEntry slot).frame.index ≠ mmu.directory.index := by
  rw [← h.frame_eq]
  exact h.index_ne hne hslot h.present

/-- If no two entries share a frame, then only the last one points at the directory. -/
theorem Separated.anchored (h : mmu.Separated) : mmu.Anchored :=
  ⟨h.toWindowed, fun hslot hpresent => h.index_ne_directory hslot hpresent⟩

/-- Outside one slot nothing has changed. -/
structure Edited (mmu : SoftMmu) (slot : TableIndex) (next : SoftMmu) : Prop where
  directory_eq : next.directory = mmu.directory
  slotEntry_eq : ∀ {other : TableIndex}, other ≠ slot → next.slotEntry other = mmu.slotEntry other
  slotTable_eq : ∀ {other : TableIndex}, other ≠ slot → other ≠ recursive →
    (mmu.slotEntry other).present = true → next.slotTable other = mmu.slotTable other

/-- Two edits of one slot are an edit of it. -/
theorem Edited.trans (h : Edited mmu slot next) (h' : Edited next slot last) :
    Edited mmu slot last := by
  refine ⟨h'.directory_eq.trans h.directory_eq, fun hne => ?_, fun hne hinner hother => ?_⟩
  · rw [h'.slotEntry_eq hne, h.slotEntry_eq hne]
  · rw [← h.slotTable_eq hne hinner hother]
    apply h'.slotTable_eq hne hinner
    rwa [h.slotEntry_eq hne]

/-- The directory is where it was, and every table that is still there is in its frame. -/
structure Steady (mmu next : SoftMmu) : Prop where
  directory_eq : next.directory = mmu.directory
  frame_eq : ∀ {slot : TableIndex}, (mmu.slotEntry slot).present = true →
    (next.slotEntry slot).present = true → (next.slotEntry slot).frame = (mmu.slotEntry slot).frame

/-- Tables that are the same stay where they are. -/
theorem SameTables.steady (h : SameTables mmu next) : Steady mmu next :=
  ⟨h.directory_eq, fun _ _ => by rw [h.slotEntry_eq]⟩

/-- Where tables are is read off the directory. -/
theorem Steady.of_entries (h : Steady mmu next) (hdirectory : last.directory = next.directory)
    (hentries : ∀ slot, last.slotEntry slot = next.slotEntry slot) : Steady mmu last := by
  refine ⟨hdirectory.trans h.directory_eq, fun {slot} hbefore => ?_⟩
  rw [hentries]
  exact h.frame_eq hbefore

/-- Tables stay in their frames if the one of the slot that changed does. -/
theorem Edited.steady (edit : Edited mmu slot next) (hslot : (mmu.slotEntry slot).present = true →
    (next.slotEntry slot).present = true → (next.slotEntry slot).frame =
      (mmu.slotEntry slot).frame) : Steady mmu next := by
  refine ⟨edit.directory_eq, fun {other} hbefore hafter => ?_⟩
  by_cases hother : other = slot
  · subst hother
    exact hslot hbefore hafter
  · rw [edit.slotEntry_eq hother]

/-- The tables stay separated if the slot that changed has a frame of its own. -/
theorem Separated.edited (h : mmu.Separated) (hslot : slot ≠ recursive)
    (edit : Edited mmu slot next) (hown : (next.slotEntry slot).present = true →
      ∀ other, other ≠ slot → (mmu.slotEntry other).present = true →
      (mmu.slotEntry other).frame ≠ (next.slotEntry slot).frame) : next.Separated := by
  have hkept := edit.slotEntry_eq hslot.symm
  refine ⟨⟨?_, ?_⟩, fun {first second} hfirst hsecond heq => ?_⟩
  · rw [hkept]
    exact h.present
  · rw [hkept, edit.directory_eq]
    exact h.frame_eq
  by_cases hf : first = slot
  · by_cases hs : second = slot
    · exact hf.trans hs.symm
    · subst hf
      rw [edit.slotEntry_eq hs] at hsecond heq
      exact absurd heq.symm (hown hfirst second hs hsecond)
  · by_cases hs : second = slot
    · subst hs
      rw [edit.slotEntry_eq hf] at hfirst heq
      exact absurd heq (hown hsecond first hf hfirst)
    · rw [edit.slotEntry_eq hf] at hfirst heq
      rw [edit.slotEntry_eq hs] at hsecond heq
      exact h.eq_of_frame_eq hfirst hsecond heq

/-- The directory entry of a slot has changed. -/
structure EntrySet (mmu : SoftMmu) (slot : TableIndex) (entry : PageEntry) (next : SoftMmu) :
    Prop extends Edited mmu slot next where
  separated : next.Separated
  entry_eq : next.slotEntry slot = entry
  table_eq : entry.frame ≠ mmu.directory → next.slotTable slot = mmu.ram.load entry.frame.index

/-- The table of a slot has changed. -/
structure TableSet (mmu : SoftMmu) (slot : TableIndex) (table : PageTable) (next : SoftMmu) :
    Prop extends Edited mmu slot next where
  separated : next.Separated
  entry_eq : next.slotEntry slot = mmu.slotEntry slot
  table_eq : next.slotTable slot = table

/-- Changing a table changes no directory entry. -/
theorem TableSet.entries_eq (h : TableSet mmu slot table next) (other : TableIndex) :
    next.slotEntry other = mmu.slotEntry other := by
  by_cases hother : other = slot
  · rw [hother]
    exact h.entry_eq
  · exact h.slotEntry_eq hother

/-- Writing a directory entry whose frame is its own changes that entry. -/
theorem Saved.entrySet (h : mmu.Separated) (hslot : slot ≠ recursive) {entry : PageEntry}
    (saved : Saved mmu mmu.directory.index ((mmu.ram.load mmu.directory.index).set slot entry) next)
    (hown : entry.present = true → ∀ other, other ≠ slot →
      (mmu.slotEntry other).present = true → (mmu.slotEntry other).frame ≠ entry.frame) :
    EntrySet mmu slot entry next := by
  have hentry := Rewritten.slotEntry_eq saved
  have hself : next.slotEntry slot = entry := by rw [hentry, if_pos rfl]
  have edit : Edited mmu slot next := by
    refine ⟨saved.directory_eq, fun hne => ?_, fun hne hinner hother => ?_⟩
    · rw [hentry, if_neg hne.symm]
    · rw [slotTable, hentry, if_neg hne.symm, saved.load_eq,
        if_neg (h.index_ne_directory hinner hother)]
      rfl
  refine ⟨edit, h.edited hslot edit ?_, hself, ?_⟩
  · rwa [hself]
  · intro hne
    rw [slotTable, hself, saved.load_eq, if_neg fun heq => hne (PhysPage.ext heq)]

/-- Writing the table of a present slot changes that table. -/
theorem Saved.tableSet (h : mmu.Separated) (hslot : slot ≠ recursive)
    (hpresent : (mmu.slotEntry slot).present = true)
    (saved : Saved mmu (mmu.slotEntry slot).frame.index table next) :
    TableSet mmu slot table next := by
  have hentry := saved.slotEntry_of_ne (h.index_ne_directory hslot hpresent)
  have edit : Edited mmu slot next := by
    refine ⟨saved.directory_eq, fun _ => hentry _, fun hne _ hother => ?_⟩
    rw [slotTable, hentry, saved.load_eq, if_neg (h.index_ne hne hother hpresent)]
    rfl
  refine ⟨edit, h.edited hslot edit ?_, hentry slot, ?_⟩
  · intro _ other hne hother heq
    rw [hentry] at heq
    apply hne
    exact h.eq_of_frame_eq hother hpresent heq
  · rw [slotTable, hentry, saved.load_eq, if_pos rfl]

end BootMemory.SoftMmu
