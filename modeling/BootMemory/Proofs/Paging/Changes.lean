import BootMemory.Proofs.Paging.Lookup
import BootMemory.Proofs.Paging.Mapping
import BootMemory.Proofs.Paging.Unmapping

/-!
# What a call changes

A call that was answered is taken apart here: which directory entry it changed, and which pages it
made the processor forget. Looking for a table or an entry makes it forget nothing. A mapping
changes the directory entry of its own slot, and an unmapping clears it if the last page of the slot
goes. `MapEnds` and `UnmapEnds` list the ways in which a call ends; as long as the last directory
entry is the only one that points at the directory there are no others, whatever frames the source
hands out.
-/

set_option autoImplicit false

namespace BootMemory

/-! ## Rights -/

/-- Whether an entry gives user code access, and lets pages be written, where flags ask for it. -/
def PageEntry.Grants (entry : PageEntry) (flags : PageFlags) : Prop :=
  (flags.user = true → entry.user = true) ∧ (flags.readWrite = true → entry.writable = true)

instance (entry : PageEntry) (flags : PageFlags) : Decidable (entry.Grants flags) :=
  inferInstanceAs (Decidable (_ ∧ _))

namespace AddressSpace

/-- A widened entry grants what it was widened for. -/
theorem grants_widen (entry : PageEntry) (flags : PageFlags) :
    (widen entry flags).Grants flags := by
  constructor <;> intro h <;> simp only [widen, h, Bool.or_true]

/-- A widened entry grants what it granted before. -/
theorem grants_widen_of_grants {entry : PageEntry} {flags more : PageFlags}
    (h : entry.Grants flags) : (widen entry more).Grants flags := by
  constructor <;> intro hasked
  · simp only [widen, h.1 hasked, Bool.true_or]
  · simp only [widen, h.2 hasked, Bool.true_or]

/-- An entry stays as it is if it grants what it is widened for. -/
theorem widen_eq_self {entry : PageEntry} {flags : PageFlags} :
    widen entry flags = entry ↔ entry.Grants flags := by
  constructor
  · intro heq
    rw [← heq]
    exact grants_widen entry flags
  · intro h
    cases entry
    simp only [widen, PageEntry.mk.injEq, Bool.or_eq_left_iff_imp, true_and, and_true]
    exact ⟨h.2, h.1⟩

open SoftMmu TableWindow
open TableIndex (recursive)

variable {σ : Type} {mmu walked next : SoftMmu} {frames rest : σ}
  {slot : TableIndex} {phys : PhysAddr} {virt : VirtAddr} {flags : PageFlags} {mode : MapMode}

/-! ## Looking for a table -/

/-- The same tables, and no page is forgotten. -/
structure Quiet (mmu next : SoftMmu) : Prop extends SameTables mmu next where
  invalidated_eq : next.invalidated = mmu.invalidated

/-- Doing nothing is quiet. -/
protected theorem Quiet.refl (mmu : SoftMmu) : Quiet mmu mmu := ⟨.refl mmu, rfl⟩

/-- Two quiet steps in a row are quiet. -/
theorem Quiet.trans (h : Quiet mmu walked) (h' : Quiet walked next) : Quiet mmu next :=
  ⟨h.toSameTables.trans h'.toSameTables, h'.invalidated_eq.trans h.invalidated_eq⟩

/-- Finding a page makes the processor forget none. -/
theorem invalidated_of_pageAt {addr : VirtAddr} {place : Nat}
    (h : (pageAt addr mmu).outcome = .ok (place, next)) : next.invalidated = mmu.invalidated := by
  simp only [pageAt, walk] at h
  cases hfound : mmu.resolve addr with
  | none =>
    rw [hfound] at h
    cases h
  | some target =>
    rw [hfound] at h
    cases h
    rfl

/-- The table of a present slot is found quietly. -/
theorem quiet_of_table (h : mmu.Windowed) (hpresent : (mmu.slotEntry slot).present = true)
    {place : Nat} (houtcome : (TableWindow.table slot mmu).outcome = .ok (place, next)) :
    place = (mmu.slotEntry slot).frame.index ∧ Quiet mmu next := by
  obtain ⟨shown, hshown, hsame⟩ := h.table_outcome hpresent
  rw [houtcome] at hshown
  cases hshown
  exact ⟨rfl, hsame, invalidated_of_pageAt houtcome⟩

/-- The directory is found quietly. -/
theorem quiet_of_directory (h : mmu.Windowed) {place : Nat}
    (houtcome : (TableWindow.directory mmu).outcome = .ok (place, next)) :
    place = mmu.directory.index ∧ Quiet mmu next := by
  obtain ⟨shown, hshown, hsame⟩ := h.directory_outcome
  rw [houtcome] at hshown
  cases hshown
  exact ⟨rfl, hsame, invalidated_of_pageAt houtcome⟩

/-- An entry is looked at quietly. -/
theorem quiet_of_entry_eq (h : mmu.Windowed) {answer : Option PageEntry}
    (houtcome : ( entry? virt mmu).outcome = .ok (answer, next)) : Quiet mmu next := by
  simp only [ entry?, Traced.outcome_bind] at houtcome
  obtain ⟨⟨place, walked⟩, hdirectory, houtcome⟩ := Outcome.bind_eq_ok.mp houtcome
  obtain ⟨rfl, hwalked⟩ := quiet_of_directory h hdirectory
  dsimp only at houtcome
  rw [hwalked.loadEntry_directory virt.directoryIndex] at houtcome
  split at houtcome
  case isTrue hpresent =>
    simp only [Traced.outcome_bind] at houtcome
    obtain ⟨⟨place, shown⟩, htable, houtcome⟩ := Outcome.bind_eq_ok.mp houtcome
    cases houtcome
    rw [← hwalked.slotEntry_eq] at hpresent
    exact hwalked.trans (quiet_of_table (h.same hwalked.toSameTables) hpresent htable).2
  case isFalse =>
    cases houtcome
    exact hwalked

/-! ## Sweeping up -/

/-- The directory is where it was and points at itself as it did, and the entry of a slot that has
no table is as it was, or cleared. -/
structure Swept (mmu next : SoftMmu) : Prop where
  directory_eq : next.directory = mmu.directory
  recursive_eq : next.slotEntry recursive = mmu.slotEntry recursive
  absent : ∀ {slot : TableIndex}, (next.slotEntry slot).present = false →
    next.slotEntry slot = mmu.slotEntry slot ∨ next.slotEntry slot = .empty

/-- Where the tables are the same there was nothing to sweep up. -/
theorem swept_of_same (same : SameTables mmu next) : Swept mmu next :=
  ⟨same.directory_eq, same.slotEntry_eq recursive, fun _ => .inl (same.slotEntry_eq _)⟩

/-- Sweeping up twice is sweeping up. -/
theorem Swept.trans (h : Swept mmu walked) (h' : Swept walked next) : Swept mmu next := by
  refine ⟨h'.directory_eq.trans h.directory_eq, h'.recursive_eq.trans h.recursive_eq,
    fun habsent => ?_⟩
  rcases h'.absent habsent with hsame | hempty
  · rw [hsame] at habsent ⊢
    exact h.absent habsent
  · exact .inr hempty

/-- If only one slot changes, that slot has to be swept. -/
theorem swept_of_entered (hslot : slot ≠ recursive) {entry : PageEntry}
    (entered : Entered mmu slot entry next) (hself : entry.present = true ∨ entry = .empty) :
    Swept mmu next := by
  refine ⟨entered.directory_eq, (entered.slotEntry_eq recursive).trans (if_neg hslot),
    fun {other} => ?_⟩
  rw [entered.slotEntry_eq]
  split
  case isTrue =>
    intro habsent
    refine .inr (hself.resolve_left ?_)
    rw [habsent]
    exact Bool.false_ne_true
  case isFalse => exact fun _ => .inl rfl

/-! ## Mapping -/

/-- How making a table ready ends if it is answered: there is no frame for a new table, or the entry
of a table that is there is widened, or a new table is pointed at and cleared. -/
inductive EnsureEnds [FrameSource σ] (mmu : SoftMmu) (slot : TableIndex) (flags : PageFlags)
    (frames : σ) : Except MappingError Unit → SoftMmu → σ → Prop
  | dry {next : SoftMmu} (quiet : Quiet mmu next) :
      EnsureEnds mmu slot flags frames (.error .outOfFrames) next frames
  | widened {next : SoftMmu} (present : (mmu.slotEntry slot).present = true)
      (rewritten : Rewritten mmu slot (widen (mmu.slotEntry slot) flags) next)
      (invalidated_eq : next.invalidated = mmu.invalidated) :
      EnsureEnds mmu slot flags frames (.ok ()) next frames
  | made {pointed next : SoftMmu} {frame : Frame} {rest : σ} {pointer : PageEntry}
      (absent : (mmu.slotEntry slot).present = false)
      (taken : FrameSource.allocate frames = some (frame, rest))
      (mapping : PageEntry.mapping frame flags.asPresent = .ok pointer)
      (rewritten : Rewritten mmu slot pointer pointed)
      (cleared : Saved pointed frame.index .zeroed next)
      (invalidated_eq : next.invalidated = slot.window :: mmu.invalidated) :
      EnsureEnds mmu slot flags frames (.ok ()) next rest

/-- Making a table ready, if it is answered, ends in one of these ways. -/
theorem ensureEnds_of_outcome [FrameSource σ] (h : mmu.Windowed) (hslot : slot ≠ recursive)
    {answer : Except MappingError Unit}
    (houtcome : (ensureTable slot flags mmu frames).outcome = .ok (answer, next, rest)) :
    EnsureEnds mmu slot flags frames answer next rest := by
  simp only [ensureTable, Traced.outcome_bind] at houtcome
  obtain ⟨⟨place, walked⟩, hdirectory, houtcome⟩ := Outcome.bind_eq_ok.mp houtcome
  obtain ⟨rfl, hquiet⟩ := quiet_of_directory h hdirectory
  dsimp only at houtcome
  rw [hquiet.loadEntry_directory slot] at houtcome
  split at houtcome
  case isTrue hpresent =>
    cases houtcome
    exact .widened hpresent (hquiet.saved_entry _ _ _) hquiet.invalidated_eq
  case isFalse habsent =>
    split at houtcome
    case h_1 =>
      cases houtcome
      exact .dry hquiet
    case h_2 frame left htake =>
      simp only [Traced.outcome_bind, Traced.outcome_liftM] at houtcome
      obtain ⟨pointer, hpointer, houtcome⟩ := Outcome.bind_eq_ok.mp houtcome
      obtain ⟨⟨place, shown⟩, htable, houtcome⟩ := Outcome.bind_eq_ok.mp houtcome
      cases houtcome
      obtain ⟨hflags, hframe⟩ := PageEntry.mapping_eq_ok hpointer
      have hpointed : Rewritten mmu slot pointer _ :=
        (hquiet.saved_entry mmu.directory.index slot pointer).invalidate slot.window
      have hself := hpointed.entered.self_eq
      obtain ⟨rfl, hshown⟩ := quiet_of_table (h.entered hslot hpointed.entered)
        ((congrArg PageEntry.present hself).trans (congrArg PageFlags.present hflags)) htable
      rw [hself, hframe]
      exact .made (Bool.not_eq_true _ ▸ habsent) htake hpointer hpointed (hshown.saved _ _)
        (hshown.invalidated_eq.trans (congrArg (slot.window :: ·) hquiet.invalidated_eq))

/-- How the writing of a page ends if it is answered: it is refused because the page is there, or
the table of its slot is written. -/
inductive InstallEnds (mmu : SoftMmu) (virt : VirtAddr) : Except MappingError Unit → SoftMmu → Prop
  | taken {next : SoftMmu}
      (present : ((mmu.slotTable virt.directoryIndex).get virt.tableIndex).present = true)
      (quiet : Quiet mmu next) : InstallEnds mmu virt (.error .alreadyMapped) next
  | written {next : SoftMmu} {table : PageTable}
      (saved : Saved mmu (mmu.slotEntry virt.directoryIndex).frame.index table next)
      (invalidated_eq : next.invalidated = virt :: mmu.invalidated) :
      InstallEnds mmu virt (.ok ()) next

/-- Writing a page into a table that is there, if it is answered, ends in one of these ways. -/
theorem installEnds_of_outcome (h : mmu.Windowed)
    (hpresent : (mmu.slotEntry virt.directoryIndex).present = true)
    {answer : Except MappingError Unit}
    (houtcome : (install phys virt flags mode mmu).outcome = .ok (answer, next)) :
    InstallEnds mmu virt answer next := by
  simp only [install, Traced.outcome_bind] at houtcome
  obtain ⟨⟨place, shown⟩, htable, houtcome⟩ := Outcome.bind_eq_ok.mp houtcome
  obtain ⟨rfl, hshown⟩ := quiet_of_table h hpresent htable
  dsimp only at houtcome
  rw [hshown.loadEntry_table virt.directoryIndex virt.tableIndex] at houtcome
  split at houtcome
  case isTrue htaken =>
    cases houtcome
    exact .taken (Bool.and_eq_true_iff.mp htaken).1 hshown
  case isFalse =>
    -- A page that replaces another one is only reported differently.
    split at houtcome
    all_goals
      simp only [Traced.outcome_bind, Traced.outcome_liftM, Traced.outcome_report,
        Outcome.ok_bind] at houtcome
      obtain ⟨new, -, houtcome⟩ := Outcome.bind_eq_ok.mp houtcome
      cases houtcome
      exact .written ((hshown.saved_entry _ _ _).invalidate virt)
        (congrArg (virt :: ·) hshown.invalidated_eq)

/-- A table that was found was found through the last directory entry. -/
theorem present_of_table {place : Nat}
    (houtcome : (TableWindow.table slot mmu).outcome = .ok (place, next)) :
    (mmu.slotEntry recursive).present = true := by
  have hupper : mmu.directoryEntry slot.window = mmu.slotEntry recursive := by
    rw [directoryEntry, TableIndex.window, VirtAddr.directoryIndex_ofIndices]
    rfl
  by_contra habsent
  have hnone : mmu.resolve slot.window = none := by
    rw [resolve, hupper, if_neg habsent]
  simp only [TableWindow.table, pageAt, walk, hnone] at houtcome
  cases houtcome

/-- A page is written only after its table was found. -/
theorem present_of_install {answer : Except MappingError Unit}
    (houtcome : (install phys virt flags mode mmu).outcome = .ok (answer, next)) :
    (mmu.slotEntry recursive).present = true := by
  simp only [install, Traced.outcome_bind] at houtcome
  obtain ⟨shown, htable, -⟩ := Outcome.bind_eq_ok.mp houtcome
  exact present_of_table htable

/-- How a mapping ends if it is answered, whatever frames the source hands out: it is refused before
anything is written; or it is refused because the page is mapped, and the directory entry is widened
by then; or the page is written into a table that was there, whose directory entry is widened; or
it is written into a new table. -/
inductive MapEnds (mmu : SoftMmu) (virt : VirtAddr) (flags : PageFlags) (frames : σ) :
    Except MappingError Unit → SoftMmu → σ → Prop
  | refused {next : SoftMmu} {complaint : MappingError} (quiet : Quiet mmu next) :
      MapEnds mmu virt flags frames (.error complaint) next frames
  | taken {next : SoftMmu} (inner : virt.directoryIndex ≠ recursive)
      (present : (mmu.slotEntry virt.directoryIndex).present = true)
      (rewritten : Rewritten mmu virt.directoryIndex
        (widen (mmu.slotEntry virt.directoryIndex) flags) next)
      (invalidated_eq : next.invalidated = mmu.invalidated) :
      MapEnds mmu virt flags frames (.error .alreadyMapped) next frames
  | widened {next : SoftMmu} (inner : virt.directoryIndex ≠ recursive)
      (present : (mmu.slotEntry virt.directoryIndex).present = true)
      (entered : Entered mmu virt.directoryIndex
        (widen (mmu.slotEntry virt.directoryIndex) flags) next)
      (invalidated_eq : next.invalidated = virt :: mmu.invalidated) :
      MapEnds mmu virt flags frames (.ok ()) next frames
  | made {next : SoftMmu} {rest : σ} {pointer : PageEntry}
      (inner : virt.directoryIndex ≠ recursive)
      (absent : (mmu.slotEntry virt.directoryIndex).present = false)
      (flags_eq : pointer.flags = flags.asPresent)
      (other : pointer.frame.index ≠ mmu.directory.index)
      (entered : Entered mmu virt.directoryIndex pointer next)
      (invalidated_eq : next.invalidated =
        virt :: TableIndex.window virt.directoryIndex :: mmu.invalidated) :
      MapEnds mmu virt flags frames (.ok ()) next rest

/-- The page is looked for in a table that is there, and written if it may be. -/
theorem mapEnds_of_widened (h : mmu.Anchored) (hslot : virt.directoryIndex ≠ recursive)
    (hpresent : (mmu.slotEntry virt.directoryIndex).present = true)
    (rewritten : Rewritten mmu virt.directoryIndex
      (widen (mmu.slotEntry virt.directoryIndex) flags) walked)
    (hforgot : walked.invalidated = mmu.invalidated) {answer : Except MappingError Unit}
    (houtcome : (install phys virt flags mode walked).outcome = .ok (answer, next)) :
    MapEnds mmu virt flags frames answer next frames := by
  have hself := rewritten.entered.self_eq
  cases installEnds_of_outcome (h.toWindowed.entered hslot rewritten.entered)
    ((congrArg PageEntry.present hself).trans hpresent) houtcome with
  | taken _ quiet =>
    exact .taken hslot hpresent (rewritten.same quiet.toSameTables)
      (quiet.invalidated_eq.trans hforgot)
  | written saved invalidated_eq =>
    rw [hself] at saved
    exact .widened hslot hpresent (rewritten.entered.saved saved (h.index_ne hslot hpresent))
      (invalidated_eq.trans (congrArg (virt :: ·) hforgot))

/-- The page is written into a table that was made for it. If the source handed out the frame of the
directory for it, clearing it would have cleared the directory, and the table would not be found. -/
theorem mapEnds_of_made (h : mmu.Windowed) (hslot : virt.directoryIndex ≠ recursive)
    (habsent : (mmu.slotEntry virt.directoryIndex).present = false) {pointed : SoftMmu}
    {frame : Frame} {pointer : PageEntry}
    (hpointer : PageEntry.mapping frame flags.asPresent = .ok pointer)
    (rewritten : Rewritten mmu virt.directoryIndex pointer pointed)
    (cleared : Saved pointed frame.index .zeroed walked)
    (hforgot : walked.invalidated = TableIndex.window virt.directoryIndex :: mmu.invalidated)
    {answer : Except MappingError Unit}
    (houtcome : (install phys virt flags mode walked).outcome = .ok (answer, next)) :
    MapEnds mmu virt flags frames answer next rest := by
  obtain ⟨hflags, hframe⟩ := PageEntry.mapping_eq_ok hpointer
  have hother : frame.index ≠ mmu.directory.index := by
    intro hsame
    have hwindow := present_of_install houtcome
    rw [slotEntry, cleared.directory_eq, rewritten.directory_eq, cleared.load_eq, if_pos hsame.symm,
      PageTable.zeroed, PageTable.get_filled] at hwindow
    cases hwindow
  have hentered := rewritten.entered.saved cleared hother
  have hself := hentered.self_eq
  have hpresent : (walked.slotEntry virt.directoryIndex).present = true :=
    (congrArg PageEntry.present hself).trans (congrArg PageFlags.present hflags)
  cases installEnds_of_outcome (h.entered hslot hentered) hpresent houtcome with
  | taken htaken _ =>
    rw [slotTable, hself, hframe, cleared.load_eq, if_pos rfl, PageTable.zeroed,
      PageTable.get_filled] at htaken
    cases htaken
  | written saved invalidated_eq =>
    rw [hself, hframe] at saved
    exact .made hslot habsent hflags (hframe ▸ hother) (hentered.saved saved hother)
      (invalidated_eq.trans (congrArg (virt :: ·) hforgot))

/-- A mapping that is answered ends in one of these ways, whatever its arguments and its source.
-/
theorem mapEnds_of_outcome [FrameSource σ] (h : mmu.Anchored) {answer : Except MappingError Unit}
    (houtcome : (map phys virt flags mode mmu frames).outcome = .ok (answer, next, rest)) :
    MapEnds mmu virt flags frames answer next rest := by
  rcases checkMap_cases mmu.view phys virt flags mode false with
    ⟨complaint, hcheck, -⟩ | ⟨hcheck, hslot, -⟩
  · simp only [map, hcheck] at houtcome
    cases houtcome
    exact .refused (.refl mmu)
  simp only [map, hcheck, Traced.outcome_bind] at houtcome
  obtain ⟨⟨made, ready, left⟩, hensure, houtcome⟩ := Outcome.bind_eq_ok.mp houtcome
  cases ensureEnds_of_outcome h.toWindowed hslot hensure with
  | dry quiet =>
    cases houtcome
    exact .refused quiet
  | widened hpresent rewritten hforgot =>
    simp only [Traced.outcome_bind] at houtcome
    obtain ⟨⟨written, space⟩, hinstall, houtcome⟩ := Outcome.bind_eq_ok.mp houtcome
    cases houtcome
    exact mapEnds_of_widened h hslot hpresent rewritten hforgot hinstall
  | made habsent _ hpointer rewritten cleared hforgot =>
    simp only [Traced.outcome_bind] at houtcome
    obtain ⟨⟨written, space⟩, hinstall, houtcome⟩ := Outcome.bind_eq_ok.mp houtcome
    cases houtcome
    exact mapEnds_of_made h.toWindowed hslot habsent hpointer rewritten cleared hforgot hinstall

/-- A mapping leaves the directory anchored. -/
theorem MapEnds.anchored {answer : Except MappingError Unit}
    (ends : MapEnds mmu virt flags frames answer next rest) (h : mmu.Anchored) : next.Anchored := by
  cases ends with
  | refused quiet => exact h.same quiet.toSameTables
  | taken inner present rewritten _ =>
    refine h.entered inner ?_ rewritten.entered
    exact fun _ => h.index_ne inner present
  | widened inner present entered _ =>
    refine h.entered inner ?_ entered
    exact fun _ => h.index_ne inner present
  | made inner _ _ other entered _ => exact h.entered inner (fun _ => other) entered

/-- A mapping sweeps up. If it is refused it makes the processor forget nothing, and otherwise the
page, and before that the window page of a table that is new. -/
theorem MapEnds.swept {answer : Except MappingError Unit}
    (ends : MapEnds mmu virt flags frames answer next rest) :
    Swept mmu next ∧ next.invalidated =
      (if answer.isOk then
        virt :: if (mmu.slotEntry virt.directoryIndex).present = true then []
          else [TableIndex.window virt.directoryIndex]
      else []) ++ mmu.invalidated := by
  cases ends with
  | refused quiet => exact ⟨swept_of_same quiet.toSameTables, quiet.invalidated_eq⟩
  | taken inner present rewritten invalidated_eq =>
    exact ⟨swept_of_entered inner rewritten.entered (.inl present), invalidated_eq⟩
  | widened inner present entered invalidated_eq =>
    rw [if_pos present]
    exact ⟨swept_of_entered inner entered (.inl present), invalidated_eq⟩
  | made inner absent flags_eq _ entered invalidated_eq =>
    rw [absent]
    exact ⟨swept_of_entered inner entered (.inl (congrArg PageFlags.present flags_eq)),
      invalidated_eq⟩

/-! ## Unmapping -/

/-- How an unmapping ends if it is answered: it is refused before anything is written; or the
directory stays as it is; or the directory entry is cleared. -/
inductive UnmapEnds (mmu : SoftMmu) (virt : VirtAddr) (frames : σ) :
    Except MappingError Frame → SoftMmu → σ → Prop
  | refused {next : SoftMmu} {complaint : MappingError} (quiet : Quiet mmu next) :
      UnmapEnds mmu virt frames (.error complaint) next frames
  | kept {next : SoftMmu} {rest : σ} {frame : Frame} (inner : virt.directoryIndex ≠ recursive)
      (present : (mmu.slotEntry virt.directoryIndex).present = true)
      (entered : Entered mmu virt.directoryIndex (mmu.slotEntry virt.directoryIndex) next)
      (invalidated_eq : next.invalidated = virt :: mmu.invalidated) :
      UnmapEnds mmu virt frames (.ok frame) next rest
  | released {next : SoftMmu} {rest : σ} {frame : Frame}
      (inner : virt.directoryIndex ≠ recursive)
      (present : (mmu.slotEntry virt.directoryIndex).present = true)
      (entered : Entered mmu virt.directoryIndex .empty next)
      (invalidated_eq : next.invalidated =
        TableIndex.window virt.directoryIndex :: virt :: mmu.invalidated) :
      UnmapEnds mmu virt frames (.ok frame) next rest

/-- A table stays where it is, or its slot is cleared and its window page forgotten. -/
theorem releaseTable_changes [FrameSource σ] {tablePlace : Nat} {entry : PageEntry}
    (houtcome : (releaseTable slot mmu.directory.index tablePlace entry mmu frames).outcome =
      .ok (next, rest)) :
    next = mmu ∨
      Rewritten mmu slot .empty next ∧ next.invalidated = slot.window :: mmu.invalidated := by
  unfold releaseTable at houtcome
  split at houtcome
  case isTrue =>
    simp only [Traced.outcome_bind] at houtcome
    obtain ⟨left, -, houtcome⟩ := Outcome.bind_eq_ok.mp houtcome
    cases houtcome
    exact .inr ⟨((SameTables.refl mmu).saved_entry _ slot .empty).invalidate slot.window, rfl⟩
  case isFalse =>
    cases houtcome
    exact .inl rfl

/-- An unmapping that is answered ends in one of these ways, whatever its argument and its source.
-/
theorem unmapEnds_of_outcome [FrameSource σ] (h : mmu.Anchored) {answer : Except MappingError Frame}
    (houtcome : (unmap virt mmu frames).outcome = .ok (answer, next, rest)) :
    UnmapEnds mmu virt frames answer next rest := by
  rcases checkUnmap_cases mmu.view virt with ⟨complaint, hcheck, -⟩ | ⟨hcheck, hslot, -⟩
  · simp only [unmap, hcheck] at houtcome
    cases houtcome
    exact .refused (.refl mmu)
  simp only [unmap, hcheck, Traced.outcome_bind] at houtcome
  obtain ⟨⟨place, walked⟩, hdirectory, houtcome⟩ := Outcome.bind_eq_ok.mp houtcome
  obtain ⟨rfl, hwalked⟩ := quiet_of_directory h.toWindowed hdirectory
  dsimp only at houtcome
  rw [hwalked.loadEntry_directory virt.directoryIndex] at houtcome
  split at houtcome
  case isTrue =>
    cases houtcome
    exact .refused hwalked
  case isFalse hpresent =>
    have hpresent : (mmu.slotEntry virt.directoryIndex).present = true := by
      simpa using hpresent
    simp only [Traced.outcome_bind] at houtcome
    obtain ⟨⟨place, shown⟩, htable, houtcome⟩ := Outcome.bind_eq_ok.mp houtcome
    have hentry := hwalked.slotEntry_eq virt.directoryIndex
    obtain ⟨hplace, hshown⟩ := quiet_of_table (h.toWindowed.same hwalked.toSameTables)
      (by rw [hentry]; exact hpresent) htable
    have hquiet := hwalked.trans hshown
    rw [hentry] at hplace
    subst hplace
    dsimp only at houtcome
    split at houtcome
    case isTrue =>
      cases houtcome
      exact .refused hquiet
    case isFalse =>
      simp only [Traced.outcome_bind, Traced.outcome_report, Outcome.ok_bind] at houtcome
      obtain ⟨left, -, houtcome⟩ := Outcome.bind_eq_ok.mp houtcome
      obtain ⟨⟨space, last⟩, hrelease, houtcome⟩ := Outcome.bind_eq_ok.mp houtcome
      cases houtcome
      have hwritten := (hquiet.saved_entry (mmu.slotEntry virt.directoryIndex).frame.index
        virt.tableIndex .empty).invalidate virt
      have hkept := hwritten.entered_self (h.index_ne hslot hpresent) virt.directoryIndex
      have hforgot := congrArg (virt :: ·) hquiet.invalidated_eq
      rw [← hwritten.directory_eq] at hrelease
      rcases releaseTable_changes hrelease with rfl | ⟨rewritten, hwindow⟩
      · exact .kept hslot hpresent hkept hforgot
      · exact .released hslot hpresent (hkept.trans rewritten.entered)
          (hwindow.trans (congrArg (_ :: ·) hforgot))

/-- An unmapping leaves the directory anchored. -/
theorem UnmapEnds.anchored {answer : Except MappingError Frame}
    (ends : UnmapEnds mmu virt frames answer next rest) (h : mmu.Anchored) : next.Anchored := by
  cases ends with
  | refused quiet => exact h.same quiet.toSameTables
  | kept inner _ entered _ => exact h.entered inner (h.index_ne inner) entered
  | released inner _ entered _ =>
    refine h.entered inner ?_ entered
    intro hfalse
    cases hfalse

/-- An unmapping sweeps up. If it is refused it makes the processor forget nothing, and otherwise
the page, and after that the window page of its table if that is given back. -/
theorem UnmapEnds.swept {answer : Except MappingError Frame}
    (ends : UnmapEnds mmu virt frames answer next rest) :
    Swept mmu next ∧ next.invalidated =
      (if answer.isOk then
        (if (next.slotEntry virt.directoryIndex).present = true then []
          else [TableIndex.window virt.directoryIndex]) ++ [virt]
      else []) ++ mmu.invalidated := by
  cases ends with
  | refused quiet => exact ⟨swept_of_same quiet.toSameTables, quiet.invalidated_eq⟩
  | kept inner present entered invalidated_eq =>
    rw [entered.self_eq, if_pos present]
    exact ⟨swept_of_entered inner entered (.inl present), invalidated_eq⟩
  | released inner _ entered invalidated_eq =>
    rw [entered.self_eq]
    exact ⟨swept_of_entered inner entered (.inr rfl), invalidated_eq⟩

end AddressSpace

end BootMemory
