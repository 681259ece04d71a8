import BootMemory.Proofs.Memory.Owners
import BootMemory.Proofs.Paging.Mapping
import BootMemory.Proofs.Paging.Unmapping

/-!
# Pages with frames of their own

A page that is mapped to a fresh frame takes one frame for itself, and one more if its slot has
no table yet. If anything is missing, what was taken so far goes back and nothing has changed
(`Restored`). An unmapping gives the same frames back. None of these calls faults as long as
every used frame has one owner: no frame is given back twice.
-/

set_option autoImplicit false

namespace BootMemory.KernelMemory

open AddressSpace FrameAllocator SoftMmu
open TableIndex (recursive)

variable {outside : Outside} {memory next last : KernelMemory SoftMmu} {virt : VirtAddr}
  {frame : Frame}

/-- The same frames are used, and the same pages are shown by the same tables. -/
structure Restored (memory next : KernelMemory SoftMmu) : Prop where
  frames : Becomes memory.frames next.frames memory.frames.unavailable
  space : next.space.Sound
  view_eq : next.space.view = memory.space.view
  steady : Steady memory.space next.space

/-- A page got mapped to a frame that was free. -/
structure Gains (memory : KernelMemory SoftMmu) (virt : VirtAddr) (frame : Frame)
    (next : KernelMemory SoftMmu) : Prop where
  aligned : 4096 ∣ virt.toNat
  outside_window : ¬ virt.InWindow
  free : frame.index ∈ memory.frames.tracked \ memory.frames.unavailable
  unmapped : memory.space.view (virt.page .small) = none
  view_eq : ∃ target : Mapping, target.frame = frame ∧
    next.space.view = Function.update memory.space.view (virt.page .small) (some target)
  steady : Steady memory.space next.space
  tracked_eq : next.frames.tracked = memory.frames.tracked

/-- A mapped page got unmapped. -/
structure Loses (memory : KernelMemory SoftMmu) (virt : VirtAddr) (frame : Frame)
    (next : KernelMemory SoftMmu) : Prop where
  aligned : 4096 ∣ virt.toNat
  outside_window : ¬ virt.InWindow
  mapped : ∃ target, memory.space.view (virt.page .small) = some target ∧ target.frame = frame
  view_eq : next.space.view = Function.update memory.space.view (virt.page .small) none
  steady : Steady memory.space next.space
  tracked_eq : next.frames.tracked = memory.frames.tracked

/-- A memory with the same tables and the same frames is as it was. -/
theorem restored_of_same (h : Owned outside memory) {space : SoftMmu}
    (same : SameTables memory.space space) : Restored memory ⟨memory.frames, space⟩ :=
  ⟨.refl h.frames, h.space.same same, same.view_eq, same.steady⟩

namespace Owned

/-- A directory that stays in its frame was used from the start, if the frame is tracked. -/
theorem directory_of_steady (h : Owned outside memory) {space : SoftMmu}
    {used : FrameAllocator} (steady : Steady memory.space space)
    (htracked : used.tracked = memory.frames.tracked) :
    space.directory.index ∈ used.tracked → space.directory.index ∈ outside.initial := by
  rw [htracked, steady.directory_eq]
  exact h.directory

/-- Every frame keeps its owner when nothing has changed. -/
theorem restored (h : Owned outside memory) (restored : Restored memory next) :
    Owned outside next := by
  refine ⟨restored.frames.sound, restored.space, ?_,
    h.directory_of_steady restored.steady restored.frames.tracked_eq⟩
  rw [restored.frames.unavailable_eq]
  exact h.divided.congr
    (owns_of_view_eq h.space restored.space restored.view_eq restored.steady)

/-- A tracked frame that the directory points at belongs to a table, or was used from the start as
the directory is. -/
theorem owner_of_present (h : Owned outside memory) {slot : TableIndex}
    (hpresent : (memory.space.slotEntry slot).present = true)
    (htracked : (memory.space.slotEntry slot).frame.index ∈ memory.frames.tracked) :
    ∃ owner : Owner, (owner = .initial ∨ owner = .table slot) ∧
      Owns outside memory.space owner (memory.space.slotEntry slot).frame.index := by
  by_cases hslot : slot = recursive
  · subst hslot
    rw [h.space.frame_eq] at htracked ⊢
    exact ⟨.initial, .inl rfl, h.directory htracked⟩
  · exact ⟨.table slot, .inr rfl, hslot, hpresent, rfl⟩

/-- A free frame holds neither the directory nor a table. -/
theorem spare (h : Owned outside memory) (htracked : frame.index ∈ memory.frames.tracked)
    (hfree : frame.index ∉ memory.frames.unavailable) : Spare memory.space frame := by
  rintro slot hpresent rfl
  obtain ⟨owner, -, howner⟩ := h.owner_of_present hpresent htracked
  exact hfree (h.divided.mem howner)

/-- The next frame that an allocator hands out after another one holds neither the directory nor a
table. -/
theorem spare_of_allocate (h : Owned outside memory) {frames rest : FrameAllocator}
    {table : Frame} (becomes : Becomes memory.frames frames
      (insert frame.index memory.frames.unavailable))
    (hallocate : FrameSource.allocate frames = some (table, rest)) :
    table.index < 2 ^ 20 ∧ Spare memory.space table := by
  rcases becomes.sound.allocate with ⟨-, hnone⟩ | ⟨table', rest', hsome, out⟩
  · rw [show FrameSource.allocate frames = none from hnone] at hallocate
    cases hallocate
  · rw [show FrameSource.allocate frames = some (table', rest') from hsome] at hallocate
    cases hallocate
    obtain ⟨hin, hfree⟩ := Finset.mem_sdiff.mp out.free
    rw [becomes.tracked_eq] at hin
    rw [becomes.unavailable_eq, Finset.mem_insert, not_or] at hfree
    exact ⟨h.frames.lt_of_mem_tracked hin, h.spare hin hfree.2⟩

/-- The frame behind a page holds neither the directory nor a table. -/
theorem spare_of_view_eq_some (h : Owned outside memory) {page : VirtPage .small}
    {target : Mapping} (hpage : memory.space.view page = some target) :
    Spare memory.space target.frame := by
  intro slot hpresent heq
  have howns : Owns outside memory.space (.page page) target.frame.index := ⟨target, hpage, rfl⟩
  have htracked := memory.frames.unavailable_subset (h.divided.mem howns)
  rw [← heq] at htracked howns
  obtain ⟨owner, hsort, howner⟩ := h.owner_of_present hpresent htracked
  rw [h.divided.unique howner howns] at hsort
  exact hsort.elim nofun nofun

/-- A page that got a frame, and its slot that got a table if it had none, own these frames. -/
theorem mapped (h : Owned outside memory) {frames rest : FrameAllocator} {space : SoftMmu}
    {target : Mapping} (hfree : target.frame.index ∉ memory.frames.unavailable)
    (becomes : Becomes memory.frames frames
      (insert target.frame.index memory.frames.unavailable))
    (hspace : space.Sound) (hunmapped : memory.space.view (virt.page .small) = none)
    (hview : space.view = Function.update memory.space.view (virt.page .small) (some target))
    (steady : Steady memory.space space)
    (charged : Charged memory.space virt.directoryIndex frames space rest) :
    Owned outside ⟨rest, space⟩ ∧ rest.tracked = memory.frames.tracked := by
  have howns := owns_of_map outside h.space hspace hview hunmapped steady
  obtain ⟨-, hpresent⟩ := slot_of_view_eq_some
    (show space.view (virt.page .small) = some target by rw [hview, Function.update_self])
  rw [VirtPage.slot_page] at howns hpresent
  have hdata : Divided frames.unavailable fun owner number =>
      Owns outside memory.space owner number ∨
        owner = .page (virt.page .small) ∧ number = target.frame.index := by
    rw [becomes.unavailable_eq]
    exact h.divided.give_frame _ hfree fun _ _ => Iff.rfl
  unfold Charged at charged
  cases hbefore : (memory.space.slotEntry virt.directoryIndex).present with
  | true =>
    rw [hbefore, hpresent, if_pos rfl] at charged
    subst charged
    refine ⟨⟨becomes.sound, hspace, hdata.congr fun owner number => ?_,
      h.directory_of_steady steady becomes.tracked_eq⟩, becomes.tracked_eq⟩
    rw [howns, hbefore]
    exact or_iff_left fun hnew => Bool.noConfusion hnew.2.1
  | false =>
    rw [hbefore, hpresent, if_neg (Ne.symm Bool.false_ne_true)] at charged
    rcases becomes.sound.allocate with ⟨-, hnone⟩ | ⟨table, other, hsome, out⟩
    · rw [show FrameSource.allocate frames = none from hnone] at charged
      exact nomatch charged
    · rw [show FrameSource.allocate frames = some (table, other) from hsome] at charged
      cases charged
      have hfree' := (Finset.mem_sdiff.mp out.free).2
      have htracked := out.becomes.tracked_eq.trans becomes.tracked_eq
      refine ⟨⟨out.becomes.sound, hspace, ?_, h.directory_of_steady steady htracked⟩, htracked⟩
      show Divided rest.unavailable _
      rw [out.becomes.unavailable_eq]
      refine hdata.give_frame (.table virt.directoryIndex) hfree' fun owner number => ?_
      rw [howns, hbefore]
      simp only [true_and]

/-- Mapping a page to a fresh frame goes through. It is refused and nothing has changed, or the
page got a frame that was free. -/
theorem mapFresh_cases (h : Owned outside memory) (virt : VirtAddr) (flags : PageFlags) :
    (∃ complaint next, (memory.mapFresh virt flags).outcome = .ok (.error complaint, next) ∧
        Restored memory next) ∨
      ∃ frame next, (memory.mapFresh virt flags).outcome = .ok (.ok frame, next) ∧
        Owned outside next ∧ Gains memory virt frame next := by
  rcases h.frames.allocate with ⟨-, hnone⟩ | ⟨frame, frames, hsome, out⟩
  · left
    refine ⟨.outOfFrames, memory, ?_, restored_of_same h (.refl _)⟩
    simp [mapFresh, hnone]
  obtain ⟨htracked, hfree⟩ := Finset.mem_sdiff.mp out.free
  -- A table that has to be made goes into another free frame.
  obtain ⟨space, rest, houtcome, ⟨hspace, hview⟩, hsteady, hcharged⟩ :=
    map_refines h.space flags .fresh fun _ _ table other htable =>
      h.spare_of_allocate out.becomes htable
  rcases memory.space.view.map_fresh_cases frame.base virt flags (isDry frames) with
    ⟨complaint, hmap⟩ | ⟨target, htarget, haligned, hwindow, hunmapped, hmap⟩
  · left
    rw [hmap] at houtcome hview
    -- No table was made, so the frame of the page is all that has to go back.
    have hrest : rest = frames := by
      unfold Charged at hcharged
      rwa [if_pos (h.space.present_eq_of_view_eq hspace hview _)] at hcharged
    subst hrest
    have hused : frame.index ∈ rest.unavailable := by
      rw [out.becomes.unavailable_eq]
      exact Finset.mem_insert_self _ _
    obtain ⟨freed, hfreed, becomes⟩ := out.becomes.sound.free hused
    rw [out.becomes.unavailable_eq, Finset.erase_insert hfree] at becomes
    refine ⟨complaint, ⟨freed, space⟩, ?_, out.becomes.trans becomes, hspace, hview, hsteady⟩
    simp [mapFresh, hsome, map, houtcome, hfreed]
  · right
    rw [hmap] at houtcome hview
    have hframe : target.frame = frame := htarget.trans (PhysPage.page_base frame)
    subst hframe
    obtain ⟨howned, htracked'⟩ :=
      h.mapped hfree out.becomes hspace hunmapped hview hsteady hcharged
    refine ⟨target.frame, ⟨rest, space⟩, ?_, howned,
      haligned, hwindow, out.free, hunmapped, ⟨target, rfl, hview⟩, hsteady, htracked'⟩
    simp [mapFresh, hsome, map, houtcome]

/-- The frame of a page that was unmapped can be given back, and so can that of a table that has
no page any more; who owns the other frames does not change. -/
theorem unmapped (h : Owned outside memory) {space : SoftMmu} {target : Mapping}
    (hspace : space.Sound) (hmapped : memory.space.view (virt.page .small) = some target)
    (hview : space.view = Function.update memory.space.view (virt.page .small) none)
    (steady : Steady memory.space space) :
    ∃ rest, giveBack (released memory.space space virt.directoryIndex (.ok target.frame))
        memory.frames = .ok rest ∧
      Owned outside ⟨rest, space⟩ ∧ rest.tracked = memory.frames.tracked := by
  have howns := owns_of_unmap outside h.space hspace hview hmapped steady
  obtain ⟨hslot, hpresent⟩ := slot_of_view_eq_some hmapped
  rw [VirtPage.slot_page] at howns hslot hpresent
  -- The frame of the page goes back first.
  have hpage : Owns outside memory.space (.page (virt.page .small)) target.frame.index :=
    ⟨target, hmapped, rfl⟩
  obtain ⟨frames, hfree, becomes⟩ := h.frames.free (h.divided.mem hpage)
  replace hfree : (FrameSource.free target.frame memory.frames).outcome = .ok frames := hfree
  have hdata : Divided frames.unavailable fun owner number =>
      Owns outside memory.space owner number ∧
        ¬ (owner = .page (virt.page .small) ∧ number = target.frame.index) := by
    rw [becomes.unavailable_eq]
    exact h.divided.take hpage fun _ _ => Iff.rfl
  rw [released, giveBack_cons, hfree, Outcome.ok_bind]
  cases hafter : (space.slotEntry virt.directoryIndex).present with
  | true =>
    refine ⟨frames, giveBack_nil frames, ⟨becomes.sound, hspace,
      hdata.congr fun owner number => ?_, h.directory_of_steady steady becomes.tracked_eq⟩,
      becomes.tracked_eq⟩
    rw [howns, hafter]
    exact and_iff_left fun hgone => Bool.noConfusion hgone.2.1
  | false =>
    have htable : Owns outside memory.space (.table virt.directoryIndex)
        (memory.space.slotEntry virt.directoryIndex).frame.index ∧
        ¬ (Owner.table virt.directoryIndex = .page (virt.page .small) ∧
          (memory.space.slotEntry virt.directoryIndex).frame.index = target.frame.index) :=
      ⟨⟨hslot, hpresent, rfl⟩, by simp⟩
    obtain ⟨rest, hfree', becomes'⟩ := becomes.sound.free (hdata.mem htable)
    have htracked := becomes'.tracked_eq.trans becomes.tracked_eq
    refine ⟨rest, ?_, ⟨becomes'.sound, hspace, ?_, h.directory_of_steady steady htracked⟩,
      htracked⟩
    · replace hfree' : (FrameSource.free (memory.space.slotEntry virt.directoryIndex).frame
          frames).outcome = .ok rest := hfree'
      rw [if_neg Bool.false_ne_true, giveBack_cons, hfree', Outcome.ok_bind, giveBack_nil]
    · show Divided rest.unavailable _
      rw [becomes'.unavailable_eq]
      refine hdata.take htable fun owner number => ?_
      rw [howns, hafter]
      simp only [true_and]

/-- Unmapping a page goes through. It is refused as the map of the pages says and nothing has
changed, or the page lost its frame. -/
theorem unmap_cases (h : Owned outside memory) (virt : VirtAddr) :
    (∃ complaint next, (memory.unmap virt).outcome = .ok (.error complaint, next) ∧
        (memory.space.view.unmap virt).1 = .error complaint ∧ Restored memory next) ∨
      ∃ frame next, (memory.unmap virt).outcome = .ok (.ok frame, next) ∧
        Owned outside next ∧ Loses memory virt frame next := by
  obtain ⟨space, houtcome, ⟨hspace, hview⟩, hsteady⟩ := unmap_refines h.space virt memory.frames
  rcases memory.space.view.unmap_cases virt with
    ⟨complaint, hunmap⟩ | ⟨target, haligned, hwindow, hmapped, hunmap⟩
  · left
    rw [hunmap] at houtcome hview ⊢
    refine ⟨complaint, ⟨memory.frames, space⟩, ?_, rfl, .refl h.frames, hspace, hview, hsteady⟩
    simp [unmap, houtcome, released, giveBack_nil]
  · right
    rw [hunmap] at houtcome hview
    obtain ⟨rest, hgiven, howned, htracked⟩ := h.unmapped hspace hmapped hview hsteady
    refine ⟨target.frame, ⟨rest, space⟩, ?_, howned, haligned, hwindow, ⟨target, hmapped, rfl⟩,
      hview, hsteady, htracked⟩
    simp [unmap, houtcome, hgiven]

/-- Backing a page goes through. It is refused and nothing has changed, or the page got a frame
that was free. -/
theorem back_cases (h : Owned outside memory) (virt : VirtAddr) :
    (∃ complaint next, (memory.back virt).outcome = .ok (.error complaint, next) ∧
        Restored memory next) ∨
      ∃ frame next, (memory.back virt).outcome = .ok (.ok (), next) ∧
        Owned outside next ∧ Gains memory virt frame next := by
  rcases h.mapFresh_cases virt .kernel with
    ⟨complaint, next, houtcome, restored⟩ | ⟨frame, next, houtcome, howned, gains⟩
  · left
    refine ⟨complaint, next, ?_, restored⟩
    simp [back, houtcome, Except.map]
  · right
    refine ⟨frame, next, ?_, howned, gains⟩
    simp [back, houtcome, Except.map]

/-- Releasing a page goes through. The page lost its frame, or it had none to lose and nothing has
changed. -/
theorem release_cases (h : Owned outside memory) (virt : VirtAddr) :
    (∃ complaint next, (memory.release virt).outcome = .ok next ∧
        (memory.space.view.unmap virt).1 = .error complaint ∧ Restored memory next) ∨
      ∃ frame next, (memory.release virt).outcome = .ok next ∧
        Owned outside next ∧ Loses memory virt frame next := by
  rcases h.unmap_cases virt with
    ⟨complaint, next, houtcome, hrefused, restored⟩ | ⟨frame, next, houtcome, howned, loses⟩
  · left
    refine ⟨complaint, next, ?_, hrefused, restored⟩
    simp [release, houtcome]
  · right
    refine ⟨frame, next, ?_, howned, loses⟩
    simp [release, houtcome]

end Owned

end BootMemory.KernelMemory
