import BootMemory.Proofs.Frames.Refinement
import BootMemory.Proofs.Memory.Pages
import Mathlib.Data.Finite.Prod

/-!
# Every frame has one owner

A kernel memory in use: its frames and pages, and the frames that were taken from its allocator
or reserved in it. However it is used, no call faults, the used frames are shared out among their
owners without overlap, and the counter of used frames is the sum of what the owners have
(`MemoryRun.every_frame_has_one_owner`). So no frame is behind two pages, and no frame of a page
holds a table, the directory, the kernel image or the bitmaps.
-/

set_option autoImplicit false

namespace BootMemory

open TableIndex (recursive)

/-! ## What the owners have -/

/-- A page is a position in the table of a slot. -/
instance : Finite (VirtPage .small) := by
  refine Finite.of_injective (fun page => (page.slot, page.position)) fun page other heq => ?_
  obtain ⟨hslot, hposition⟩ := Prod.mk.inj heq
  rw [← VirtPage.ofIndices_slot_position page, hslot, hposition, VirtPage.ofIndices_slot_position]

noncomputable instance : Fintype (VirtPage .small) := .ofFinite _

namespace SoftMmu

/-- The pages that are mapped. -/
noncomputable def mappedPages (mmu : SoftMmu) : Finset (VirtPage .small) :=
  Finset.univ.filter fun page => (mmu.view page).isSome

/-- The frames behind the mapped pages. -/
noncomputable def pageFrames (mmu : SoftMmu) : Finset Nat :=
  mmu.mappedPages.image fun page => (mmu.view page).elim 0 (·.frame.index)

/-- The frames of the page tables. -/
def tableFrames (mmu : SoftMmu) : Finset Nat :=
  mmu.populatedSlots.image fun slot => (mmu.slotEntry slot).frame.index

variable {mmu : SoftMmu}

/-- The mapped pages are those that the address space shows. -/
theorem mem_mappedPages {page : VirtPage .small} :
    page ∈ mmu.mappedPages ↔ ∃ target, mmu.view page = some target := by
  simp only [mappedPages, Finset.mem_filter, Finset.mem_univ, true_and, Option.isSome_iff_exists]

/-- A frame lies behind a mapped page exactly if one is mapped to it. -/
theorem mem_pageFrames {frame : Nat} : frame ∈ mmu.pageFrames ↔
    ∃ page target, mmu.view page = some target ∧ frame = target.frame.index := by
  simp only [pageFrames, Finset.mem_image, mem_mappedPages]
  constructor
  · rintro ⟨page, ⟨target, htarget⟩, rfl⟩
    exact ⟨page, target, htarget, by rw [htarget]; rfl⟩
  · rintro ⟨page, target, htarget, rfl⟩
    exact ⟨page, ⟨target, htarget⟩, by rw [htarget]; rfl⟩

/-- A frame is that of a page table exactly if a slot that has a table says so. -/
theorem mem_tableFrames {frame : Nat} : frame ∈ mmu.tableFrames ↔ ∃ slot, slot ≠ recursive ∧
    (mmu.slotEntry slot).present = true ∧ frame = (mmu.slotEntry slot).frame.index := by
  simp only [tableFrames, Finset.mem_image, mem_populatedSlots, and_assoc, eq_comm]

end SoftMmu

/-- Sorts of owners. -/
inductive Owner.Sort where
  | initial | reservation | caller | page | table
  deriving DecidableEq

def Owner.sort : Owner → Owner.Sort
  | .initial => .initial
  | .reservation => .reservation
  | .caller => .caller
  | .page _ => .page
  | .table _ => .table

namespace Divided

open SoftMmu

variable {outside : Outside} {mmu : SoftMmu} {used : Finset Nat}

/-- The frames that owners of a sort have. -/
noncomputable def belongings (outside : Outside) (mmu : SoftMmu) : Owner.Sort → Finset Nat
  | .initial => outside.initial
  | .reservation => outside.reserved
  | .caller => outside.raw
  | .page => mmu.pageFrames
  | .table => mmu.tableFrames

/-- What a sort of owners has is what each of them has. -/
theorem mem_belongings {sort : Owner.Sort} {frame : Nat} : frame ∈ belongings outside mmu sort ↔
    ∃ owner : Owner, owner.sort = sort ∧ Owns outside mmu owner frame := by
  constructor
  · intro hframe
    cases sort with
    | initial => exact ⟨.initial, rfl, hframe⟩
    | reservation => exact ⟨.reservation, rfl, hframe⟩
    | caller => exact ⟨.caller, rfl, hframe⟩
    | page =>
      rw [belongings, mem_pageFrames] at hframe
      obtain ⟨page, howns⟩ := hframe
      exact ⟨.page page, rfl, howns⟩
    | table =>
      rw [belongings, mem_tableFrames] at hframe
      obtain ⟨slot, howns⟩ := hframe
      exact ⟨.table slot, rfl, howns⟩
  · rintro ⟨owner, rfl, howns⟩
    cases owner with
    | initial | reservation | caller => exact howns
    | page page => exact mem_pageFrames.mpr ⟨page, howns⟩
    | table slot => exact mem_tableFrames.mpr ⟨slot, howns⟩

/-- No frame belongs to owners of two sorts. -/
theorem disjoint_belongings (h : Divided used (Owns outside mmu)) {sort other : Owner.Sort}
    (hne : sort ≠ other) :
    Disjoint (belongings outside mmu sort) (belongings outside mmu other) := by
  refine Finset.disjoint_left.mpr fun frame hframe hframe' => hne ?_
  obtain ⟨owner, rfl, howns⟩ := mem_belongings.mp hframe
  obtain ⟨owner', rfl, howns'⟩ := mem_belongings.mp hframe'
  rw [h.unique howns howns']

/-- The used frames are what the five sorts of owners have together. -/
theorem used_eq (h : Divided used (Owns outside mmu)) :
    used = outside.initial ∪ outside.reserved ∪ outside.raw ∪ mmu.pageFrames ∪
      mmu.tableFrames := by
  ext frame
  have hsorts : frame ∈ used ↔ ∃ sort, frame ∈ belongings outside mmu sort := by
    simp only [h.used_iff, mem_belongings]
    exact ⟨fun ⟨owner, howns⟩ => ⟨owner.sort, owner, rfl, howns⟩,
      fun ⟨_, owner, _, howns⟩ => ⟨owner, howns⟩⟩
  simp only [hsorts, Finset.mem_union]
  constructor
  · rintro ⟨sort, hframe⟩
    cases sort with
    | initial => exact .inl (.inl (.inl (.inl hframe)))
    | reservation => exact .inl (.inl (.inl (.inr hframe)))
    | caller => exact .inl (.inl (.inr hframe))
    | page => exact .inl (.inr hframe)
    | table => exact .inr hframe
  · rintro ((((hframe | hframe) | hframe) | hframe) | hframe)
    · exact ⟨.initial, hframe⟩
    · exact ⟨.reservation, hframe⟩
    · exact ⟨.caller, hframe⟩
    · exact ⟨.page, hframe⟩
    · exact ⟨.table, hframe⟩

/-- No two of the five sorts of owners have a frame in common. -/
theorem pairwise_disjoint (h : Divided used (Owns outside mmu)) :
    [outside.initial, outside.reserved, outside.raw, mmu.pageFrames,
      mmu.tableFrames].Pairwise Disjoint := by
  have hsorts : [Owner.Sort.initial, .reservation, .caller, .page, .table].Pairwise (· ≠ ·) := by
    decide
  exact List.pairwise_map.mpr (hsorts.imp h.disjoint_belongings)

/-- No two pages are mapped to one frame. -/
theorem page_eq (h : Divided used (Owns outside mmu)) {page other : VirtPage .small}
    {target target' : Mapping} (hpage : mmu.view page = some target)
    (hother : mmu.view other = some target') (hframe : target.frame = target'.frame) :
    page = other := by
  have howns : Owns outside mmu (.page page) target.frame.index := ⟨target, hpage, rfl⟩
  have howns' : Owns outside mmu (.page other) target.frame.index :=
    ⟨target', hother, by rw [hframe]⟩
  exact Owner.page.inj (h.unique howns howns')

/-- As many frames are behind pages as pages are mapped. -/
theorem card_pageFrames (h : Divided used (Owns outside mmu)) :
    mmu.pageFrames.card = mmu.mappedPages.card := by
  rw [pageFrames]
  refine Finset.card_image_of_injOn fun page hpage other hother heq => ?_
  obtain ⟨target, htarget⟩ := mem_mappedPages.mp hpage
  obtain ⟨target', htarget'⟩ := mem_mappedPages.mp hother
  simp only [htarget, htarget', Option.elim_some] at heq
  exact h.page_eq htarget htarget' (PhysPage.ext heq)

/-- As many frames hold tables as slots have one. -/
theorem card_tableFrames (h : mmu.Separated) :
    mmu.tableFrames.card = mmu.populatedSlots.card := by
  rw [tableFrames]
  refine Finset.card_image_of_injOn fun slot hslot other hother heq => ?_
  exact h.eq_of_frame_eq (mem_populatedSlots.mp hslot).2 (mem_populatedSlots.mp hother).2
    (PhysPage.ext heq)

/-- The sets of the owners add up. -/
theorem card_eq (h : Divided used (Owns outside mmu)) (hspace : mmu.Separated) :
    used.card = outside.initial.card + outside.reserved.card + outside.raw.card +
      mmu.mappedPages.card + mmu.populatedSlots.card := by
  have hpairs := h.pairwise_disjoint
  simp only [List.pairwise_cons, List.forall_mem_cons, List.not_mem_nil, false_implies,
    implies_true, and_true, List.Pairwise.nil] at hpairs
  obtain ⟨⟨h01, h02, h03, h04⟩, ⟨h12, h13, h14⟩, ⟨h23, h24⟩, h34⟩ := hpairs
  rw [h.used_eq, ← h.card_pageFrames, ← card_tableFrames hspace]
  simp only [Finset.card_union_of_disjoint, Finset.disjoint_union_left, h01, h02, h03, h04, h12,
    h13, h14, h23, h24, h34, and_self]

end Divided

/-! ## Kernel memories in use -/

/-- A kernel memory in use. -/
structure MemoryRun where
  memory : KernelMemory SoftMmu
  outside : Outside

/-- A call of a kernel memory, or of its frame allocator alone. -/
inductive MemoryCall where
  | mapFresh (virt : VirtAddr) (flags : PageFlags)
  | unmap (virt : VirtAddr)
  | back (virt : VirtAddr)
  | release (virt : VirtAddr)
  | allocate
  | free (frame : Frame)
  | reserve (start stop : Nat)

namespace MemoryRun

open KernelMemory

/-- What a call leaves behind. A caller has the frames that it takes until it gives them back;
reserved are the frames that get used without being given to anybody. -/
def step (run : MemoryRun) : MemoryCall → Traced MemoryRun
  | .mapFresh virt flags => do
    let (_, memory) ← run.memory.mapFresh virt flags
    return { run with memory }
  | .unmap virt => do
    let (_, memory) ← run.memory.unmap virt
    return { run with memory }
  | .back virt => do
    let (_, memory) ← run.memory.back virt
    return { run with memory }
  | .release virt => do
    let memory ← run.memory.release virt
    return { run with memory }
  | .allocate =>
    match run.memory.frames.allocate with
    | none => return run
    | some (frame, frames) =>
      return ⟨{ run.memory with frames },
        { run.outside with raw := insert frame.index run.outside.raw }⟩
  | .free frame => do
    let frames ← run.memory.frames.free frame
    return ⟨{ run.memory with frames },
      { run.outside with raw := run.outside.raw.erase frame.index }⟩
  | .reserve start stop =>
    let frames := (run.memory.frames.reserveRange start stop).1
    return ⟨{ run.memory with frames }, { run.outside with
      reserved := run.outside.reserved ∪ (frames.unavailable \ run.memory.frames.unavailable) }⟩

/-- Only frames that were taken, and not given back since, are given back. -/
def Legal (run : MemoryRun) : MemoryCall → Prop
  | .free frame => frame.index ∈ run.outside.raw
  | _ => True

/-- A kernel memory before it is used. -/
def start (frames : FrameAllocator) (mmu : SoftMmu) : MemoryRun :=
  ⟨⟨frames, mmu⟩, ⟨frames.unavailable, ∅, ∅⟩⟩

/-- What becomes of a kernel memory by legal calls. -/
inductive Reached (first : MemoryRun) : MemoryRun → Prop where
  | start : Reached first first
  | call {run next : MemoryRun} {call : MemoryCall} (h : Reached first run)
      (legal : run.Legal call) (hstep : (run.step call).outcome = .ok next) : Reached first next

/-- What a call leaves: every used frame has one owner, the frames that were used from the start
are the same, and so are the tracked ones. -/
structure Follows (run next : MemoryRun) : Prop where
  owned : Owned next.outside next.memory
  initial_eq : next.outside.initial = run.outside.initial
  tracked_eq : next.memory.frames.tracked = run.memory.frames.tracked

variable {frames : FrameAllocator} {run next : MemoryRun} {memory : KernelMemory SoftMmu}
  {call : MemoryCall}

/-- A call that leaves the memory as it was keeps the owners apart. -/
theorem follows_restored (h : Owned run.outside run.memory)
    (restored : Restored run.memory memory) : Follows run { run with memory } :=
  ⟨h.restored restored, rfl, restored.frames.tracked_eq⟩

/-- Every legal call goes through and keeps the owners of frames apart. -/
theorem step_follows (h : Owned run.outside run.memory) (legal : run.Legal call) :
    ∃ next, (run.step call).outcome = .ok next ∧ Follows run next := by
  cases call with
  | mapFresh virt flags =>
    rcases h.mapFresh_cases virt flags with
      ⟨complaint, memory, houtcome, restored⟩ | ⟨frame, memory, houtcome, howned, gains⟩
    · exact ⟨_, by simp [step, houtcome], follows_restored h restored⟩
    · exact ⟨{ run with memory }, by simp [step, houtcome], howned, rfl, gains.tracked_eq⟩
  | unmap virt =>
    rcases h.unmap_cases virt with
      ⟨complaint, memory, houtcome, -, restored⟩ | ⟨frame, memory, houtcome, howned, loses⟩
    · exact ⟨_, by simp [step, houtcome], follows_restored h restored⟩
    · exact ⟨{ run with memory }, by simp [step, houtcome], howned, rfl, loses.tracked_eq⟩
  | back virt =>
    rcases h.back_cases virt with
      ⟨complaint, memory, houtcome, restored⟩ | ⟨frame, memory, houtcome, howned, gains⟩
    · exact ⟨_, by simp [step, houtcome], follows_restored h restored⟩
    · exact ⟨{ run with memory }, by simp [step, houtcome], howned, rfl, gains.tracked_eq⟩
  | release virt =>
    rcases h.release_cases virt with
      ⟨complaint, memory, houtcome, -, restored⟩ | ⟨frame, memory, houtcome, howned, loses⟩
    · exact ⟨_, by simp [step, houtcome], follows_restored h restored⟩
    · exact ⟨{ run with memory }, by simp [step, houtcome], howned, rfl, loses.tracked_eq⟩
  | allocate =>
    cases hallocate : run.memory.frames.allocate with
    | none => exact ⟨run, by simp [step, hallocate], h, rfl, rfl⟩
    | some taken =>
      obtain ⟨frame, rest⟩ := taken
      obtain ⟨howned, htracked⟩ := h.allocate hallocate
      exact ⟨⟨⟨rest, run.memory.space⟩, _⟩, by simp [step, hallocate], howned, rfl, htracked⟩
  | free frame =>
    obtain ⟨rest, houtcome, howned, htracked⟩ := h.free legal
    exact ⟨⟨⟨rest, run.memory.space⟩, _⟩, by simp [step, houtcome], howned, rfl, htracked⟩
  | reserve start stop =>
    obtain ⟨howned, htracked⟩ := h.reserveRange start stop
    exact ⟨_, rfl, howned, rfl, htracked⟩

/-- Every used frame has one owner, and those of the start are still those of the start. -/
structure Kept (frames : FrameAllocator) (run : MemoryRun) : Prop where
  owned : Owned run.outside run.memory
  initial_eq : run.outside.initial = frames.unavailable
  tracked_eq : run.memory.frames.tracked = frames.tracked

/-- What a call leaves is kept if it was kept before. -/
theorem Kept.follows (h : Kept frames run) (follows : Follows run next) : Kept frames next :=
  ⟨follows.owned, follows.initial_eq.trans h.initial_eq, follows.tracked_eq.trans h.tracked_eq⟩

/-- Whatever the calls, the owners of frames are kept apart. -/
theorem Reached.kept {first : MemoryRun} (hrun : Reached first run) (h : Kept frames first) :
    Kept frames run := by
  induction hrun with
  | start => exact h
  | call _ legal hstep ih =>
    obtain ⟨next, houtcome, follows⟩ := step_follows ih.owned legal
    rw [houtcome] at hstep
    cases hstep
    exact ih.follows follows

/-- How the used frames are shared out: the owners have no frame in common, what they have makes
up the used frames, and the counter of these is the sum of what they have. -/
structure Accounted (frames : FrameAllocator) (run : MemoryRun) : Prop where
  used_eq : run.memory.frames.unavailable = frames.unavailable ∪ run.outside.reserved ∪
    run.outside.raw ∪ run.memory.space.pageFrames ∪ run.memory.space.tableFrames
  disjoint : [frames.unavailable, run.outside.reserved, run.outside.raw,
    run.memory.space.pageFrames, run.memory.space.tableFrames].Pairwise Disjoint
  /-- No two pages have one frame. -/
  page_eq : ∀ {page other : VirtPage .small} {target target' : Mapping},
    run.memory.space.view page = some target → run.memory.space.view other = some target' →
      target.frame = target'.frame → page = other
  /-- No two tables have one frame. -/
  slot_eq : ∀ {slot other : TableIndex}, (run.memory.space.slotEntry slot).present = true →
    (run.memory.space.slotEntry other).present = true →
      (run.memory.space.slotEntry slot).frame = (run.memory.space.slotEntry other).frame →
        slot = other
  count_eq : run.memory.frames.used = frames.used + run.outside.reserved.card +
    run.outside.raw.card + run.memory.space.mappedPages.card + run.memory.space.populatedSlots.card

/-- Where owners are kept apart, the used frames are shared out among them. -/
theorem Kept.accounted (h : Kept frames run) (hframes : frames.Sound) : Accounted frames run := by
  have hdivided := h.owned.divided
  have hused := hdivided.used_eq
  have hdisjoint := hdivided.pairwise_disjoint
  have hcard := hdivided.card_eq h.owned.space.toSeparated
  rw [h.initial_eq] at hused hdisjoint hcard
  refine ⟨hused, hdisjoint, hdivided.page_eq, h.owned.space.eq_of_frame_eq, ?_⟩
  rw [h.owned.frames.used_eq, hframes.used_eq, hcard]

/-- A frame behind a page was free at the start. -/
theorem Kept.fresh_of_page (h : Kept frames run) {page : VirtPage .small} {target : Mapping}
    (hpage : run.memory.space.view page = some target) :
    target.frame.index ∈ frames.tracked \ frames.unavailable := by
  have howns : Owns run.outside run.memory.space (.page page) target.frame.index :=
    ⟨target, hpage, rfl⟩
  rw [Finset.mem_sdiff, ← h.tracked_eq, ← h.initial_eq]
  refine ⟨run.memory.frames.unavailable_subset (h.owned.divided.mem howns), fun hinitial => ?_⟩
  have howner : Owns run.outside run.memory.space .initial target.frame.index := hinitial
  exact nomatch h.owned.divided.unique howner howns

/-- In every kernel memory whose directory is not among the free frames and points at itself only,
every used frame has one owner, whatever pages are mapped to fresh frames and unmapped, whatever
frames are taken from the allocator and given back, and whatever is reserved. No frame is behind
two pages; a frame behind a page holds no table and is not the directory, and it has no byte of
the kernel image or of the bitmaps, unless such a frame was freed before. No call faults, so no
frame is freed twice. -/
theorem every_frame_has_one_owner {regions : List Region} {observedBytes : Nat} {map : MemoryMap}
    (hmap : MemoryMap.ofRegions regions observedBytes = .ok map) {kernel : KernelImage}
    {reach : Nat} {config : FrameConfig} {allocator frames : FrameAllocator}
    (hnew : (FrameAllocator.ofMap map kernel reach config).outcome = .ok (.ok allocator))
    {history : List FrameCall} (legal : allocator.view.LegalRun history)
    {answers : List FrameAnswer}
    (hhistory : (allocator.run history).outcome = .ok (answers, frames))
    {mmu : SoftMmu} (hblank : mmu.Blank) (hdirectory : frames.isUsed mmu.directory = true)
    {run : MemoryRun} (hrun : Reached (start frames mmu) run) :
    Accounted frames run ∧
      (∀ page target, run.memory.space.view page = some target →
        target.frame ≠ run.memory.space.directory ∧
        (∀ slot, (run.memory.space.slotEntry slot).present = true →
          (run.memory.space.slotEntry slot).frame ≠ target.frame) ∧
        (SharesByte kernel.start.toNat kernel.stop.toNat target.frame.index ∨
            SharesByte allocator.storage.start allocator.storage.stop target.frame.index →
          ∃ frame, .free frame ∈ history ∧ frame.index = target.frame.index)) ∧
      ∀ call, run.Legal call → ∃ next, (run.step call).outcome = .ok next := by
  have built := FrameAllocator.built_of_ofMap (MemoryMap.ordered_of_ofRegions hmap) hnew
  obtain ⟨hsound, hview⟩ := built.sound.of_run legal hhistory
  have htracked : frames.tracked = allocator.tracked :=
    (congrArg FrameSet.tracked hview).trans (FrameSet.tracked_run _ _)
  have kept := hrun.kept ⟨.start hsound hblank hdirectory, rfl, rfl⟩
  refine ⟨kept.accounted hsound, fun page target hpage => ?_, fun call hlegal => ?_⟩
  · have hspare := kept.owned.spare_of_view_eq_some hpage
    refine ⟨?_, hspare, fun hshares => ?_⟩
    · have hne := hspare recursive kept.owned.space.present
      rw [kept.owned.space.frame_eq] at hne
      exact hne.symm
    · obtain ⟨hin, hfree⟩ := Finset.mem_sdiff.mp (kept.fresh_of_page hpage)
      rw [htracked] at hin
      have hused : target.frame.index ∈ allocator.view.used :=
        hshares.elim (built.kernel _ hin) (built.storage _ hin)
      by_contra hnever
      have hkept := FrameSet.mem_used_run hused
        fun frame hmem heq => hnever ⟨frame, hmem, heq⟩
      rw [← hview] at hkept
      exact hfree hkept
  · obtain ⟨next, houtcome, -⟩ := step_follows kept.owned hlegal
    exact ⟨next, houtcome⟩

/-- Sixteen pages of RAM with the directory and the kernel in the first one and the bitmap in the
second; somebody has the third. Two pages of one slot are mapped, a frame is taken, and the first
page is unmapped again: the other page, the table and the taken frame make six used frames. -/
theorem every_frame_has_one_owner_two_pages :
    let map : MemoryMap := ⟨[⟨0x100000, 0x10000, .available⟩], 0x10000⟩
    let kernel : KernelImage := ⟨.ofNat 0x100000, .ofNat 0x101000, by decide⟩
    ∃ allocator frames mmu run,
      (FrameAllocator.ofMap map kernel (2 ^ 32) .standard).outcome = .ok (.ok allocator) ∧
      (allocator.run [.allocate]).outcome = .ok ([.frame (some (Frame.ofIndex 0x102))], frames) ∧
      SoftMmu.ofDirectory (Frame.ofIndex 0x100) = .ok mmu ∧ Reached (start frames mmu) run ∧
      run.memory.frames.used = 6 ∧ Accounted frames run := by
  intro map kernel
  have hrun : ((FrameAllocator.ofMap map kernel (2 ^ 32) .standard).andThen fun allocator => do
      let history ← allocator.run [.allocate]
      let mmu ← SoftMmu.ofDirectory (Frame.ofIndex 0x100)
      let one ← (start history.2 mmu).step (.mapFresh (.ofNat 0x400000) .kernel)
      let two ← one.step (.back (.ofNat 0x401000))
      let three ← two.step .allocate
      let four ← three.step (.unmap (.ofNat 0x400000))
      return (history.1, history.2.isUsed mmu.directory, four.memory.frames.used)).outcome =
      .ok (some ([.frame (some (Frame.ofIndex 0x102))], true, 6)) := by
    decide +kernel
  obtain ⟨allocator, hnew, hrun⟩ := Traced.of_andThen hrun
  simp only [Traced.outcome_bind, Traced.outcome_liftM, Outcome.bind_eq_ok, Traced.outcome_pure,
    Except.ok.injEq, Prod.mk.injEq] at hrun
  obtain ⟨⟨answers, frames⟩, hhistory, mmu, hmmu, one, hone, two, htwo, three, hthree, four,
    hfour, rfl, hdirectory, hused⟩ := hrun
  have hreached : Reached (start frames mmu) four := by
    have h := Reached.call .start (show Legal _ (.mapFresh _ _) from trivial) hone
    have h := h.call (show Legal _ (.back _) from trivial) htwo
    have h := h.call (show Legal _ .allocate from trivial) hthree
    exact h.call (show Legal _ (.unmap _) from trivial) hfour
  have legal : allocator.view.LegalRun [.allocate] := ⟨trivial, trivial⟩
  obtain ⟨haccounted, -⟩ := every_frame_has_one_owner
    (show MemoryMap.ofRegions map.regions map.observedBytes = .ok map from rfl) hnew legal
    hhistory (SoftMmu.blank_ofDirectory hmmu) hdirectory hreached
  exact ⟨allocator, frames, mmu, four, hnew, hhistory, hmmu, hreached, hused, haccounted⟩

end MemoryRun

end BootMemory
