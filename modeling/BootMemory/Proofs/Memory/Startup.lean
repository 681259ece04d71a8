import BootMemory.Proofs.Memory.Backing
import BootMemory.Proofs.MemoryMap.OfFirmware

/-!
# Memory after it was brought up

When memory has been brought up, the first pages of the heap window are mapped and nothing else is.
Every frame that was free when the frame allocator was new is still free, or it is behind one of
these pages, or it holds one of the tables that the pages need: the frames can be accounted for
without looking at the tables (`BroughtUp.freeFrames_eq`). The first two steps only have to go
through; all the accounting is about the third one, which backs the pages.
-/

set_option autoImplicit false

namespace BootMemory

open KernelMemory SoftMmu
open TableIndex (recursive)

/-- The number of pages that are mapped while the system starts. -/
def HeapLayout.initialPages (layout : HeapLayout) : Nat :=
  (layout.initialBytes + (pageBytes - 1)) / pageBytes

/-- The directory slots that the first pages of a window touch. -/
def touchedSlots (start : VirtAddr) (count : Nat) : Finset Nat :=
  (Finset.range count).image fun index => (start.toNat + index * pageBytes) / PageSize.large.bytes

/-! ## Counting the pages and the tables of a window -/

/-- The slots with a table are those of the mapped pages. -/
theorem SoftMmu.Sound.populatedSlots_eq {mmu : SoftMmu} (h : mmu.Sound) :
    mmu.populatedSlots = mmu.mappedPages.image (·.slot) := by
  ext slot
  rw [mem_populatedSlots, Finset.mem_image]
  constructor
  · rintro ⟨hslot, hpresent⟩
    rw [← h.populated_iff hslot, PageMap.populated_iff] at hpresent
    obtain ⟨page, hpage, hmapped⟩ := hpresent
    exact ⟨page, mem_mappedPages.mpr (Option.isSome_iff_exists.mp hmapped), hpage⟩
  · rintro ⟨page, hpage, rfl⟩
    obtain ⟨target, htarget⟩ := mem_mappedPages.mp hpage
    exact slot_of_view_eq_some htarget

namespace PagedGrowth

variable {start : VirtAddr} {count : Nat} {mmu : SoftMmu}

/-- The pages of a filled window start one page size after the other. -/
theorem Filled.image_base (h : Filled start (count * pageBytes) mmu.view) :
    mmu.mappedPages.image (·.base.toNat) =
      (Finset.range count).image fun index => start.toNat + index * pageBytes := by
  have hlt : ∀ index, index * pageBytes < count * pageBytes ↔ index < count := fun index =>
    Nat.mul_lt_mul_right (by decide)
  ext addr
  simp only [Finset.mem_image, mem_mappedPages, Finset.mem_range]
  constructor
  · rintro ⟨page, ⟨target, hmapped⟩, rfl⟩
    obtain ⟨index, hindex, hbase⟩ := h.only page target hmapped
    exact ⟨index, (hlt index).mp hindex, hbase.symm⟩
  · rintro ⟨index, hindex, rfl⟩
    obtain ⟨page, target, hbase, hmapped, -⟩ := h.mapped index ((hlt index).mpr hindex)
    exact ⟨page, ⟨target, hmapped⟩, hbase⟩

/-- As many pages are mapped as the window is filled with. -/
theorem Filled.card_mappedPages (h : Filled start (count * pageBytes) mmu.view) :
    mmu.mappedPages.card = count := by
  have hpages : Function.Injective fun page : VirtPage .small => page.base.toNat :=
    fun page other heq => VirtPage.ext (Nat.eq_of_mul_eq_mul_right (by decide) heq)
  have haddrs : Function.Injective fun index => start.toNat + index * pageBytes :=
    fun index other heq => Nat.eq_of_mul_eq_mul_right (by decide) (Nat.add_left_cancel heq)
  rw [← Finset.card_image_of_injective _ hpages, h.image_base,
    Finset.card_image_of_injective _ haddrs, Finset.card_range]

/-- As many slots have a table as the pages of the filled window touch. -/
theorem Filled.card_populatedSlots (h : Filled start (count * pageBytes) mmu.view)
    (hmmu : mmu.Sound) : mmu.populatedSlots.card = (touchedSlots start count).card := by
  have hslots : mmu.populatedSlots.image Fin.val = touchedSlots start count := by
    have hvalues := congrArg (Finset.image (· / PageSize.large.bytes)) h.image_base
    rw [Finset.image_image, Finset.image_image] at hvalues
    rw [hmmu.populatedSlots_eq, Finset.image_image]
    exact hvalues
  rw [← hslots, Finset.card_image_of_injective _ Fin.val_injective]

/-- The first pages of an empty window are backed: all of them, and no others. -/
theorem prefill_fills {outside : Outside} {memory next : KernelMemory SoftMmu} {window bytes : Nat}
    {maxBytes : Nat} {other : PagedGrowth} (h : Owned outside memory)
    (hempty : memory.space.view = .empty)
    (hp : (prefill bytes (ofWindow window start maxBytes) memory).outcome =
      .ok (.ok (), other, next)) :
    other = { ofWindow window start maxBytes with
        mapped := (bytes + (pageBytes - 1)) / pageBytes * pageBytes } ∧
      Owned outside next ∧ next.frames.tracked = memory.frames.tracked ∧
        Filled start other.mapped next.space.view := by
  unfold prefill at hp
  split_ifs at hp
  · cases hp
  · have hfilled : Filled (ofWindow window start maxBytes).start 0 memory.space.view :=
      hempty ▸ filled_empty start
    obtain ⟨answer, other', next', houtcome, howned, htracked, hfilled'⟩ :=
      backUntil_fills h hfilled ⟨0, rfl⟩ bytes
    rcases backUntil_ok hp with ⟨cause, hcause, -⟩ | ⟨-, hother⟩
    · cases hcause
    · rw [houtcome] at hp
      cases hp
      have hstart : other.start = start := by rw [hother]; rfl
      rw [show max (ofWindow window start maxBytes).mapped _ = _ from Nat.max_eq_right
        (Nat.zero_le _)] at hother
      exact ⟨hother, howned, htracked, hstart ▸ hfilled'⟩

end PagedGrowth

/-! ## Accounting for the frames -/

namespace KernelMemory.Owned

open FrameAllocator

variable {frames : FrameAllocator} {memory : KernelMemory SoftMmu}

/-- A frame behind a page was free when nothing was mapped yet. -/
theorem isUsed_of_view (h : Owned ⟨frames.unavailable, ∅, ∅⟩ memory) (hframes : frames.Sound)
    (htracked : memory.frames.tracked = frames.tracked) {page : VirtPage .small} {target : Mapping}
    (hpage : memory.space.view page = some target) : frames.isUsed target.frame = false := by
  have howns : Owns ⟨frames.unavailable, ∅, ∅⟩ memory.space (.page page) target.frame.index :=
    ⟨target, hpage, rfl⟩
  have hin := memory.frames.unavailable_subset (h.divided.mem howns)
  rw [htracked] at hin
  rw [← Bool.not_eq_true, hframes.isUsed_iff, not_or, not_not]
  refine ⟨hin, fun hused => ?_⟩
  have hinitial : Owns ⟨frames.unavailable, ∅, ∅⟩ memory.space .initial target.frame.index := hused
  cases h.divided.unique howns hinitial

/-- The frames that were free are free, or behind a page, or hold a table. -/
theorem freeFrames_eq (h : Owned ⟨frames.unavailable, ∅, ∅⟩ memory) (hframes : frames.Sound)
    (htracked : memory.frames.tracked = frames.tracked) :
    memory.frames.freeFrames + memory.space.mappedPages.card + memory.space.populatedSlots.card =
      frames.freeFrames := by
  have hused := h.divided.card_eq h.space.toSeparated
  have hle := Finset.card_le_card memory.frames.unavailable_subset
  rw [freeFrames, freeFrames, h.frames.total_eq, h.frames.used_eq, hframes.total_eq,
    hframes.used_eq, ← htracked]
  simp only [Finset.card_empty] at hused
  omega

end KernelMemory.Owned

/-! ## The three steps -/

/-- What memory is like when the first pages of the heap are mapped and the heap is ready; `frames`
is the frame allocator before that. -/
structure BroughtUp (frames : FrameAllocator) (layout : HeapLayout)
    (memory : KernelMemory SoftMmu) (heap : Heap PagedGrowth) : Prop where
  /-- Exactly the first pages of the heap are mapped, for the kernel to read and write. -/
  filled : PagedGrowth.Filled layout.base (layout.initialPages * pageBytes) memory.space.view
  /-- Each of them has a frame of its own. -/
  page_eq : ∀ {page other : VirtPage .small} {target target' : Mapping},
    memory.space.view page = some target → memory.space.view other = some target' →
      target.frame = target'.frame → page = other
  /-- The frame was free. -/
  wasFree : ∀ {page : VirtPage .small} {target : Mapping},
    memory.space.view page = some target → frames.isUsed target.frame = false
  /-- The pages and the tables that they need have all frames that are not free any more. -/
  freeFrames_eq : memory.frames.freeFrames + layout.initialPages +
    (touchedSlots layout.base layout.initialPages).card = frames.freeFrames
  mapped_eq : heap.growth.mapped = layout.initialPages * pageBytes
  start_eq : heap.growth.start = layout.base
  /-- Nothing is given to the arena yet. -/
  arenaUnits_eq : heap.arenaUnits = 0
  brk_eq : heap.growth.brk = 0

namespace MemoryContext

variable {info info' : BootInfo} {kernel : KernelImage} {reach : Nat} {config : BootConfig}

/-- The first step makes the memory map, the frame allocator and the layout of the heap. -/
theorem of_start {ω : Type} {space : ω} {context : MemoryContext ω}
    (h : (start info kernel reach space config).outcome = .ok (.ok context, info')) :
    ∃ map, (MemoryMap.ofFirmware info.descriptors config.map).outcome = .ok (.ok map) ∧
      (FrameAllocator.ofMap map kernel reach config.frames).outcome =
        .ok (.ok context.memory.frames) ∧
      (config.heap.withArguments info.arguments).outcome = .ok context.heap ∧
      context.memory.space = space ∧ info'.observedBytes = map.observedBytes := by
  unfold start BootInfo.survey at h
  simp only [Traced.outcome_bind, Traced.outcome_report, Outcome.ok_bind, Outcome.bind_eq_ok] at h
  obtain ⟨⟨surveyed, noted⟩, ⟨made, hmade, hsurvey⟩, h⟩ := h
  cases made with
  | error cause =>
    cases hsurvey
    cases h
  | ok map =>
    simp only [Traced.outcome_bind, Outcome.bind_eq_ok] at hsurvey
    obtain ⟨_, -, hsurvey⟩ := hsurvey
    cases hsurvey
    simp only [Traced.outcome_bind, Outcome.bind_eq_ok] at h
    obtain ⟨built, hbuilt, h⟩ := h
    cases built with
    | error cause => cases h
    | ok frames =>
      simp only [Traced.outcome_bind, Outcome.bind_eq_ok] at h
      obtain ⟨_, -, heap, hheap, h⟩ := h
      cases h
      exact ⟨map, hmade, hbuilt, hheap, rfl, rfl⟩

/-- The second step backs the first pages of the heap. -/
theorem broughtUp_of_initHeap {frames : FrameAllocator} {mmu : SoftMmu} {layout : HeapLayout}
    {window : HeapWindow} (hframes : frames.Sound) (hblank : mmu.Blank)
    (hdirectory : frames.isUsed mmu.directory = true) {heap : Heap PagedGrowth}
    {context : MemoryContext SoftMmu}
    (h : (initHeap window ⟨⟨frames, mmu⟩, layout⟩).outcome = .ok (.ok heap, context)) :
    BroughtUp frames layout context.memory heap ∧ context.heap = layout := by
  unfold initHeap at h
  simp only [Traced.outcome_bind, Outcome.bind_eq_ok] at h
  obtain ⟨⟨answer, growth, memory⟩, hprefill, h⟩ := h
  cases answer with
  | error cause => cases h
  | ok _ =>
  obtain ⟨hgrowth, howned, htracked, hfilled⟩ := PagedGrowth.prefill_fills
    (.start hframes hblank hdirectory) hblank.view_eq hprefill
  have hmapped : growth.mapped = layout.initialPages * pageBytes := by
    rw [hgrowth]
    rfl
  rw [hmapped] at hfilled
  simp only [Traced.outcome_bind, Traced.outcome_report, Outcome.ok_bind] at h
  cases h
  refine ⟨⟨hfilled, howned.divided.page_eq, howned.isUsed_of_view hframes htracked, ?_, hmapped,
    ?_, rfl, ?_⟩, rfl⟩
  · have hcount := howned.freeFrames_eq hframes htracked
    rwa [hfilled.card_mappedPages, hfilled.card_populatedSlots howned.space] at hcount
  · show growth.start = layout.base
    rw [hgrowth]
    rfl
  · show growth.brk = 0
    rw [hgrowth]
    rfl

end MemoryContext

/-- Memory that was brought up went through the three steps. -/
theorem of_initMemory {ω : Type} [TableWindow ω] {global : GlobalHeap} {info : BootInfo}
    {kernel : KernelImage} {reach : Nat} {space : ω} {window : HeapWindow} {config : BootConfig}
    {result : BootOutcome ω} {context : MemoryContext ω}
    (h : (initMemory global info kernel reach space window config).outcome = .ok result)
    (hanswer : result.answer = .ok context) : ∃ first heap,
      (MemoryContext.start info kernel reach space config).outcome = .ok (.ok first, result.info) ∧
      (first.initHeap window).outcome = .ok (.ok heap, context) ∧
      global.kernel = none ∧ result.global = { global with kernel := some heap } := by
  unfold initMemory at h
  simp only [Traced.outcome_bind, Outcome.bind_eq_ok] at h
  obtain ⟨⟨started, noted⟩, hstart, h⟩ := h
  cases started with
  | error cause =>
    cases h
    cases hanswer
  | ok first =>
  simp only [Traced.outcome_bind, Outcome.bind_eq_ok] at h
  obtain ⟨⟨ready, last⟩, hready, h⟩ := h
  cases ready with
  | error cause =>
    cases h
    cases hanswer
  | ok heap =>
  simp only [Traced.outcome_bind, Outcome.bind_eq_ok] at h
  obtain ⟨installed, hinstall, h⟩ := h
  unfold GlobalHeap.installKernel at hinstall
  cases hkernel : global.kernel with
  | some other =>
    rw [hkernel] at hinstall
    cases hinstall
    cases h
    cases hanswer
  | none =>
    rw [hkernel] at hinstall
    cases hinstall
    cases h
    cases hanswer
    exact ⟨first, heap, hstart, hready, rfl, rfl⟩

/-- Where the frames are after memory was brought up over an empty directory, one that lies in no
frame that the new frame allocator would hand out. There was a memory map, an allocator and a layout
of the heap. The first pages of the heap are mapped and nothing else is, to different frames that
the new allocator had free. It has lost one frame for each of these pages and one for each directory
slot that they touch, and no other. The kernel heap is installed with these pages and an empty
arena, and the RAM that is noted down is what the memory map says. -/
theorem initMemory_accounts {global : GlobalHeap} {info : BootInfo} {kernel : KernelImage}
    {reach : Nat} {mmu : SoftMmu} (hblank : mmu.Blank) {window : HeapWindow} {config : BootConfig}
    (hdirectory : ∀ map frames,
      (MemoryMap.ofFirmware info.descriptors config.map).outcome = .ok (.ok map) →
      (FrameAllocator.ofMap map kernel reach config.frames).outcome = .ok (.ok frames) →
        frames.isUsed mmu.directory = true)
    {result : BootOutcome SoftMmu} {context : MemoryContext SoftMmu}
    (hinit : (initMemory global info kernel reach mmu window config).outcome = .ok result)
    (hanswer : result.answer = .ok context) :
    ∃ map frames heap,
      (MemoryMap.ofFirmware info.descriptors config.map).outcome = .ok (.ok map) ∧
      (FrameAllocator.ofMap map kernel reach config.frames).outcome = .ok (.ok frames) ∧
      (config.heap.withArguments info.arguments).outcome = .ok context.heap ∧
      BroughtUp frames context.heap context.memory heap ∧
      result.global = { global with kernel := some heap } ∧
      result.info.observedBytes = map.observedBytes := by
  obtain ⟨⟨⟨frames, space⟩, layout⟩, heap, hstart, hready, -, hglobal⟩ :=
    of_initMemory hinit hanswer
  obtain ⟨map, hmap, hnew, hlayout, hspace, hobserved⟩ := MemoryContext.of_start hstart
  obtain rfl : space = mmu := hspace
  obtain ⟨⟨observedBytes, hregions⟩, -⟩ := MemoryMap.ofFirmware_ok hmap
  have built := FrameAllocator.built_of_ofMap (MemoryMap.ordered_of_ofRegions hregions) hnew
  obtain ⟨hup, hheap⟩ := MemoryContext.broughtUp_of_initHeap built.sound hblank
    (hdirectory map frames hmap hnew) hready
  rw [← hheap] at hup hlayout
  exact ⟨map, frames, heap, hmap, hnew, hlayout, hup, hglobal, hobserved⟩

/-- Sixteen pages of RAM, and a heap that starts in the last page of a slot. The command line asks
for 5000 bytes, so there are two pages in two slots. Before, the kernel and the bitmap have a frame
each; then the pages and their tables have four more. -/
theorem initMemory_accounts_two_slots :
    let info : BootInfo := ⟨⟨[("heap_size", "5000")]⟩, [⟨0x100000, 0x10000, 1⟩], 0⟩
    let kernel : KernelImage := ⟨.ofNat 0x100000, .ofNat 0x101000, by decide⟩
    let config : BootConfig := ⟨.generic, .standard, ⟨.ofNat 0xD03FF000, 0x1000, 0x10000⟩⟩
    ∃ mmu result context frames heap, SoftMmu.ofDirectory (Frame.ofIndex 0x100) = .ok mmu ∧
      (initMemory .empty info kernel (2 ^ 32) mmu ⟨0x800000, .empty⟩ config).outcome =
        .ok result ∧
      result.answer = .ok context ∧ BroughtUp frames context.heap context.memory heap ∧
      result.global.kernel = some heap ∧ context.heap.initialPages = 2 ∧
      frames.freeFrames = 14 ∧ context.memory.frames.freeFrames = 10 ∧
      result.info.observedBytes = 0x10000 := by
  intro info kernel config
  have hboot : (do
      let mmu ← SoftMmu.ofDirectory (Frame.ofIndex 0x100)
      let result ← initMemory .empty info kernel (2 ^ 32) mmu ⟨0x800000, .empty⟩ config
      return result.answer.toOption.map fun context => (context.heap.initialPages,
        context.memory.frames.freeFrames, result.info.observedBytes) :
      Traced (Option (Nat × Nat × Nat))).outcome = .ok (some (2, 10, 0x10000)) := by
    decide +kernel
  have hframes : ((MemoryMap.ofFirmware info.descriptors config.map).andThen fun map =>
      (FrameAllocator.ofMap map kernel (2 ^ 32) config.frames).andThen fun frames =>
        pure (frames.isUsed (Frame.ofIndex 0x100), frames.freeFrames)).outcome =
      .ok (some (some (true, 14))) := by
    decide +kernel
  obtain ⟨map, hmap, hframes⟩ := Traced.of_andThen hframes
  obtain ⟨frames, hnew, hframes⟩ := Traced.of_andThen hframes
  simp only [Traced.outcome_pure, Except.ok.injEq, Prod.mk.injEq] at hframes
  simp only [Traced.outcome_bind, Traced.outcome_liftM, Outcome.bind_eq_ok, Traced.outcome_pure,
    Except.ok.injEq, Option.map_eq_some_iff, Prod.mk.injEq] at hboot
  obtain ⟨mmu, hmmu, result, hinit, context, hcontext, hpages, hfree, hobserved⟩ := hboot
  have hanswer : result.answer = .ok context := by
    cases hresult : result.answer with
    | error cause =>
      rw [hresult] at hcontext
      cases hcontext
    | ok other =>
      rw [hresult] at hcontext
      cases hcontext
      rfl
  have hdirectory : ∀ map' frames',
      (MemoryMap.ofFirmware info.descriptors config.map).outcome = .ok (.ok map') →
      (FrameAllocator.ofMap map' kernel (2 ^ 32) config.frames).outcome = .ok (.ok frames') →
        frames'.isUsed mmu.directory = true := by
    intro map' frames' hmap' hnew'
    rw [hmap] at hmap'
    cases hmap'
    rw [hnew] at hnew'
    cases hnew'
    rw [(SoftMmu.ofDirectory_slotEntry hmmu).1]
    exact hframes.1
  obtain ⟨map', frames', heap, hmap', hnew', -, hup, hglobal, -⟩ :=
    initMemory_accounts (SoftMmu.blank_ofDirectory hmmu) hdirectory hinit hanswer
  rw [hmap] at hmap'
  cases hmap'
  rw [hnew] at hnew'
  cases hnew'
  refine ⟨mmu, result, context, frames, heap, hmmu, hinit, hanswer, hup, ?_, hpages, hframes.2,
    hfree, hobserved⟩
  rw [hglobal]

end BootMemory
