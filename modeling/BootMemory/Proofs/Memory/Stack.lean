import BootMemory.Boot.Context
import BootMemory.Proofs.Heap.Run
import BootMemory.Proofs.Memory.Rollback
import BootMemory.Proofs.Memory.Run

/-!
# Heaps over kernel memory

The whole stack: a heap that grows by pages, in an address space, with frames from an allocator.
If the heap cannot serve a request, nothing has changed in any of them, however far the growth had
come when a frame for a page or for a table was missing (`StackRun.failed_growth_changes_nothing`).
-/

set_option autoImplicit false

namespace BootMemory

open KernelMemory

variable {outside : Outside} {memory next : KernelMemory SoftMmu} {heap other : Heap PagedGrowth}
  {free live : List Span} {bytes units : Nat}

namespace Heap

open BootMemory.Span

/-- Asking twice adds units, or leaves nothing behind. -/
theorem requestUnits_settled (h : Owned outside memory) {growth growth' : PagedGrowth}
    {answer : Except GrowthError Nat}
    (hr : (requestUnits units growth memory).outcome = .ok (answer, growth', next)) :
    Settled outside growth memory (answer, growth', next) := by
  cases requested_of_outcome hr with
  | once step done => exact PagedGrowth.extend_settled h step
  | twice step again =>
    obtain ⟨rfl, restored⟩ := PagedGrowth.extend_settled h step
    have settled := PagedGrowth.extend_settled (h.restored restored) again
    cases answer with
    | ok added => exact settled
    | error cause => exact ⟨settled.1, restored.trans settled.2 h.space⟩

/-- A block is served, or nothing has changed: the units that a growth adds are enough. -/
theorem Tiled.allocateBlock_settled (h : heap.Tiled free live) (howned : Owned outside memory)
    {answer : Except HeapError Nat}
    (ha : (Heap.allocateBlock bytes heap memory).outcome = .ok (answer, other, next)) :
    Settled outside heap memory (answer, other, next) := by
  rcases Nat.eq_zero_or_pos bytes with rfl | hbytes
  · cases ha
    exact ⟨rfl, .refl howned⟩
  have hends := h.allocateBlock_ends hbytes memory
  rw [ha] at hends
  cases hends with
  | fits first taken => exact howned
  | refused small request nothing =>
    have settled := requestUnits_settled howned request
    obtain ⟨cause, rfl⟩ := requestUnits_refused request nothing (unitsFor_pos bytes)
    exact ⟨by rw [settled.1], settled.2⟩
  | short small request tiled keeps less =>
    exact absurd (requestUnits_ample request) (Nat.not_le_of_lt less)
  | grows small request tiled keeps taken => exact requestUnits_settled howned request

/-- A request for bytes is served, or nothing has changed. -/
theorem Tiled.allocate_settled (h : heap.Tiled free live) (howned : Owned outside memory)
    {answer : Except HeapError Nat}
    (ha : (Heap.allocate bytes heap memory).outcome = .ok (answer, other, next)) :
    Settled outside heap memory (answer, other, next) := by
  unfold Heap.allocate at ha
  simp only [Traced.outcome_bind, Outcome.bind_eq_ok] at ha
  obtain ⟨⟨block, middle, memory'⟩, hblock, ha⟩ := ha
  have settled := h.allocateBlock_settled howned hblock
  cases block with
  | error cause =>
    cases ha
    exact settled
  | ok block =>
    simp only [Traced.outcome_bind, Traced.outcome_liftM, Outcome.bind_eq_ok] at ha
    obtain ⟨pointer, -, ha⟩ := ha
    cases ha
    exact settled

/-- A request for cleared bytes is served, or nothing has changed. -/
theorem Tiled.allocateZeroed_settled (h : heap.Tiled free live) (howned : Owned outside memory)
    {answer : Except HeapError Nat}
    (ha : (Heap.allocateZeroed bytes heap memory).outcome = .ok (answer, other, next)) :
    Settled outside heap memory (answer, other, next) := by
  unfold Heap.allocateZeroed at ha
  simp only [Traced.outcome_bind, Outcome.bind_eq_ok] at ha
  obtain ⟨⟨block, middle, memory'⟩, hblock, ha⟩ := ha
  have settled := h.allocateBlock_settled howned hblock
  cases block with
  | error cause =>
    cases ha
    exact settled
  | ok block =>
    simp only [Traced.outcome_bind, Traced.outcome_liftM, Outcome.bind_eq_ok] at ha
    obtain ⟨pointer, -, ha⟩ := ha
    cases ha
    exact settled

/-- A request for a layout is served, or nothing has changed. -/
theorem Tiled.allocateLayout_settled (h : heap.Tiled free live) (howned : Owned outside memory)
    {layout : BlockLayout} {answer : Except HeapError Nat}
    (ha : (Heap.allocateLayout layout heap memory).outcome = .ok (answer, other, next)) :
    Settled outside heap memory (answer, other, next) := by
  unfold Heap.allocateLayout at ha
  split_ifs at ha
  · cases ha
    exact ⟨rfl, .refl howned⟩
  · exact h.allocate_settled howned ha

end Heap

/-! ## Heaps in use -/

/-- A request that was answered leaves every used frame with one owner. -/
theorem HeapRun.record_owned {live : List Grant}
    {later : HeapRun PagedGrowth (KernelMemory SoftMmu)}
    {request : Traced (Except HeapError Nat × Heap PagedGrowth × KernelMemory SoftMmu)}
    (howned : Owned outside memory)
    (hsettled : ∀ {answer other next}, request.outcome = .ok (answer, other, next) →
      Settled outside heap memory (answer, other, next))
    (hstep : (HeapRun.record live bytes <$> request).outcome = .ok later) :
    Owned outside later.pages := by
  rw [Traced.outcome_map] at hstep
  cases hrequest : request.outcome with
  | error fault =>
    rw [hrequest] at hstep
    cases hstep
  | ok result =>
    obtain ⟨answer, other, next⟩ := result
    have hnext := (hsettled hrequest).owned howned
    rw [hrequest] at hstep
    cases hstep
    cases answer <;> exact hnext

/-- A call of a heap leaves every used frame with one owner. -/
theorem HeapRun.Sound.step_owned {run later : HeapRun PagedGrowth (KernelMemory SoftMmu)}
    {call : HeapCall} (h : run.Sound free) (howned : Owned outside run.pages)
    (hstep : (run.step call).outcome = .ok later) : Owned outside later.pages := by
  cases call with
  | allocate bytes => exact record_owned howned (h.tiled.allocate_settled howned) hstep
  | allocateLayout layout => exact record_owned howned (h.tiled.allocateLayout_settled howned) hstep
  | allocateZeroed bytes => exact record_owned howned (h.tiled.allocateZeroed_settled howned) hstep
  | free pointer =>
    simp only [HeapRun.step, Traced.outcome_bind, Outcome.bind_eq_ok] at hstep
    obtain ⟨heap, -, hstep⟩ := hstep
    cases hstep
    exact howned
  | store pointer count source =>
    cases hstep
    exact howned

/-- Backing pages beforehand gives no unit away, so the blocks stay as they are. -/
theorem HeapRun.Sound.prefilled {run : HeapRun PagedGrowth (KernelMemory SoftMmu)}
    (h : run.Sound free) {growth : PagedGrowth} {answer : Except GrowthError Unit}
    (hp : (PagedGrowth.prefill bytes run.heap.growth run.pages).outcome =
      .ok (answer, growth, next)) :
    HeapRun.Sound { run with heap := { run.heap with growth }, pages := next } free := by
  obtain ⟨hin, hbrk, hwindow⟩ := PagedGrowth.InOrder.prefill h.tiled.sound hp
  have hext : Extends run.heap.growth growth (.ok 0) := by
    refine ⟨hin, hwindow, ?_⟩
    show growth.brk / unitBytes = run.heap.growth.brk / unitBytes + 0
    rw [hbrk, Nat.add_zero]
  have hbase : ArenaRegion.base growth = run.base := hwindow
  constructor
  · show Heap.Tiled _ free (run.live.map (Grant.span (ArenaRegion.base growth)))
    rw [hbase]
    exact h.tiled.unchanged hext rfl
  · show ∀ grant ∈ run.live, 0 < grant.bytes ∧ grant.pointer =
      Heap.payloadAt (ArenaRegion.base growth) (grant.span (ArenaRegion.base growth)).1
    rw [hbase]
    exact h.grants

/-- A heap over kernel memory in use, with the frames that belong to somebody else. -/
structure StackRun where
  run : HeapRun PagedGrowth (KernelMemory SoftMmu)
  outside : Outside

/-- A call of the heap, of the memory below it, or of what lies between. -/
inductive StackCall where
  | heap (call : HeapCall)
  | memory (call : MemoryCall)
  | prefill (bytes : Nat)

namespace StackRun

/-- The memory below the heap. -/
def below (stack : StackRun) : MemoryRun := ⟨stack.run.pages, stack.outside⟩

/-- What a call leaves behind. -/
def step (stack : StackRun) : StackCall → Traced StackRun
  | .heap call => do
    let run ← stack.run.step call
    return { stack with run }
  | .memory call => do
    let below ← stack.below.step call
    return ⟨{ stack.run with pages := below.memory }, below.outside⟩
  | .prefill bytes => do
    let (_, growth, pages) ← stack.run.heap.growth.prefill bytes stack.run.pages
    return { stack with run := { stack.run with heap := { stack.run.heap with growth }, pages } }

/-- Only live blocks are given back and written, and only frames that were taken are freed. -/
def Legal (stack : StackRun) : StackCall → Prop
  | .heap call => stack.run.Legal call
  | .memory call => stack.below.Legal call
  | .prefill _ => True

/-- A new heap over a window, and over kernel memory that was not used. -/
def start (arena : Arena) (growth : PagedGrowth) (frames : FrameAllocator) (mmu : SoftMmu) :
    StackRun :=
  ⟨.start arena growth ⟨frames, mmu⟩, ⟨frames.unavailable, ∅, ∅⟩⟩

/-- What becomes of a heap and the memory below it by legal calls. -/
inductive Reached (first : StackRun) : StackRun → Prop where
  | start : Reached first first
  | call {stack next : StackRun} {call : StackCall} (h : Reached first stack)
      (legal : stack.Legal call) (hstep : (stack.step call).outcome = .ok next) :
      Reached first next

/-- The blocks tile the arena, and every used frame has one owner. -/
structure Kept (stack : StackRun) : Prop where
  heap : ∃ free, stack.run.Sound free
  owned : Owned stack.outside stack.run.pages

variable {stack later : StackRun} {call : StackCall}

/-- Every legal call that does not fault keeps both. -/
theorem Kept.step (h : stack.Kept) (legal : stack.Legal call)
    (hstep : (stack.step call).outcome = .ok later) : later.Kept := by
  obtain ⟨⟨free, hsound⟩, howned⟩ := h
  cases call with
  | heap call =>
    simp only [StackRun.step, Traced.outcome_bind, Outcome.bind_eq_ok] at hstep
    obtain ⟨run, hrun, hstep⟩ := hstep
    cases hstep
    refine ⟨?_, hsound.step_owned howned hrun⟩
    rcases hsound.step legal with ⟨units, fault, hfault, -⟩ | ⟨other, hother, follows⟩
    · rw [hfault] at hrun
      cases hrun
    · rw [hother] at hrun
      cases hrun
      exact follows.sound
  | memory call =>
    have hbelow : Owned stack.below.outside stack.below.memory := howned
    obtain ⟨below, houtcome, follows⟩ := MemoryRun.step_follows hbelow legal
    simp only [StackRun.step, Traced.outcome_bind, houtcome, Outcome.ok_bind] at hstep
    cases hstep
    exact ⟨⟨free, hsound.tiled, hsound.grants⟩, follows.owned⟩
  | prefill bytes =>
    simp only [StackRun.step, Traced.outcome_bind, Outcome.bind_eq_ok] at hstep
    obtain ⟨⟨answer, growth, pages⟩, hprefill, hstep⟩ := hstep
    cases hstep
    exact ⟨⟨free, hsound.prefilled hprefill⟩,
      (PagedGrowth.prefill_settled howned hprefill).owned howned⟩

/-- Whatever the calls, both are kept. -/
theorem Reached.kept {first : StackRun} (hreached : Reached first stack) (h : first.Kept) :
    stack.Kept := by
  induction hreached with
  | start => exact h
  | call _ legal hstep ih => exact ih.step legal hstep

/-- A request that is refused leaves the state of who made it and the memory as they were. -/
def ChangesNothing {ε α τ : Type} (state : τ) (memory : KernelMemory SoftMmu)
    (request : Traced (Except ε α × τ × KernelMemory SoftMmu)) : Prop :=
  ∀ cause state' next, request.outcome = .ok (.error cause, state', next) →
    state' = state ∧ Unchanged memory next

/-- A request that settles changes nothing when it is refused. -/
theorem changesNothing {ε α τ : Type} {state : τ}
    {request : Traced (Except ε α × τ × KernelMemory SoftMmu)} (howned : Owned outside memory)
    (hsettled : ∀ {answer state' next}, request.outcome = .ok (answer, state', next) →
      Settled outside state memory (answer, state', next)) :
    ChangesNothing state memory request := by
  intro cause state' next hrequest
  obtain ⟨hstate, restored⟩ := hsettled hrequest
  exact ⟨hstate, restored.unchanged howned⟩

/-- However a heap that grows by pages and the memory below it have been used: if the heap cannot
serve a request, then neither the heap with its arena, its free blocks, its cursor and its growth,
nor the used frames, the page tables and the translations have changed, whatever was missing. The
same holds of pages that are backed beforehand, also when the heap is brought up. -/
theorem failed_growth_changes_nothing {regions : List Region} {observedBytes : Nat}
    {map : MemoryMap} (hmap : MemoryMap.ofRegions regions observedBytes = .ok map)
    {kernel : KernelImage} {reach : Nat} {config : FrameConfig}
    {allocator frames : FrameAllocator}
    (hnew : (FrameAllocator.ofMap map kernel reach config).outcome = .ok (.ok allocator))
    {history : List FrameCall} (legal : allocator.view.LegalRun history)
    {answers : List FrameAnswer}
    (hhistory : (allocator.run history).outcome = .ok (answers, frames))
    {mmu : SoftMmu} (hblank : mmu.Blank) (hdirectory : frames.isUsed mmu.directory = true)
    {arena : Arena} {window maxBytes : Nat} {base : VirtAddr} (hmax : maxBytes < 2 ^ 64)
    {stack : StackRun}
    (hreached : Reached (start arena (.ofWindow window base maxBytes) frames mmu) stack) :
    (∀ bytes, ChangesNothing stack.run.heap stack.run.pages
        (stack.run.heap.allocate bytes stack.run.pages)) ∧
      (∀ bytes, ChangesNothing stack.run.heap stack.run.pages
        (stack.run.heap.allocateZeroed bytes stack.run.pages)) ∧
      (∀ layout, ChangesNothing stack.run.heap stack.run.pages
        (stack.run.heap.allocateLayout layout stack.run.pages)) ∧
      (∀ (growth : PagedGrowth) bytes, ChangesNothing growth stack.run.pages
        (growth.prefill bytes stack.run.pages)) ∧
      ∀ (place : HeapWindow) (layout : HeapLayout) cause context,
        (MemoryContext.initHeap place ⟨stack.run.pages, layout⟩).outcome =
          .ok (.error cause, context) →
        context.heap = layout ∧ Unchanged stack.run.pages context.memory := by
  have built := FrameAllocator.built_of_ofMap (MemoryMap.ordered_of_ofRegions hmap) hnew
  obtain ⟨hsound, -⟩ := built.sound.of_run legal hhistory
  have hstart : (start arena (.ofWindow window base maxBytes) frames mmu).Kept :=
    ⟨⟨[], HeapRun.sound_start arena _ (PagedGrowth.inOrder_ofWindow window base hmax)
      (Nat.zero_div _)⟩, .start hsound hblank hdirectory⟩
  obtain ⟨⟨free, htiled⟩, howned⟩ := hreached.kept hstart
  refine ⟨fun bytes => changesNothing howned (htiled.tiled.allocate_settled howned),
    fun bytes => changesNothing howned (htiled.tiled.allocateZeroed_settled howned),
    fun layout => changesNothing howned (htiled.tiled.allocateLayout_settled howned),
    fun growth bytes => changesNothing howned (PagedGrowth.prefill_settled howned), ?_⟩
  intro place layout cause context hinit
  unfold MemoryContext.initHeap at hinit
  simp only [Traced.outcome_bind, Outcome.bind_eq_ok] at hinit
  obtain ⟨⟨answer, growth, next⟩, hprefill, hinit⟩ := hinit
  have settled := PagedGrowth.prefill_settled howned hprefill
  cases answer with
  | error cause =>
    cases hinit
    exact ⟨rfl, settled.2.unchanged howned⟩
  | ok _ =>
    simp only [Traced.outcome_bind, Traced.outcome_report, Outcome.ok_bind] at hinit
    cases hinit

/-- Five pages of RAM of which three are free. A page of a window and its table are backed
beforehand, and a block is served from it. Then a larger block cannot be served: the next page of
the window can be backed and the one behind it cannot, and the frame of the former goes back. -/
theorem failed_growth_changes_nothing_second_page :
    let map : MemoryMap := ⟨[⟨0x100000, 0x5000, .available⟩], 0x5000⟩
    let kernel : KernelImage := ⟨.ofNat 0x100000, .ofNat 0x101000, by decide⟩
    ∃ allocator mmu stack heap pages,
      (FrameAllocator.ofMap map kernel (2 ^ 32) .standard).outcome = .ok (.ok allocator) ∧
      SoftMmu.ofDirectory (Frame.ofIndex 0x100) = .ok mmu ∧
      Reached (start .empty (.ofWindow 0x400000 (.ofNat 0x400000) 0x10000) allocator mmu) stack ∧
      stack.run.pages.frames.freeFrames = 1 ∧
      (stack.run.heap.allocate 20000 stack.run.pages).outcome =
        .ok (.error .arenaExhausted, heap, pages) ∧
      heap = stack.run.heap ∧ Unchanged stack.run.pages pages := by
  intro map kernel
  have hrun : ((FrameAllocator.ofMap map kernel (2 ^ 32) .standard).andThen fun allocator => do
      let mmu ← SoftMmu.ofDirectory (Frame.ofIndex 0x100)
      let one ← (start .empty (.ofWindow 0x400000 (.ofNat 0x400000) 0x10000) allocator mmu).step
        (.prefill 4096)
      let two ← one.step (.heap (.allocate 24))
      let (answer, _, _) ← two.run.heap.allocate 20000 two.run.pages
      return (allocator.isUsed mmu.directory, two.run.pages.frames.freeFrames, answer)).outcome =
      .ok (some (true, 1, .error .arenaExhausted)) := by
    decide +kernel
  obtain ⟨allocator, hnew, hrun⟩ := Traced.of_andThen hrun
  simp only [Traced.outcome_bind, Traced.outcome_liftM, Outcome.bind_eq_ok, Traced.outcome_pure,
    Except.ok.injEq, Prod.mk.injEq] at hrun
  obtain ⟨mmu, hmmu, one, hone, two, htwo, ⟨answer, heap, pages⟩, hallocate, hdirectory, hfree,
    rfl⟩ := hrun
  have hreached := (Reached.call .start (show Legal _ (.prefill _) from trivial) hone).call
    (show Legal _ (.heap (.allocate _)) from trivial) htwo
  have legal : allocator.view.LegalRun [] := trivial
  obtain ⟨hnothing, -⟩ := failed_growth_changes_nothing
    (show MemoryMap.ofRegions map.regions map.observedBytes = .ok map from rfl) hnew legal rfl
    (SoftMmu.blank_ofDirectory hmmu) hdirectory (by decide) hreached
  obtain ⟨hheap, hunchanged⟩ := hnothing 20000 .arenaExhausted heap pages hallocate
  exact ⟨allocator, mmu, two, heap, pages, hnew, hmmu, hreached, hfree, hallocate, hheap,
    hunchanged⟩

end StackRun

end BootMemory
