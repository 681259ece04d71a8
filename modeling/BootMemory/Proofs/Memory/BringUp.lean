import BootMemory.Proofs.CommandLine.HeapSize
import BootMemory.Proofs.Heap.Legible
import BootMemory.Proofs.Heap.Listening
import BootMemory.Proofs.Memory.Backing

/-!
# A heap in any window

A window may start anywhere and be of any size, so it may lie across the page tables, where no page
can be backed, or reach past the last address. The address of a page is the start of the window plus
an offset, and nothing looks whether the sum is an address. It is one: pages are backed from the
lowest on, and on the way to the last address comes the last slot of the directory, where the page
tables show up. There the work is refused (`PagedGrowth.Filled.not_reachesTables`). Nor does it
matter that a message asks for the end of the pages that were backed, since the last slot is still
to come there (`PagedGrowth.Backs.legible_backUntil`).

So no layout makes bringing up a heap or any later call of it fault, whoever listens
(`HeapRun.any_window_is_contained`).
-/

set_option autoImplicit false

namespace BootMemory

/-! ## Listening to kernel memory -/

/-- A window onto page tables that can be listened to when it looks for a table. -/
class LegibleTables (ω : Type) [TableWindow ω] : Prop where
  directory (space : ω) : (TableWindow.directory space).Legible
  table (slot : TableIndex) (space : ω) : (TableWindow.table slot space).Legible

/-- What is reported while a page of memory is looked up, a missing one included, can be written
out. -/
theorem SoftMmu.legible_pageAt (addr : VirtAddr) (mmu : SoftMmu) : (mmu.pageAt addr).Legible := by
  unfold pageAt walk
  cases mmu.resolve addr with
  | none =>
    exact Traced.legible_bind (Traced.legible_report rfl) fun _ => Traced.legible_fault _
  | some target => exact Traced.legible_pure _

instance : LegibleTables SoftMmu where
  directory := SoftMmu.legible_pageAt _
  table slot := SoftMmu.legible_pageAt slot.window

/-- What is reported while a frame is given back, an untracked one included, can be written out.
-/
theorem FrameAllocator.legible_free (frame : Frame) (allocator : FrameAllocator) :
    (allocator.free frame).Legible := by
  unfold free
  cases allocator.regionOf? frame with
  | none => exact Traced.legible_bind (Traced.legible_report rfl) fun _ => Traced.legible_pure _
  | some index =>
    simp only
    cases allocator.regions[index]? with
    | none => exact Traced.legible_pure _
    | some region =>
      simp only
      split_ifs
      · exact Traced.legible_pure _
      · exact Traced.legible_fault _

section

variable {ω : Type} [TableWindow ω] [LegibleTables ω]

namespace AddressSpace

/-- What is reported while a table is made can be written out. -/
theorem legible_ensureTable (slot : TableIndex) (flags : PageFlags) (space : ω)
    (frames : FrameAllocator) : (ensureTable slot flags space frames).Legible := by
  refine Traced.legible_bind (LegibleTables.directory space) fun found => ?_
  obtain ⟨place, space⟩ := found
  simp only
  split_ifs
  · exact Traced.legible_pure _
  cases FrameSource.allocate frames with
  | none => exact Traced.legible_pure _
  | some taken =>
    obtain ⟨frame, frames⟩ := taken
    refine Traced.legible_bind (Traced.legible_liftM _) fun pointer => ?_
    refine Traced.legible_bind (LegibleTables.table slot _) fun found => ?_
    exact Traced.legible_bind (Traced.legible_report rfl) fun _ => Traced.legible_pure _

/-- What is reported while an entry is written can be written out. -/
theorem legible_install (phys : PhysAddr) (virt : VirtAddr) (flags : PageFlags) (mode : MapMode)
    (space : ω) : (install phys virt flags mode space).Legible := by
  have hinstalled : ∀ place (space : ω), (do
      let new ← (liftM (PageEntry.mapping (phys.page .small) flags.asPresent) : Traced PageEntry)
      let saved := TableWindow.saveEntry space place virt.tableIndex new
      let space := TableWindow.invalidate virt saved
      Traced.report .trace fun _ =>
        .ok ("mapped " ++ virt.text ++ " -> " ++ phys.text ++ " " ++ flags.describe)
      return ((.ok (), space) : Except MappingError Unit × ω)).Legible := fun _ _ =>
    Traced.legible_bind (Traced.legible_liftM _) fun _ =>
      Traced.legible_bind (Traced.legible_report rfl) fun _ => Traced.legible_pure _
  refine Traced.legible_bind (LegibleTables.table _ space) fun found => ?_
  simp only
  split_ifs
  · exact Traced.legible_pure _
  · exact Traced.legible_bind (Traced.legible_report rfl) fun _ => hinstalled _ _
  · exact hinstalled _ _

/-- What is reported while a page is mapped can be written out. -/
theorem legible_map (phys : PhysAddr) (virt : VirtAddr) (flags : PageFlags) (mode : MapMode)
    (space : ω) (frames : FrameAllocator) : (map phys virt flags mode space frames).Legible := by
  unfold map
  cases checkMap phys virt with
  | error complaint => exact Traced.legible_pure _
  | ok _ =>
    refine Traced.legible_bind (legible_ensureTable _ flags space frames) fun made => ?_
    obtain ⟨answer, space, frames⟩ := made
    cases answer with
    | error complaint => exact Traced.legible_pure _
    | ok _ =>
      exact Traced.legible_bind (legible_install phys virt flags mode space) fun _ =>
        Traced.legible_pure _

omit [LegibleTables ω] in
/-- What is reported while an empty table is given back can be written out. -/
theorem legible_releaseTable (slot : TableIndex) (directoryPlace tablePlace : Nat)
    (entry : PageEntry) (space : ω) (frames : FrameAllocator) :
    (releaseTable slot directoryPlace tablePlace entry space frames).Legible := by
  unfold releaseTable
  split_ifs
  · exact Traced.legible_bind (FrameAllocator.legible_free _ frames) fun _ =>
      Traced.legible_bind (Traced.legible_report rfl) fun _ => Traced.legible_pure _
  · exact Traced.legible_pure _

/-- What is reported while a page is unmapped can be written out. -/
theorem legible_unmap (virt : VirtAddr) (space : ω) (frames : FrameAllocator) :
    (unmap virt space frames).Legible := by
  unfold unmap
  cases checkUnmap virt with
  | error complaint => exact Traced.legible_pure _
  | ok _ =>
    refine Traced.legible_bind (LegibleTables.directory space) fun found => ?_
    obtain ⟨directoryPlace, space⟩ := found
    simp only
    split_ifs
    · exact Traced.legible_pure _
    refine Traced.legible_bind (LegibleTables.table _ space) fun found => ?_
    obtain ⟨tablePlace, space⟩ := found
    simp only
    split_ifs
    · exact Traced.legible_pure _
    refine Traced.legible_bind (FrameAllocator.legible_free _ frames) fun frames => ?_
    refine Traced.legible_bind (Traced.legible_report rfl) fun _ => ?_
    exact Traced.legible_bind (legible_releaseTable _ _ _ _ _ frames) fun _ =>
      Traced.legible_pure _

end AddressSpace

namespace KernelMemory

/-- What is reported while a page of kernel memory is backed can be written out. -/
theorem legible_back (virt : VirtAddr) (memory : KernelMemory ω) : (memory.back virt).Legible := by
  refine Traced.legible_bind ?_ fun _ => Traced.legible_pure _
  unfold mapFresh
  cases memory.frames.allocate with
  | none => exact Traced.legible_pure _
  | some taken =>
    obtain ⟨frame, frames⟩ := taken
    refine Traced.legible_bind (Traced.legible_bind (AddressSpace.legible_map _ virt _ _ _ frames)
      fun _ => Traced.legible_pure _) fun mapped => ?_
    obtain ⟨answer, memory⟩ := mapped
    cases answer with
    | ok _ => exact Traced.legible_pure _
    | error complaint =>
      exact Traced.legible_bind (FrameAllocator.legible_free frame _) fun _ =>
        Traced.legible_pure _

/-- What is reported while a page of kernel memory is released, a stray one included, can be
written out. -/
theorem legible_release (virt : VirtAddr) (memory : KernelMemory ω) :
    (memory.release virt).Legible := by
  refine Traced.legible_bind (Traced.legible_bind (AddressSpace.legible_unmap virt _ _) fun _ =>
    Traced.legible_pure _) fun unmapped => ?_
  obtain ⟨answer, memory⟩ := unmapped
  cases answer with
  | ok _ => exact Traced.legible_pure _
  | error complaint =>
    exact Traced.legible_bind (Traced.legible_report rfl) fun _ => Traced.legible_pure _

instance : LegibleBacking (KernelMemory ω) := ⟨legible_back, legible_release⟩

end KernelMemory

end

/-! ## Windows of kernel memory -/

/-- Whether so many bytes from an address on need a page at which a page table shows up, or one
behind that. -/
def PagedGrowth.ReachesTables (start : VirtAddr) (bytes : Nat) : Prop :=
  ∃ index, index * pageBytes < bytes ∧
    Layout.recursiveWindowBase ≤ start.toNat + index * pageBytes

/-- The bytes of a window that a call needs backed. -/
def WindowCall.target (growth : PagedGrowth) : WindowCall → Nat
  | .prefill bytes => bytes
  | .extend units => growth.brk + units * unitBytes

/-- Whether a call is refused. -/
def WindowAnswer.Refuses : WindowAnswer → Prop
  | .prefilled answer => ∃ cause, answer = .error cause
  | .extended answer => ∃ cause, answer = .error cause

namespace PagedGrowth

open KernelMemory SoftMmu

variable {outside : Outside} {growth other : PagedGrowth} {memory next : KernelMemory SoftMmu}
  {start : VirtAddr} {stop bytes : Nat}

/-- Nothing is mapped where the page tables show up, so no window is filled that far. -/
theorem Filled.not_reachesTables {mmu : SoftMmu} (h : Filled start stop mmu.view) :
    ¬ReachesTables start stop := by
  rintro ⟨index, hlt, hreach⟩
  obtain ⟨page, target, hbase, hmapped, -⟩ := h.mapped index hlt
  have hslot : page.base.toNat / 4194304 ≠ 1023 := fun heq =>
    (slot_of_view_eq_some hmapped).1 (Fin.ext heq)
  have hbelow := page.base.isLt
  rw [show Layout.recursiveWindowBase = 1023 * 4194304 from rfl] at hreach
  omega

/-- More bytes reach the page tables if fewer do. -/
theorem ReachesTables.mono (h : ReachesTables start bytes) (hle : bytes ≤ stop) :
    ReachesTables start stop := by
  obtain ⟨index, hlt, hreach⟩ := h
  exact ⟨index, Nat.lt_of_lt_of_le hlt hle, hreach⟩

/-- A window without pages is filled as far as it goes, if nothing is mapped yet. -/
theorem backs_ofWindow {frames : FrameAllocator} {mmu : SoftMmu} (hframes : frames.Sound)
    (hblank : mmu.Blank) (hdirectory : frames.isUsed mmu.directory = true) (window : Nat)
    (start : VirtAddr) {maxBytes : Nat} (hword : maxBytes < 2 ^ 64) :
    Backs ⟨frames.unavailable, ∅, ∅⟩ (.ofWindow window start maxBytes) ⟨frames, mmu⟩ :=
  ⟨inOrder_ofWindow window start hword, .start hframes hblank hdirectory,
    hblank.view_eq ▸ filled_empty start⟩

/-- After pages were backed, or not, the window is filled with whole pages. -/
theorem Backs.filled_of_backUntil (h : Backs outside growth memory)
    {answer : Except GrowthError Unit}
    (hb : (PagedGrowth.backUntil bytes growth memory).outcome = .ok (answer, other, next)) :
    pageBytes ∣ other.mapped ∧ Filled growth.start other.mapped next.space.view := by
  obtain ⟨answer', other', next', houtcome, -, -, hfilled⟩ :=
    backUntil_fills h.owned h.filled h.inOrder.mapped bytes
  rw [hb] at houtcome
  cases houtcome
  rcases backUntil_ok hb with ⟨-, -, rfl⟩ | ⟨-, rfl⟩
  · exact ⟨h.inOrder.mapped, hfilled⟩
  · refine ⟨?_, hfilled⟩
    simp only
    rcases max_choice growth.mapped ((bytes + (pageBytes - 1)) / pageBytes * pageBytes) with
      hmax | hmax <;> rw [hmax]
    · exact h.inOrder.mapped
    · exact Nat.dvd_mul_left _ _

/-- Backing pages of kernel memory can be listened to: behind the last page of a filled window there
is still an address to be told. -/
theorem Backs.legible_backUntil (h : Backs outside growth memory) (bytes : Nat) :
    (PagedGrowth.backUntil bytes growth memory).Legible := by
  rcases records_backUntil bytes growth memory with
    ⟨hlegible, -⟩ | ⟨other, next, read, houtcome, -, hread, hrecords⟩
  · exact hlegible
  obtain ⟨hmapped, hfilled⟩ := h.filled_of_backUntil houtcome
  obtain ⟨low, hlow, -⟩ := h.filled.pageAt_stop h.inOrder.mapped
  obtain ⟨high, hhigh, -⟩ := hfilled.pageAt_stop hmapped
  have hlast : Record.Legible
      ⟨.debug, fun _ => backedText growth growth.mapped other.mapped⟩ := by
    refine ⟨"heap: backed " ++ low.text ++ " .. " ++ high.text, ?_⟩
    simp only [backedText, hlow, hhigh, Outcome.ok_bind, Outcome.pure_eq_ok]
  unfold Traced.Legible
  rw [hrecords]
  exact List.forall_mem_append.mpr ⟨hread, List.forall_mem_singleton.mpr hlast⟩

/-- Backing pages of kernel memory beforehand can be listened to. -/
theorem Backs.legible_prefill (h : Backs outside growth memory) (bytes : Nat) :
    (PagedGrowth.prefill bytes growth memory).Legible := by
  unfold PagedGrowth.prefill
  split_ifs
  · exact Traced.legible_pure _
  · exact h.legible_backUntil bytes

/-- An extension by pages of kernel memory can be listened to. -/
theorem Backs.legible_extend (h : Backs outside growth memory) (units : Nat) :
    (PagedGrowth.extend units growth memory).Legible := by
  unfold PagedGrowth.extend
  cases advance? growth.brk units growth.maxBytes with
  | none => exact Traced.legible_pure _
  | some target =>
    refine Traced.legible_bind (h.legible_backUntil target) fun backed => ?_
    obtain ⟨answer, growth, memory⟩ := backed
    cases answer <;> exact Traced.legible_pure _

/-- Extensions can be listened to as long as the window is filled. -/
theorem legible_backs (outside : Outside) (first : PagedGrowth) :
    LegibleGrowth fun (growth : PagedGrowth) (memory : KernelMemory SoftMmu) =>
      Backs outside growth memory ∧ Continues first growth :=
  fun _ _ units h => h.1.legible_extend units

/-- No page is backed where the page tables show up: a window that would need one stays as it is. -/
theorem Backs.backUntil_refused (h : Backs outside growth memory)
    (hreach : ReachesTables growth.start bytes) {answer : Except GrowthError Unit}
    (hb : (PagedGrowth.backUntil bytes growth memory).outcome = .ok (answer, other, next)) :
    ∃ cause, answer = .error cause := by
  cases answer with
  | error cause => exact ⟨cause, rfl⟩
  | ok _ =>
    exact absurd (hreach.mono (le_mapped_of_backUntil hb))
      (h.filled_of_backUntil hb).2.not_reachesTables

end PagedGrowth

/-! ## One call -/

namespace WindowRun

open KernelMemory PagedGrowth

/-- What a call leaves of a window over kernel memory, however the window lies. The call has an
answer, the same for every listener, and no step of it runs over. If it is refused, the bounds and
the memory are as they were. It is refused if it needs a page where the page tables show up. -/
structure Contained (state : WindowRun (KernelMemory SoftMmu)) (call : WindowCall)
    (answer : WindowAnswer) (next : WindowRun (KernelMemory SoftMmu)) : Prop where
  hasValue : (state.step call).HasValue (answer, next)
  checked : Checked.step state call = state.step call
  undone : answer.Refuses → next.growth = state.growth ∧ Unchanged state.pages next.pages
  refuses : ReachesTables state.growth.start (call.target state.growth) → answer.Refuses

variable {outside : Outside}

/-- Backing pages beforehand is contained, as long as the window is filled. -/
theorem contained_prefill (state : WindowRun (KernelMemory SoftMmu))
    (h : Backs outside state.growth state.pages) (hword : state.growth.maxBytes < 2 ^ 64)
    (bytes : Nat) :
    ∃ answer growth pages, (prefill bytes state.growth state.pages).outcome =
        .ok (answer, growth, pages) ∧
      Contained state (.prefill bytes) (.prefilled answer) ⟨growth, pages⟩ := by
  obtain ⟨⟨answer, growth, pages⟩, houtcome⟩ :
      ∃ result, (prefill bytes state.growth state.pages).outcome = .ok result := by
    unfold prefill
    split_ifs
    · exact ⟨_, rfl⟩
    · obtain ⟨answer, growth, pages, hback, -⟩ :=
        backUntil_fills h.owned h.filled h.inOrder.mapped bytes
      exact ⟨_, hback⟩
  have settled := prefill_settled h.owned houtcome
  refine ⟨answer, growth, pages, houtcome, ?_, Checked.step_eq h.inOrder hword _, ?_, ?_⟩
  · refine Traced.Legible.hasValue
      (Traced.legible_bind (h.legible_prefill bytes) fun _ => Traced.legible_pure _) ?_
    simp only [Traced.outcome_bind, houtcome, Outcome.ok_bind, Traced.outcome_pure]
  · rintro ⟨cause, rfl⟩
    exact ⟨settled.1, settled.2.unchanged h.owned⟩
  · intro hreach
    unfold prefill at houtcome
    split_ifs at houtcome
    · cases houtcome
      exact ⟨_, rfl⟩
    · exact h.backUntil_refused hreach houtcome

/-- So is an extension. -/
theorem contained_extend (state : WindowRun (KernelMemory SoftMmu))
    (h : Backs outside state.growth state.pages) (hword : state.growth.maxBytes < 2 ^ 64)
    (units : Nat) :
    ∃ answer next, Contained state (.extend units) answer next := by
  obtain ⟨answer, growth, pages, houtcome, -⟩ := h.extend units
  replace houtcome : (extend units state.growth state.pages).outcome =
    .ok (answer, growth, pages) := houtcome
  have settled := extend_settled h.owned houtcome
  refine ⟨.extended answer, ⟨growth, pages⟩, ?_, Checked.step_eq h.inOrder hword _, ?_, ?_⟩
  · refine Traced.Legible.hasValue
      (Traced.legible_bind (h.legible_extend units) fun _ => Traced.legible_pure _) ?_
    simp only [Traced.outcome_bind, houtcome, Outcome.ok_bind, Traced.outcome_pure]
  · rintro ⟨cause, rfl⟩
    exact ⟨settled.1, settled.2.unchanged h.owned⟩
  · intro hreach
    cases extendEnds_of_outcome houtcome with
    | short advance => exact ⟨_, rfl⟩
    | unbacked advance backed => exact ⟨_, rfl⟩
    | given advance backed stop_eq =>
      obtain ⟨htarget, -⟩ := advance?_eq_some advance
      obtain ⟨cause, hcause⟩ := h.backUntil_refused (htarget ▸ hreach) backed
      cases hcause

/-- Every call of a filled window is contained. -/
theorem contained_step (state : WindowRun (KernelMemory SoftMmu))
    (h : Backs outside state.growth state.pages) (hword : state.growth.maxBytes < 2 ^ 64)
    (call : WindowCall) : ∃ answer next, Contained state call answer next := by
  cases call with
  | prefill bytes =>
    obtain ⟨answer, growth, pages, -, hcontained⟩ := contained_prefill state h hword bytes
    exact ⟨_, _, hcontained⟩
  | extend units => exact contained_extend state h hword units

end WindowRun

/-! ## Bringing up a heap -/

/-- The command line moves no window, whoever hears what it has to say. -/
theorem HeapLayout.withArguments_hasValue (args : Arguments) (layout : HeapLayout) :
    ∃ chosen, (layout.withArguments args).HasValue chosen ∧ chosen.base = layout.base ∧
      chosen.maxBytes = layout.maxBytes :=
  ⟨_, layout.withArguments_resized args, layout.resized_base _, layout.resized_maxBytes _⟩

namespace MemoryContext

open KernelMemory PagedGrowth WindowRun

variable {outside : Outside} {memory : KernelMemory SoftMmu}

/-- Bringing up a heap is backing its first pages: it goes through for every listener, and there is
a heap unless a page was refused. -/
theorem initHeap_contained (layout : HeapLayout) (window : HeapWindow)
    (h : Backs outside (.ofWindow window.base layout.base layout.maxBytes) memory)
    (hword : layout.maxBytes < 2 ^ 64) :
    ∃ prefilled growth answer context,
      Contained ⟨.ofWindow window.base layout.base layout.maxBytes, memory⟩
        (.prefill layout.initialBytes) (.prefilled prefilled) ⟨growth, context.memory⟩ ∧
      (initHeap window ⟨memory, layout⟩).HasValue (answer, context) ∧
      Backs outside growth context.memory ∧
      Continues (.ofWindow window.base layout.base layout.maxBytes) growth ∧ growth.brk = 0 ∧
      answer = (match prefilled with
        | .error cause => .error (.heap cause)
        | .ok () => .ok (.ofArena window.arena growth)) := by
  have hdown : roundDown layout.maxBytes pageBytes < 2 ^ 64 :=
    Nat.lt_of_le_of_lt (Nat.div_mul_le_self _ _) hword
  obtain ⟨prefilled, growth, pages, houtcome, hcontained⟩ :=
    contained_prefill ⟨.ofWindow window.base layout.base layout.maxBytes, memory⟩ h hdown
      layout.initialBytes
  have hinit : (initHeap window ⟨memory, layout⟩).Legible := by
    refine Traced.legible_bind (h.legible_prefill layout.initialBytes) fun result => ?_
    obtain ⟨answer, growth, pages⟩ := result
    cases answer with
    | error cause => exact Traced.legible_pure _
    | ok _ => exact Traced.legible_bind (Traced.legible_report rfl) fun _ => Traced.legible_pure _
  obtain ⟨-, hbrk, -⟩ := h.inOrder.prefill houtcome
  have hgrown : Backs outside growth pages := h.prefill houtcome
  have hplace := continues_prefill houtcome
  cases prefilled with
  | error cause =>
    refine ⟨_, growth, .error (.heap cause), ⟨pages, layout⟩, hcontained, hinit.hasValue ?_, hgrown,
      hplace, hbrk, rfl⟩
    simp only [initHeap, Traced.outcome_bind, houtcome, Outcome.ok_bind, Traced.outcome_pure]
  | ok _ =>
    refine ⟨_, growth, .ok (.ofArena window.arena growth), ⟨pages, layout⟩, hcontained,
      hinit.hasValue ?_, hgrown, hplace, hbrk, rfl⟩
    simp only [initHeap, Traced.outcome_bind, houtcome, Outcome.ok_bind, Traced.outcome_report,
      Traced.outcome_pure]

end MemoryContext

namespace HeapRun

open KernelMemory PagedGrowth WindowRun

/-- However a heap is used from its start on over a window that is filled, the next call of it goes
through for every listener, and the next call of the window is contained. -/
theorem Trace.contained {outside : Outside} {growth : PagedGrowth} {arena : Arena}
    {pages : KernelMemory SoftMmu} {calls : List HeapCall}
    {run : HeapRun PagedGrowth (KernelMemory SoftMmu)}
    (htrace : Trace (start arena growth pages) calls run) (hbacks : Backs outside growth pages)
    (hbrk : growth.brk = 0) (hword : growth.maxBytes < 2 ^ 64) :
    (∀ call, run.Legal call → ∃ next, (run.step call).HasValue next) ∧
      ∀ call, ∃ answer next, Contained ⟨run.heap.growth, run.pages⟩ call answer next := by
  have hnone : GivenUnits.given growth = 0 := by
    show growth.brk / unitBytes = 0
    rw [hbrk]
    exact Nat.zero_div _
  have kept := kept_backs outside growth
  obtain ⟨⟨free, hrun⟩, hkept, -⟩ := htrace.kept kept
    (sound_start arena pages hbacks.inOrder hnone) ⟨hbacks, .refl growth⟩
  refine ⟨fun call hlegal => ?_, fun call => ?_⟩
  · obtain ⟨next, hnext, -⟩ := hrun.step_ok (faultless_backs outside growth) kept hkept hlegal
    exact ⟨next, ((legible_backs outside growth).step kept hkept call).hasValue hnext⟩
  · exact contained_step ⟨run.heap.growth, run.pages⟩ hkept.1 (hkept.2.maxBytes_eq ▸ hword) call

/-- Whatever the layout of a heap, be it unaligned, across the page tables or past the last address,
and whatever the command line says about it: bringing up the heap has an answer or an error, and so
has every legal call of the heap from then on, and they are the same for every listener. At no time
does a step of a growth run over. A growth that is refused is undone, and one that needs a page
where the page tables show up is refused. -/
theorem any_window_is_contained {regions : List Region} {observedBytes : Nat} {map : MemoryMap}
    (hmap : MemoryMap.ofRegions regions observedBytes = .ok map) {kernel : KernelImage}
    {reach : Nat} {config : FrameConfig} {allocator frames : FrameAllocator}
    (hnew : (FrameAllocator.ofMap map kernel reach config).outcome = .ok (.ok allocator))
    {history : List FrameCall} (legal : allocator.view.LegalRun history)
    {answers : List FrameAnswer}
    (hhistory : (allocator.run history).outcome = .ok (answers, frames))
    {mmu : SoftMmu} (hblank : mmu.Blank) (hdirectory : frames.isUsed mmu.directory = true)
    (window : HeapWindow) {layout : HeapLayout} (hmax : layout.maxBytes < 2 ^ 64)
    (args : Arguments) :
    ∃ chosen, (layout.withArguments args).HasValue chosen ∧ chosen.base = layout.base ∧
        chosen.maxBytes = layout.maxBytes ∧
      ∃ prefilled growth answer context,
        Contained ⟨.ofWindow window.base layout.base layout.maxBytes, ⟨frames, mmu⟩⟩
          (.prefill chosen.initialBytes) prefilled ⟨growth, context.memory⟩ ∧
        (MemoryContext.initHeap window ⟨⟨frames, mmu⟩, chosen⟩).HasValue (answer, context) ∧
        (prefilled.Refuses ↔ ∃ cause, answer = .error cause) ∧
        ∀ heap, answer = .ok heap → heap.growth = growth ∧
          ∀ calls run, Trace ⟨heap, context.memory, []⟩ calls run →
            (∀ call, run.Legal call → ∃ next, (run.step call).HasValue next) ∧
            ∀ call, ∃ answer next, Contained ⟨run.heap.growth, run.pages⟩ call answer next := by
  have built := FrameAllocator.built_of_ofMap (MemoryMap.ordered_of_ofRegions hmap) hnew
  obtain ⟨hsound, -⟩ := built.sound.of_run legal hhistory
  obtain ⟨⟨base, initialBytes, maxBytes⟩, hchosen, hbase, hlimit⟩ :=
    layout.withArguments_hasValue args
  obtain rfl : base = layout.base := hbase
  obtain rfl : maxBytes = layout.maxBytes := hlimit
  refine ⟨_, hchosen, rfl, rfl, ?_⟩
  obtain ⟨prefilled, growth, answer, context, hcontained, hinit, hbacks, hplace, hbrk, hanswer⟩ :=
    MemoryContext.initHeap_contained ⟨layout.base, initialBytes, layout.maxBytes⟩ window
      (backs_ofWindow hsound hblank hdirectory window.base layout.base hmax) hmax
  refine ⟨.prefilled prefilled, growth, answer, context, hcontained, hinit, ?_, ?_⟩
  · subst hanswer
    cases prefilled with
    | error cause => exact iff_of_true ⟨_, rfl⟩ ⟨_, rfl⟩
    | ok _ => exact iff_of_false nofun nofun
  rintro heap rfl
  cases prefilled with
  | error cause => cases hanswer
  | ok _ =>
  cases hanswer
  refine ⟨rfl, fun calls run htrace => htrace.contained hbacks hbrk ?_⟩
  rw [hplace.maxBytes_eq]
  exact Nat.lt_of_le_of_lt (Nat.div_mul_le_self _ _) hmax

/-- Sixteen pages of RAM, and a window of three pages the second of which would lie where the page
tables show up. All three are to be backed at the start, which would be refused, but the command
line asks for one page only. A small block is served from it, and when a second page is needed the
growth is refused and undone. -/
theorem any_window_is_contained_below_tables :
    let map : MemoryMap := ⟨[⟨0x100000, 0x10000, .available⟩], 0x10000⟩
    let kernel : KernelImage := ⟨.ofNat 0x100000, .ofNat 0x101000, by decide⟩
    let layout : HeapLayout := ⟨.ofNat 0xFFBFF000, 0x3000, 0x3000⟩
    let chosen : HeapLayout := ⟨.ofNat 0xFFBFF000, 0x1000, 0x3000⟩
    ReachesTables layout.base layout.initialBytes ∧
    ∃ allocator mmu heap context run answer next,
      (FrameAllocator.ofMap map kernel (2 ^ 32) .standard).outcome = .ok (.ok allocator) ∧
      SoftMmu.ofDirectory (Frame.ofIndex 0x100) = .ok mmu ∧
      (layout.withArguments ⟨[("heap_size", "4K")]⟩).HasValue chosen ∧
      (MemoryContext.initHeap ⟨0x800000, .empty⟩ ⟨⟨allocator, mmu⟩, chosen⟩).HasValue
        (.ok heap, context) ∧
      Trace ⟨heap, context.memory, []⟩ [.allocate 24] run ∧ run.heap.growth.mapped = 0x1000 ∧
      Contained ⟨run.heap.growth, run.pages⟩ (.extend 1) answer next ∧ answer.Refuses ∧
      next.growth = run.heap.growth ∧ Unchanged run.pages next.pages := by
  intro map kernel layout chosen
  refine ⟨⟨1, by decide, by decide⟩, ?_⟩
  have hrun : ((FrameAllocator.ofMap map kernel (2 ^ 32) .standard).andThen fun allocator => do
      let mmu ← SoftMmu.ofDirectory (Frame.ofIndex 0x100)
      let (answer, context) ←
        MemoryContext.initHeap ⟨0x800000, .empty⟩ ⟨⟨allocator, mmu⟩, chosen⟩
      match answer with
      | .error _ => return none
      | .ok heap =>
        let one ← (⟨heap, context.memory, []⟩ : HeapRun _ _).step (.allocate 24)
        return some (allocator.isUsed mmu.directory, one.heap.growth.start.toNat,
          one.heap.growth.brk, one.heap.growth.mapped)).outcome =
      .ok (some (some (true, 0xFFBFF000, 0x1000, 0x1000))) := by
    decide +kernel
  have hargs : (layout.withArguments ⟨[("heap_size", "4K")]⟩).outcome = .ok chosen := by
    decide +kernel
  obtain ⟨allocator, hnew, hrun⟩ := Traced.of_andThen hrun
  simp only [Traced.outcome_bind, Traced.outcome_liftM, Outcome.bind_eq_ok] at hrun
  obtain ⟨mmu, hmmu, ⟨answer, context⟩, hinit, hrun⟩ := hrun
  cases answer with
  | error cause => cases hrun
  | ok heap =>
  simp only [Traced.outcome_bind, Outcome.bind_eq_ok, Traced.outcome_pure, Except.ok.injEq,
    Option.some.injEq, Prod.mk.injEq] at hrun
  obtain ⟨one, hone, hdirectory, hstart, hbrk, hmapped⟩ := hrun
  have htrace : Trace ⟨heap, context.memory, []⟩ [.allocate 24] one :=
    .call trivial hone (.done one)
  have legal : allocator.view.LegalRun [] := trivial
  obtain ⟨found, hfound, -, -, prefilled, growth, answer, last, -, hready, -, hall⟩ :=
    any_window_is_contained
      (show MemoryMap.ofRegions map.regions map.observedBytes = .ok map from rfl) hnew legal rfl
      (SoftMmu.blank_ofDirectory hmmu) hdirectory ⟨0x800000, .empty⟩
      (show layout.maxBytes < 2 ^ 64 by decide) ⟨[("heap_size", "4K")]⟩
  obtain rfl : chosen = found := by
    have h := hfound.outcome
    rw [hargs] at h
    cases h
    rfl
  have h := hready.outcome
  rw [hinit] at h
  cases h
  obtain ⟨-, hsteps⟩ := hall heap rfl
  obtain ⟨-, hcalls⟩ := hsteps _ _ htrace
  obtain ⟨answer, next, hcontained⟩ := hcalls (.extend 1)
  have hrefuses : answer.Refuses := hcontained.refuses ⟨1, by
    show 1 * pageBytes < one.heap.growth.brk + 1 * unitBytes
    rw [hbrk]
    decide, by
    show Layout.recursiveWindowBase ≤ one.heap.growth.start.toNat + 1 * pageBytes
    rw [hstart]
    decide⟩
  obtain ⟨hsame, hunchanged⟩ := hcontained.undone hrefuses
  exact ⟨allocator, mmu, heap, context, one, answer, next, hnew, hmmu, hfound, hready, htrace,
    hmapped, hcontained, hrefuses, hsame, hunchanged⟩

end HeapRun

end BootMemory
