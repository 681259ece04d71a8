import BootMemory.Boot.Context
import BootMemory.Proofs.Heap.Safety
import BootMemory.Proofs.Heap.Supply
import BootMemory.Proofs.Memory.Rollback
import BootMemory.Proofs.Memory.Run

/-!
# A heap stays on mapped pages

A heap that grows by pages never looks whether its memory is there. It is there because three
numbers keep up with each other: the units of the arena are the bytes below the break, the break
does not pass the bytes that are backed, and of the window exactly the pages below these are mapped
(`PagedGrowth.Filled`). Each page that is backed makes the filled part longer by one page, and a
growth that fails leaves it as it was. So a window stays filled from its start, whatever the heap
above it asks for (`PagedGrowth.Backs.extend`, `HeapRun.arena_stays_backed`).
-/

set_option autoImplicit false

namespace BootMemory

open KernelMemory

variable {outside : Outside} {memory next : KernelMemory SoftMmu} {virt : VirtAddr}

/-- A page that was mapped has the flags that were asked for. -/
theorem PageMap.flags_of_map {pages : PageMap} {phys : PhysAddr} {flags : PageFlags}
    {mode : AddressSpace.MapMode} {dry : Bool} {target : Mapping}
    (hmap : (pages.map phys virt flags mode dry).1 = .ok ())
    (htarget : (pages.map phys virt flags mode dry).2 (virt.page .small) = some target) :
    target.flags = flags.asPresent := by
  unfold PageMap.map at hmap htarget
  split_ifs at hmap htarget
  simp only [Function.update_self, Option.some.injEq] at htarget
  rw [← htarget]

/-- A page that was backed is for the kernel to read and write. -/
theorem KernelMemory.Owned.flags_of_back (h : Owned outside memory) {target : Mapping}
    (hback : (memory.back virt).outcome = .ok (.ok (), next))
    (htarget : next.space.view (virt.page .small) = some target) : target.flags = .kernel := by
  rcases h.frames.allocate with ⟨-, hnone⟩ | ⟨frame, frames, hsome, out⟩
  · simp [back, mapFresh, hnone, Except.map] at hback
  obtain ⟨space, rest, houtcome, ⟨-, hview⟩, -⟩ :=
    @AddressSpace.map_refines _ _ _ _ frame.base virt h.space .kernel .fresh
      fun _ _ table other htable => h.spare_of_allocate out.becomes htable
  simp only [back, mapFresh, hsome, KernelMemory.map, houtcome, Traced.outcome_bind,
    Outcome.ok_bind, Traced.outcome_pure] at hback
  cases hanswer : (memory.space.view.map frame.base virt .kernel .fresh
      (AddressSpace.isDry frames)).1 with
  | ok _ =>
    rw [hanswer] at hback
    cases hback
    exact PageMap.flags_of_map hanswer (hview ▸ htarget)
  | error complaint =>
    simp only [hanswer, Traced.outcome_bind, Outcome.bind_eq_ok] at hback
    obtain ⟨⟨answer, last⟩, ⟨freed, -, hlast⟩, hback⟩ := hback
    cases hlast
    cases hback

/-- The addresses of a mapped page translate. -/
theorem KernelMemory.translate_of_view (h : memory.space.Sound) {target : Mapping}
    (hmapped : memory.space.view (virt.page .small) = some target) :
    ∃ phys next, (memory.translate virt).outcome = .ok (some phys, next) := by
  have hwindow : ¬virt.InWindow := by
    have hslot := (SoftMmu.slot_of_view_eq_some hmapped).1
    rwa [VirtPage.slot_page] at hslot
  obtain ⟨space, houtcome, -⟩ := AddressSpace.translate_outcome h.toWindowed virt
  refine ⟨target.addressAt virt.pageOffset, ⟨memory.frames, space⟩, ?_⟩
  rw [AddressSpace.translation_eq _ hwindow, PageMap.translate, hmapped] at houtcome
  simp [KernelMemory.translate, houtcome]

namespace PagedGrowth

open SoftMmu

variable {growth other first : PagedGrowth} {start : VirtAddr} {stop bytes : Nat}
  {pages : PageMap} {progress : Progress (KernelMemory SoftMmu)}

/-- Exactly the pages of a window that start below an offset are mapped, each for the kernel to
read and write. -/
structure Filled (start : VirtAddr) (stop : Nat) (pages : PageMap) : Prop where
  mapped : ∀ index, index * pageBytes < stop → ∃ page target,
    page.base.toNat = start.toNat + index * pageBytes ∧ pages page = some target ∧
      target.flags = .kernel
  only : ∀ page target, pages page = some target → ∃ index, index * pageBytes < stop ∧
    page.base.toNat = start.toNat + index * pageBytes

/-- Where nothing is mapped, a window is filled up to its start. -/
theorem filled_empty (start : VirtAddr) : Filled start 0 .empty :=
  ⟨fun _ h => absurd h (Nat.not_lt_zero _), nofun⟩

/-- The next page makes the filled part longer. -/
theorem Filled.push (h : Filled start stop pages) (hstop : pageBytes ∣ stop)
    {page : VirtPage .small} {target : Mapping} (hbase : page.base.toNat = start.toNat + stop)
    (hflags : target.flags = .kernel) :
    Filled start (stop + pageBytes) (Function.update pages page (some target)) := by
  obtain ⟨count, rfl⟩ := hstop
  constructor
  · intro index hlt
    by_cases hlast : index = count
    · refine ⟨page, target, ?_, Function.update_self .., hflags⟩
      rw [hlast, hbase, Nat.mul_comm]
    · have hbelow : index * pageBytes < pageBytes * count := by
        rw [show pageBytes = 4096 from rfl] at *
        omega
      obtain ⟨other, target', hother, hmapped, hkernel⟩ := h.mapped index hbelow
      refine ⟨other, target', hother, ?_, hkernel⟩
      rw [Function.update_of_ne, hmapped]
      rintro rfl
      omega
  · intro other target' hmapped
    by_cases hother : other = page
    · subst hother
      refine ⟨count, ?_, by rw [hbase, Nat.mul_comm]⟩
      rw [show pageBytes = 4096 from rfl]
      omega
    · rw [Function.update_of_ne hother] at hmapped
      obtain ⟨index, hlt, heq⟩ := h.only other target' hmapped
      exact ⟨index, Nat.lt_add_right _ hlt, heq⟩

/-- The page behind the filled part has an address: the last slot, in which nothing is mapped, is
still to come. -/
theorem Filled.pageAt_stop {mmu : SoftMmu} (h : Filled growth.start stop mmu.view)
    (hstop : pageBytes ∣ stop) :
    ∃ addr, growth.pageAt stop = .ok addr ∧ addr.toNat = growth.start.toNat + stop := by
  obtain ⟨count, rfl⟩ := hstop
  have hfits : growth.start.toNat + pageBytes * count < 2 ^ 32 := by
    cases count with
    | zero => exact growth.start.isLt
    | succ last =>
      rw [show pageBytes = 4096 from rfl] at *
      obtain ⟨page, target, hbase, hmapped, -⟩ := h.mapped last (by
        rw [show pageBytes = 4096 from rfl]
        omega)
      rw [show pageBytes = 4096 from rfl] at hbase
      have hslot : page.base.toNat / 4194304 ≠ 1023 := fun heq =>
        (slot_of_view_eq_some hmapped).1 (Fin.ext heq)
      have hlt := page.base.isLt
      omega
  have hoffset : pageBytes * count % 2 ^ 32 = pageBytes * count :=
    Nat.mod_eq_of_lt (Nat.lt_of_le_of_lt (Nat.le_add_left _ _) hfits)
  refine ⟨⟨growth.start.toNat + pageBytes * count, hfits⟩, ?_, rfl⟩
  rw [pageAt, hoffset, VirtAddr.add, VirtAddr.add?, dif_pos hfits]

/-- Backing the next page goes through, and makes the filled part longer unless it is refused. -/
theorem backNext_filled (h : Owned outside progress.pages)
    (hfilled : Filled growth.start progress.offset progress.pages.space.view)
    (hoffset : pageBytes ∣ progress.offset) :
    ∃ result, (backNext growth progress).outcome = .ok result ∧
      ∀ last, result = .inl last → Owned outside last.pages ∧
        last.offset = progress.offset + pageBytes ∧
        Filled growth.start last.offset last.pages.space.view := by
  obtain ⟨addr, haddr, hvalue⟩ := hfilled.pageAt_stop hoffset
  unfold backNext
  simp only [Traced.outcome_bind, Traced.outcome_liftM, haddr, Outcome.ok_bind]
  rcases h.back_cases addr with
    ⟨complaint, next, hback, -⟩ | ⟨frame, next, hback, howned, gains⟩
  · refine ⟨.inr (complaint, ⟨progress.offset, next⟩), ?_, nofun⟩
    rw [show (PageBacking.back addr progress.pages).outcome = _ from hback]
    rfl
  · refine ⟨.inl ⟨progress.offset + pageBytes, next⟩, ?_, ?_⟩
    · rw [show (PageBacking.back addr progress.pages).outcome = _ from hback]
      rfl
    · rintro _ ⟨⟩
      obtain ⟨target, -, hview⟩ := gains.view_eq
      have hflags : target.flags = .kernel := h.flags_of_back hback (by
        rw [hview, Function.update_self])
      refine ⟨howned, rfl, ?_⟩
      show Filled growth.start (progress.offset + pageBytes) next.space.view
      rw [hview]
      refine hfilled.push hoffset ?_ hflags
      rw [VirtPage.base_page gains.aligned, hvalue]

/-- Backing pages one after the other goes through, and fills the window unless a page is refused.
-/
theorem loop_filled (rounds : Nat) (progress : Progress (KernelMemory SoftMmu))
    (h : Owned outside progress.pages)
    (hfilled : Filled growth.start progress.offset progress.pages.space.view)
    (hoffset : pageBytes ∣ progress.offset) :
    ∃ result, (Traced.loop (backNext growth) rounds progress).outcome = .ok result ∧
      ∀ last, result = .inl last → last.offset = progress.offset + rounds * pageBytes ∧
        Filled growth.start last.offset last.pages.space.view := by
  induction rounds generalizing progress with
  | zero =>
    refine ⟨.inl progress, rfl, ?_⟩
    rintro _ ⟨⟩
    exact ⟨by rw [Nat.zero_mul, Nat.add_zero], hfilled⟩
  | succ rounds ih =>
    obtain ⟨result, hresult, hnext⟩ := backNext_filled h hfilled hoffset
    rw [Traced.loop_succ, Traced.outcome_bind, hresult, Outcome.ok_bind]
    cases result with
    | inr refusal => exact ⟨.inr refusal, rfl, nofun⟩
    | inl middle =>
      obtain ⟨howned, hmiddle, hfilled'⟩ := hnext middle rfl
      obtain ⟨result, hresult, hlast⟩ := ih middle howned hfilled' (by
        rw [hmiddle]
        exact Nat.dvd_add hoffset (Nat.dvd_refl _))
      refine ⟨result, hresult, fun last heq => ?_⟩
      obtain ⟨hoffset', hfilled''⟩ := hlast last heq
      refine ⟨?_, hfilled''⟩
      rw [hoffset', hmiddle, Nat.succ_mul, Nat.add_assoc, Nat.add_comm pageBytes]

/-- Backing pages goes through, and fills the window up to the bytes that are backed then. -/
theorem backUntil_fills (h : Owned outside memory) (hfilled : Filled growth.start growth.mapped
      memory.space.view) (hmapped : pageBytes ∣ growth.mapped) (bytes : Nat) :
    ∃ answer other next, (backUntil bytes growth memory).outcome = .ok (answer, other, next) ∧
      Owned outside next ∧ next.frames.tracked = memory.frames.tracked ∧
        Filled other.start other.mapped next.space.view := by
  have hstart : Backed outside memory growth ⟨growth.mapped, memory⟩ [] :=
    ⟨.refl h, (Nat.add_zero _).symm, trivial⟩
  obtain ⟨result, hloop, hdone⟩ :=
    loop_filled (((bytes + (pageBytes - 1)) / pageBytes * pageBytes - growth.mapped) / pageBytes)
      ⟨growth.mapped, memory⟩ h hfilled hmapped
  obtain ⟨loan, hbacked⟩ := hstart.loop h.space _ hloop
  unfold PagedGrowth.backUntil
  simp only [Traced.outcome_bind, hloop, Outcome.ok_bind]
  cases result with
  | inr refusal =>
    -- What was backed before the refusal is on loan and goes back.
    obtain ⟨cause, progress⟩ := refusal
    have hbacked : Backed outside memory growth progress loan := hbacked
    have hcount : (progress.offset - growth.mapped) / pageBytes = loan.length := by
      rw [hbacked.offset_eq, Nat.add_sub_cancel_left, Nat.mul_div_cancel _ (by decide)]
    obtain ⟨last, hlast, restored⟩ :=
      releaseRange_restored h hbacked.borrowed hbacked.pagesFrom hcount
    refine ⟨.error (.backing cause), growth, last, ?_, h.restored restored,
      restored.frames.tracked_eq, ?_⟩
    · simp only [Traced.outcome_bind, Traced.outcome_report, Outcome.ok_bind, hlast,
        Traced.outcome_pure]
    · rw [restored.view_eq]
      exact hfilled
  | inl progress =>
    obtain ⟨hoffset, hfilled'⟩ := hdone progress rfl
    have hborrowed : Borrowed outside memory progress.pages loan := hbacked.borrowed
    -- Both ends are whole pages, so the rounds end where the backed bytes are said to end.
    simp only at hoffset ⊢
    split_ifs with more
    · refine ⟨.ok (), _, progress.pages, rfl, hborrowed.owned, hborrowed.tracked_eq, ?_⟩
      have hstop : progress.offset = (bytes + (pageBytes - 1)) / pageBytes * pageBytes := by
        rw [hoffset]
        rw [show pageBytes = 4096 from rfl] at *
        omega
      rwa [hstop] at hfilled'
    · refine ⟨.ok (), growth, progress.pages, rfl, hborrowed.owned, hborrowed.tracked_eq, ?_⟩
      have hstop : progress.offset = growth.mapped := by
        rw [hoffset, Nat.sub_eq_zero_of_le (Nat.le_of_not_lt more), Nat.zero_div, Nat.zero_mul,
          Nat.add_zero]
      rwa [hstop] at hfilled'

/-- What a window that is backed by kernel memory keeps: its bounds are in order, every used frame
has one owner, and the window is filled up to the backed bytes. -/
structure Backs (outside : Outside) (growth : PagedGrowth) (memory : KernelMemory SoftMmu) :
    Prop where
  inOrder : growth.InOrder
  owned : Owned outside memory
  filled : Filled growth.start growth.mapped memory.space.view

/-- Backing pages beforehand keeps the window filled. -/
theorem Backs.prefill (h : Backs outside growth memory) {answer : Except GrowthError Unit}
    (hp : (prefill bytes growth memory).outcome = .ok (answer, other, next)) :
    Backs outside other next := by
  obtain ⟨hin, -⟩ := h.inOrder.prefill hp
  unfold PagedGrowth.prefill at hp
  split_ifs at hp
  · cases hp
    exact h
  · obtain ⟨answer', other', next', houtcome, howned, -, hfilled⟩ :=
      backUntil_fills h.owned h.filled h.inOrder.mapped bytes
    rw [houtcome] at hp
    cases hp
    exact ⟨hin, howned, hfilled⟩

/-- An extension goes through and keeps the window filled. -/
theorem Backs.extend (h : Backs outside growth memory) (units : Nat) :
    ∃ answer other next,
      (ArenaGrowth.extend units growth memory).outcome = .ok (answer, other, next) ∧
        Backs outside other next := by
  show ∃ answer other next, (PagedGrowth.extend units growth memory).outcome = _ ∧ _
  cases hadvance : advance? growth.brk units growth.maxBytes with
  | none =>
    refine ⟨.error .exhausted, growth, memory, ?_, h⟩
    simp only [PagedGrowth.extend, hadvance, Traced.outcome_pure]
  | some target =>
    obtain ⟨answer, middle, next, hback, howned, -, hfilled⟩ :=
      backUntil_fills h.owned h.filled h.inOrder.mapped target
    cases answer with
    | error cause =>
      have houtcome : (PagedGrowth.extend units growth memory).outcome =
          .ok (.error cause, middle, next) := by
        simp only [PagedGrowth.extend, hadvance, Traced.outcome_bind, hback, Outcome.ok_bind,
          Traced.outcome_pure]
      exact ⟨_, _, _, houtcome, (h.inOrder.extend houtcome).sound, howned, hfilled⟩
    | ok _ =>
      have houtcome : (PagedGrowth.extend units growth memory).outcome =
          .ok (.ok ((middle.mapped - middle.brk) / unitBytes),
            { middle with brk := middle.mapped }, next) := by
        simp only [PagedGrowth.extend, hadvance, Traced.outcome_bind, hback, Outcome.ok_bind,
          Traced.outcome_pure]
      exact ⟨_, _, _, houtcome, (h.inOrder.extend houtcome).sound, howned, hfilled⟩

/-- An extension of a window over kernel memory keeps the window filled, and goes on with it. -/
theorem kept_backs (outside : Outside) (first : PagedGrowth) :
    KeptByGrowth fun (growth : PagedGrowth) (memory : KernelMemory SoftMmu) =>
      Backs outside growth memory ∧ Continues first growth := by
  rintro units growth growth' memory memory' answer ⟨h, hfirst⟩ he
  obtain ⟨answer', other, next, houtcome, hbacks⟩ := h.extend units
  have hcontinues := hfirst.trans (h.inOrder.continues_extend he)
  rw [houtcome] at he
  cases he
  exact ⟨hbacks, hcontinues⟩

/-- No extension of a filled window over kernel memory faults. -/
theorem faultless_backs (outside : Outside) (first : PagedGrowth) :
    FaultlessGrowth fun (growth : PagedGrowth) (memory : KernelMemory SoftMmu) =>
      Backs outside growth memory ∧ Continues first growth := by
  rintro growth memory units ⟨h, -⟩
  obtain ⟨answer, other, next, houtcome, -⟩ := h.extend units
  exact ⟨_, houtcome⟩

end PagedGrowth

/-! ## Runs -/

namespace HeapRun

open PagedGrowth SoftMmu

variable {run last : HeapRun PagedGrowth (KernelMemory SoftMmu)} {free : List Span}
  {layout : HeapLayout} {addr : Nat}

/-- Whether there is memory at an address of the arena: its place in the window translates. -/
def MappedAt (layout : HeapLayout) (run : HeapRun PagedGrowth (KernelMemory SoftMmu))
    (addr : Nat) : Prop :=
  ∃ virt phys pages, virt.toNat = layout.base.toNat + (addr - run.base) ∧
    (run.pages.translate virt).outcome = .ok (some phys, pages)

/-- How a heap, the bounds of its growth and the page tables fit together. -/
structure Backed (layout : HeapLayout) (run : HeapRun PagedGrowth (KernelMemory SoftMmu)) :
    Prop where
  /-- The arena consists of the bytes below the break. -/
  units_eq : run.heap.arenaUnits * unitBytes = run.heap.growth.brk
  brk_le : run.heap.growth.brk ≤ run.heap.growth.mapped
  mapped_le : run.heap.growth.mapped ≤ roundDown layout.maxBytes pageBytes
  /-- All three bounds are whole pages. -/
  wholePages : pageBytes ∣ run.heap.growth.brk ∧ pageBytes ∣ run.heap.growth.mapped ∧
    pageBytes ∣ roundDown layout.maxBytes pageBytes
  /-- Exactly the pages below the backed bytes are mapped, for the kernel to read and write. -/
  filled : Filled layout.base run.heap.growth.mapped run.pages.space.view
  /-- No two pages have one frame. -/
  page_eq : ∀ {page other : VirtPage .small} {target target' : Mapping},
    run.pages.space.view page = some target → run.pages.space.view other = some target' →
      target.frame = target'.frame → page = other

/-- The blocks tile the arena, and the window below it is filled. -/
theorem Sound.backed (h : run.Sound free) (backs : Backs outside run.heap.growth run.pages)
    (hstart : run.heap.growth.start = layout.base)
    (hmax : run.heap.growth.maxBytes = roundDown layout.maxBytes pageBytes) :
    run.Backed layout := by
  have hin := backs.inOrder
  refine ⟨?_, hin.brk_le, hmax ▸ hin.mapped_le, ⟨hin.brk, hin.mapped, hmax ▸ hin.maxBytes⟩,
    hstart ▸ backs.filled, backs.owned.divided.page_eq⟩
  rw [← h.tiled.given]
  refine Nat.div_mul_cancel (Nat.dvd_trans ?_ hin.brk)
  exact ⟨256, rfl⟩

/-- An address below the backed bytes has its memory. -/
theorem Backed.mappedAt (h : run.Backed layout) (hspace : run.pages.space.Sound)
    (hlt : addr - run.base < run.heap.growth.mapped) : run.MappedAt layout addr := by
  have hdown := Nat.div_mul_le_self (addr - run.base) pageBytes
  obtain ⟨page, target, hbase, hmapped, -⟩ := h.filled.mapped _ (Nat.lt_of_le_of_lt hdown hlt)
  have hindex : page.base.toNat = page.index * 4096 := rfl
  have hfits := page.base.isLt
  rw [show pageBytes = 4096 from rfl] at *
  obtain ⟨virt, hvirt⟩ : ∃ virt : VirtAddr, virt.toNat = layout.base.toNat + (addr - run.base) :=
    ⟨⟨layout.base.toNat + (addr - run.base), by omega⟩, rfl⟩
  have hpage : virt.page .small = page := by
    apply VirtPage.ext
    show virt.toNat / 4096 = page.index
    omega
  obtain ⟨phys, pages, htranslate⟩ := translate_of_view hspace (hpage ▸ hmapped)
  exact ⟨virt, phys, pages, hvirt, htranslate⟩

/-- The header and the bytes of a live block lie in the arena. -/
theorem Sound.grant_lt (h : run.Sound free) {grant : Grant} (hgrant : grant ∈ run.live)
    (hle : grant.pointer ≤ addr + unitBytes) (hlt : addr < grant.pointer + grant.bytes) :
    run.base ≤ addr ∧ addr - run.base < run.heap.arenaUnits * unitBytes := by
  obtain ⟨block, hpointer, -, hblock⟩ := h.laid.grants grant hgrant
  unfold unitBytes at *
  omega

/-- Whatever a heap has asked for and given back since it was brought up over kernel memory: the
units of its arena are the bytes below the break, the break does not pass the backed bytes, these do
not pass the window, and of the window exactly the pages below the backed bytes are mapped, for the
kernel to read and write and to frames of their own. There is memory at every address of the arena,
and behind the header and every byte of every block that was ever served, also when it was given
back since. No legal call faults. -/
theorem arena_stays_backed {regions : List Region} {observedBytes : Nat} {map : MemoryMap}
    (hmap : MemoryMap.ofRegions regions observedBytes = .ok map) {kernel : KernelImage}
    {reach : Nat} {config : FrameConfig} {allocator frames : FrameAllocator}
    (hnew : (FrameAllocator.ofMap map kernel reach config).outcome = .ok (.ok allocator))
    {history : List FrameCall} (legal : allocator.view.LegalRun history)
    {answers : List FrameAnswer}
    (hhistory : (allocator.run history).outcome = .ok (answers, frames))
    {mmu : SoftMmu} (hblank : mmu.Blank) (hdirectory : frames.isUsed mmu.directory = true)
    {window : HeapWindow} (hmax : layout.maxBytes < 2 ^ 64) {heap : Heap PagedGrowth}
    {context : MemoryContext SoftMmu}
    (hinit : (MemoryContext.initHeap window ⟨⟨frames, mmu⟩, layout⟩).outcome =
      .ok (.ok heap, context))
    {calls later : List HeapCall} (htrace : Trace ⟨heap, context.memory, []⟩ calls run)
    (hlater : Trace run later last) :
    last.Backed layout ∧ last.base = window.base ∧
      (∀ addr, window.base ≤ addr → addr < window.base + last.heap.arenaUnits * unitBytes →
        last.MappedAt layout addr) ∧
      (∀ grant ∈ run.live, ∀ addr, grant.pointer ≤ addr + unitBytes →
        addr < grant.pointer + grant.bytes → last.MappedAt layout addr) ∧
      ∀ call, last.Legal call → ∃ next, (last.step call).outcome = .ok next := by
  have built := FrameAllocator.built_of_ofMap (MemoryMap.ordered_of_ofRegions hmap) hnew
  obtain ⟨hsound, -⟩ := built.sound.of_run legal hhistory
  -- The heap is brought up over a window that is filled as far as it was backed beforehand.
  have hblankBacks : Backs ⟨frames.unavailable, ∅, ∅⟩
      (.ofWindow window.base layout.base layout.maxBytes) ⟨frames, mmu⟩ :=
    ⟨inOrder_ofWindow window.base layout.base hmax, .start hsound hblank hdirectory,
      hblank.view_eq ▸ filled_empty layout.base⟩
  unfold MemoryContext.initHeap at hinit
  simp only [Traced.outcome_bind, Outcome.bind_eq_ok] at hinit
  obtain ⟨⟨answer, growth, pages⟩, hprefill, hinit⟩ := hinit
  have hbacks := hblankBacks.prefill hprefill
  have hplace := continues_prefill hprefill
  obtain ⟨-, hbrk, -⟩ := hblankBacks.inOrder.prefill hprefill
  cases answer with
  | error cause => cases hinit
  | ok _ =>
  simp only [Traced.outcome_bind, Traced.outcome_report, Outcome.ok_bind] at hinit
  cases hinit
  have hnone : GivenUnits.given growth = 0 := by
    show growth.brk / unitBytes = 0
    rw [hbrk]
    exact Nat.zero_div _
  have hstart : (start window.arena growth pages).Sound [] :=
    sound_start window.arena pages hbacks.inOrder hnone
  obtain ⟨⟨free, hrun⟩, ⟨hrunBacks, hrunPlace⟩, hrunBase⟩ :=
    htrace.kept (kept_backs _ growth) hstart ⟨hbacks, .refl growth⟩
  obtain ⟨⟨free', hlast⟩, ⟨hlastBacks, hlastPlace⟩, hlastBase⟩ :=
    hlater.kept (kept_backs _ run.heap.growth) hrun ⟨hrunBacks, .refl _⟩
  have hall := (hplace.trans hrunPlace).trans hlastPlace
  have hbacked : last.Backed layout :=
    hlast.backed hlastBacks hall.start_eq hall.maxBytes_eq
  have hbase : last.base = window.base := hall.window_eq
  have hmapped : ∀ {addr}, addr - window.base < last.heap.growth.brk → last.MappedAt layout addr :=
    fun hlt => hbacked.mappedAt hlastBacks.owned.space
      (hbase.symm ▸ Nat.lt_of_lt_of_le hlt hbacked.brk_le)
  refine ⟨hbacked, hbase, fun addr hle hlt => ?_, fun grant hgrant addr hle hlt => ?_,
    fun call hlegal => ?_⟩
  · apply hmapped
    rw [← hbacked.units_eq]
    omega
  · have hthen : run.Backed layout :=
      hrun.backed hrunBacks (hplace.trans hrunPlace).start_eq (hplace.trans hrunPlace).maxBytes_eq
    obtain ⟨-, hin⟩ := hrun.grant_lt hgrant hle hlt
    rw [hthen.units_eq, ← hlastBase, hbase] at hin
    exact hmapped (Nat.lt_of_lt_of_le hin hlastPlace.brk_le)
  · obtain ⟨next, hnext, -⟩ := hlast.step_ok (faultless_backs _ run.heap.growth)
      (kept_backs _ run.heap.growth) ⟨hlastBacks, hlastPlace⟩ hlegal
    exact ⟨next, hnext⟩

/-- Sixteen pages of RAM, and a window of sixteen pages and a bit that starts with one of them. A
small block is served and given back, a larger one makes the arena grow to three pages, and one
that is larger than the window is refused. Then three pages are mapped, and there is memory behind
the small block. -/
theorem arena_stays_backed_three_pages :
    let map : MemoryMap := ⟨[⟨0x100000, 0x10000, .available⟩], 0x10000⟩
    let kernel : KernelImage := ⟨.ofNat 0x100000, .ofNat 0x101000, by decide⟩
    let layout : HeapLayout := ⟨.ofNat 0x400000, 0x1000, 0x10064⟩
    ∃ allocator mmu heap context run last,
      (FrameAllocator.ofMap map kernel (2 ^ 32) .standard).outcome = .ok (.ok allocator) ∧
      SoftMmu.ofDirectory (Frame.ofIndex 0x100) = .ok mmu ∧
      (MemoryContext.initHeap ⟨0x800000, .empty⟩ ⟨⟨allocator, mmu⟩, layout⟩).outcome =
        .ok (.ok heap, context) ∧
      Trace ⟨heap, context.memory, []⟩ [.allocate 24] run ∧ run.live = [⟨0x800fe0, 24⟩] ∧
      Trace run [.free 0x800fe0, .allocate 6000, .allocate 0x20000] last ∧
      last.heap.growth.mapped = 0x3000 ∧ last.Backed layout ∧ last.MappedAt layout 0x800fe0 := by
  intro map kernel layout
  have hrun : ((FrameAllocator.ofMap map kernel (2 ^ 32) .standard).andThen fun allocator => do
      let mmu ← SoftMmu.ofDirectory (Frame.ofIndex 0x100)
      let (answer, context) ←
        MemoryContext.initHeap ⟨0x800000, .empty⟩ ⟨⟨allocator, mmu⟩, layout⟩
      match answer with
      | .error _ => return none
      | .ok heap =>
        let one ← (⟨heap, context.memory, []⟩ : HeapRun _ _).step (.allocate 24)
        let two ← one.step (.free 0x800fe0)
        let three ← two.step (.allocate 6000)
        let four ← three.step (.allocate 0x20000)
        return some (allocator.isUsed mmu.directory, one.live, four.heap.growth.mapped)).outcome =
      .ok (some (some (true, [⟨0x800fe0, 24⟩], 0x3000))) := by
    decide +kernel
  obtain ⟨allocator, hnew, hrun⟩ := Traced.of_andThen hrun
  simp only [Traced.outcome_bind, Traced.outcome_liftM, Outcome.bind_eq_ok] at hrun
  obtain ⟨mmu, hmmu, ⟨answer, context⟩, hinit, hrun⟩ := hrun
  cases answer with
  | error cause => cases hrun
  | ok heap =>
  simp only [Traced.outcome_bind, Outcome.bind_eq_ok, Traced.outcome_pure, Except.ok.injEq,
    Option.some.injEq, Prod.mk.injEq] at hrun
  obtain ⟨one, hone, two, htwo, three, hthree, four, hfour, hdirectory, hlive, hmapped⟩ := hrun
  have htrace : Trace ⟨heap, context.memory, []⟩ [.allocate 24] one :=
    .call trivial hone (.done one)
  have hfreed : one.Legal (.free 0x800fe0) :=
    ⟨⟨0x800fe0, 24⟩, hlive ▸ List.mem_singleton.mpr rfl, rfl⟩
  have hlater : Trace one [.free 0x800fe0, .allocate 6000, .allocate 0x20000] four :=
    .call hfreed htwo (.call trivial hthree (.call trivial hfour (.done four)))
  have legal : allocator.view.LegalRun [] := trivial
  obtain ⟨hbacked, -, -, hgrants, -⟩ := arena_stays_backed
    (show MemoryMap.ofRegions map.regions map.observedBytes = .ok map from rfl) hnew legal rfl
    (SoftMmu.blank_ofDirectory hmmu) hdirectory (by decide) hinit htrace hlater
  refine ⟨allocator, mmu, heap, context, one, four, hnew, hmmu, hinit, htrace, hlive, hlater,
    hmapped, hbacked, ?_⟩
  exact hgrants ⟨0x800fe0, 24⟩ (hlive ▸ List.mem_singleton.mpr rfl) _ (by decide) (by decide)

end HeapRun

end BootMemory
