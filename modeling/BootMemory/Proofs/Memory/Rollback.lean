import BootMemory.Proofs.Heap.Growth
import BootMemory.Proofs.Memory.Pages
import BootMemory.Proofs.Paging.Lookup

/-!
# Backing pages, and giving them back

A window of a heap is backed page by page, and if a page cannot be backed, those that were backed
before it are given back. Here is what that leaves of a kernel memory: nothing. While the work
lasts, some pages are on loan (`Borrowed`): they were not mapped at the start and they are now,
and apart from them every page is mapped as it was. Backing a page puts it on loan, releasing it
takes it back, and without a loan the memory is as it was (`Borrowed.restored`).

The tables that the loan needed are gone then, too, and the others never moved, so no address
translates differently (`Restored.unchanged`).
-/

set_option autoImplicit false

namespace BootMemory

open TableIndex (recursive)

namespace KernelMemory

open AddressSpace FrameAllocator SoftMmu

variable {outside : Outside} {memory next last current : KernelMemory SoftMmu}
  {page : VirtPage .small} {pages : List (VirtPage .small)} {virt : VirtAddr} {frame : Frame}

/-! ## A memory that is as it was -/

/-- What a user can see of a kernel memory is the same: which frames are used and how many are
free, which slots have a table, and where each address translates to. -/
structure Unchanged (memory next : KernelMemory SoftMmu) : Prop where
  used_eq : next.frames.unavailable = memory.frames.unavailable
  isUsed_eq : ∀ frame, next.frames.isUsed frame = memory.frames.isUsed frame
  freeFrames_eq : next.frames.freeFrames = memory.frames.freeFrames
  present_eq : ∀ slot, (next.space.slotEntry slot).present = (memory.space.slotEntry slot).present
  translate_eq : ∀ virt, ∃ answer memory' next',
    (memory.translate virt).outcome = .ok (answer, memory') ∧
      (next.translate virt).outcome = .ok (answer, next')

/-- A memory is as it was when nothing was done. -/
protected theorem Restored.refl (h : Owned outside memory) : Restored memory memory :=
  restored_of_same h (.refl _)

/-- A table that is there afterwards was there before, in the same frame. -/
theorem Restored.frame_eq (h : Restored memory next) (hmemory : memory.space.Sound)
    {slot : TableIndex} (hpresent : (memory.space.slotEntry slot).present = true) :
    (next.space.slotEntry slot).frame = (memory.space.slotEntry slot).frame :=
  h.steady.frame_eq hpresent ((hmemory.present_eq_of_view_eq h.space h.view_eq slot).trans hpresent)

/-- A memory is as it was if it was so in between. -/
theorem Restored.trans (h : Restored memory next) (h' : Restored next last)
    (hmemory : memory.space.Sound) : Restored memory last := by
  refine ⟨⟨h'.frames.sound, h'.frames.tracked_eq.trans h.frames.tracked_eq,
    h'.frames.unavailable_eq.trans h.frames.unavailable_eq⟩, h'.space, h'.view_eq.trans h.view_eq,
    h'.steady.directory_eq.trans h.steady.directory_eq, fun {slot} hbefore _ => ?_⟩
  have hpresent := hmemory.present_eq_of_view_eq h.space h.view_eq slot
  rw [h'.frame_eq h.space (hpresent.trans hbefore), h.frame_eq hmemory hbefore]

/-- A memory that is as it was looks as it did. -/
theorem Restored.unchanged (h : Restored memory next) (howned : Owned outside memory) :
    Unchanged memory next := by
  have hframes := howned.frames
  refine ⟨h.frames.unavailable_eq, fun frame => ?_, ?_,
    howned.space.present_eq_of_view_eq h.space h.view_eq, fun virt => ?_⟩
  · rw [Bool.eq_iff_iff, h.frames.sound.isUsed_iff, hframes.isUsed_iff, h.frames.tracked_eq,
      h.frames.unavailable_eq]
  · rw [freeFrames, freeFrames, h.frames.sound.total_eq, h.frames.sound.used_eq, hframes.total_eq,
      hframes.used_eq, h.frames.tracked_eq, h.frames.unavailable_eq]
  · obtain ⟨space, houtcome, -⟩ := translate_outcome howned.space.toWindowed virt
    obtain ⟨space', houtcome', -⟩ := translate_outcome h.space.toWindowed virt
    rw [translation_eq_of_steady howned.space h.space h.view_eq h.steady] at houtcome'
    refine ⟨translation memory.space virt, ⟨memory.frames, space⟩, ⟨next.frames, space'⟩, ?_, ?_⟩
    · simp [KernelMemory.translate, houtcome]
    · simp [KernelMemory.translate, houtcome']

/-! ## Pages on loan -/

/-- Some pages were not mapped at the start and are now; all others are mapped as at the start, and
every used frame has one owner. -/
structure Borrowed (outside : Outside) (memory current : KernelMemory SoftMmu)
    (pages : List (VirtPage .small)) : Prop where
  owned : Owned outside current
  tracked_eq : current.frames.tracked = memory.frames.tracked
  nodup : pages.Nodup
  unmapped : ∀ page ∈ pages, memory.space.view page = none
  mapped : ∀ page ∈ pages, ∃ target, current.space.view page = some target
  view_eq : ∀ page, page ∉ pages → current.space.view page = memory.space.view page
  steady : Steady memory.space current.space

namespace Borrowed

/-- At the start no page is on loan. -/
protected theorem refl (h : Owned outside memory) : Borrowed outside memory memory [] :=
  ⟨h, rfl, List.nodup_nil, nofun, nofun, fun _ _ => rfl, (SameTables.refl _).steady⟩

/-- No table goes away as long as pages are on loan. -/
theorem present (b : Borrowed outside memory current pages) (hmemory : memory.space.Sound)
    {slot : TableIndex} (hpresent : (memory.space.slotEntry slot).present = true) :
    (current.space.slotEntry slot).present = true := by
  by_cases hslot : slot = recursive
  · rw [hslot]
    exact b.owned.space.present
  · rw [← hmemory.populated_iff hslot, PageMap.populated_iff] at hpresent
    rw [← b.owned.space.populated_iff hslot, PageMap.populated_iff]
    obtain ⟨page, hpage, hsome⟩ := hpresent
    refine ⟨page, hpage, ?_⟩
    rwa [b.view_eq page]
    intro hm
    rw [b.unmapped page hm] at hsome
    cases hsome

/-- What keeps the tables that are there now keeps those that were there at the start. -/
theorem steady_trans (b : Borrowed outside memory current pages) (hmemory : memory.space.Sound)
    (steady : Steady current.space next.space) : Steady memory.space next.space := by
  refine ⟨steady.directory_eq.trans b.steady.directory_eq, fun {slot} hbefore hafter => ?_⟩
  have hcurrent := b.present hmemory hbefore
  rw [steady.frame_eq hcurrent hafter, b.steady.frame_eq hbefore hcurrent]

/-- A call that changes nothing leaves the loan as it is. -/
theorem of_restored (b : Borrowed outside memory current pages) (hmemory : memory.space.Sound)
    (restored : Restored current next) : Borrowed outside memory next pages := by
  refine ⟨b.owned.restored restored, restored.frames.tracked_eq.trans b.tracked_eq, b.nodup,
    b.unmapped, ?_, ?_, b.steady_trans hmemory restored.steady⟩
  · rw [restored.view_eq]
    exact b.mapped
  · rw [restored.view_eq]
    exact b.view_eq

/-- A page that gets mapped is on loan. -/
theorem gains (b : Borrowed outside memory current pages) (hmemory : memory.space.Sound)
    (howned : Owned outside next) (gains : Gains current virt frame next) :
    Borrowed outside memory next (pages ++ [virt.page .small]) := by
  obtain ⟨target, -, hview⟩ := gains.view_eq
  have hnew : virt.page .small ∉ pages := by
    intro hm
    obtain ⟨other, hother⟩ := b.mapped _ hm
    rw [gains.unmapped] at hother
    exact nomatch hother
  refine ⟨howned, gains.tracked_eq.trans b.tracked_eq, ?_, ?_, ?_, ?_,
    b.steady_trans hmemory gains.steady⟩
  · exact List.nodup_append.mpr ⟨b.nodup, List.nodup_singleton _, fun page hm other hother heq =>
      hnew (List.mem_singleton.mp hother ▸ heq ▸ hm)⟩
  · intro page hm
    rcases List.mem_append.mp hm with hm | hm
    · exact b.unmapped page hm
    · rw [List.mem_singleton.mp hm, ← b.view_eq _ hnew]
      exact gains.unmapped
  · intro page hm
    rw [hview]
    by_cases hpage : page = virt.page .small
    · rw [hpage, Function.update_self]
      exact ⟨target, rfl⟩
    · rw [Function.update_of_ne hpage]
      refine b.mapped page ((List.mem_append.mp hm).resolve_right fun hlast => ?_)
      exact hpage (List.mem_singleton.mp hlast)
  · intro page hm
    rw [List.mem_append, not_or, List.mem_singleton] at hm
    rw [hview, Function.update_of_ne hm.2, b.view_eq page hm.1]

/-- A page that gets unmapped is no longer on loan. -/
theorem loses (b : Borrowed outside memory current (page :: pages)) (hmemory : memory.space.Sound)
    (howned : Owned outside next) (loses : Loses current page.base frame next) :
    Borrowed outside memory next pages := by
  obtain ⟨hnew, hnodup⟩ := List.nodup_cons.mp b.nodup
  have hview := loses.view_eq
  rw [VirtPage.page_base] at hview
  refine ⟨howned, loses.tracked_eq.trans b.tracked_eq, hnodup,
    fun other hm => b.unmapped other (List.mem_cons_of_mem _ hm), ?_, ?_,
    b.steady_trans hmemory loses.steady⟩
  · intro other hm
    have hne : other ≠ page := fun heq => hnew (heq ▸ hm)
    rw [hview, Function.update_of_ne hne]
    exact b.mapped other (List.mem_cons_of_mem _ hm)
  · intro other hm
    rw [hview]
    by_cases hother : other = page
    · rw [hother, Function.update_self, b.unmapped page List.mem_cons_self]
    · rw [Function.update_of_ne hother, b.view_eq other]
      exact List.not_mem_cons_of_ne_of_not_mem hother hm

/-- Backing a page puts it on loan, or leaves the loan as it is. -/
theorem back (b : Borrowed outside memory current pages) (hmemory : memory.space.Sound)
    (virt : VirtAddr) :
    (∃ complaint next, (current.back virt).outcome = .ok (.error complaint, next) ∧
        Borrowed outside memory next pages) ∨
      ∃ page next, (current.back virt).outcome = .ok (.ok (), next) ∧ page.base = virt ∧
        Borrowed outside memory next (pages ++ [page]) := by
  rcases b.owned.back_cases virt with
    ⟨complaint, next, houtcome, restored⟩ | ⟨frame, next, houtcome, howned, gains⟩
  · exact .inl ⟨complaint, next, houtcome, b.of_restored hmemory restored⟩
  · exact .inr ⟨virt.page .small, next, houtcome, VirtPage.base_page gains.aligned,
      b.gains hmemory howned gains⟩

/-- A page on loan can be released. -/
theorem release (b : Borrowed outside memory current (page :: pages))
    (hmemory : memory.space.Sound) :
    ∃ next, (current.release page.base).outcome = .ok next ∧
      Borrowed outside memory next pages := by
  rcases b.owned.release_cases page.base with
    ⟨complaint, next, -, hrefused, -⟩ | ⟨frame, next, houtcome, howned, loses⟩
  · obtain ⟨target, htarget⟩ := b.mapped page List.mem_cons_self
    have hwindow : ¬ page.base.InWindow := (slot_of_view_eq_some htarget).1
    rw [PageMap.unmap, if_neg (not_not_intro page.dvd_base), if_neg hwindow, VirtPage.page_base,
      htarget] at hrefused
    cases hrefused
  · exact ⟨next, houtcome, b.loses hmemory howned loses⟩

/-- Without a page on loan everything is as it was. -/
theorem restored (b : Borrowed outside memory current []) (h : Owned outside memory) :
    Restored memory current := by
  have hview : current.space.view = memory.space.view :=
    funext fun page => b.view_eq page List.not_mem_nil
  refine ⟨⟨b.owned.frames, b.tracked_eq, ?_⟩, b.owned.space, hview, b.steady⟩
  ext number
  rw [b.owned.divided.used_iff, h.divided.used_iff]
  exact exists_congr fun owner =>
    owns_of_view_eq h.space b.owned.space hview b.steady owner number

end Borrowed

/-! ## Requests that are refused -/

/-- What a request leaves: if it was refused nothing has changed, neither the state of who made it
nor the memory, and otherwise every used frame has one owner. -/
def Settled {ε α τ : Type} (outside : Outside) (state : τ) (memory : KernelMemory SoftMmu) :
    Except ε α × τ × KernelMemory SoftMmu → Prop
  | (.error _, state', next) => state' = state ∧ Restored memory next
  | (.ok _, _, next) => Owned outside next

/-- Either way every used frame has one owner afterwards. -/
theorem Settled.owned {ε α τ : Type} {state state' : τ} {answer : Except ε α}
    (h : Settled outside state memory (answer, state', next)) (howned : Owned outside memory) :
    Owned outside next := by
  cases answer with
  | error cause => exact howned.restored h.2
  | ok value => exact h

end KernelMemory

namespace PagedGrowth

open KernelMemory SoftMmu

variable {outside : Outside} {memory current next : KernelMemory SoftMmu}
  {growth other : PagedGrowth} {progress : Progress (KernelMemory SoftMmu)}
  {pages : List (VirtPage .small)} {bytes units : Nat}

/-- How far backing pages has come when it stops, refused or not. -/
def reached {β : Type} : Progress β ⊕ (MappingError × Progress β) → Progress β
  | .inl progress => progress
  | .inr (_, progress) => progress

/-- The pages of a window from an offset on. -/
def PagesFrom (growth : PagedGrowth) : Nat → List (VirtPage .small) → Prop
  | _, [] => True
  | offset, page :: rest =>
    growth.pageAt offset = .ok page.base ∧ PagesFrom growth (offset + pageBytes) rest

/-- The next page of a window is put behind the pages in front of it. -/
theorem PagesFrom.snoc {offset : Nat} {page : VirtPage .small} (h : PagesFrom growth offset pages)
    (hlast : growth.pageAt (offset + pages.length * pageBytes) = .ok page.base) :
    PagesFrom growth offset (pages ++ [page]) := by
  induction pages generalizing offset with
  | nil => exact ⟨by simpa using hlast, trivial⟩
  | cons first rest ih =>
    refine ⟨h.1, ih h.2 ?_⟩
    rwa [List.length_cons, Nat.add_mul, Nat.one_mul, Nat.add_comm _ pageBytes, ← Nat.add_assoc]
      at hlast

/-- The pages of a window behind those that were backed before, up to an offset, are on loan. -/
structure Backed (outside : Outside) (memory : KernelMemory SoftMmu) (growth : PagedGrowth)
    (progress : Progress (KernelMemory SoftMmu)) (pages : List (VirtPage .small)) : Prop where
  borrowed : Borrowed outside memory progress.pages pages
  offset_eq : progress.offset = growth.mapped + pages.length * pageBytes
  pagesFrom : PagesFrom growth growth.mapped pages

/-- Backing one more page puts one more page on loan, unless it is refused. -/
theorem Backed.backNext (h : Backed outside memory growth progress pages)
    (hmemory : memory.space.Sound)
    {result : Progress (KernelMemory SoftMmu) ⊕ (MappingError × Progress (KernelMemory SoftMmu))}
    (hb : (backNext growth progress).outcome = .ok result) :
    ∃ pages', Backed outside memory growth (reached result) pages' := by
  unfold PagedGrowth.backNext at hb
  simp only [Traced.outcome_bind, Traced.outcome_liftM, Outcome.bind_eq_ok] at hb
  obtain ⟨addr, haddr, ⟨answer, next⟩, hback, hb⟩ := hb
  have hback : (progress.pages.back addr).outcome = .ok (answer, next) := hback
  rcases h.borrowed.back hmemory addr with
    ⟨complaint, next', houtcome, b⟩ | ⟨page, next', houtcome, rfl, b⟩
  · rw [houtcome] at hback
    cases hback
    cases hb
    exact ⟨pages, b, h.offset_eq, h.pagesFrom⟩
  · rw [houtcome] at hback
    cases hback
    cases hb
    refine ⟨pages ++ [page], b, ?_, h.pagesFrom.snoc ?_⟩
    · show progress.offset + pageBytes = _
      rw [h.offset_eq, List.length_append, List.length_singleton, Nat.add_mul, Nat.one_mul,
        Nat.add_assoc]
    · rw [← h.offset_eq]
      exact haddr

/-- However many pages are backed one after the other, they are on loan. -/
theorem Backed.loop (hmemory : memory.space.Sound) (rounds : Nat)
    {result : Progress (KernelMemory SoftMmu) ⊕ (MappingError × Progress (KernelMemory SoftMmu))}
    (h : Backed outside memory growth progress pages)
    (hloop : (Traced.loop (PagedGrowth.backNext growth) rounds progress).outcome = .ok result) :
    ∃ pages', Backed outside memory growth (reached result) pages' := by
  induction rounds generalizing progress pages with
  | zero =>
    cases hloop
    exact ⟨pages, h⟩
  | succ rounds ih =>
    rw [Traced.loop_succ, Traced.outcome_bind, Outcome.bind_eq_ok] at hloop
    obtain ⟨first, hfirst, hloop⟩ := hloop
    obtain ⟨pages', h'⟩ := h.backNext hmemory hfirst
    cases first with
    | inl progress => exact ih h' hloop
    | inr refusal =>
      cases hloop
      exact ⟨pages', h'⟩

/-- Pages on loan can be released from the lowest on, and then everything is as it was. -/
theorem releaseRange_restored (h : Owned outside memory) {first stop : Nat}
    (b : Borrowed outside memory current pages) (hpages : PagesFrom growth first pages)
    (hcount : (stop - first) / pageBytes = pages.length) :
    ∃ last, (releaseRange growth first stop current).outcome = .ok last ∧
      Restored memory last := by
  unfold releaseRange
  rw [hcount, List.range_eq_range']
  -- The induction goes along the pages that are still on loan, `start` of them were released.
  have hrelease : ∀ (pages : List (VirtPage .small)) (start : Nat)
      (current : KernelMemory SoftMmu), Borrowed outside memory current pages →
      PagesFrom growth (first + start * pageBytes) pages →
      ∃ last, (Traced.foldl (fun memory index => do
          let addr ← growth.pageAt (first + index * pageBytes)
          PageBacking.release addr memory) current (List.range' start pages.length)).outcome =
        .ok last ∧ Borrowed outside memory last [] := by
    intro pages
    induction pages with
    | nil => exact fun start current b _ => ⟨current, rfl, b⟩
    | cons page pages ih =>
      rintro start current b ⟨haddr, hrest⟩
      obtain ⟨next, hnext, b'⟩ := b.release h.space
      rw [Nat.add_assoc, ← Nat.succ_mul] at hrest
      obtain ⟨last, hlast, b''⟩ := ih (start + 1) next b' hrest
      have hnext : (PageBacking.release page.base current).outcome = .ok next := hnext
      refine ⟨last, ?_, b''⟩
      rw [List.length_cons, List.range'_succ, Traced.foldl_cons, Traced.outcome_bind,
        Traced.outcome_bind, Traced.outcome_liftM, haddr, Outcome.ok_bind, hnext,
        Outcome.ok_bind, hlast]
  obtain ⟨last, hlast, b'⟩ := hrelease pages 0 current b (by simpa using hpages)
  exact ⟨last, hlast, b'.restored h⟩

/-- Backing pages either gets all of them, or leaves nothing behind. -/
theorem backUntil_settled (h : Owned outside memory) {answer : Except GrowthError Unit}
    (hb : (backUntil bytes growth memory).outcome = .ok (answer, other, next)) :
    Settled outside growth memory (answer, other, next) := by
  unfold backUntil at hb
  simp only [Traced.outcome_bind, Outcome.bind_eq_ok] at hb
  obtain ⟨result, hloop, hb⟩ := hb
  have hstart : Backed outside memory growth ⟨growth.mapped, memory⟩ [] :=
    ⟨.refl h, (Nat.add_zero _).symm, trivial⟩
  obtain ⟨pages, hbacked⟩ := hstart.loop h.space _ hloop
  cases result with
  | inr refusal =>
    obtain ⟨cause, progress⟩ := refusal
    have hbacked : Backed outside memory growth progress pages := hbacked
    have hcount : (progress.offset - growth.mapped) / pageBytes = pages.length := by
      rw [hbacked.offset_eq, Nat.add_sub_cancel_left, Nat.mul_div_cancel _ (by decide)]
    obtain ⟨last, hlast, restored⟩ :=
      releaseRange_restored h hbacked.borrowed hbacked.pagesFrom hcount
    simp only [Traced.outcome_bind, Traced.outcome_report, Outcome.ok_bind] at hb
    rw [hlast] at hb
    cases hb
    exact ⟨rfl, restored⟩
  | inl progress =>
    have howned : Owned outside progress.pages := hbacked.borrowed.owned
    simp only at hb
    split_ifs at hb
    · simp only [Traced.outcome_bind, Traced.outcome_report, Outcome.ok_bind] at hb
      cases hb
      exact howned
    · cases hb
      exact howned

/-- Backing pages beforehand either gets all of them, or leaves nothing behind. -/
theorem prefill_settled (h : Owned outside memory) {answer : Except GrowthError Unit}
    (hp : (prefill bytes growth memory).outcome = .ok (answer, other, next)) :
    Settled outside growth memory (answer, other, next) := by
  unfold prefill at hp
  split_ifs at hp
  · cases hp
    exact ⟨rfl, .refl h⟩
  · exact backUntil_settled h hp

/-- An extension gives the arena units, or leaves nothing behind. -/
theorem extend_settled (h : Owned outside memory) {answer : Except GrowthError Nat}
    (he : (ArenaGrowth.extend units growth memory).outcome = .ok (answer, other, next)) :
    Settled outside growth memory (answer, other, next) := by
  cases extendEnds_of_outcome he with
  | short advance => exact ⟨rfl, .refl h⟩
  | unbacked advance backed => exact backUntil_settled h backed
  | given advance backed stop_eq => exact backUntil_settled h backed

end PagedGrowth

end BootMemory
