import BootMemory.Proofs.Paging.Invalidation
import Mathlib.Algebra.BigOperators.Group.Multiset.Basic
import Mathlib.Tactic.Abel

/-!
# The life of a page table

A table is made when the first page of its 4 MiB is mapped and goes when the last one is unmapped.
The book of the source shows it: the frames that were taken and not given back as tables are at any
time those of the tables that are there, and every unmapping gives one more frame back, the one of
its page. So whoever unmaps all pages, in any order, finds the directory as it was in the beginning,
and no frame of a table is missing.
-/

set_option autoImplicit false

namespace BootMemory

open SoftMmu AddressSpace
open TableIndex (recursive)

/-! ## Books -/

/-- The frame that an entry of the book says was taken. -/
def FrameEvent.takenFrame : FrameEvent → Multiset Frame
  | .taken frame => {frame}
  | .returned _ => 0

/-- The frame that an entry of the book says was given back. -/
def FrameEvent.returnedFrame : FrameEvent → Multiset Frame
  | .taken _ => 0
  | .returned frame => {frame}

namespace Booked

variable {σ : Type} [FrameSource σ] {frames rest : Booked σ} {frame : Frame}

/-- The frames that were taken, each as often as it was taken. -/
def taken (frames : Booked σ) : Multiset Frame := (frames.book.map (·.takenFrame)).sum

/-- The frames that were given back, each as often as it was given back. -/
def returned (frames : Booked σ) : Multiset Frame := (frames.book.map (·.returnedFrame)).sum

/-- A frame that is taken is entered as taken. -/
theorem of_allocate (h : FrameSource.allocate frames = some (frame, rest)) :
    rest.taken = {frame} + frames.taken ∧ rest.returned = frames.returned := by
  obtain ⟨left, -, hleft⟩ := Option.map_eq_some_iff.mp h
  cases hleft
  refine ⟨List.sum_cons, ?_⟩
  rw [returned, List.map_cons, List.sum_cons]
  exact zero_add _

/-- Frames that are given back are entered as given back. -/
theorem of_giveBack {given : List Frame} (h : giveBack given frames = .ok rest) :
    rest.taken = frames.taken ∧ rest.returned = frames.returned + given := by
  induction given generalizing frames with
  | nil =>
    cases h
    exact ⟨rfl, (add_zero _).symm⟩
  | cons frame given ih =>
    rw [giveBack_cons] at h
    obtain ⟨middle, hfree, h⟩ := Outcome.bind_eq_ok.mp h
    have hmiddle : middle.taken = frames.taken ∧
        middle.returned = {frame} + frames.returned := by
      change (FrameSource.free frame frames.source >>= fun source =>
        pure (⟨source, .returned frame :: frames.book⟩ : Booked σ)).outcome = _ at hfree
      rw [Traced.outcome_bind] at hfree
      obtain ⟨source, -, hsource⟩ := Outcome.bind_eq_ok.mp hfree
      cases hsource
      refine ⟨?_, List.sum_cons⟩
      rw [taken, List.map_cons, List.sum_cons]
      exact zero_add _
    obtain ⟨htaken, hreturned⟩ := ih h
    refine ⟨htaken.trans hmiddle.1, ?_⟩
    rw [hreturned, hmiddle.2, ← Multiset.cons_coe, ← Multiset.singleton_add]
    abel

end Booked

/-! ## The frames of the tables -/

namespace SoftMmu

variable {mmu next : SoftMmu} {slot : TableIndex}

/-- The frames of the page tables, one for each slot that has a table. -/
def tableStock (mmu : SoftMmu) : Multiset Frame :=
  mmu.populatedSlots.val.map fun slot => (mmu.slotEntry slot).frame

/-- The same slots have tables in the same frames. -/
theorem tableStock_eq (steady : Steady mmu next)
    (hpresent : ∀ slot, slot ≠ recursive →
      (next.slotEntry slot).present = (mmu.slotEntry slot).present) :
    next.tableStock = mmu.tableStock := by
  have hslots : next.populatedSlots = mmu.populatedSlots := by
    ext slot
    rw [mem_populatedSlots, mem_populatedSlots]
    exact and_congr_right fun hslot => by rw [hpresent slot hslot]
  rw [tableStock, tableStock, hslots]
  refine Multiset.map_congr rfl fun slot hslot => ?_
  obtain ⟨hinner, hthere⟩ := mem_populatedSlots.mp (Finset.mem_val.mp hslot)
  exact steady.frame_eq hthere ((hpresent slot hinner).trans hthere)

/-- One slot has a table if it had one before, and so have all others. -/
theorem tableStock_eq_of_others (steady : Steady mmu next)
    (hsame : (next.slotEntry slot).present = (mmu.slotEntry slot).present)
    (hothers : ∀ other, other ≠ recursive → other ≠ slot →
      (next.slotEntry other).present = (mmu.slotEntry other).present) :
    next.tableStock = mmu.tableStock := by
  refine tableStock_eq steady fun other hinner => ?_
  by_cases hother : other = slot
  · rw [hother, hsame]
  · exact hothers other hinner hother

/-- One slot has a table more. -/
theorem tableStock_cons (hslot : slot ≠ recursive) (habsent : (mmu.slotEntry slot).present = false)
    (hpresent : (next.slotEntry slot).present = true)
    (hothers : ∀ other, other ≠ recursive → other ≠ slot →
      (next.slotEntry other).present = (mmu.slotEntry other).present)
    (hframes : ∀ other, (mmu.slotEntry other).present = true →
      (next.slotEntry other).present = true →
        (next.slotEntry other).frame = (mmu.slotEntry other).frame) :
    next.tableStock = {(next.slotEntry slot).frame} + mmu.tableStock := by
  have hnew : slot ∉ mmu.populatedSlots := by
    rw [mem_populatedSlots, habsent]
    exact fun h => nomatch h.2
  have hslots : next.populatedSlots = insert slot mmu.populatedSlots := by
    ext other
    rw [Finset.mem_insert, mem_populatedSlots, mem_populatedSlots]
    by_cases hother : other = slot
    · subst hother
      exact iff_of_true ⟨hslot, hpresent⟩ (.inl rfl)
    · rw [or_iff_right hother]
      exact and_congr_right fun hinner => by rw [hothers other hinner hother]
  rw [tableStock, hslots, Finset.insert_val_of_notMem hnew, Multiset.map_cons,
    Multiset.singleton_add]
  refine congrArg _ (Multiset.map_congr rfl fun other hother => ?_)
  have hother := Finset.mem_val.mp hother
  have hthere := (mem_populatedSlots.mp hother).2
  refine hframes other hthere ((mem_populatedSlots.mp ?_).2)
  rw [hslots]
  exact Finset.mem_insert_of_mem hother

/-- The directory is its entries. -/
theorem load_directory_eq (hdirectory : next.directory = mmu.directory)
    (h : ∀ slot, next.slotEntry slot = mmu.slotEntry slot) :
    next.ram.load mmu.directory.index = mmu.ram.load mmu.directory.index := by
  apply PageTable.ext
  apply Vector.ext
  intro i hi
  have hentry := h ⟨i, hi⟩
  rw [slotEntry, slotEntry, hdirectory] at hentry
  exact hentry

/-- Without a mapped page no slot but the last has a table. -/
theorem absent_of_empty (h : mmu.Sound) (hempty : mmu.view = .empty) (hslot : slot ≠ recursive) :
    (mmu.slotEntry slot).present = false := by
  rw [← Bool.not_eq_true, ← h.populated_iff hslot, hempty]
  rintro ⟨position, hsome⟩
  cases hsome

/-- Without a mapped page there is no table. -/
theorem tableStock_of_empty (h : mmu.Sound) (hempty : mmu.view = .empty) : mmu.tableStock = 0 := by
  have hnone : mmu.populatedSlots = ∅ := by
    refine Finset.eq_empty_of_forall_notMem fun slot hslot => ?_
    obtain ⟨hinner, hpresent⟩ := mem_populatedSlots.mp hslot
    rw [absent_of_empty h hempty hinner] at hpresent
    cases hpresent
  rw [tableStock, hnone]
  rfl

end SoftMmu

/-! ## The balance of a run -/

/-- A mapped page outside the window is unmapped. -/
theorem PageMap.unmap_of_mapped {pages : PageMap} {page : VirtPage .small} {target : Mapping}
    (h : pages page = some target) (hinner : page.slot ≠ recursive) :
    pages.unmap page.base = (.ok target.frame, Function.update pages page none) := by
  have hwindow : ¬page.base.InWindow := hinner
  rw [unmap, if_neg (not_not.mpr page.dvd_base), if_neg hwindow, VirtPage.page_base, h]

/-- The frame behind the page that an answer says is unmapped. -/
def PageAnswer.unmappedFrame : PageAnswer → Multiset Frame
  | .unmapped (.ok frame) => {frame}
  | .unmapped (.error _) | .mapped _ | .entry _ | .address _ | .flag _ => 0

/-- Who only looks at the tables unmaps nothing. -/
theorem unmappedFrame_of_lookup {pages : PageMap} {dry : Bool} {call : PageCall}
    {answer : PageAnswer} (hlookup : call.IsLookup) (h : pages.Answers dry call answer) :
    answer.unmappedFrame = 0 := by
  cases call with
  | map phys virt flags mode => exact hlookup.elim
  | unmap virt => exact hlookup.elim
  | entry virt | translate virt | isMapped virt =>
    cases answer with
    | unmapped gone => exact h.elim
    | mapped made => rfl
    | entry found => rfl
    | address found => rfl
    | flag mapped => rfl

/-- The frames behind the pages that a run has unmapped. -/
def unmappedFrames (events : List PageEvent) : Multiset Frame :=
  (events.map (·.answer.unmappedFrame)).sum

namespace PagedMemory

variable {σ : Type} {memory next first middle last : PagedMemory (Booked σ)}

/-- What came and went: the frames that were given back are those of unmapped pages and those of
freed tables, and the frames that were taken went into freed tables and into those that are there
and were not before. -/
structure Balanced (first : PagedMemory (Booked σ)) (unmapped freed : Multiset Frame)
    (last : PagedMemory (Booked σ)) : Prop where
  returned_eq : last.frames.returned = first.frames.returned + (freed + unmapped)
  taken_eq : last.frames.taken + first.mmu.tableStock =
    first.frames.taken + (freed + last.mmu.tableStock)

/-- What came and went in two runs in a row adds up. -/
theorem Balanced.trans {unmapped unmapped' freed freed' : Multiset Frame}
    (h : Balanced first unmapped freed middle) (h' : Balanced middle unmapped' freed' last) :
    Balanced first (unmapped + unmapped') (freed + freed') last := by
  constructor
  · rw [h'.returned_eq, h.returned_eq]
    abel
  · apply add_right_cancel (b := middle.mmu.tableStock)
    calc last.frames.taken + first.mmu.tableStock + middle.mmu.tableStock
        = last.frames.taken + middle.mmu.tableStock + first.mmu.tableStock := by abel
      _ = middle.frames.taken + first.mmu.tableStock + (freed' + last.mmu.tableStock) := by
          rw [h'.taken_eq]
          abel
      _ = first.frames.taken + (freed + freed' + last.mmu.tableStock) +
            middle.mmu.tableStock := by
          rw [h.taken_eq]
          abel

/-- Nothing comes and nothing goes if the same slots have their tables and the source stays as it
is. -/
theorem balanced_of_tableStock_eq (hframes : next.frames = memory.frames)
    (hstock : next.mmu.tableStock = memory.mmu.tableStock) : Balanced memory 0 0 next := by
  constructor
  · rw [hframes, add_zero, add_zero]
  · rw [hframes, hstock, zero_add]

variable [FrameSource σ] {call : PageCall} {answer : PageAnswer} {events : List PageEvent}
  {virt : VirtAddr}

/-- A mapping takes a frame exactly if its slot gets a table. -/
theorem Mapped.balanced {phys : PhysAddr} {flags : PageFlags} {mode : MapMode}
    {made : Except MappingError Unit} (mapped : memory.Mapped phys virt flags mode made next)
    (h : memory.mmu.Sound) : Balanced memory 0 0 next := by
  have hcharged := mapped.charged
  rcases mapped.view_cases with ⟨complaint, -, hview⟩ | ⟨target, -, -, -, hview⟩
  · have hsame := h.present_eq_of_view_eq mapped.sound hview
    rw [Charged, if_pos (hsame _)] at hcharged
    exact balanced_of_tableStock_eq hcharged (tableStock_eq mapped.steady fun slot _ => hsame slot)
  · have hself : next.mmu.view (virt.page .small) = some target :=
      (congrFun hview _).trans (Function.update_self ..)
    obtain ⟨hslot, hpresent⟩ := slot_of_view_eq_some hself
    rw [VirtPage.slot_page] at hslot hpresent
    have hothers : ∀ other, other ≠ recursive → other ≠ virt.directoryIndex →
        (next.mmu.slotEntry other).present = (memory.mmu.slotEntry other).present := by
      intro other hinner hother
      exact present_of_update h mapped.sound hview hinner (by rwa [VirtPage.slot_page])
    cases hbefore : (memory.mmu.slotEntry virt.directoryIndex).present with
    | true =>
      have hsame := hpresent.trans hbefore.symm
      rw [Charged, if_pos hsame] at hcharged
      exact balanced_of_tableStock_eq hcharged
        (tableStock_eq_of_others mapped.steady hsame hothers)
    | false =>
      rw [Charged, hpresent, hbefore, if_neg (Ne.symm Bool.false_ne_true)] at hcharged
      obtain ⟨htaken, hreturned⟩ := Booked.of_allocate hcharged
      have hstock := tableStock_cons hslot hbefore hpresent hothers
        fun _ hthere hkept => mapped.steady.frame_eq hthere hkept
      constructor
      · rw [hreturned, add_zero, add_zero]
      · rw [htaken, hstock]
        abel

/-- An unmapping gives back the frame of its page, and the one of its table exactly if its slot
loses it. -/
theorem Unmapped.balanced {gone : Except MappingError Frame}
    (unmapped : memory.Unmapped virt gone next) (h : memory.mmu.Sound) :
    ∃ freed, Balanced memory (PageAnswer.unmapped gone).unmappedFrame freed next := by
  have hreturned := unmapped.returned
  rcases unmapped.view_cases with ⟨complaint, rfl, hview⟩ | ⟨target, rfl, -, hmapped, hview⟩
  · have hframes : next.frames = memory.frames := (Except.ok.inj hreturned).symm
    refine ⟨0, balanced_of_tableStock_eq hframes (tableStock_eq unmapped.steady fun slot _ => ?_)⟩
    exact h.present_eq_of_view_eq unmapped.sound hview slot
  · obtain ⟨hslot, hpresent⟩ := slot_of_view_eq_some hmapped
    rw [VirtPage.slot_page] at hslot hpresent
    have hothers : ∀ other, other ≠ recursive → other ≠ virt.directoryIndex →
        (next.mmu.slotEntry other).present = (memory.mmu.slotEntry other).present := by
      intro other hinner hother
      exact present_of_update h unmapped.sound hview hinner (by rwa [VirtPage.slot_page])
    obtain ⟨htaken, hreturned⟩ := Booked.of_giveBack hreturned
    cases hafter : (next.mmu.slotEntry virt.directoryIndex).present with
    | true =>
      rw [released, hafter, if_pos rfl] at hreturned
      refine ⟨0, ?_, ?_⟩
      · rw [hreturned, zero_add]
        rfl
      · rw [htaken, zero_add,
          tableStock_eq_of_others unmapped.steady (hafter.trans hpresent.symm) hothers]
    | false =>
      rw [released, hafter, if_neg Bool.false_ne_true] at hreturned
      have hstock := tableStock_cons hslot hafter hpresent
        (fun other hinner hother => (hothers other hinner hother).symm)
        fun _ hkept hthere => (unmapped.steady.frame_eq hthere hkept).symm
      refine ⟨{(memory.mmu.slotEntry virt.directoryIndex).frame}, ?_, ?_⟩
      · rw [hreturned, ← Multiset.cons_coe, ← Multiset.singleton_add]
        exact congrArg _ (add_comm _ _)
      · rw [htaken, hstock]

/-- A call sweeps up and leaves a balance. -/
theorem step_balanced (h : memory.mmu.Sound) (spares : Spares memory.mmu memory.frames call)
    (outcome : (memory.step call).outcome = .ok (answer, next)) :
    Swept memory.mmu next.mmu ∧ ∃ freed, Balanced memory answer.unmappedFrame freed next := by
  have hlegal := legal_of_answered h spares outcome
  cases call with
  | map phys virt flags mode =>
    obtain ⟨made, rfl, hmapped⟩ := mapped_of_answered h hlegal outcome
    exact ⟨hmapped.swept, 0, hmapped.balanced h⟩
  | unmap virt =>
    obtain ⟨gone, rfl, hunmapped⟩ := unmapped_of_answered h outcome
    exact ⟨hunmapped.swept, hunmapped.balanced h⟩
  | entry virt | translate virt | isMapped virt =>
    obtain ⟨hquiet, hframes⟩ := quiet_of_lookup h.toWindowed (by exact trivial) outcome
    have hstock := tableStock_eq hquiet.steady fun slot _ => by rw [hquiet.slotEntry_eq]
    rw [unmappedFrame_of_lookup (by exact trivial) (step_of_spares h spares outcome).1]
    exact ⟨swept_of_same hquiet.toSameTables, 0, balanced_of_tableStock_eq hframes hstock⟩

/-- A run sweeps up and leaves a balance. -/
theorem Spared.balanced (run : Spared first events last) (h : first.mmu.Sound) :
    Swept first.mmu last.mmu ∧ ∃ freed, Balanced first (unmappedFrames events) freed last := by
  induction run with
  | done memory =>
    exact ⟨swept_of_same (.refl _), 0, balanced_of_tableStock_eq rfl rfl⟩
  | call spares outcome rest ih =>
    obtain ⟨hswept, freed, hbalanced⟩ := step_balanced h spares outcome
    obtain ⟨hswept', freed', hbalanced'⟩ := ih (step_of_spares h spares outcome).2.1
    refine ⟨hswept.trans hswept', freed + freed', ?_⟩
    rw [unmappedFrames, List.map_cons, List.sum_cons]
    exact hbalanced.trans hbalanced'

/-! ## Unmapping everything -/

/-- Unmapping all pages, in any order, leaves no page mapped, unless the source refuses a frame. -/
theorem unmap_all (h : first.mmu.Sound) {pages : List (VirtPage .small)} (hnodup : pages.Nodup)
    (hpages : ∀ page, page ∈ pages ↔ (first.view page).isSome = true) :
    (∃ events last, Spared first events last ∧
        events.map (·.call) = pages.map (fun page => .unmap page.base) ∧
        (∀ event ∈ events, event.answer.isComplaint = false) ∧ last.view = .empty) ∨
      ∃ events middle page fault, Spared first events middle ∧ page ∈ pages ∧
        middle.Refuses (.unmap page.base) fault ∧
        (middle.step (.unmap page.base)).outcome = .error fault := by
  induction pages generalizing first with
  | nil =>
    refine .inl ⟨[], first, .done first, rfl, (fun _ hm => nomatch hm),
      funext fun page => ?_⟩
    rw [PageMap.empty, ← Option.not_isSome_iff_eq_none, ← hpages]
    exact List.not_mem_nil
  | cons page pages ih =>
    obtain ⟨hfirst, hnodup⟩ := List.nodup_cons.mp hnodup
    have hmapped := (hpages page).mp List.mem_cons_self
    obtain ⟨target, hmapped⟩ := Option.isSome_iff_exists.mp hmapped
    have spares : Spares first.mmu first.frames (.unmap page.base) := trivial
    rcases answered_of_spares h spares with
      ⟨answer, next, outcome⟩ | ⟨fault, hrefuses | ⟨hover, -⟩, hfault⟩
    · obtain ⟨gone, rfl, hunmapped⟩ := unmapped_of_answered h outcome
      have hunmap := PageMap.unmap_of_mapped hmapped (slot_of_view_eq_some hmapped).1
      have hview : next.view = Function.update first.view page none :=
        hunmapped.view_eq.trans (congrArg Prod.snd hunmap)
      have hrest : ∀ other, other ∈ pages ↔ (next.view other).isSome = true := by
        intro other
        rw [hview]
        by_cases hother : other = page
        · subst hother
          rw [Function.update_self]
          exact iff_of_false hfirst Bool.false_ne_true
        · rw [Function.update_of_ne hother, ← hpages, List.mem_cons, or_iff_right hother]
      have hanswer : (PageAnswer.unmapped gone).isComplaint = false := by
        rw [hunmapped.answer_eq, hunmap]
        rfl
      rcases ih hunmapped.sound hnodup hrest with
        ⟨events, last, run, hcalls, hanswers, hempty⟩ |
          ⟨events, middle, other, fault, run, hmember, hrefuses⟩
      · refine .inl ⟨_, last, .call spares outcome run, ?_, ?_, hempty⟩
        · rw [List.map_cons, List.map_cons, hcalls]
        · exact List.forall_mem_cons.mpr ⟨hanswer, hanswers⟩
      · exact .inr ⟨_, middle, other, fault, .call spares outcome run,
          List.mem_cons_of_mem page hmember, hrefuses⟩
    · exact .inr ⟨[], first, page, fault, .done first, List.mem_cons_self, hrefuses, hfault⟩
    · exact hover.elim

/-- Tables that come and go as they should: a slot other than the last has one exactly as long as
the page walk finds a page of it, the entry of a slot without a table is zero, the last one never
changes, and no two tables share a frame. The book is balanced: every frame that was taken is in a
table that is there, or was freed with its table, and what was given back is the freed frames and
those of the unmapped pages. -/
structure WellKept (start : SoftMmu) (events : List PageEvent)
    (memory : PagedMemory (Booked σ)) : Prop where
  present_iff : ∀ slot, slot ≠ recursive → ((memory.mmu.slotEntry slot).present = true ↔
    ∃ page : VirtPage .small, page.slot = slot ∧ (memory.mmu.walk page.base).1.isSome = true)
  absent_eq : ∀ slot, (memory.mmu.slotEntry slot).present = false →
    memory.mmu.slotEntry slot = .empty
  directory_eq : memory.mmu.directory = start.directory
  recursive_eq : memory.mmu.slotEntry recursive = start.slotEntry recursive
  slot_eq : ∀ slot other, (memory.mmu.slotEntry slot).present = true →
    (memory.mmu.slotEntry other).present = true →
      (memory.mmu.slotEntry slot).frame = (memory.mmu.slotEntry other).frame → slot = other
  balanced : ∃ freed, memory.frames.taken = freed + memory.mmu.tableStock ∧
    memory.frames.returned = freed + unmappedFrames events

/-- The page walk finds a page outside the window exactly if it is in the map. -/
theorem isSome_walk {mmu : SoftMmu} {page : VirtPage .small} (hinner : page.slot ≠ recursive) :
    (mmu.walk page.base).1.isSome = (mmu.view page).isSome := by
  have hwindow : ¬page.base.InWindow := hinner
  rw [walk_eq_translation, translation_eq mmu hwindow, PageMap.translate, VirtPage.page_base,
    Option.isSome_map]

/-- A run from a new directory keeps its tables well. -/
theorem Spared.wellKept {directory : Frame} {mmu : SoftMmu}
    (hnew : SoftMmu.ofDirectory directory = .ok mmu) {frames : σ}
    (run : Spared ⟨mmu, ⟨frames, []⟩⟩ events last) : last.WellKept mmu events := by
  have hblank := blank_ofDirectory hnew
  obtain ⟨-, entry, hentry, -, hentries⟩ := ofDirectory_slotEntry hnew
  have hsound := run.sound hblank.sound
  have hstock := tableStock_of_empty hblank.sound hblank.view_eq
  obtain ⟨hswept, freed, hreturned, htaken⟩ := run.balanced hblank.sound
  refine ⟨fun slot hslot => ?_, fun slot habsent => ?_, hswept.directory_eq, hswept.recursive_eq,
    fun slot other => hsound.eq_of_frame_eq, freed, ?_, ?_⟩
  · rw [← hsound.populated_iff hslot, PageMap.populated_iff]
    refine exists_congr fun page => and_congr_right ?_
    rintro rfl
    rw [isSome_walk hslot]
  · refine (hswept.absent habsent).elim (fun hsame => ?_) id
    rw [hsame] at habsent ⊢
    rw [hentries] at habsent ⊢
    split
    case isTrue hlast =>
      rw [if_pos hlast, hentry] at habsent
      cases habsent
    case isFalse => rfl
  · rw [hstock, add_zero] at htaken
    exact htaken.trans (zero_add _)
  · exact hreturned.trans (zero_add _)

/-- The life of the tables. Over a new directory and any source of frames that spares the tables,
the tables are well kept after every call, whether it was refused or not. Whoever then unmaps all
pages that are mapped, in any order, finds each of them mapped; in the end the directory is what it
was in the beginning, entry by entry, and all frames that were ever taken for tables have been given
back, unless the source refuses one of the frames on the way, and the unmapping faults. -/
theorem page_table_lifecycle {directory : Frame} {mmu : SoftMmu}
    (hnew : SoftMmu.ofDirectory directory = .ok mmu) {frames : σ}
    (run : Spared ⟨mmu, ⟨frames, []⟩⟩ events last) :
    last.WellKept mmu events ∧ ∀ pages : List (VirtPage .small), pages.Nodup →
      (∀ page, page ∈ pages ↔
        page.slot ≠ recursive ∧ (last.mmu.walk page.base).1.isSome = true) →
      (∃ more final, Spared last more final ∧
          more.map (·.call) = pages.map (fun page => .unmap page.base) ∧
          (∀ event ∈ more, event.answer.isComplaint = false) ∧
          final.mmu.directory = mmu.directory ∧
          final.mmu.ram.load mmu.directory.index = mmu.ram.load mmu.directory.index ∧
          final.frames.returned = final.frames.taken + unmappedFrames (events ++ more)) ∨
        ∃ more middle page fault, Spared last more middle ∧ page ∈ pages ∧
          middle.Refuses (.unmap page.base) fault ∧
          (middle.step (.unmap page.base)).outcome = .error fault := by
  have hkept := run.wellKept hnew
  refine ⟨hkept, fun pages hnodup hpages => ?_⟩
  have hblank := blank_ofDirectory hnew
  have hsound := run.sound hblank.sound
  have hmapped : ∀ page, page ∈ pages ↔ (last.view page).isSome = true := by
    intro page
    rw [hpages]
    by_cases hinner : page.slot = recursive
    · rw [PagedMemory.view, view_of_recursive hinner]
      exact iff_of_false (fun h => h.1 hinner) Bool.false_ne_true
    · rw [isSome_walk hinner]
      exact and_iff_right hinner
  refine (unmap_all hsound hnodup hmapped).imp_left ?_
  rintro ⟨more, final, run', hcalls, hanswers, hempty⟩
  have hfinal := (run.append run').wellKept hnew
  have hsound' := run'.sound hsound
  obtain ⟨freed, htaken, hreturned⟩ := hfinal.balanced
  rw [tableStock_of_empty hsound' hempty, add_zero] at htaken
  refine ⟨more, final, run', hcalls, hanswers, hfinal.directory_eq, ?_, ?_⟩
  · have hstart := (Spared.done (PagedMemory.mk mmu (Booked.mk frames []))).wellKept hnew
    refine load_directory_eq hfinal.directory_eq fun slot => ?_
    by_cases hslot : slot = recursive
    · rw [hslot]
      exact hfinal.recursive_eq
    · have hbefore := hstart.absent_eq slot (absent_of_empty hblank.sound hblank.view_eq hslot)
      exact (hfinal.absent_eq slot (absent_of_empty hsound' hempty hslot)).trans hbefore.symm
  · rw [htaken, hreturned]

/-- A stack of frames takes every frame back. -/
theorem not_refuses {memory : PagedMemory (Booked FrameStack)} {call : PageCall} {fault : Fault} :
    ¬memory.Refuses call fault := by
  have htakes : ∀ (given : List Frame) (frames : Booked FrameStack),
      giveBack given frames ≠ .error fault := by
    intro given
    induction given with
    | nil => exact fun frames h => nomatch h
    | cons frame given ih => exact fun frames h => ih _ h
  rintro ⟨virt, -, hrefused⟩
  exact htakes _ _ hrefused

/-- One page is mapped and unmapped again. -/
theorem page_table_lifecycle_one_page :
    let frames : FrameStack := ⟨0x101, 0x110, []⟩
    let virt : VirtAddr := .ofNat 0x400000
    let events : List PageEvent :=
      [⟨.map (.ofNat 0x5000) virt .kernel .fresh, false, .mapped (.ok ())⟩]
    ∃ mmu last more final, SoftMmu.ofDirectory (Frame.ofIndex 0x100) = .ok mmu ∧
      Spared ⟨mmu, ⟨frames, []⟩⟩ events last ∧ last.WellKept mmu events ∧
      Spared last more final ∧ more.map (·.call) = [.unmap (virt.page .small).base] ∧
      final.mmu.ram.load mmu.directory.index = mmu.ram.load mmu.directory.index ∧
      final.frames.returned = final.frames.taken + unmappedFrames (events ++ more) := by
  intro frames virt events
  have hrun : (do
      let mmu ← SoftMmu.ofDirectory (Frame.ofIndex 0x100)
      let one ← step ⟨mmu, Booked.mk frames []⟩ (.map (.ofNat 0x5000) virt .kernel .fresh)
      return one.1 : Traced PageAnswer).outcome = .ok (.mapped (.ok ())) := by
    decide +kernel
  simp only [Traced.outcome_bind, Traced.outcome_liftM, Outcome.bind_eq_ok, Traced.outcome_pure,
    Except.ok.injEq] at hrun
  obtain ⟨mmu, hnew, ⟨answer, last⟩, hlast, rfl⟩ := hrun
  have spares : Spares mmu (Booked.mk frames []) (.map (.ofNat 0x5000) virt .kernel .fresh) := by
    intro _ _ taken htake
    cases htake
    exact spare_ofDirectory hnew (by decide)
  have run := Spared.call spares hlast (.done last)
  obtain ⟨hsound, hempty⟩ := sound_ofDirectory hnew
  obtain ⟨target, hview⟩ : ∃ target, last.view =
      Function.update PageMap.empty (virt.page .small) (some target) := by
    obtain ⟨made, hmade, hmapped⟩ :=
      mapped_of_answered hsound (legal_of_answered hsound spares hlast) hlast
    rcases hmapped.view_cases with ⟨complaint, rfl, -⟩ | ⟨target, -, -, -, hview⟩
    · cases hmade
    · exact ⟨target, hempty ▸ hview⟩
  have hpages : ∀ page, page ∈ [virt.page .small] ↔
      page.slot ≠ recursive ∧ (last.mmu.walk page.base).1.isSome = true := by
    intro page
    rw [List.mem_singleton]
    by_cases hinner : page.slot = recursive
    · refine iff_of_false ?_ fun h => h.1 hinner
      rintro rfl
      exact absurd hinner (by decide)
    · rw [isSome_walk hinner, and_iff_right hinner, show last.mmu.view = _ from hview]
      by_cases hpage : page = virt.page .small
      · rw [hpage, Function.update_self]
        exact iff_of_true rfl rfl
      · rw [Function.update_of_ne hpage]
        exact iff_of_false hpage Bool.false_ne_true
  obtain ⟨hkept, hunmap⟩ := page_table_lifecycle hnew run
  rcases hunmap [virt.page .small] (List.nodup_singleton _) hpages with
    ⟨more, final, run', hcalls, -, -, hload, hreturned⟩ | ⟨_, _, _, _, -, -, hrefuses, -⟩
  · exact ⟨mmu, last, more, final, hnew, run, hkept, run', hcalls, hload, hreturned⟩
  · exact absurd hrefuses not_refuses

end PagedMemory

end BootMemory
