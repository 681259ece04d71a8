import BootMemory.Proofs.Paging.Changes
import BootMemory.Proofs.Paging.Spared

/-!
# No stale translation

The processor keeps translations until it is told to forget them. A mapping changes what one page
translates to, and an unmapping does so too; besides that, the window page of a table shows nothing
any more when the table goes. All other pages, those of the window included, translate as before.
So the pages that a call tells the processor to forget are enough, and they are no others.
-/

set_option autoImplicit false

namespace BootMemory

open SoftMmu AddressSpace
open TableIndex (recursive)

/-! ## Which translations change -/

namespace SoftMmu

variable {mmu next : SoftMmu} {virt : VirtAddr} {page : VirtPage .small} {target : PhysAddr}

/-- A page of the window is the window page of the slot that it shows. -/
theorem window_position (h : page.slot = recursive) :
    TableIndex.window page.position = page.base := by
  have hwhole := VirtAddr.toNat_ofIndices_add_pageOffset page.base
  have haligned : page.base.pageOffset.val = 0 := Nat.mod_eq_zero_of_dvd page.dvd_base
  rw [haligned, Nat.add_zero] at hwhole
  rw [TableIndex.window, ← h]
  exact VirtAddr.ext hwhole

/-- A page of the window that translates differently shows a slot that has lost its table. -/
theorem lost_of_stale (h : mmu.Windowed) (h' : next.Windowed) (steady : Steady mmu next)
    (hwindow : virt.InWindow) (hbefore : translation mmu virt = some target)
    (hafter : translation next virt ≠ some target) :
    (mmu.slotEntry virt.tableIndex).present = true ∧
      (next.slotEntry virt.tableIndex).present = false := by
  have hpresent : (mmu.slotEntry virt.tableIndex).present = true := by
    by_contra habsent
    rw [translation, entryAt_of_inWindow h hwindow, Option.filter_some, if_neg habsent] at hbefore
    cases hbefore
  refine ⟨hpresent, ?_⟩
  by_contra hkept
  have hsame := (Bool.ne_false_iff.mp hkept).trans hpresent.symm
  rw [translation_window_eq h h' steady hwindow hsame] at hafter
  exact hafter hbefore

/-- If only one page is mapped differently, only that page translates differently, and the window
page of its slot if the slot has lost its table. -/
theorem stale_of_update (h : mmu.Sound) (h' : next.Sound) (steady : Steady mmu next)
    (haligned : 4096 ∣ virt.toNat) {changed : Option Mapping}
    (hview : next.view = Function.update mmu.view (virt.page .small) changed)
    (hbefore : (mmu.walk page.base).1 = some target)
    (hafter : (next.walk page.base).1 ≠ some target) :
    page.base = virt ∨ page.base = TableIndex.window virt.directoryIndex ∧
      (next.slotEntry virt.directoryIndex).present = false := by
  rw [walk_eq_translation] at hbefore hafter
  by_cases hwindow : page.base.InWindow
  · obtain ⟨hpresent, habsent⟩ :=
      lost_of_stale h.toWindowed h'.toWindowed steady hwindow hbefore hafter
    have hslot : page.base.tableIndex ≠ recursive := by
      intro hslot
      rw [hslot, h'.present] at habsent
      cases habsent
    have hsame : page.base.tableIndex = virt.directoryIndex := by
      by_contra hother
      rw [present_of_update h h' hview hslot (by rwa [VirtPage.slot_page])] at habsent
      rw [hpresent] at habsent
      cases habsent
    refine .inr ⟨?_, hsame ▸ habsent⟩
    rw [← hsame]
    exact (window_position hwindow).symm
  · left
    rw [translation_eq mmu hwindow, PageMap.translate, VirtPage.page_base] at hbefore
    rw [translation_eq next hwindow, PageMap.translate, VirtPage.page_base, hview] at hafter
    by_contra hother
    have hpage : page ≠ virt.page .small := by
      rintro rfl
      exact hother (VirtPage.base_page haligned)
    rw [Function.update_of_ne hpage] at hafter
    exact hafter hbefore

end SoftMmu

/-- The address that a call is about. -/
def PageCall.virt : PageCall → VirtAddr
  | .map _ virt _ _ | .unmap virt | .entry virt | .translate virt | .isMapped virt => virt

/-- Whether a call was refused. -/
def PageAnswer.isComplaint : PageAnswer → Bool
  | .mapped answer => !answer.isOk
  | .unmapped answer => !answer.isOk
  | .entry _ | .address _ | .flag _ => false

/-! ## What calls announce -/

/-- The pages that a call about an address makes the processor forget, oldest first: those that
translate differently are among them, a complaint forgets none, and there is no page among them but
the one at the address and the window page of its table. -/
structure Announced (mmu : SoftMmu) (virt : VirtAddr) (complaint : Bool) (next : SoftMmu)
    (forgotten : List VirtAddr) : Prop where
  invalidations_eq : next.invalidations = mmu.invalidations ++ forgotten
  stale : ∀ (page : VirtPage .small) (target : PhysAddr), (mmu.walk page.base).1 = some target →
    (next.walk page.base).1 ≠ some target → page.base ∈ forgotten
  silent : complaint = true → forgotten = []
  own : ∀ addr ∈ forgotten, addr = virt ∨ addr = TableIndex.window virt.directoryIndex

namespace SoftMmu

variable {mmu next : SoftMmu} {virt : VirtAddr}

/-- Nothing has to be forgotten if the map stays as it is. -/
theorem announced_of_view_eq (h : mmu.Sound) (h' : next.Sound) (hview : next.view = mmu.view)
    (steady : Steady mmu next) (hforgot : next.invalidated = mmu.invalidated) (virt : VirtAddr)
    (complaint : Bool) : Announced mmu virt complaint next [] := by
  refine ⟨?_, fun page target hbefore hafter => ?_, fun _ => rfl, fun _ hm => nomatch hm⟩
  · rw [invalidations, invalidations, hforgot, List.append_nil]
  · rw [walk_eq_translation] at hbefore hafter
    rw [translation_eq_of_steady h h' hview steady] at hafter
    exact absurd hbefore hafter

/-- If one page is mapped differently, that page has to be forgotten, and its window page if its
slot has lost its table. -/
theorem announced_of_update (h : mmu.Sound) (h' : next.Sound) (steady : Steady mmu next)
    (haligned : 4096 ∣ virt.toNat) {changed : Option Mapping}
    (hview : next.view = Function.update mmu.view (virt.page .small) changed)
    {forgotten : List VirtAddr} (hforgot : next.invalidated = forgotten.reverse ++ mmu.invalidated)
    (hself : virt ∈ forgotten) (hwindow : (next.slotEntry virt.directoryIndex).present = false →
      TableIndex.window virt.directoryIndex ∈ forgotten)
    (hown : ∀ addr ∈ forgotten, addr = virt ∨ addr = TableIndex.window virt.directoryIndex) :
    Announced mmu virt false next forgotten := by
  refine ⟨?_, fun page target hbefore hafter => ?_, ?_, hown⟩
  · rw [invalidations, invalidations, hforgot, List.reverse_append, List.reverse_reverse]
  · rcases stale_of_update h h' steady haligned hview hbefore hafter with hpage | ⟨hpage, habsent⟩
    · exact hpage ▸ hself
    · exact hpage ▸ hwindow habsent
  · intro hfalse
    cases hfalse

end SoftMmu

namespace PagedMemory

variable {σ : Type} [FrameSource σ] {memory next last : PagedMemory σ} {call : PageCall}
  {events : List PageEvent} {virt : VirtAddr}

/-- A mapping announces the page, and before that the window page of a new table. -/
theorem Mapped.announced {phys : PhysAddr} {flags : PageFlags} {mode : MapMode}
    {made : Except MappingError Unit} (mapped : memory.Mapped phys virt flags mode made next)
    (h : memory.mmu.Sound) :
    ∃ forgotten, Announced memory.mmu virt (!made.isOk) next.mmu forgotten := by
  have hforgot := mapped.invalidated_eq
  rcases mapped.view_cases with ⟨complaint, rfl, hview⟩ | ⟨target, rfl, haligned, -, hview⟩
  · exact ⟨[], announced_of_view_eq h mapped.sound hview mapped.steady hforgot virt _⟩
  · have hpresent : (next.mmu.slotEntry virt.directoryIndex).present = true := by
      have hself : next.mmu.view (virt.page .small) = some target :=
        (congrFun hview _).trans (Function.update_self ..)
      rw [← VirtPage.slot_page]
      exact (slot_of_view_eq_some hself).2
    refine ⟨(if (memory.mmu.slotEntry virt.directoryIndex).present = true then []
      else [TableIndex.window virt.directoryIndex]) ++ [virt], ?_⟩
    refine announced_of_update h mapped.sound mapped.steady haligned hview ?_ ?_ ?_ ?_
    · rw [hforgot]
      cases (memory.mmu.slotEntry virt.directoryIndex).present <;> rfl
    · exact List.mem_append_right _ (List.mem_singleton_self virt)
    · intro habsent
      rw [hpresent] at habsent
      cases habsent
    · split <;> simp

/-- An unmapping announces the page, and after that the window page of its table if that goes. -/
theorem Unmapped.announced {gone : Except MappingError Frame}
    (unmapped : memory.Unmapped virt gone next) (h : memory.mmu.Sound) :
    ∃ forgotten, Announced memory.mmu virt (!gone.isOk) next.mmu forgotten := by
  have hforgot := unmapped.invalidated_eq
  rcases unmapped.view_cases with ⟨complaint, rfl, hview⟩ | ⟨target, rfl, haligned, -, hview⟩
  · exact ⟨[], announced_of_view_eq h unmapped.sound hview unmapped.steady hforgot virt _⟩
  · refine ⟨virt :: if (next.mmu.slotEntry virt.directoryIndex).present = true then []
      else [TableIndex.window virt.directoryIndex], ?_⟩
    refine announced_of_update h unmapped.sound unmapped.steady haligned hview ?_ ?_ ?_ ?_
    · rw [hforgot]
      cases (next.mmu.slotEntry virt.directoryIndex).present <;> rfl
    · exact List.mem_cons_self
    · intro habsent
      rw [if_neg (Bool.eq_false_iff.mp habsent)]
      exact List.mem_cons_of_mem _ (List.mem_singleton_self _)
    · split <;> simp

/-- No translation is stale after a call. Over a new directory and any source of frames that spares
the tables, a call is answered, unless the source refuses a frame that is given back to it or takes
one beyond 4 GiB out of its stock for a table. Every page that the page walk found before it, be it
in the window or not, and that it does not find at the same place after it, is among the pages that
the call has made the processor forget. A complaint makes it forget none, and no call another page
than the one that it is about and the window page of its table. -/
theorem no_stale_translation {directory : Frame} {mmu : SoftMmu}
    (hnew : SoftMmu.ofDirectory directory = .ok mmu) {frames : σ}
    (run : Spared ⟨mmu, frames⟩ events last)
    (spares : Spares last.mmu last.frames call) :
    (∃ answer next forgotten, (last.step call).outcome = .ok (answer, next) ∧
        Announced last.mmu call.virt answer.isComplaint next.mmu forgotten) ∨
      ∃ fault, last.Stops call fault ∧ (last.step call).outcome = .error fault := by
  have hsound := run.sound (SoftMmu.sound_ofDirectory hnew).1
  refine (answered_of_spares hsound spares).imp_left ?_
  rintro ⟨answer, next, houtcome⟩
  refine ⟨answer, next, ?_⟩
  have hlegal := legal_of_answered hsound spares houtcome
  cases call with
  | map phys virt flags mode =>
    obtain ⟨made, rfl, hmapped⟩ := mapped_of_answered hsound hlegal houtcome
    obtain ⟨forgotten, hannounced⟩ := hmapped.announced hsound
    exact ⟨forgotten, houtcome, hannounced⟩
  | unmap virt =>
    obtain ⟨gone, rfl, hunmapped⟩ := unmapped_of_answered hsound houtcome
    obtain ⟨forgotten, hannounced⟩ := hunmapped.announced hsound
    exact ⟨forgotten, houtcome, hannounced⟩
  | entry virt | translate virt | isMapped virt =>
    obtain ⟨hquiet, -⟩ := quiet_of_lookup hsound.toWindowed (by exact trivial) houtcome
    exact ⟨[], houtcome, announced_of_view_eq hsound (hsound.same hquiet.toSameTables)
      hquiet.view_eq hquiet.steady hquiet.invalidated_eq _ _⟩

/-- A page is mapped to another frame: it is forgotten, and the window page of its table, which
stays where it is, is not. -/
theorem no_stale_translation_moved_page :
    let frames : FrameStack := ⟨0x101, 0x110, []⟩
    let first : PageCall := .map (.ofNat 0x5000) (.ofNat 0x400000) .kernel .fresh
    let second : PageCall := .map (.ofNat 0x6000) (.ofNat 0x400000) .kernel .bootstrap
    ∃ mmu last next, SoftMmu.ofDirectory (Frame.ofIndex 0x100) = .ok mmu ∧
      Spared ⟨mmu, frames⟩ [⟨first, false, .mapped (.ok ())⟩] last ∧
      (last.step second).outcome = .ok (.mapped (.ok ()), next) ∧
      Announced last.mmu (.ofNat 0x400000) false next.mmu [.ofNat 0x400000] := by
  intro frames first second
  have hrun : (do
      let mmu ← SoftMmu.ofDirectory (Frame.ofIndex 0x100)
      let one ← step ⟨mmu, frames⟩ first
      let two ← one.2.step second
      return ((one.2.mmu.slotEntry (VirtAddr.ofNat 0x400000).directoryIndex).present,
        one.2.mmu.invalidations, two.2.mmu.invalidations, one.1, two.1) :
        Traced (Bool × List VirtAddr × List VirtAddr × PageAnswer × PageAnswer)).outcome =
      .ok (true, [.ofNat 0xFFC01000, .ofNat 0x400000],
        [.ofNat 0xFFC01000, .ofNat 0x400000, .ofNat 0x400000], .mapped (.ok ()),
        .mapped (.ok ())) := by
    decide +kernel
  simp only [Traced.outcome_bind, Traced.outcome_liftM, Outcome.bind_eq_ok, Traced.outcome_pure,
    Except.ok.injEq, Prod.mk.injEq] at hrun
  obtain ⟨mmu, hnew, ⟨answer, last⟩, hlast, ⟨answer', next⟩, hnext, hpresent, hbefore, hafter, rfl,
    rfl⟩ := hrun
  have spares : Spares mmu frames first := by
    intro _ _ taken htake
    cases htake
    exact spare_ofDirectory hnew (by decide)
  have run := Spared.call spares hlast (.done last)
  have spares' : Spares last.mmu last.frames second := spares_of_present hpresent
  refine ⟨mmu, last, next, hnew, run, hnext, ?_⟩
  rcases no_stale_translation hnew run spares' with
    ⟨answer, next', forgotten, houtcome, hannounced⟩ | ⟨fault, -, hfault⟩
  · rw [hnext] at houtcome
    cases houtcome
    have hforgot := hannounced.invalidations_eq
    rw [hbefore, hafter] at hforgot
    have hforgotten :=
      (List.append_right_inj [VirtAddr.ofNat 0xFFC01000, .ofNat 0x400000]).mp hforgot
    exact hforgotten ▸ hannounced
  · rw [hnext] at hfault
    cases hfault

end PagedMemory

end BootMemory
