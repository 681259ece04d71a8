import BootMemory.Proofs.Paging.Lookup
import BootMemory.Proofs.Paging.Mapping
import BootMemory.Proofs.Paging.Unmapping

/-!
# Address spaces refine partial maps

An address space over a simulated MMU and any source of frames is run call by call. As long as
the source hands out no frame for a table that is out of reach or holds a table already, every
answer is the one that the partial map gives: tables come and go in frames full of junk, and
nothing of it can be seen.
-/

set_option autoImplicit false

namespace BootMemory

open AddressSpace

/-- The simulated MMU and the source of frames that an address space works with. -/
structure PagedMemory (σ : Type) where
  mmu : SoftMmu
  frames : σ

namespace PagedMemory

variable {σ : Type} [FrameSource σ] {memory first last next : PagedMemory σ} {call : PageCall}
  {events : List PageEvent}

/-- The memory as a partial map of pages. -/
def view (memory : PagedMemory σ) : PageMap := memory.mmu.view

/-- Whether there is no frame left. -/
def dry (memory : PagedMemory σ) : Bool := isDry memory.frames

/-- The answer to a call, and the memory after it. -/
def step (memory : PagedMemory σ) : PageCall → Traced (PageAnswer × PagedMemory σ)
  | .map phys virt flags mode => do
    let (answer, mmu, frames) ← AddressSpace.map phys virt flags mode memory.mmu memory.frames
    return (.mapped answer, ⟨mmu, frames⟩)
  | .unmap virt => do
    let (answer, mmu, frames) ← AddressSpace.unmap virt memory.mmu memory.frames
    return (.unmapped answer, ⟨mmu, frames⟩)
  | .entry virt => do
    let (answer, mmu) ← entry? virt memory.mmu
    return (.entry answer, { memory with mmu })
  | .translate virt => do
    let (answer, mmu) ← AddressSpace.translate virt memory.mmu
    return (.address answer, { memory with mmu })
  | .isMapped virt => do
    let (answer, mmu) ← AddressSpace.isMapped virt memory.mmu
    return (.flag answer, { memory with mmu })

/-- Whether the source behaves in a call: a frame that it hands out for a table is below 4 GiB,
is not the one of the directory, and does not hold a table. -/
def Legal (memory : PagedMemory σ) : PageCall → Prop
  | .map phys virt _ _ =>
    checkMap phys virt = .ok () → ¬memory.view.Populated virt.directoryIndex →
      ∀ frame rest, FrameSource.allocate memory.frames = some (frame, rest) →
        frame.index < 2 ^ 20 ∧ frame ≠ memory.mmu.directory ∧ Spare memory.mmu frame
  | .unmap _ | .entry _ | .translate _ | .isMapped _ => True

/-- A run in which the source behaves, with the answers that were given. -/
inductive Trace : PagedMemory σ → List PageEvent → PagedMemory σ → Prop
  | done (memory : PagedMemory σ) : Trace memory [] memory
  | call {first next last : PagedMemory σ} {call : PageCall} {answer : PageAnswer}
      {events : List PageEvent} (legal : first.Legal call)
      (outcome : (first.step call).outcome = .ok (answer, next)) (rest : Trace next events last) :
      Trace first (⟨call, first.dry, answer⟩ :: events) last

/-- The frames that an unmapping gives back: none if it is refused, otherwise the one of the page,
and then the one of its table if no other page of the slot is mapped. -/
def givenBack (memory : PagedMemory σ) (virt : VirtAddr) : List Frame :=
  match memory.view.unmap virt with
  | (.error _, _) => []
  | (.ok frame, pages) =>
    frame :: if pages.Populated virt.directoryIndex then []
      else [(memory.mmu.slotEntry virt.directoryIndex).frame]

/-- Whether a call is an unmapping in which the source refuses, with a fault, one of the frames that
are given back to it. -/
def Refuses (memory : PagedMemory σ) (call : PageCall) (fault : Fault) : Prop :=
  ∃ virt, call = .unmap virt ∧ giveBack (memory.givenBack virt) memory.frames = .error fault

/-- An unmapping faults exactly if the source refuses a frame that is given back to it. -/
theorem step_unmap_faults_iff (h : memory.mmu.Sound) (virt : VirtAddr) {fault : Fault} :
    (memory.step (.unmap virt)).outcome = .error fault ↔ memory.Refuses (.unmap virt) fault := by
  obtain ⟨mmu, houtcome, ⟨hsound, hview⟩, -⟩ := unmap_refines h virt memory.frames
  have hgiven : released memory.mmu mmu virt.directoryIndex (memory.mmu.view.unmap virt).1 =
      memory.givenBack virt := released_eq hsound hview
  constructor
  · intro hfault
    refine ⟨virt, rfl, ?_⟩
    rw [← hgiven]
    cases hreturned : giveBack (released memory.mmu mmu virt.directoryIndex
      (memory.mmu.view.unmap virt).1) memory.frames with
    | error other =>
      simp [step, houtcome, hreturned] at hfault
      rw [hfault]
    | ok frames => simp [step, houtcome, hreturned] at hfault
  · rintro ⟨other, hcall, hrefused⟩
    cases hcall
    rw [← hgiven] at hrefused
    simp [step, houtcome, hrefused]

/-- A call answers what the map answers, and sound tables become what the map becomes, unless the
source refuses a frame that is given back to it. -/
theorem step_refines (h : memory.mmu.Sound) (legal : memory.Legal call) :
    (∃ answer next, (memory.step call).outcome = .ok (answer, next) ∧
        memory.view.Answers memory.dry call answer ∧ next.mmu.Sound ∧
        next.view = memory.view.after memory.dry call) ∨
      ∃ fault, memory.Refuses call fault ∧ (memory.step call).outcome = .error fault := by
  cases call with
  | map phys virt flags mode =>
    obtain ⟨mmu, frames, houtcome, ⟨hsound, hview⟩, -⟩ := map_refines h flags mode
      fun hcheck hempty frame rest htake =>
        let ⟨hlow, _, hspare⟩ := legal hcheck hempty frame rest htake
        ⟨hlow, hspare⟩
    refine .inl ⟨.mapped (memory.view.map phys virt flags mode memory.dry).1, ⟨mmu, frames⟩, ?_,
      rfl, hsound, hview⟩
    simp [step, houtcome, view, dry]
  | unmap virt =>
    obtain ⟨mmu, houtcome, ⟨hsound, hview⟩, -⟩ := unmap_refines h virt memory.frames
    cases hreturned : giveBack (released memory.mmu mmu virt.directoryIndex
      (memory.mmu.view.unmap virt).1) memory.frames with
    | error fault =>
      have hfault : (memory.step (.unmap virt)).outcome = .error fault := by
        simp [step, houtcome, hreturned]
      exact .inr ⟨fault, (step_unmap_faults_iff h virt).mp hfault, hfault⟩
    | ok frames =>
      refine .inl ⟨.unmapped (memory.view.unmap virt).1, ⟨mmu, frames⟩, ?_, rfl, hsound, hview⟩
      simp [step, houtcome, hreturned, view]
  | entry virt =>
    obtain ⟨answer, mmu, houtcome, hsame, hanswer⟩ := entry?_refines h virt
    refine .inl ⟨.entry answer, { memory with mmu }, ?_, hanswer _, h.same hsame, hsame.view_eq⟩
    simp [step, houtcome]
  | translate virt =>
    obtain ⟨answer, mmu, houtcome, hsame, hanswer⟩ := translate_refines h virt
    refine .inl ⟨.address answer, { memory with mmu }, ?_, hanswer _, h.same hsame, hsame.view_eq⟩
    simp [step, houtcome]
  | isMapped virt =>
    obtain ⟨answer, mmu, houtcome, hsame, hanswer⟩ := isMapped_refines h virt
    refine .inl ⟨.flag answer, { memory with mmu }, ?_, hanswer _, h.same hsame, hsame.view_eq⟩
    simp [step, houtcome]

/-- A run from sound tables is a run of the map, and ends in sound tables. -/
theorem Trace.refines (t : Trace first events last) (h : first.mmu.Sound) :
    last.mmu.Sound ∧ PageMap.Run first.view events last.view := by
  induction t with
  | done memory => exact ⟨h, .done _⟩
  | call legal outcome rest ih =>
    rcases step_refines h legal with
      ⟨answer, next, hnext, hanswers, hsound, hview⟩ | ⟨fault, -, hfault⟩
    · rw [outcome] at hnext
      cases hnext
      obtain ⟨hlast, hrun⟩ := ih hsound
      rw [hview] at hrun
      exact ⟨hlast, .call hanswers hrun⟩
    · rw [outcome] at hfault
      cases hfault

/-- An address space over a new directory is the partial map of no page, and stays a partial map
of pages outside the window: whatever is asked of it, in whatever order and over whatever source
of frames, as long as the source behaves, the answers are those of the map. No legal call
faults, except that the source may refuse a frame that an unmapping gives back to it. -/
theorem every_run_refines_page_map {directory : Frame} {mmu : SoftMmu}
    (hnew : SoftMmu.ofDirectory directory = .ok mmu) {frames : σ}
    (t : Trace ⟨mmu, frames⟩ events last) :
    PageMap.Run .empty events last.view ∧
      (∀ page, page.slot = TableIndex.recursive → last.view page = none) ∧
      ∀ call, last.Legal call → (∃ answer next, (last.step call).outcome = .ok (answer, next)) ∨
        ∃ fault, last.Refuses call fault ∧ (last.step call).outcome = .error fault := by
  obtain ⟨hsound, hempty⟩ := SoftMmu.sound_ofDirectory hnew
  obtain ⟨hlast, hrun⟩ := t.refines hsound
  rw [show PagedMemory.view ⟨mmu, frames⟩ = .empty from hempty] at hrun
  refine ⟨hrun, fun _ => SoftMmu.view_of_recursive, ?_⟩
  intro call legal
  rcases step_refines hlast legal with ⟨answer, next, houtcome, -⟩ | hrefused
  · exact .inl ⟨answer, next, houtcome⟩
  · exact .inr hrefused

/-- A page is mapped through a table in a recycled frame, a page of the window is refused, and an
address is translated. -/
theorem every_run_refines_page_map_one_page :
    let frames : FrameStack := ⟨0x101, 0x110, [Frame.ofIndex 0x105]⟩
    let events : List PageEvent :=
      [⟨.map (.ofNat 0x5000) (.ofNat 0x400000) .kernel .fresh, false, .mapped (.ok ())⟩,
        ⟨.map (.ofNat 0x5000) (.ofNat 0xFFC00000) .kernel .bootstrap, false,
          .mapped (.error .recursiveWindow)⟩,
        ⟨.translate (.ofNat 0x400123), false, .address (some (.ofNat 0x5123))⟩]
    ∃ mmu last, SoftMmu.ofDirectory (Frame.ofIndex 0x100) = .ok mmu ∧
      Trace ⟨mmu, frames⟩ events last ∧ PageMap.Run .empty events last.view := by
  intro frames events
  have hrun : (do
      let mmu ← SoftMmu.ofDirectory (Frame.ofIndex 0x100)
      let one ← step ⟨mmu, frames⟩ (.map (.ofNat 0x5000) (.ofNat 0x400000) .kernel .fresh)
      let two ← one.2.step (.map (.ofNat 0x5000) (.ofNat 0xFFC00000) .kernel .bootstrap)
      let three ← two.2.step (.translate (.ofNat 0x400123))
      return ((one.1, one.2.dry), (two.1, two.2.dry), three.1) :
        Traced ((PageAnswer × Bool) × (PageAnswer × Bool) × PageAnswer)).outcome =
      .ok ((.mapped (.ok ()), false), (.mapped (.error .recursiveWindow), false),
        .address (some (.ofNat 0x5123))) := by
    decide +kernel
  simp only [Traced.outcome_bind, Traced.outcome_liftM, Outcome.bind_eq_ok, Traced.outcome_pure,
    Except.ok.injEq, Prod.mk.injEq] at hrun
  obtain ⟨mmu, hnew, ⟨answer, one⟩, hone, ⟨answer', two⟩, htwo, ⟨answer'', last⟩, hlast,
    ⟨rfl, hdry⟩, ⟨rfl, hdry'⟩, rfl⟩ := hrun
  have legal : Legal ⟨mmu, frames⟩ (.map (.ofNat 0x5000) (.ofNat 0x400000) .kernel .fresh) := by
    intro _ _ frame rest htake
    cases htake
    obtain ⟨hdirectory, entry, -, hframe, hentry⟩ := SoftMmu.ofDirectory_slotEntry hnew
    refine ⟨by decide, ?_, ?_⟩
    · rw [hdirectory]
      decide
    · intro slot hslot
      rw [hentry] at hslot ⊢
      split at hslot
      case isTrue hlast =>
        rw [if_pos hlast, hframe]
        decide
      case isFalse => cases hslot
  have refused : one.Legal (.map (.ofNat 0x5000) (.ofNat 0xFFC00000) .kernel .bootstrap) :=
    fun hcheck => absurd hcheck (by decide)
  have allowed : two.Legal (.translate (.ofNat 0x400123)) := trivial
  have t := Trace.call legal hone (.call refused htwo (.call allowed hlast (.done last)))
  simp only [hdry, hdry'] at t
  exact ⟨mmu, last, hnew, t, (every_run_refines_page_map hnew t).1⟩

end PagedMemory

end BootMemory
