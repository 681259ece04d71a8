import BootMemory.Proofs.Paging.Changes
import BootMemory.Proofs.Paging.Refinement
import BootMemory.Proofs.Paging.Windows

/-!
# Runs that spare the tables

A source spares the tables if no frame that it hands out for a new table holds the directory or a
table already. It may hand out a frame beyond 4 GiB, but no entry can point there: the call that
takes such a frame for a table ends the run. So the calls of a run that did not end are legal, and
the run refines the partial map.
-/

set_option autoImplicit false

namespace BootMemory

/-- Whether a call only looks at the tables. -/
def PageCall.IsLookup : PageCall → Prop
  | .map _ _ _ _ | .unmap _ => False
  | .entry _ | .translate _ | .isMapped _ => True

namespace PagedMemory

open AddressSpace SoftMmu
open TableIndex (recursive)

variable {σ : Type} [FrameSource σ] {memory first middle last : PagedMemory σ} {call : PageCall}
  {events later : List PageEvent}

/-- A call that only looks at the tables changes neither them nor the source. -/
theorem quiet_of_lookup (h : memory.mmu.Windowed) (hlookup : call.IsLookup) {answer : PageAnswer}
    {next : PagedMemory σ} (outcome : (memory.step call).outcome = .ok (answer, next)) :
    Quiet memory.mmu next.mmu ∧ next.frames = memory.frames := by
  cases call with
  | map phys virt flags mode => exact hlookup.elim
  | unmap virt => exact hlookup.elim
  | entry virt =>
    simp only [step, Traced.outcome_bind] at outcome
    obtain ⟨⟨found, space⟩, hentry, outcome⟩ := Outcome.bind_eq_ok.mp outcome
    cases outcome
    exact ⟨quiet_of_entry_eq h hentry, rfl⟩
  | translate virt =>
    simp only [step, AddressSpace.translate, Traced.outcome_bind, bind_assoc] at outcome
    obtain ⟨⟨found, space⟩, hentry, outcome⟩ := Outcome.bind_eq_ok.mp outcome
    cases outcome
    exact ⟨quiet_of_entry_eq h hentry, rfl⟩
  | isMapped virt =>
    simp only [step, isMapped, Traced.outcome_bind, bind_assoc] at outcome
    obtain ⟨⟨found, space⟩, hentry, outcome⟩ := Outcome.bind_eq_ok.mp outcome
    cases outcome
    exact ⟨quiet_of_entry_eq h hentry, rfl⟩

/-- Whether a call takes a frame beyond 4 GiB for a new table. -/
def Overreaches (memory : PagedMemory σ) : PageCall → Prop
  | .map phys virt _ _ => checkMap phys virt = .ok () ∧
      (memory.mmu.slotEntry virt.directoryIndex).present = false ∧
        ∃ taken ∈ FrameSource.allocate memory.frames, 2 ^ 20 ≤ taken.1.index
  | .unmap _ | .entry _ | .translate _ | .isMapped _ => False

/-- A call that overreaches ends the run. -/
theorem outcome_of_overreaches (h : memory.mmu.Windowed) (hover : memory.Overreaches call) :
    (memory.step call).outcome = .error .assertion := by
  cases call with
  | map phys virt flags mode =>
    obtain ⟨hcheck, habsent, ⟨frame, rest⟩, htake, hfar⟩ := hover
    obtain ⟨walked, hdirectory, hwalked⟩ := h.directory_outcome
    have hpointer : PageEntry.mapping frame flags.asPresent = .error .assertion :=
      dif_neg (Nat.not_lt.mpr hfar)
    have hload := hwalked.loadEntry_directory virt.directoryIndex
    have hensure : (ensureTable virt.directoryIndex flags memory.mmu memory.frames).outcome =
        .error .assertion := by
      simp [ensureTable, hdirectory, hload, habsent, Option.mem_def.mp htake, hpointer]
    simp [step, map, hcheck, hensure]
  | unmap virt | entry virt | translate virt | isMapped virt => exact hover.elim

/-- A mapping is checked for the window first. -/
theorem inner_of_checkMap {phys : PhysAddr} {virt : VirtAddr} (h : checkMap phys virt = .ok ()) :
    virt.directoryIndex ≠ recursive := by
  rw [checkMap_eq] at h
  split_ifs at h with haligned hfar hwindow
  exact hwindow

/-- A call to a source that spares the tables is legal, unless it overreaches. -/
theorem legal_of_spares (h : memory.mmu.Sound) (spares : Spares memory.mmu memory.frames call)
    (hnear : ¬memory.Overreaches call) : memory.Legal call := by
  cases call with
  | map phys virt flags mode =>
    intro hcheck hempty frame rest htake
    have hslot := inner_of_checkMap hcheck
    have habsent : (memory.mmu.slotEntry virt.directoryIndex).present = false := by
      rw [← Bool.not_eq_true, ← h.populated_iff hslot]
      exact hempty
    have hspare := spares hcheck habsent (frame, rest) htake
    refine ⟨?_, ?_, hspare⟩
    · by_contra hfar
      exact hnear ⟨hcheck, habsent, (frame, rest), htake, Nat.not_lt.mp hfar⟩
    · rintro rfl
      exact hspare recursive h.present h.frame_eq
  | unmap virt | entry virt | translate virt | isMapped virt => exact trivial

/-- A call to a source that spares the tables is legal if it was answered. -/
theorem legal_of_answered (h : memory.mmu.Sound) (spares : Spares memory.mmu memory.frames call)
    {answer : PageAnswer} {next : PagedMemory σ}
    (outcome : (memory.step call).outcome = .ok (answer, next)) : memory.Legal call := by
  refine legal_of_spares h spares fun hover => ?_
  rw [outcome_of_overreaches h.toWindowed hover] at outcome
  cases outcome

/-- What a mapping that was answered has done. -/
structure Mapped (memory : PagedMemory σ) (phys : PhysAddr) (virt : VirtAddr) (flags : PageFlags)
    (mode : MapMode) (made : Except MappingError Unit) (next : PagedMemory σ) : Prop where
  answer_eq : made = (memory.view.map phys virt flags mode memory.dry).1
  sound : next.mmu.Sound
  view_eq : next.view = (memory.view.map phys virt flags mode memory.dry).2
  steady : Steady memory.mmu next.mmu
  charged : Charged memory.mmu virt.directoryIndex memory.frames next.mmu next.frames
  swept : Swept memory.mmu next.mmu
  invalidated_eq : next.mmu.invalidated =
    (if made.isOk then
      virt :: if (memory.mmu.slotEntry virt.directoryIndex).present = true then []
        else [TableIndex.window virt.directoryIndex]
    else []) ++ memory.mmu.invalidated

/-- It was refused and has changed nothing, or the map holds the page. -/
theorem Mapped.view_cases {phys : PhysAddr} {virt : VirtAddr} {flags : PageFlags} {mode : MapMode}
    {made : Except MappingError Unit} {next : PagedMemory σ}
    (mapped : memory.Mapped phys virt flags mode made next) :
    (∃ complaint, made = .error complaint ∧ next.view = memory.view) ∨
      ∃ target, made = .ok () ∧ 4096 ∣ virt.toNat ∧ target.flags = flags.asPresent ∧
        next.view = Function.update memory.view (virt.page .small) (some target) := by
  rw [mapped.answer_eq, mapped.view_eq]
  rcases memory.view.map_cases phys virt flags mode memory.dry with
    ⟨complaint, hmap⟩ | ⟨target, haligned, hflags, hmap⟩
  · rw [hmap]
    exact .inl ⟨complaint, rfl, rfl⟩
  · rw [hmap]
    exact .inr ⟨target, rfl, haligned, hflags, rfl⟩

/-- A legal mapping that was answered has done all that. -/
theorem mapped_of_answered (h : memory.mmu.Sound) {phys : PhysAddr} {virt : VirtAddr}
    {flags : PageFlags} {mode : MapMode} (legal : memory.Legal (.map phys virt flags mode))
    {answer : PageAnswer} {next : PagedMemory σ}
    (outcome : (memory.step (.map phys virt flags mode)).outcome = .ok (answer, next)) :
    ∃ made, answer = .mapped made ∧ memory.Mapped phys virt flags mode made next := by
  simp only [step, Traced.outcome_bind] at outcome
  obtain ⟨⟨made, space, rest⟩, hmap, outcome⟩ := Outcome.bind_eq_ok.mp outcome
  cases outcome
  refine ⟨made, rfl, ?_⟩
  have hspare : checkMap phys virt = .ok () → ¬memory.mmu.view.Populated virt.directoryIndex →
      ∀ frame rest, FrameSource.allocate memory.frames = some (frame, rest) →
        frame.index < 2 ^ 20 ∧ Spare memory.mmu frame := by
    intro hcheck hempty frame rest htake
    obtain ⟨hlow, -, hspare⟩ := legal hcheck hempty frame rest htake
    exact ⟨hlow, hspare⟩
  obtain ⟨hswept, hforgot⟩ := (mapEnds_of_outcome h.toSeparated.anchored hmap).swept
  obtain ⟨space', rest', hmap', ⟨hsound, hview⟩, hsteady, hcharged⟩ :=
    map_refines h flags mode hspare
  rw [hmap] at hmap'
  cases hmap'
  exact ⟨rfl, hsound, hview, hsteady, hcharged, hswept, hforgot⟩

/-- What an unmapping that was answered has done. -/
structure Unmapped (memory : PagedMemory σ) (virt : VirtAddr) (gone : Except MappingError Frame)
    (next : PagedMemory σ) : Prop where
  answer_eq : gone = (memory.view.unmap virt).1
  sound : next.mmu.Sound
  view_eq : next.view = (memory.view.unmap virt).2
  steady : Steady memory.mmu next.mmu
  returned : giveBack (released memory.mmu next.mmu virt.directoryIndex gone) memory.frames =
    .ok next.frames
  swept : Swept memory.mmu next.mmu
  invalidated_eq : next.mmu.invalidated =
    (if gone.isOk then
      (if (next.mmu.slotEntry virt.directoryIndex).present = true then []
        else [TableIndex.window virt.directoryIndex]) ++ [virt]
    else []) ++ memory.mmu.invalidated

/-- It was refused and has changed nothing, or the page is gone from the map. -/
theorem Unmapped.view_cases {virt : VirtAddr} {gone : Except MappingError Frame}
    {next : PagedMemory σ} (unmapped : memory.Unmapped virt gone next) :
    (∃ complaint, gone = .error complaint ∧ next.view = memory.view) ∨
      ∃ target : Mapping, gone = .ok target.frame ∧ 4096 ∣ virt.toNat ∧
        memory.view (virt.page .small) = some target ∧
        next.view = Function.update memory.view (virt.page .small) none := by
  rw [unmapped.answer_eq, unmapped.view_eq]
  rcases memory.view.unmap_cases virt with
    ⟨complaint, hunmap⟩ | ⟨target, haligned, -, hmapped, hunmap⟩
  · rw [hunmap]
    exact .inl ⟨complaint, rfl, rfl⟩
  · rw [hunmap]
    exact .inr ⟨target, rfl, haligned, hmapped, rfl⟩

/-- An unmapping that was answered has done all that. -/
theorem unmapped_of_answered (h : memory.mmu.Sound) {virt : VirtAddr} {answer : PageAnswer}
    {next : PagedMemory σ} (outcome : (memory.step (.unmap virt)).outcome = .ok (answer, next)) :
    ∃ gone, answer = .unmapped gone ∧ memory.Unmapped virt gone next := by
  simp only [step, Traced.outcome_bind] at outcome
  obtain ⟨⟨gone, space, rest⟩, hunmap, outcome⟩ := Outcome.bind_eq_ok.mp outcome
  cases outcome
  refine ⟨gone, rfl, ?_⟩
  obtain ⟨hswept, hforgot⟩ := (unmapEnds_of_outcome h.toSeparated.anchored hunmap).swept
  obtain ⟨space', hunmap', ⟨hsound, hview⟩, hsteady⟩ := unmap_refines h virt memory.frames
  rw [hunmap] at hunmap'
  cases hreturned : giveBack (released memory.mmu space' virt.directoryIndex
    (memory.mmu.view.unmap virt).1) memory.frames with
  | error fault =>
    rw [hreturned] at hunmap'
    cases hunmap'
  | ok left =>
    rw [hreturned] at hunmap'
    cases hunmap'
    exact ⟨rfl, hsound, hview, hsteady, hreturned, hswept, hforgot⟩

/-- What stops a call: the source refuses a frame that is given back to it, or hands out one beyond
4 GiB for a table. -/
def Stops (memory : PagedMemory σ) (call : PageCall) (fault : Fault) : Prop :=
  memory.Refuses call fault ∨ memory.Overreaches call ∧ fault = .assertion

/-- A call is answered, unless something stops it. -/
theorem answered_of_spares (h : memory.mmu.Sound) (spares : Spares memory.mmu memory.frames call) :
    (∃ answer next, (memory.step call).outcome = .ok (answer, next)) ∨
      ∃ fault, memory.Stops call fault ∧ (memory.step call).outcome = .error fault := by
  by_cases hover : memory.Overreaches call
  · exact .inr ⟨.assertion, .inr ⟨hover, rfl⟩, outcome_of_overreaches h.toWindowed hover⟩
  · rcases step_refines h (legal_of_spares h spares hover) with
      ⟨answer, next, houtcome, -⟩ | ⟨fault, hrefuses, houtcome⟩
    · exact .inl ⟨answer, next, houtcome⟩
    · exact .inr ⟨fault, .inl hrefuses, houtcome⟩

/-- Next to a new directory every other frame is spare. -/
theorem spare_ofDirectory {directory frame : Frame} {mmu : SoftMmu}
    (hnew : ofDirectory directory = .ok mmu) (hne : frame ≠ directory) : Spare mmu frame := by
  obtain ⟨-, entry, -, hframe, hentry⟩ := ofDirectory_slotEntry hnew
  intro slot hslot
  rw [hentry] at hslot ⊢
  split at hslot
  case isTrue hlast =>
    rw [if_pos hlast, hframe]
    exact hne.symm
  case isFalse => cases hslot

/-- A mapping takes no frame for a table that is there. -/
theorem spares_of_present {mmu : SoftMmu} {frames : σ} {phys : PhysAddr} {virt : VirtAddr}
    {flags : PageFlags} {mode : MapMode}
    (hpresent : (mmu.slotEntry virt.directoryIndex).present = true) :
    Spares mmu frames (.map phys virt flags mode) := by
  intro _ habsent
  rw [hpresent] at habsent
  cases habsent

/-- A run in which the source spares the tables, with the answers that were given. -/
inductive Spared : PagedMemory σ → List PageEvent → PagedMemory σ → Prop
  | done (memory : PagedMemory σ) : Spared memory [] memory
  | call {first next last : PagedMemory σ} {call : PageCall} {answer : PageAnswer}
      {events : List PageEvent} (spares : Spares first.mmu first.frames call)
      (outcome : (first.step call).outcome = .ok (answer, next)) (rest : Spared next events last) :
      Spared first (⟨call, first.dry, answer⟩ :: events) last

/-- Two runs in a row in which the source spares the tables are one. -/
theorem Spared.append (run : Spared first events middle) (more : Spared middle later last) :
    Spared first (events ++ later) last := by
  induction run with
  | done memory => exact more
  | call spares outcome rest ih => exact .call spares outcome (ih more)

/-- A call that was answered answers what the map answers, and leaves sound tables. -/
theorem step_of_spares (h : memory.mmu.Sound) (spares : Spares memory.mmu memory.frames call)
    {answer : PageAnswer} {next : PagedMemory σ}
    (outcome : (memory.step call).outcome = .ok (answer, next)) :
    memory.view.Answers memory.dry call answer ∧ next.mmu.Sound ∧
      next.view = memory.view.after memory.dry call := by
  rcases step_refines h (legal_of_answered h spares outcome) with
    ⟨answer', next', hnext, hrefines⟩ | ⟨fault, -, hfault⟩
  · rw [outcome] at hnext
    cases hnext
    exact hrefines
  · rw [outcome] at hfault
    cases hfault

/-- Tables stay sound along a run that spares them. -/
theorem Spared.sound (run : Spared first events last) (h : first.mmu.Sound) : last.mmu.Sound := by
  induction run with
  | done memory => exact h
  | call spares outcome rest ih => exact ih (step_of_spares h spares outcome).2.1

end PagedMemory

end BootMemory
