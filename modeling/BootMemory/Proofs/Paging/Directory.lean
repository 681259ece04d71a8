import BootMemory.Proofs.Paging.Invalidation
import Mathlib.Logic.Relation

/-!
# What happens to the directory

Calls are looked at here that were answered in a memory that other calls have led to from a new
directory, with any source of frames: it may even hand out frames that hold tables, as long as the
calls are answered. A call changes one directory entry at most. The entry comes or goes with its
table, and is widened by a mapping that asks for more than it allows.

The widening is done before the page is looked up, so it stays if the mapping is refused then, and
the processor is not told of it.
-/

set_option autoImplicit false

namespace BootMemory

open SoftMmu AddressSpace
open TableIndex (recursive)

/-! ## Window pages -/

/-- Each slot has a window page of its own. -/
theorem TableIndex.window_inj {slot other : TableIndex} :
    slot.window = other.window ↔ slot = other := by
  refine ⟨fun h => ?_, congrArg window⟩
  have hindex := congrArg VirtAddr.tableIndex h
  rwa [window, window, VirtAddr.tableIndex_ofIndices, VirtAddr.tableIndex_ofIndices] at hindex

/-- An address outside the window is in no window page. -/
theorem TableIndex.window_ne {virt : VirtAddr} (inner : virt.directoryIndex ≠ recursive)
    (slot : TableIndex) : slot.window ≠ virt := by
  rintro rfl
  exact inner (VirtAddr.directoryIndex_ofIndices recursive slot)

namespace SoftMmu

variable {mmu next : SoftMmu} {slot : TableIndex}

/-- Nothing is written if an entry is written that is there already. -/
theorem Rewritten.same (rewritten : Rewritten mmu slot (mmu.slotEntry slot) next) :
    SameTables mmu next := by
  refine ⟨rewritten.directory_eq, fun number => ?_⟩
  rw [rewritten.load_eq]
  split
  case isTrue hdirectory =>
    rw [hdirectory]
    exact PageTable.ext (Vector.set_getElem_self _)
  case isFalse => rfl

/-- Where the tables are the same, every slot has the directory entry that it had. -/
theorem SameTables.entered (same : SameTables mmu next) (slot : TableIndex) :
    Entered mmu slot (mmu.slotEntry slot) next := by
  refine ⟨same.directory_eq, fun other => ?_⟩
  rw [same.slotEntry_eq]
  split
  case isTrue h => rw [h]
  case isFalse => rfl

end SoftMmu

namespace PagedMemory

variable {σ : Type} {memory next last : PagedMemory σ} {call : PageCall} {answer : PageAnswer}

/-! ## How calls end -/

/-- How a call ends if it is answered. -/
inductive Ends (memory : PagedMemory σ) : PageCall → PageAnswer → PagedMemory σ → Prop
  | map (phys : PhysAddr) (virt : VirtAddr) (flags : PageFlags) (mode : MapMode)
      {made : Except MappingError Unit} {space : SoftMmu} {rest : σ}
      (ends : MapEnds memory.mmu virt flags memory.frames made space rest) :
      Ends memory (.map phys virt flags mode) (.mapped made) ⟨space, rest⟩
  | unmap (virt : VirtAddr) {gone : Except MappingError Frame} {space : SoftMmu} {rest : σ}
      (ends : UnmapEnds memory.mmu virt memory.frames gone space rest) :
      Ends memory (.unmap virt) (.unmapped gone) ⟨space, rest⟩
  | lookup {call : PageCall} {answer : PageAnswer} {next : PagedMemory σ}
      (lookup : call.IsLookup) (silent : answer.isComplaint = false)
      (quiet : Quiet memory.mmu next.mmu) : Ends memory call answer next

/-- Every call that is answered ends as calls of its kind do. -/
theorem ends_of_outcome [FrameSource σ] (h : memory.mmu.Anchored)
    (outcome : (memory.step call).outcome = .ok (answer, next)) : memory.Ends call answer next := by
  cases call with
  | map phys virt flags mode =>
    simp only [step, Traced.outcome_bind] at outcome
    obtain ⟨⟨made, space, rest⟩, hmap, outcome⟩ := Outcome.bind_eq_ok.mp outcome
    cases outcome
    exact .map phys virt flags mode (mapEnds_of_outcome h hmap)
  | unmap virt =>
    simp only [step, Traced.outcome_bind] at outcome
    obtain ⟨⟨gone, space, rest⟩, hunmap, outcome⟩ := Outcome.bind_eq_ok.mp outcome
    cases outcome
    exact .unmap virt (unmapEnds_of_outcome h hunmap)
  | entry virt | translate virt | isMapped virt =>
    obtain ⟨hquiet, -⟩ := quiet_of_lookup h.toWindowed (by exact trivial) outcome
    refine .lookup trivial ?_ hquiet
    simp only [step, Traced.outcome_bind] at outcome
    obtain ⟨found, -, outcome⟩ := Outcome.bind_eq_ok.mp outcome
    cases outcome
    rfl

/-- A call leaves the directory anchored. -/
theorem Ends.anchored (ends : memory.Ends call answer next) (h : memory.mmu.Anchored) :
    next.mmu.Anchored := by
  cases ends with
  | map _ _ _ _ ends => exact ends.anchored h
  | unmap _ ends => exact ends.anchored h
  | lookup _ _ quiet => exact h.same quiet.toSameTables

/-! ## Reaching memories -/

/-- Whether a call that was answered leads from one memory to another. -/
def Leads [FrameSource σ] (memory next : PagedMemory σ) : Prop :=
  ∃ call answer, (memory.step call).outcome = .ok (answer, next)

/-- Whatever the source hands out, the last entry of a directory that was new stays the only one
that points at it. -/
theorem anchored_of_reached [FrameSource σ] {directory : Frame} {mmu : SoftMmu}
    (hnew : SoftMmu.ofDirectory directory = .ok mmu) {frames : σ}
    (reached : Relation.ReflTransGen Leads ⟨mmu, frames⟩ last) : last.mmu.Anchored := by
  -- Soundness is lost if the source hands out the frame of a table again; being anchored is not.
  induction reached with
  | refl => exact (SoftMmu.sound_ofDirectory hnew).1.toSeparated.anchored
  | tail _ hleads ih =>
    obtain ⟨call, answer, outcome⟩ := hleads
    exact (ends_of_outcome ih outcome).anchored ih

/-- A run of two calls over a new directory, taken apart. -/
theorem exists_of_two_calls [FrameSource σ] {α : Type} (directory : Frame) (frames : σ)
    (first second : PageCall) (facts : PagedMemory σ → PagedMemory σ → α) (found : α)
    (made done : PageAnswer) (h : (do
      let mmu ← SoftMmu.ofDirectory directory
      let one ← step ⟨mmu, frames⟩ first
      let two ← one.2.step second
      return (facts one.2 two.2, one.1, two.1) : Traced (α × PageAnswer × PageAnswer)).outcome =
        .ok (found, made, done)) :
    ∃ mmu last next, SoftMmu.ofDirectory directory = .ok mmu ∧
      (step ⟨mmu, frames⟩ first).outcome = .ok (made, last) ∧
      (last.step second).outcome = .ok (done, next) ∧ facts last next = found := by
  simp only [Traced.outcome_bind, Traced.outcome_liftM, Outcome.bind_eq_ok, Traced.outcome_pure,
    Except.ok.injEq, Prod.mk.injEq] at h
  obtain ⟨mmu, hnew, ⟨made, last⟩, hlast, ⟨done, next⟩, hnext, hfacts, rfl, rfl⟩ := h
  exact ⟨mmu, last, next, hnew, hlast, hnext, hfacts⟩

/-! ## Refused calls -/

/-- Whether a call is a mapping that asks for more than the directory entry of a slot allows, so
that the entry of a table that is there becomes another one. -/
def Widens (memory : PagedMemory σ) (slot : TableIndex) (entry : PageEntry) : PageCall → Prop
  | .map _ virt flags _ => virt.directoryIndex = slot ∧ (memory.mmu.slotEntry slot).present = true ∧
      ¬(memory.mmu.slotEntry slot).Grants flags ∧ entry = widen (memory.mmu.slotEntry slot) flags
  | .unmap _ | .entry _ | .translate _ | .isMapped _ => False

/-- A mapping leaves the directory entry as it is, or widens it. -/
theorem widened_cases (memory : PagedMemory σ) (phys : PhysAddr) {virt : VirtAddr}
    (flags : PageFlags) (mode : MapMode)
    (present : (memory.mmu.slotEntry virt.directoryIndex).present = true) :
    widen (memory.mmu.slotEntry virt.directoryIndex) flags =
        memory.mmu.slotEntry virt.directoryIndex ∨
      memory.Widens virt.directoryIndex (widen (memory.mmu.slotEntry virt.directoryIndex) flags)
        (.map phys virt flags mode) := by
  rw [widen_eq_self]
  by_cases hgrants : (memory.mmu.slotEntry virt.directoryIndex).Grants flags
  · exact .inl hgrants
  · exact .inr ⟨rfl, present, hgrants, rfl⟩

/-- A refused call changes no table and takes or gives back no frame, and the processor forgets
nothing. There is one exception: a mapping that is refused because the page is mapped has widened
the directory entry by then, if it asks for more than the entry allows. -/
theorem refused_call_changes [FrameSource σ] {directory : Frame} {mmu : SoftMmu}
    (hnew : SoftMmu.ofDirectory directory = .ok mmu) {frames : σ}
    (reached : Relation.ReflTransGen Leads ⟨mmu, frames⟩ last)
    (outcome : (last.step call).outcome = .ok (answer, next))
    (hrefused : answer.isComplaint = true) :
    next.frames = last.frames ∧ next.mmu.invalidations = last.mmu.invalidations ∧
      (SameTables last.mmu next.mmu ∨ answer = .mapped (.error .alreadyMapped) ∧
        ∃ slot entry, last.Widens slot entry call ∧ Rewritten last.mmu slot entry next.mmu) := by
  cases ends_of_outcome (anchored_of_reached hnew reached) outcome with
  | map phys virt flags mode ends =>
    cases ends with
    | refused quiet =>
      exact ⟨rfl, congrArg List.reverse quiet.invalidated_eq, .inl quiet.toSameTables⟩
    | taken _ present rewritten invalidated_eq =>
      -- The entry was widened before the page was found to be mapped.
      refine ⟨rfl, congrArg List.reverse invalidated_eq, ?_⟩
      rcases widened_cases last phys flags mode present with hsame | hwidens
      · rw [hsame] at rewritten
        exact .inl rewritten.same
      · exact .inr ⟨rfl, _, _, hwidens, rewritten⟩
    | widened => cases hrefused
    | made => cases hrefused
  | unmap virt ends =>
    cases ends with
    | refused quiet =>
      exact ⟨rfl, congrArg List.reverse quiet.invalidated_eq, .inl quiet.toSameTables⟩
    | kept => cases hrefused
    | released => cases hrefused
  | lookup _ silent _ =>
    rw [silent] at hrefused
    cases hrefused

/-- A page that is mapped already is asked for again with the same rights: nothing changes. -/
theorem refused_call_changes_same_rights :
    let frames : FrameStack := ⟨0x101, 0x110, []⟩
    let first : PageCall := .map (.ofNat 0x1000) (.ofNat 0x8000000) .kernel .fresh
    let second : PageCall := .map (.ofNat 0x2000) (.ofNat 0x8000000) .kernel .fresh
    ∃ mmu last next, SoftMmu.ofDirectory (Frame.ofIndex 0x100) = .ok mmu ∧
      (step ⟨mmu, frames⟩ first).outcome = .ok (.mapped (.ok ()), last) ∧
      (last.step second).outcome = .ok (.mapped (.error .alreadyMapped), next) ∧
      next.frames = last.frames ∧ next.mmu.invalidations = last.mmu.invalidations ∧
      SameTables last.mmu next.mmu := by
  intro frames first second
  obtain ⟨mmu, last, next, hnew, hlast, hnext, hgrants⟩ :=
    exists_of_two_calls (Frame.ofIndex 0x100) frames first second
      (fun last _ => decide ((last.mmu.slotEntry (VirtAddr.ofNat 0x8000000).directoryIndex).Grants
        .kernel)) true (.mapped (.ok ())) (.mapped (.error .alreadyMapped)) (by decide +kernel)
  have reached : Relation.ReflTransGen Leads ⟨mmu, frames⟩ last := .single ⟨first, _, hlast⟩
  obtain ⟨hframes, hforgot, hsame | ⟨-, slot, entry, ⟨rfl, -, hmore, -⟩, -⟩⟩ :=
    refused_call_changes hnew reached hnext rfl
  · exact ⟨mmu, last, next, hnew, hlast, hnext, hframes, hforgot, hsame⟩
  · exact absurd (of_decide_eq_true hgrants) hmore

/-- A kernel page is asked for again with the rights of user code. The mapping is refused, and the
directory entry lets user code in. -/
theorem refused_mapping_widens :
    let frames : FrameStack := ⟨0x101, 0x110, []⟩
    let first : PageCall := .map (.ofNat 0x1000) (.ofNat 0x8000000) .kernel .fresh
    let second : PageCall := .map (.ofNat 0x2000) (.ofNat 0x8000000) .userReadWrite .fresh
    ∃ mmu last next, SoftMmu.ofDirectory (Frame.ofIndex 0x100) = .ok mmu ∧
      (step ⟨mmu, frames⟩ first).outcome = .ok (.mapped (.ok ()), last) ∧
      (last.step second).outcome = .ok (.mapped (.error .alreadyMapped), next) ∧
      (last.mmu.slotEntry 32).user = false ∧ (next.mmu.slotEntry 32).user = true := by
  intro frames first second
  obtain ⟨mmu, last, next, hnew, hlast, hnext, huser⟩ :=
    exists_of_two_calls (Frame.ofIndex 0x100) frames first second
      (fun last next => ((last.mmu.slotEntry 32).user, (next.mmu.slotEntry 32).user)) (false, true)
      (.mapped (.ok ())) (.mapped (.error .alreadyMapped)) (by decide +kernel)
  obtain ⟨hbefore, hafter⟩ := Prod.mk.inj huser
  exact ⟨mmu, last, next, hnew, hlast, hnext, hbefore, hafter⟩

/-! ## Announced changes -/

/-- What a call did to the directory entry of the slot that it is about, and which pages it made the
processor forget, oldest first: a window page is among them if the table there came or went, and the
page itself if it was mapped or unmapped. -/
structure Tells (memory : PagedMemory σ) (call : PageCall) (answer : PageAnswer) (entry : PageEntry)
    (next : PagedMemory σ) (forgotten : List VirtAddr) : Prop
    extends Entered memory.mmu call.virt.directoryIndex entry next.mmu where
  invalidated_eq : next.mmu.invalidated = forgotten.reverse ++ memory.mmu.invalidated
  window_mem : ∀ slot : TableIndex, slot.window ∈ forgotten ↔ slot = call.virt.directoryIndex ∧
    entry.present ≠ (memory.mmu.slotEntry call.virt.directoryIndex).present
  virt_mem : ¬call.IsLookup → answer.isComplaint = false → call.virt ∈ forgotten
  entry_eq : entry.present = (memory.mmu.slotEntry call.virt.directoryIndex).present →
    entry = memory.mmu.slotEntry call.virt.directoryIndex ∨
      memory.Widens call.virt.directoryIndex entry call

/-- A window page is forgotten exactly if the table there came or went. -/
theorem Tells.window_mem_iff {entry : PageEntry} {forgotten : List VirtAddr}
    (tells : memory.Tells call answer entry next forgotten) (slot : TableIndex) :
    slot.window ∈ forgotten ↔
      (next.mmu.slotEntry slot).present ≠ (memory.mmu.slotEntry slot).present := by
  rw [tells.window_mem, tells.slotEntry_eq]
  by_cases hslot : call.virt.directoryIndex = slot
  · subst hslot
    rw [if_pos rfl]
    exact and_iff_right rfl
  · rw [if_neg hslot]
    exact iff_of_false (fun h => hslot h.1.symm) (fun h => h rfl)

/-- The entry of a table that stays has changed only if it was widened. -/
theorem Tells.widens_of_ne {entry : PageEntry} {forgotten : List VirtAddr}
    (tells : memory.Tells call answer entry next forgotten) {slot : TableIndex}
    (hchanged : next.mmu.slotEntry slot ≠ memory.mmu.slotEntry slot)
    (hpresent : (next.mmu.slotEntry slot).present = (memory.mmu.slotEntry slot).present) :
    memory.Widens slot (next.mmu.slotEntry slot) call := by
  rw [tells.slotEntry_eq] at hchanged hpresent ⊢
  by_cases hslot : call.virt.directoryIndex = slot
  · subst hslot
    rw [if_pos rfl] at hchanged hpresent ⊢
    exact (tells.entry_eq hpresent).resolve_left hchanged
  · rw [if_neg hslot] at hchanged
    exact absurd rfl hchanged

/-- A call whose tables stay as they are tells nothing. -/
theorem tells_of_quiet (quiet : Quiet memory.mmu next.mmu)
    (hsilent : call.IsLookup ∨ answer.isComplaint = true) :
    memory.Tells call answer (memory.mmu.slotEntry call.virt.directoryIndex) next [] := by
  refine ⟨quiet.toSameTables.entered _, quiet.invalidated_eq, fun slot => ?_, ?_, fun _ => .inl rfl⟩
  · simp
  · intro hedit hanswered
    rw [hanswered] at hsilent
    exact (hsilent.elim hedit Bool.noConfusion).elim

/-- Every call tells. -/
theorem Ends.tells (ends : memory.Ends call answer next) :
    ∃ entry forgotten, memory.Tells call answer entry next forgotten := by
  cases ends with
  | map phys virt flags mode ends =>
    cases ends with
    | refused quiet => exact ⟨_, _, tells_of_quiet quiet (.inr rfl)⟩
    | taken _ present rewritten invalidated_eq =>
      refine ⟨_, [], rewritten.entered, invalidated_eq, fun slot => ?_, ?_, fun _ => ?_⟩
      · simp [PageCall.virt, widen]
      · intro _ hanswered
        cases hanswered
      · exact widened_cases memory phys flags mode present
    | widened inner present entered invalidated_eq =>
      refine ⟨_, [virt], entered, invalidated_eq, fun slot => ?_, ?_, fun _ => ?_⟩
      · simp [PageCall.virt, widen, TableIndex.window_ne inner]
      · exact fun _ _ => List.mem_singleton_self virt
      · exact widened_cases memory phys flags mode present
    | @made _ _ pointer inner absent flags_eq _ entered invalidated_eq =>
      have hpresent : pointer.present = true := congrArg PageFlags.present flags_eq
      refine ⟨_, [TableIndex.window virt.directoryIndex, virt], entered, invalidated_eq,
        fun slot => ?_, ?_, fun hsame => ?_⟩
      · simp [PageCall.virt, TableIndex.window_ne inner, TableIndex.window_inj, absent, hpresent]
      · exact fun _ _ => List.mem_cons_of_mem _ (List.mem_singleton_self virt)
      · rw [hpresent, PageCall.virt, absent] at hsame
        cases hsame
  | unmap virt ends =>
    cases ends with
    | refused quiet => exact ⟨_, _, tells_of_quiet quiet (.inr rfl)⟩
    | kept inner present entered invalidated_eq =>
      refine ⟨_, [virt], entered, invalidated_eq, fun slot => ?_, ?_, fun _ => .inl rfl⟩
      · simp [PageCall.virt, TableIndex.window_ne inner]
      · exact fun _ _ => List.mem_singleton_self virt
    | released inner present entered invalidated_eq =>
      refine ⟨_, [virt, TableIndex.window virt.directoryIndex], entered, invalidated_eq,
        fun slot => ?_, ?_, fun hsame => ?_⟩
      · simp [PageCall.virt, TableIndex.window_ne inner, TableIndex.window_inj, present]
      · exact fun _ _ => List.mem_cons_self
      · rw [PageCall.virt, present] at hsame
        cases hsame
  | lookup lookup _ quiet => exact ⟨_, _, tells_of_quiet quiet (.inl lookup)⟩

/-- If a map is updated at an address, only the page there has changed. -/
theorem base_of_update_ne {pages : PageMap} {virt : VirtAddr} (haligned : 4096 ∣ virt.toNat)
    {changed : Option Mapping} {page : VirtPage .small}
    (hne : Function.update pages (virt.page .small) changed page ≠ pages page) :
    virt = page.base := by
  have hpage : page = virt.page .small := by
    by_contra hother
    exact hne (Function.update_of_ne hother _ _)
  rw [hpage, VirtPage.base_page haligned]

/-- If the map holds something else at a page after a call, the call has mapped or unmapped that
page. -/
theorem virt_of_view_ne [FrameSource σ] (h : memory.mmu.Sound)
    (spares : Spares memory.mmu memory.frames call)
    (outcome : (memory.step call).outcome = .ok (answer, next)) {page : VirtPage .small}
    (hchanged : next.view page ≠ memory.view page) :
    ¬call.IsLookup ∧ answer.isComplaint = false ∧ call.virt = page.base := by
  cases call with
  | map phys virt flags mode =>
    obtain ⟨made, rfl, hmapped⟩ :=
      mapped_of_answered h (legal_of_answered h spares outcome) outcome
    rcases hmapped.view_cases with ⟨_, -, hview⟩ | ⟨_, rfl, haligned, -, hview⟩
    · exact absurd (congrFun hview page) hchanged
    · rw [hview] at hchanged
      exact ⟨id, rfl, base_of_update_ne haligned hchanged⟩
  | unmap virt =>
    obtain ⟨gone, rfl, hunmapped⟩ := unmapped_of_answered h outcome
    rcases hunmapped.view_cases with ⟨_, -, hview⟩ | ⟨_, rfl, haligned, -, hview⟩
    · exact absurd (congrFun hview page) hchanged
    · rw [hview] at hchanged
      exact ⟨id, rfl, base_of_update_ne haligned hchanged⟩
  | entry virt | translate virt | isMapped virt =>
    rw [(step_of_spares h spares outcome).2.2] at hchanged
    exact absurd rfl hchanged

/-- Every change is announced, except that a table's directory entry is widened. A window page is
forgotten exactly if the table there came or went; so if the directory entry of a slot has changed
in any bit, either its window page is forgotten, or a mapping has widened the entry of a table that
stayed. And if the source spares the tables, a page whose table entry has changed is forgotten,
where a table that is not there counts as empty. -/
theorem directory_changes_announced [FrameSource σ] {directory : Frame} {mmu : SoftMmu}
    (hnew : SoftMmu.ofDirectory directory = .ok mmu) {frames : σ}
    (reached : Relation.ReflTransGen Leads ⟨mmu, frames⟩ last)
    (outcome : (last.step call).outcome = .ok (answer, next)) :
    ∃ forgotten, next.mmu.invalidations = last.mmu.invalidations ++ forgotten ∧
      (∀ slot : TableIndex, slot.window ∈ forgotten ↔
        (next.mmu.slotEntry slot).present ≠ (last.mmu.slotEntry slot).present) ∧
      (∀ slot : TableIndex, next.mmu.slotEntry slot ≠ last.mmu.slotEntry slot →
        slot.window ∈ forgotten ∨ last.Widens slot (next.mmu.slotEntry slot) call) ∧
      ∀ events, Spared ⟨mmu, frames⟩ events last → Spares last.mmu last.frames call →
        ∀ page : VirtPage .small, page.slot ≠ recursive →
          (entryAt next.mmu page.base).getD .empty ≠ (entryAt last.mmu page.base).getD .empty →
            page.base ∈ forgotten := by
  obtain ⟨entry, forgotten, tells⟩ :=
    (ends_of_outcome (anchored_of_reached hnew reached) outcome).tells
  refine ⟨forgotten, ?_, tells.window_mem_iff, fun slot hchanged => ?_, ?_⟩
  · rw [invalidations, invalidations, tells.invalidated_eq, List.reverse_append,
      List.reverse_reverse]
  · rw [tells.window_mem_iff]
    by_cases hpresent : (next.mmu.slotEntry slot).present = (last.mmu.slotEntry slot).present
    · exact .inr (tells.widens_of_ne hchanged hpresent)
    · exact .inl hpresent
  · -- With sound tables the entries of pages are those of the map, which changes at one page only.
    intro events run spares page hslot hchanged
    have hsound := run.sound (SoftMmu.sound_ofDirectory hnew).1
    rw [getD_entryAt (step_of_spares hsound spares outcome).2.1 hslot, getD_entryAt hsound hslot]
      at hchanged
    have hview : next.view page ≠ last.view page :=
      fun hsame => hchanged (congrArg (·.elim .empty Mapping.entry) hsame)
    obtain ⟨hedit, hanswered, hvirt⟩ := virt_of_view_ne hsound spares outcome hview
    rw [← hvirt]
    exact tells.virt_mem hedit hanswered

/-- The first page of a slot is mapped: the window page of the new table is forgotten, and the page.
-/
theorem directory_changes_announced_first_page :
    let frames : FrameStack := ⟨0x101, 0x110, []⟩
    let call : PageCall := .map (.ofNat 0x1000) (.ofNat 0x8000000) .kernel .fresh
    ∃ mmu next, SoftMmu.ofDirectory (Frame.ofIndex 0x100) = .ok mmu ∧
      (step ⟨mmu, frames⟩ call).outcome = .ok (.mapped (.ok ()), next) ∧
      TableIndex.window 32 ∈ next.mmu.invalidations ∧
      .ofNat 0x8000000 ∈ next.mmu.invalidations := by
  intro frames call
  have hrun : (do
      let mmu ← SoftMmu.ofDirectory (Frame.ofIndex 0x100)
      let one ← step ⟨mmu, frames⟩ call
      let page := (VirtAddr.ofNat 0x8000000).page .small
      return (mmu.invalidations, (mmu.slotEntry 32).present, (one.2.mmu.slotEntry 32).present,
        ((entryAt mmu page.base).getD .empty).present,
        ((entryAt one.2.mmu page.base).getD .empty).present, one.1) :
        Traced (List VirtAddr × Bool × Bool × Bool × Bool × PageAnswer)).outcome =
      .ok ([], false, true, false, true, .mapped (.ok ())) := by
    decide +kernel
  simp only [Traced.outcome_bind, Traced.outcome_liftM, Outcome.bind_eq_ok, Traced.outcome_pure,
    Except.ok.injEq, Prod.mk.injEq] at hrun
  obtain ⟨mmu, hnew, ⟨answer, next⟩, hnext, hsilent, habsent, hpresent, hempty, hfull, rfl⟩ := hrun
  obtain ⟨forgotten, hforgot, hwindow, -, hpage⟩ :=
    directory_changes_announced hnew (.refl : Relation.ReflTransGen Leads ⟨mmu, frames⟩ _) hnext
  have spares : Spares mmu frames call := by
    intro _ _ taken htake
    cases htake
    exact spare_ofDirectory hnew (by decide)
  rw [hsilent, List.nil_append] at hforgot
  refine ⟨mmu, next, hnew, hnext, ?_, ?_⟩
  · rw [hforgot, hwindow, habsent, hpresent]
    decide
  · rw [hforgot]
    refine hpage [] (.done _) spares ((VirtAddr.ofNat 0x8000000).page .small) (by decide) ?_
    intro hsame
    rw [hsame, hempty] at hfull
    cases hfull

/-- A page of user code is mapped beside a page of the kernel. The directory entry lets user code
in, and only the page is forgotten. -/
theorem widened_entry_unannounced :
    let frames : FrameStack := ⟨0x101, 0x110, []⟩
    let first : PageCall := .map (.ofNat 0x1000) (.ofNat 0x8000000) .kernel .fresh
    let second : PageCall := .map (.ofNat 0x2000) (.ofNat 0x8001000) .userReadWrite .fresh
    ∃ mmu last next, SoftMmu.ofDirectory (Frame.ofIndex 0x100) = .ok mmu ∧
      (step ⟨mmu, frames⟩ first).outcome = .ok (.mapped (.ok ()), last) ∧
      (last.step second).outcome = .ok (.mapped (.ok ()), next) ∧
      (last.mmu.slotEntry 32).user = false ∧ (next.mmu.slotEntry 32).user = true ∧
      next.mmu.invalidations = last.mmu.invalidations ++ [.ofNat 0x8001000] ∧
      TableIndex.window 32 ≠ .ofNat 0x8001000 := by
  intro frames first second
  obtain ⟨mmu, last, next, hnew, hlast, hnext, hfacts⟩ :=
    exists_of_two_calls (Frame.ofIndex 0x100) frames first second
      (fun last next => ((last.mmu.slotEntry 32).user, (next.mmu.slotEntry 32).user,
        decide (next.mmu.invalidations = last.mmu.invalidations ++ [.ofNat 0x8001000])))
      (false, true, true) (.mapped (.ok ())) (.mapped (.ok ())) (by decide +kernel)
  simp only [Prod.mk.injEq, decide_eq_true_eq] at hfacts
  obtain ⟨hbefore, hafter, hforgot⟩ := hfacts
  exact ⟨mmu, last, next, hnew, hlast, hnext, hbefore, hafter, hforgot, by decide⟩

end PagedMemory

end BootMemory
