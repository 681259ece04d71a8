import BootMemory.Proofs.Paging.Directory

/-!
# Access rights

The processor lets user code reach a page, and lets the page be written, only if the directory entry
of the slot and the table entry of the page both allow it. Up to 1024 pages with different rights
share a directory entry. The first of them makes it and the later ones widen it, so it allows at any
time what each of them was mapped with, and the table entry alone decides.
-/

set_option autoImplicit false

namespace BootMemory

open SoftMmu AddressSpace
open TableIndex (recursive)

/-- Whether user code may reach a page, and whether the page may be written. -/
structure Rights where
  user : Bool
  writable : Bool
  deriving DecidableEq

/-- The rights that flags ask for. -/
def PageFlags.rights (flags : PageFlags) : Rights := ⟨flags.user, flags.readWrite⟩

/-- The rights that the processor enforces at an address, if something is mapped there: those that
the directory entry and the table entry both give. -/
def SoftMmu.rights (mmu : SoftMmu) (addr : VirtAddr) : Option Rights :=
  let upper := mmu.directoryEntry addr
  if upper.present then
    let lower := (mmu.ram.load upper.frame.index).get addr.tableIndex
    if lower.present then some ⟨upper.user && lower.user, upper.writable && lower.writable⟩
    else none
  else
    none

/-- An entry grants the flags that it was made with. -/
theorem PageEntry.grants_of_flags_eq {entry : PageEntry} {flags : PageFlags}
    (h : entry.flags = flags.asPresent) : entry.Grants flags :=
  ⟨(congrArg PageFlags.user h).trans, (congrArg PageFlags.readWrite h).trans⟩

/-- Below a directory entry that grants the flags of a page, the table entry decides. -/
theorem rights_of_grants {upper lower : PageEntry} {flags : PageFlags} (h : upper.Grants flags)
    (hlower : lower.flags = flags.asPresent) :
    (⟨upper.user && lower.user, upper.writable && lower.writable⟩ : Rights) = flags.rights := by
  have huser : lower.user = flags.user := congrArg PageFlags.user hlower
  have hwritable : lower.writable = flags.readWrite := congrArg PageFlags.readWrite hlower
  rw [huser, hwritable, Bool.and_eq_right_iff_imp.mpr h.1, Bool.and_eq_right_iff_imp.mpr h.2]
  rfl

/-- The rights are read off the entry that the tables hold. -/
theorem SoftMmu.rights_eq_entryAt (mmu : SoftMmu) (addr : VirtAddr) :
    mmu.rights addr = ((entryAt mmu addr).filter (·.present)).map fun lower =>
      ⟨(mmu.directoryEntry addr).user && lower.user,
        (mmu.directoryEntry addr).writable && lower.writable⟩ := by
  simp only [rights, entryAt,
    show mmu.directoryEntry addr = mmu.slotEntry addr.directoryIndex from rfl]
  split_ifs with hupper hlower
  · rw [slotTable, Option.filter_some, if_pos hlower, Option.map_some]
  · rw [slotTable, Option.filter_some, if_neg hlower, Option.map_none]
  · rfl

/-! ## The ledger -/

/-- For each page the flags with which it was mapped last, if it was not unmapped since then. -/
abbrev FlagLedger := VirtPage .small → Option PageFlags

namespace FlagLedger

/-- The ledger after a call. -/
def after (ledger : FlagLedger) (event : PageEvent) : FlagLedger :=
  match event.call, event.answer with
  | .map _ virt flags _, .mapped (.ok ()) => Function.update ledger (virt.page .small) (some flags)
  | .unmap virt, .unmapped (.ok _) => Function.update ledger (virt.page .small) none
  | _, _ => ledger

/-- The ledger of a run from the beginning on. -/
def ofEvents (events : List PageEvent) : FlagLedger := events.foldl after fun _ => none

end FlagLedger

namespace SoftMmu

variable {mmu next : SoftMmu} {ledger : FlagLedger} {slot : TableIndex} {entry : PageEntry}

/-- The tables have the pages and the flags of the ledger, and every directory entry allows what the
pages of its slot were mapped with. -/
structure Honours (mmu : SoftMmu) (ledger : FlagLedger) : Prop where
  flags_eq : ∀ page, (mmu.view page).map (·.flags) = (ledger page).map (·.asPresent)
  grants : ∀ {page : VirtPage .small} {flags : PageFlags}, ledger page = some flags →
    (mmu.slotEntry page.slot).Grants flags

/-- The slot of a page in the ledger has a table. -/
theorem present_of_ledger {page : VirtPage .small} {flags : PageFlags}
    (hflags : (mmu.view page).map (·.flags) = (ledger page).map (·.asPresent))
    (hpage : ledger page = some flags) : (mmu.slotEntry page.slot).present = true := by
  rw [hpage] at hflags
  obtain ⟨target, htarget, -⟩ := Option.map_eq_some_iff.mp hflags
  exact (slot_of_view_eq_some htarget).2

namespace Honours

/-- The same pages are mapped, and one directory entry allows at least what it allowed. -/
theorem kept (h : Honours mmu ledger) (hview : next.view = mmu.view)
    (entered : Entered mmu slot entry next)
    (hentry : ∀ flags, (mmu.slotEntry slot).Grants flags → entry.Grants flags) :
    Honours next ledger := by
  refine ⟨fun page => hview ▸ h.flags_eq page, fun {page flags} hpage => ?_⟩
  rw [entered.slotEntry_eq]
  split
  case isTrue hslot =>
    apply hentry
    rw [hslot]
    exact h.grants hpage
  case isFalse => exact h.grants hpage

/-- The ledger stays honoured when the tables are only looked at. -/
theorem same (h : Honours mmu ledger) (same : SameTables mmu next) : Honours next ledger :=
  h.kept same.view_eq (same.entered recursive) fun _ => id

/-- One page is mapped differently. The directory entry of its slot has to allow what the page is
mapped with, and, if the table was there before and still is, what it allowed before. -/
theorem update (h : Honours mmu ledger) {page : VirtPage .small} {changed : Option Mapping}
    {granted : Option PageFlags} (hview : next.view = Function.update mmu.view page changed)
    (hchanged : changed.map (·.flags) = granted.map (·.asPresent))
    (entered : Entered mmu page.slot entry next)
    (hnew : ∀ flags, granted = some flags → entry.Grants flags)
    (hold : (mmu.slotEntry page.slot).present = true → entry.present = true →
      ∀ flags, (mmu.slotEntry page.slot).Grants flags → entry.Grants flags) :
    Honours next (Function.update ledger page granted) := by
  have hflags : ∀ other, (next.view other).map (·.flags) =
      (Function.update ledger page granted other).map (·.asPresent) := by
    intro other
    rw [hview]
    by_cases hother : other = page
    · subst hother
      rw [Function.update_self, Function.update_self]
      exact hchanged
    · rw [Function.update_of_ne hother, Function.update_of_ne hother]
      exact h.flags_eq other
  refine ⟨hflags, fun {other flags} hgranted => ?_⟩
  have hthere := present_of_ledger (hflags other) hgranted
  rw [entered.slotEntry_eq] at hthere ⊢
  by_cases hother : other = page
  · subst hother
    rw [Function.update_self] at hgranted
    rw [if_pos rfl]
    exact hnew flags hgranted
  rw [Function.update_of_ne hother] at hgranted
  split at hthere
  case isTrue hslot =>
    -- Another page of the same slot, whose table was there before.
    rw [if_pos hslot]
    apply hold _ hthere <;> rw [hslot]
    · exact h.grants hgranted
    · exact present_of_ledger (h.flags_eq other) hgranted
  case isFalse hslot =>
    rw [if_neg hslot]
    exact h.grants hgranted

/-- The rights at an address are those of the ledger, and the directory entry grants what the table
entry does. -/
theorem rights_eq (h : Honours mmu ledger) {virt : VirtAddr} (hwindow : ¬virt.InWindow) :
    mmu.rights virt = (ledger (virt.page .small)).map PageFlags.rights ∧
      ∀ lower, entryAt mmu virt = some lower → lower.present = true →
        (mmu.directoryEntry virt).Grants lower.flags := by
  have hflags := h.flags_eq (virt.page .small)
  rw [← entryAt_bind mmu hwindow] at hflags
  rw [rights_eq_entryAt]
  cases hfound : entryAt mmu virt with
  | none =>
    rw [hfound] at hflags
    rw [Option.map_eq_none_iff.mp hflags.symm]
    exact ⟨rfl, fun _ hsome => nomatch hsome⟩
  | some lower =>
    rw [hfound, Option.bind_some, PageEntry.mapping?] at hflags
    rw [Option.filter_some]
    by_cases hpresent : lower.present = true
    · rw [if_pos hpresent] at hflags ⊢
      obtain ⟨flags, hledger, hasked⟩ := Option.map_eq_some_iff.mp hflags.symm
      have hlower : lower.flags = flags.asPresent := hasked.symm
      have hgrants := h.grants hledger
      rw [VirtPage.slot_page] at hgrants
      rw [hledger]
      refine ⟨congrArg some (rights_of_grants hgrants hlower), ?_⟩
      rintro _ ⟨⟩ -
      rw [hlower]
      exact hgrants
    · rw [if_neg hpresent] at hflags ⊢
      rw [Option.map_eq_none_iff.mp hflags.symm]
      refine ⟨rfl, ?_⟩
      rintro _ ⟨⟩ hthere
      exact absurd hthere hpresent

end Honours

/-- A new directory honours the empty ledger. -/
theorem honours_ofDirectory {directory : Frame} (hnew : ofDirectory directory = .ok mmu) :
    Honours mmu fun _ => none := by
  refine ⟨fun page => ?_, fun {page flags} hpage => nomatch hpage⟩
  rw [(sound_ofDirectory hnew).2]
  rfl

end SoftMmu

namespace PagedMemory

variable {σ : Type} [FrameSource σ] {memory next first last : PagedMemory σ} {call : PageCall}
  {answer : PageAnswer} {events : List PageEvent} {ledger : FlagLedger} {virt : VirtAddr}

/-- A mapping that was answered is entered into the ledger. -/
theorem honours_map (honours : Honours memory.mmu ledger) {phys : PhysAddr}
    {flags : PageFlags} {mode : MapMode} {made : Except MappingError Unit}
    {space : SoftMmu} {rest : σ} (mapped : memory.Mapped phys virt flags mode made ⟨space, rest⟩)
    (ends : MapEnds memory.mmu virt flags memory.frames made space rest) (dry : Bool) :
    Honours space (ledger.after ⟨.map phys virt flags mode, dry, .mapped made⟩) := by
  rcases mapped.view_cases with ⟨complaint, rfl, hview⟩ | ⟨target, rfl, -, hflags, hview⟩
  · cases ends with
    | refused quiet => exact honours.same quiet.toSameTables
    | taken _ _ rewritten _ =>
      exact honours.kept hview rewritten.entered fun _ => grants_widen_of_grants
  · have hchanged : (some target).map (·.flags) = (some flags).map (·.asPresent) :=
      congrArg some hflags
    cases ends with
    | widened _ _ entered _ =>
      rw [← VirtPage.slot_page virt] at entered
      refine honours.update hview hchanged entered ?_ fun _ _ _ => grants_widen_of_grants
      rintro _ ⟨⟩
      exact grants_widen _ flags
    | made _ absent flags_eq _ entered _ =>
      rw [← VirtPage.slot_page virt] at entered absent
      refine honours.update hview hchanged entered ?_ fun hpresent => ?_
      · rintro _ ⟨⟩
        exact PageEntry.grants_of_flags_eq flags_eq
      · -- The slot had no table, so no other page of it is mapped.
        rw [absent] at hpresent
        cases hpresent

/-- An unmapping that was answered is entered into the ledger. -/
theorem honours_unmap (honours : Honours memory.mmu ledger)
    {gone : Except MappingError Frame} {space : SoftMmu} {rest : σ}
    (unmapped : memory.Unmapped virt gone ⟨space, rest⟩)
    (ends : UnmapEnds memory.mmu virt memory.frames gone space rest) (dry : Bool) :
    Honours space (ledger.after ⟨.unmap virt, dry, .unmapped gone⟩) := by
  rcases unmapped.view_cases with ⟨complaint, rfl, hview⟩ | ⟨target, rfl, -, -, hview⟩
  · cases ends with
    | refused quiet => exact honours.same quiet.toSameTables
  · cases ends with
    | kept _ _ entered _ =>
      rw [← VirtPage.slot_page virt] at entered
      refine honours.update hview rfl entered ?_ fun _ _ _ => id
      rintro _ ⟨⟩
    | released _ _ entered _ =>
      rw [← VirtPage.slot_page virt] at entered
      refine honours.update hview rfl entered ?_ fun _ hpresent => ?_
      · rintro _ ⟨⟩
      · cases hpresent

/-- Every call that is answered keeps the ledger honoured, if the source spares the tables. -/
theorem honours_of_answered (h : memory.mmu.Sound) (honours : Honours memory.mmu ledger)
    (spares : Spares memory.mmu memory.frames call)
    (outcome : (memory.step call).outcome = .ok (answer, next)) (dry : Bool) :
    Honours next.mmu (ledger.after ⟨call, dry, answer⟩) := by
  cases ends_of_outcome h.toSeparated.anchored outcome with
  | map phys virt flags mode ends =>
    obtain ⟨made, hmade, hmapped⟩ :=
      mapped_of_answered h (legal_of_answered h spares outcome) outcome
    cases hmade
    exact honours_map honours hmapped ends dry
  | unmap virt ends =>
    obtain ⟨gone, hgone, hunmapped⟩ := unmapped_of_answered h outcome
    cases hgone
    exact honours_unmap honours hunmapped ends dry
  | lookup lookup _ quiet =>
    cases call with
    | map phys virt flags mode => exact lookup.elim
    | unmap virt => exact lookup.elim
    | entry virt | translate virt | isMapped virt => exact honours.same quiet.toSameTables

/-- Along a run that spares the tables the ledger is honoured. -/
theorem Spared.honours (run : Spared first events last) (h : first.mmu.Sound)
    (honours : Honours first.mmu ledger) :
    Honours last.mmu (events.foldl FlagLedger.after ledger) := by
  induction run generalizing ledger with
  | done memory => exact honours
  | call spares outcome rest ih =>
    exact ih (step_of_spares h spares outcome).2.1 (honours_of_answered h honours spares outcome _)

/-- Every page has the rights that it was mapped with. Over a new directory, a source that spares
the tables, and any run of calls, with any flags and in both modes: the rights that the processor
enforces at an address outside the window are those that the last mapping of its page asked for, if
the page was not unmapped since then, and there are none otherwise, whatever the other pages of the
slot were mapped with. The directory entry lets user code in, and lets write, wherever the table
entry of a mapped page does. -/
theorem effective_rights_are_granted {directory : Frame} {mmu : SoftMmu}
    (hnew : SoftMmu.ofDirectory directory = .ok mmu) {frames : σ}
    (run : Spared ⟨mmu, frames⟩ events last) (hwindow : ¬virt.InWindow) :
    last.mmu.rights virt =
        (FlagLedger.ofEvents events (virt.page .small)).map PageFlags.rights ∧
      ∀ lower, entryAt last.mmu virt = some lower → lower.present = true →
        (last.mmu.directoryEntry virt).Grants lower.flags := by
  have honours := run.honours (SoftMmu.sound_ofDirectory hnew).1 (honours_ofDirectory hnew)
  exact honours.rights_eq hwindow

/-- A page of the kernel and a page of user code share a directory entry, and the first one is
mapped again, so that user code can read it but not write. -/
theorem effective_rights_are_granted_shared_slot :
    let frames : FrameStack := ⟨0x101, 0x110, []⟩
    let readOnly : PageFlags := { PageFlags.userReadWrite with readWrite := false }
    let first : PageCall := .map (.ofNat 0x1000) (.ofNat 0x8000000) .kernel .fresh
    let second : PageCall := .map (.ofNat 0x2000) (.ofNat 0x8001000) .userReadWrite .fresh
    let third : PageCall := .map (.ofNat 0x3000) (.ofNat 0x8000000) readOnly .bootstrap
    ∃ mmu last, SoftMmu.ofDirectory (Frame.ofIndex 0x100) = .ok mmu ∧
      Spared ⟨mmu, frames⟩ [⟨first, false, .mapped (.ok ())⟩, ⟨second, false, .mapped (.ok ())⟩,
        ⟨third, false, .mapped (.ok ())⟩] last ∧
      last.mmu.rights (.ofNat 0x8000123) = some ⟨true, false⟩ ∧
      last.mmu.rights (.ofNat 0x8001123) = some ⟨true, true⟩ ∧
      last.mmu.rights (.ofNat 0x8002123) = none := by
  intro frames readOnly first second third
  have hrun : (do
      let mmu ← SoftMmu.ofDirectory (Frame.ofIndex 0x100)
      let one ← step ⟨mmu, frames⟩ first
      let two ← one.2.step second
      let three ← two.2.step third
      return ([(one.2.mmu.slotEntry (VirtAddr.ofNat 0x8001000).directoryIndex).present,
        (two.2.mmu.slotEntry (VirtAddr.ofNat 0x8000000).directoryIndex).present],
        [one.2.dry, two.2.dry], [one.1, two.1, three.1]) :
        Traced (List Bool × List Bool × List PageAnswer)).outcome =
      .ok ([true, true], [false, false],
        [.mapped (.ok ()), .mapped (.ok ()), .mapped (.ok ())]) := by
    decide +kernel
  simp only [Traced.outcome_bind, Traced.outcome_liftM, Outcome.bind_eq_ok, Traced.outcome_pure,
    Except.ok.injEq, Prod.mk.injEq, List.cons.injEq, and_true] at hrun
  obtain ⟨mmu, hnew, ⟨_, one⟩, hone, ⟨_, two⟩, htwo, ⟨_, last⟩, hlast, ⟨hslot, hslot'⟩,
    ⟨hdry, hdry'⟩, rfl, rfl, rfl⟩ := hrun
  have spares : Spares mmu frames first := by
    intro _ _ taken htake
    cases htake
    exact spare_ofDirectory hnew (by decide)
  dsimp only at hdry hdry'
  have run := Spared.call spares hone (.call (spares_of_present hslot) htwo
    (.call (spares_of_present hslot') hlast (.done last)))
  rw [hdry, hdry', show dry ⟨mmu, frames⟩ = false from rfl] at run
  refine ⟨mmu, last, hnew, run, ?_, ?_, ?_⟩
  all_goals
    rw [(effective_rights_are_granted hnew run (by decide)).1]
    decide

end PagedMemory

end BootMemory
