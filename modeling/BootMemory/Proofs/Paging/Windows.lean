import BootMemory.Proofs.Paging.Mirror

/-!
# The two windows agree

The same calls are made of two address spaces, one over a simulated MMU and one over a flat window,
with sources of frames that start out the same. A book is kept of the frames that are taken from a
source and given back to it. As long as no frame is handed out for a table that holds the directory
or a table already, both runs show the same after every call: the answer, the book, and every
directory entry; and if one of them faults, so does the other.
-/

set_option autoImplicit false

namespace BootMemory

open TableIndex (recursive)

/-! ## Sources with a book -/

/-- What happened to a frame of a source. -/
inductive FrameEvent where
  | taken (frame : Frame)
  | returned (frame : Frame)
  deriving DecidableEq

/-- A source, and the book of its frames, newest entry first. -/
structure Booked (σ : Type) where
  source : σ
  book : List FrameEvent
  deriving DecidableEq

instance {σ : Type} [FrameSource σ] : FrameSource (Booked σ) where
  allocate booked := (FrameSource.allocate booked.source).map fun taken =>
    (taken.1, ⟨taken.2, .taken taken.1 :: booked.book⟩)
  free frame booked := do
    let source ← FrameSource.free frame booked.source
    return ⟨source, .returned frame :: booked.book⟩

namespace AddressSpace

variable {ω σ : Type} [TableWindow ω] [FrameSource σ]

/-- The answer to a call over any window and any source, and what they are afterwards. -/
def perform (window : ω) (frames : σ) : PageCall → Traced (PageAnswer × ω × σ)
  | .map phys virt flags mode => do
    let (answer, window, frames) ← map phys virt flags mode window frames
    return (.mapped answer, window, frames)
  | .unmap virt => do
    let (answer, window, frames) ← unmap virt window frames
    return (.unmapped answer, window, frames)
  | .entry virt => do
    let (answer, window) ← entry? virt window
    return (.entry answer, window, frames)
  | .translate virt => do
    let (answer, window) ← translate virt window
    return (.address answer, window, frames)
  | .isMapped virt => do
    let (answer, window) ← isMapped virt window
    return (.flag answer, window, frames)

/-- What a run shows after a call: the answer, the source with its book, and every directory
entry. -/
structure Seen (σ : Type) where
  answer : PageAnswer
  frames : Booked σ
  entries : TableIndex → PageEntry

/-- What a run shows after each call, and the fault that stopped it, if one did. -/
def watch (entries : ω → TableIndex → PageEntry) :
    List PageCall → ω → Booked σ → List (Seen σ) × Option Fault
  | [], _, _ => ([], none)
  | call :: calls, window, frames =>
    match (perform window frames call).outcome with
    | .error cause => ([], some cause)
    | .ok (answer, window, frames) =>
      let (seen, cause) := watch entries calls window frames
      (⟨answer, frames, entries window⟩ :: seen, cause)

/-- Whether a frame that a source hands out in a call, for a new table, is neither that of the
directory nor that of a table. -/
def Spares (mmu : SoftMmu) (frames : σ) : PageCall → Prop
  | .map phys virt _ _ => checkMap phys virt = .ok () →
      (mmu.slotEntry virt.directoryIndex).present = false →
        ∀ taken ∈ FrameSource.allocate frames, Spare mmu taken.1
  | .unmap _ | .entry _ | .translate _ | .isMapped _ => True

/-- Whether a source hands out spare frames only, as long as a run goes on. -/
def Behaves : List PageCall → SoftMmu → σ → Prop
  | [], _, _ => True
  | call :: calls, mmu, frames => Spares mmu frames call ∧
      match (perform mmu frames call).outcome with
      | .ok (_, next, rest) => Behaves calls next rest
      | .error _ => True

/-! ## Both runs -/

variable {mmu : SoftMmu} {flat : FlatWindow}

/-- A call does the same on both sides. -/
theorem perform_mirrors (h : Mirrors mmu flat) {frames : σ} {call : PageCall}
    (hspares : Spares mmu frames call) :
    Related Mirrored (perform mmu frames call).outcome (perform flat frames call).outcome := by
  cases call with
  | map phys virt flags mode =>
    simp only [perform, Traced.outcome_bind]
    refine (map_mirrors h phys virt flags mode frames fun hcheck habsent frame rest htake =>
      hspares hcheck habsent (frame, rest) htake).bind ?_
    rintro ⟨answer, next, rest⟩ ⟨_, last, _⟩ ⟨rfl, hmirrors, rfl⟩
    exact .ok ⟨rfl, hmirrors, rfl⟩
  | unmap virt =>
    simp only [perform, Traced.outcome_bind]
    refine (unmap_mirrors h virt frames).bind ?_
    rintro ⟨answer, next, rest⟩ ⟨_, last, _⟩ ⟨rfl, hmirrors, rfl⟩
    exact .ok ⟨rfl, hmirrors, rfl⟩
  | entry virt =>
    simp only [perform, Traced.outcome_bind]
    refine (entry?_mirrors h virt).bind ?_
    rintro ⟨answer, next⟩ ⟨_, last⟩ ⟨rfl, hmirrors⟩
    exact .ok ⟨rfl, hmirrors, rfl⟩
  | translate virt =>
    simp only [perform, translate, Traced.outcome_bind, bind_assoc]
    refine (entry?_mirrors h virt).bind ?_
    rintro ⟨answer, next⟩ ⟨_, last⟩ ⟨rfl, hmirrors⟩
    exact .ok ⟨rfl, hmirrors, rfl⟩
  | isMapped virt =>
    simp only [perform, isMapped, Traced.outcome_bind, bind_assoc]
    refine (entry?_mirrors h virt).bind ?_
    rintro ⟨answer, next⟩ ⟨_, last⟩ ⟨rfl, hmirrors⟩
    exact .ok ⟨rfl, hmirrors, rfl⟩

/-- Runs from windows of which one mirrors the other show the same. -/
theorem watch_mirrors {calls : List PageCall} {frames : Booked σ} (h : Mirrors mmu flat)
    (hbehaves : Behaves calls mmu frames) :
    watch SoftMmu.slotEntry calls mmu frames = watch FlatWindow.slotEntry calls flat frames := by
  induction calls generalizing mmu flat frames with
  | nil => rfl
  | cons call calls ih =>
    obtain ⟨hspares, hrest⟩ := hbehaves
    have hstep := perform_mirrors h hspares
    unfold watch
    generalize (perform mmu frames call).outcome = soft at hstep hrest
    generalize (perform flat frames call).outcome = plain at hstep
    cases hstep with
    | fault cause => rfl
    | @ok first second hstep =>
      obtain ⟨answer, next, rest⟩ := first
      obtain ⟨_, last, _⟩ := second
      obtain ⟨rfl, hmirrors, rfl⟩ := hstep
      have hentries : next.slotEntry = last.slotEntry :=
        funext fun slot => (hmirrors.entry_eq slot).symm
      simp only
      rw [ih hmirrors hrest, hentries]

/-- A new simulated MMU is mirrored by every flat window with a new directory, whatever else it
holds. -/
theorem mirrors_ofDirectory {directory : Frame} {blank : FlatWindow}
    (hsoft : SoftMmu.ofDirectory directory = .ok mmu)
    (hblank : FlatWindow.ofDirectory directory = .ok blank)
    (hflat : ∀ slot, flat.slotEntry slot = blank.slotEntry slot) : Mirrors mmu flat := by
  have hnew := SoftMmu.blank_ofDirectory hsoft
  refine ⟨hnew.sound.toSeparated, fun slot => ?_, fun hinner hpresent => ?_⟩
  · unfold SoftMmu.ofDirectory at hsoft
    obtain ⟨entry, hentry, hsoft⟩ := Outcome.bind_eq_ok.mp hsoft
    unfold FlatWindow.ofDirectory at hblank
    rw [hentry] at hblank
    cases hsoft
    cases hblank
    rw [hflat, FlatWindow.slotEntry, SoftMmu.slotEntry, TableStore.load_save, if_pos rfl,
      TableStore.load_save, if_pos rfl]
  · exact absurd ((hnew.present_iff _).mp hpresent) hinner

/-- The two windows agree. Over a new directory, whatever a flat window holds besides it, and over
any source of frames that hands out spare frames only, each call of any sequence shows the same on
both sides: the answer, all frames that were taken from the source and given back to it so far,
and every directory entry. A run faults on one side exactly if it does on the other. -/
theorem windows_agree {directory : Frame} {blank : FlatWindow} {calls : List PageCall} {frames : σ}
    (hsoft : SoftMmu.ofDirectory directory = .ok mmu)
    (hblank : FlatWindow.ofDirectory directory = .ok blank)
    (hflat : ∀ slot, flat.slotEntry slot = blank.slotEntry slot)
    (hbehaves : Behaves calls mmu (Booked.mk frames [])) :
    watch SoftMmu.slotEntry calls mmu ⟨frames, []⟩ =
      watch FlatWindow.slotEntry calls flat ⟨frames, []⟩ :=
  watch_mirrors (mirrors_ofDirectory hsoft hblank hflat) hbehaves

/-- Calls that take no frame ask nothing of a source. -/
theorem behaves_of_spares {calls : List PageCall}
    (h : ∀ call ∈ calls, ∀ (mmu : SoftMmu) (frames : σ), Spares mmu frames call)
    (mmu : SoftMmu) (frames : σ) : Behaves calls mmu frames := by
  induction calls generalizing mmu frames with
  | nil => exact trivial
  | cons call calls ih =>
    obtain ⟨hcall, hcalls⟩ := List.forall_mem_cons.mp h
    refine ⟨hcall mmu frames, ?_⟩
    split
    case h_1 => exact ih hcalls _ _
    case h_2 => exact trivial

/-- Two pages of a slot come, and one of them goes. The flat window is full of junk besides its
directory, and nothing of it is seen. -/
theorem windows_agree_junk :
    let frames : FrameStack := ⟨0x101, 0x110, []⟩
    let calls : List PageCall :=
      [.map (.ofNat 0x5000) (.ofNat 0x400000) .kernel .fresh,
        .map (.ofNat 0x6000) (.ofNat 0x401000) .kernel .fresh, .translate (.ofNat 0x401123),
        .unmap (.ofNat 0x400000), .entry (.ofNat 0x402000)]
    ∃ mmu flat, SoftMmu.ofDirectory (Frame.ofIndex 0x100) = .ok mmu ∧
      flat.tables.blank = .filled SoftMmu.junk ∧
      (watch FlatWindow.slotEntry calls flat ⟨frames, []⟩).1.map (·.answer) =
        [.mapped (.ok ()), .mapped (.ok ()), .address (some (.ofNat 0x6123)),
          .unmapped (.ok (Frame.ofIndex 5)), .entry (some .empty)] ∧
      watch SoftMmu.slotEntry calls mmu ⟨frames, []⟩ =
        watch FlatWindow.slotEntry calls flat ⟨frames, []⟩ := by
  intro frames calls
  have hrun : (do
      let mmu ← SoftMmu.ofDirectory (Frame.ofIndex 0x100)
      let blank ← FlatWindow.ofDirectory (Frame.ofIndex 0x100)
      let (_, one, _) ← perform mmu (Booked.mk frames [])
        (.map (.ofNat 0x5000) (.ofNat 0x400000) .kernel .fresh)
      let flat : FlatWindow := ⟨{ blank.tables with blank := .filled SoftMmu.junk }⟩
      return ((one.slotEntry (VirtAddr.ofNat 0x401000).directoryIndex).present,
        (watch FlatWindow.slotEntry calls flat ⟨frames, []⟩).1.map (·.answer)) :
        Traced (Bool × List PageAnswer)).outcome =
      .ok (true, [.mapped (.ok ()), .mapped (.ok ()), .address (some (.ofNat 0x6123)),
        .unmapped (.ok (Frame.ofIndex 5)), .entry (some .empty)]) := by
    decide +kernel
  simp only [Traced.outcome_bind, Traced.outcome_liftM, Outcome.bind_eq_ok, Traced.outcome_pure,
    Except.ok.injEq, Prod.mk.injEq] at hrun
  obtain ⟨mmu, hsoft, blank, hblank, ⟨answer, one, rest⟩, hone, hpresent, hanswers⟩ := hrun
  have hother : ∀ slot, FlatWindow.slotEntry
      ⟨{ blank.tables with blank := .filled SoftMmu.junk }⟩ slot = blank.slotEntry slot := by
    obtain ⟨entry, -, hblank⟩ := Outcome.bind_eq_ok.mp hblank
    cases hblank
    exact fun slot => rfl
  have hfirst : Spare mmu (Frame.ofIndex 0x101) := by
    obtain ⟨-, entry, -, hframe, hentry⟩ := SoftMmu.ofDirectory_slotEntry hsoft
    intro slot hslot
    rw [hentry] at hslot ⊢
    split at hslot
    case isTrue hlast =>
      rw [if_pos hlast, hframe]
      decide
    case isFalse => cases hslot
  have hbehaves : Behaves calls mmu (Booked.mk frames []) := by
    refine ⟨fun _ _ taken htake => ?_, ?_⟩
    · cases htake
      exact hfirst
    rw [hone]
    refine ⟨fun _ habsent => ?_, ?_⟩
    · rw [hpresent] at habsent
      cases habsent
    split
    case h_1 => exact behaves_of_spares (by simp [Spares]) _ _
    case h_2 => exact trivial
  exact ⟨mmu, _, hsoft, rfl, hanswers, windows_agree hsoft hblank hother hbehaves⟩

end AddressSpace

end BootMemory
