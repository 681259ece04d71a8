import BootMemory.Proofs.Memory.Rollback
import BootMemory.Proofs.Memory.Run

/-!
# Fresh pages, and what they cost

A page that is mapped to a fresh frame may fail at several points, and at each of them another
amount has been taken by then: nothing, the frame of the page, or that and a look at the tables.
Whatever was missing, a failure costs nothing, and a page that is unmapped again right away costs
nothing either (`MemoryRun.fresh_page_costs_nothing`).

The used frames say what most counters of a frame allocator are. The counters of reserved frames are
its own affair: neither handing out a frame nor taking one back changes them, so no call of an
address space does (`FrameSource.Keeps`).
-/

set_option autoImplicit false

namespace BootMemory

/-! ## What calls keep of a source -/

/-- What somebody keeps track of does not change when a source hands out a frame or takes one
back. -/
structure FrameSource.Keeps {σ α : Type} [FrameSource σ] (tracked : σ → α) : Prop where
  allocate : ∀ {frames rest : σ} {frame : Frame},
    FrameSource.allocate frames = some (frame, rest) → tracked rest = tracked frames
  free : ∀ {frames rest : σ} {frame : Frame},
    (FrameSource.free frame frames).outcome = .ok rest → tracked rest = tracked frames

namespace AddressSpace

variable {ω σ α : Type} [TableWindow ω] [FrameSource σ] {tracked : σ → α} {frames rest : σ}
  {space next : ω} {slot : TableIndex} {phys : PhysAddr} {virt : VirtAddr} {flags : PageFlags}
  {mode : MapMode}

/-- Making a table changes nothing that its source keeps. -/
theorem ensureTable_keeps (h : FrameSource.Keeps tracked) {answer : Except MappingError Unit}
    (houtcome : (ensureTable slot flags space frames).outcome = .ok (answer, next, rest)) :
    tracked rest = tracked frames := by
  simp only [ensureTable, Traced.outcome_bind] at houtcome
  obtain ⟨⟨place, walked⟩, -, houtcome⟩ := Outcome.bind_eq_ok.mp houtcome
  dsimp only at houtcome
  split at houtcome
  case isTrue =>
    cases houtcome
    rfl
  case isFalse =>
    split at houtcome
    case h_1 =>
      cases houtcome
      rfl
    case h_2 frame left htake =>
      simp only [Traced.outcome_bind, Traced.outcome_liftM, Outcome.bind_eq_ok] at houtcome
      obtain ⟨pointer, -, shown, -, -, -, houtcome⟩ := houtcome
      cases houtcome
      exact h.allocate htake

/-- A mapping changes nothing that its source keeps. -/
theorem map_keeps (h : FrameSource.Keeps tracked) {answer : Except MappingError Unit}
    (houtcome : (map phys virt flags mode space frames).outcome = .ok (answer, next, rest)) :
    tracked rest = tracked frames := by
  unfold map at houtcome
  split at houtcome
  case h_1 =>
    cases houtcome
    rfl
  case h_2 =>
    rw [Traced.outcome_bind] at houtcome
    obtain ⟨⟨made, ready, left⟩, hensure, houtcome⟩ := Outcome.bind_eq_ok.mp houtcome
    rw [← ensureTable_keeps h hensure]
    cases made with
    | error complaint =>
      cases houtcome
      rfl
    | ok _ =>
      simp only [Traced.outcome_bind] at houtcome
      obtain ⟨written, -, houtcome⟩ := Outcome.bind_eq_ok.mp houtcome
      cases houtcome
      rfl

/-- Giving an empty table back changes nothing that its source keeps. -/
theorem releaseTable_keeps (h : FrameSource.Keeps tracked) {directoryPlace tablePlace : Nat}
    {entry : PageEntry} (houtcome :
      (releaseTable slot directoryPlace tablePlace entry space frames).outcome =
        .ok (next, rest)) : tracked rest = tracked frames := by
  unfold releaseTable at houtcome
  split at houtcome
  case isTrue =>
    simp only [Traced.outcome_bind, Traced.outcome_report, Outcome.ok_bind] at houtcome
    obtain ⟨left, hfree, houtcome⟩ := Outcome.bind_eq_ok.mp houtcome
    cases houtcome
    exact h.free hfree
  case isFalse =>
    cases houtcome
    rfl

/-- An unmapping changes nothing that its source keeps. -/
theorem unmap_keeps (h : FrameSource.Keeps tracked) {answer : Except MappingError Frame}
    (houtcome : (unmap virt space frames).outcome = .ok (answer, next, rest)) :
    tracked rest = tracked frames := by
  unfold unmap at houtcome
  split at houtcome
  case h_1 =>
    cases houtcome
    rfl
  case h_2 =>
    simp only [Traced.outcome_bind] at houtcome
    obtain ⟨⟨place, walked⟩, -, houtcome⟩ := Outcome.bind_eq_ok.mp houtcome
    dsimp only at houtcome
    split at houtcome
    · cases houtcome
      rfl
    rw [Traced.outcome_bind] at houtcome
    obtain ⟨⟨tablePlace, shown⟩, -, houtcome⟩ := Outcome.bind_eq_ok.mp houtcome
    dsimp only at houtcome
    split at houtcome
    · cases houtcome
      rfl
    -- The frame of the page goes back first, and then that of the table.
    simp only [Traced.outcome_bind, Traced.outcome_report, Outcome.ok_bind] at houtcome
    obtain ⟨left, hfree, houtcome⟩ := Outcome.bind_eq_ok.mp houtcome
    obtain ⟨⟨cleared, last⟩, hrelease, houtcome⟩ := Outcome.bind_eq_ok.mp houtcome
    cases houtcome
    exact (releaseTable_keeps h hrelease).trans (h.free hfree)

end AddressSpace

namespace KernelMemory

variable {ω α : Type} [TableWindow ω] {tracked : FrameAllocator → α} {memory next : KernelMemory ω}
  {virt : VirtAddr} {flags : PageFlags} {answer : Except MappingError Frame}

/-- Unmapping a page of kernel memory changes nothing that its source keeps. -/
theorem unmap_keeps (h : FrameSource.Keeps tracked)
    (houtcome : (memory.unmap virt).outcome = .ok (answer, next)) :
    tracked next.frames = tracked memory.frames := by
  simp only [unmap, Traced.outcome_bind] at houtcome
  obtain ⟨⟨_, space, rest⟩, hunmap, houtcome⟩ := Outcome.bind_eq_ok.mp houtcome
  cases houtcome
  exact AddressSpace.unmap_keeps h hunmap

/-- Mapping a page of kernel memory to a fresh frame changes nothing that its source keeps. -/
theorem mapFresh_keeps (h : FrameSource.Keeps tracked)
    (houtcome : (memory.mapFresh virt flags).outcome = .ok (answer, next)) :
    tracked next.frames = tracked memory.frames := by
  unfold mapFresh at houtcome
  cases hallocate : memory.frames.allocate with
  | none =>
    rw [hallocate] at houtcome
    cases houtcome
    rfl
  | some taken =>
    obtain ⟨frame, frames⟩ := taken
    have htaken : tracked frames = tracked memory.frames := h.allocate hallocate
    rw [hallocate] at houtcome
    rw [← htaken]
    simp only [map, Traced.outcome_bind] at houtcome
    obtain ⟨answered, hmap, houtcome⟩ := Outcome.bind_eq_ok.mp houtcome
    obtain ⟨⟨mapped, space, rest⟩, hspace, hmemory⟩ := Outcome.bind_eq_ok.mp hmap
    cases hmemory
    rw [← AddressSpace.map_keeps h hspace]
    cases mapped with
    | ok _ =>
      cases houtcome
      rfl
    | error complaint =>
      simp only [Traced.outcome_bind] at houtcome
      obtain ⟨freed, hfree, houtcome⟩ := Outcome.bind_eq_ok.mp houtcome
      cases houtcome
      exact h.free hfree

/-- Backing a page is mapping it for the kernel, without saying to which frame. -/
theorem back_outcome (memory : KernelMemory ω) (virt : VirtAddr) :
    (memory.back virt).outcome = (memory.mapFresh virt .kernel).outcome.map
      fun (answer, next) => (answer.map fun _ => (), next) := by
  simp only [back, Traced.outcome_bind]
  rfl

end KernelMemory

/-! ## Counters -/

namespace FrameAllocator

/-- What the counters of an allocator show: those over all frames, and of each stretch how many
frames it has, how many of these are used, and how many were reserved. -/
structure Counters where
  total : Nat
  used : Nat
  reserved : Nat
  free : Nat
  stretches : List (Nat × Nat × Nat)
  deriving DecidableEq

def counters (allocator : FrameAllocator) : Counters :=
  ⟨allocator.total, allocator.used, allocator.reserved, allocator.freeFrames,
    allocator.regions.toList.map fun region => (region.total, region.used, region.reserved)⟩

/-- What an allocator does not change when it hands out a frame or takes one back: how many frames
it has, how many were reserved, and for each stretch which frames these are. -/
def standing (allocator : FrameAllocator) : Nat × Nat × List ((Nat × Nat × Nat) × Nat) :=
  (allocator.total, allocator.reserved,
    allocator.regions.toList.map fun region => (shape region, region.reserved))

variable {allocator other : FrameAllocator}

/-- A stretch may be changed if it keeps its shape and its counter of reserved frames. -/
theorem map_standing_modify (regions : Array FrameRegion) (index : Nat)
    (change : FrameRegion → FrameRegion)
    (h : ∀ region, (shape (change region), (change region).reserved) =
      (shape region, region.reserved)) :
    ((regions.modify index change).toList.map fun region => (shape region, region.reserved)) =
      regions.toList.map fun region => (shape region, region.reserved) := by
  apply List.ext_getElem (by simp)
  intro i hi hi'
  simp only [List.getElem_map, Array.getElem_toList, Array.getElem_modify]
  split
  · exact h _
  · rfl

/-- An allocator keeps what stands. -/
theorem keeps_standing : FrameSource.Keeps standing where
  allocate {frames rest frame} htake := by
    replace htake : frames.allocate = some (frame, rest) := htake
    unfold FrameAllocator.allocate at htake
    dsimp only at htake
    split at htake
    case isTrue => cases htake
    obtain ⟨⟨index, bit⟩, -, htake⟩ := Option.bind_eq_some_iff.mp htake
    obtain ⟨region, -, htake⟩ := Option.bind_eq_some_iff.mp htake
    cases htake
    have hmap := map_standing_modify frames.regions index (·.take bit) fun _ => rfl
    exact congrArg (fun list => (frames.total, frames.reserved, list)) hmap
  free {frames rest frame} hfree := by
    replace hfree : (free frame frames).outcome = .ok rest := hfree
    unfold FrameAllocator.free at hfree
    split at hfree
    case h_1 =>
      cases hfree
      rfl
    case h_2 index _ =>
      split at hfree
      case h_1 =>
        cases hfree
        rfl
      case h_2 region _ =>
        dsimp only at hfree
        split at hfree
        case isFalse => cases hfree
        case isTrue =>
          cases hfree
          have hmap := map_standing_modify frames.regions index
            (·.release (region.bitOf frame)) fun _ => rfl
          exact congrArg (fun list => (frames.total, frames.reserved, list)) hmap

/-- The used frames of a stretch are the unavailable ones among its frames. -/
theorem Sound.used_eq_card (h : allocator.Sound) {region : FrameRegion}
    (hm : region ∈ allocator.regions.toList) :
    region.used = (region.frames ∩ allocator.unavailable).card := by
  rw [h.exact region hm]
  congr 1
  ext frame
  rw [Finset.mem_inter]
  constructor
  · intro htaken
    have hin := FrameRegion.taken_subset htaken
    exact ⟨hin, (h.mem_unavailable_iff hm hin).mpr htaken⟩
  · exact fun hframe => (h.mem_unavailable_iff hm hframe.1).mp hframe.2

/-- The counters of a stretch follow from what stands and from the used frames. -/
theorem Sound.counters_eq (h : allocator.Sound) : allocator.counters =
    let (total, reserved, stretches) := allocator.standing
    let used := allocator.unavailable.card
    ⟨total, used, reserved, total - used, stretches.map fun ((first, bits, _), reserved) =>
      (bits, (Finset.Ico first (first + bits) ∩ allocator.unavailable).card, reserved)⟩ := by
  simp only [counters, standing, freeFrames, h.used_eq, List.map_map, Counters.mk.injEq, true_and]
  refine List.map_congr_left fun region hm => ?_
  rw [h.used_eq_card hm]
  rfl

/-- Sound allocators with the same used frames count the same if the same stands. -/
theorem Sound.counters_congr (h : allocator.Sound) (h' : other.Sound)
    (hstanding : other.standing = allocator.standing)
    (hunavailable : other.unavailable = allocator.unavailable) :
    other.counters = allocator.counters := by
  rw [h.counters_eq, h'.counters_eq, hstanding, hunavailable]

end FrameAllocator

/-! ## Requests that cost nothing -/

/-- A frame starts at its base. -/
theorem Mapping.addressAt_zero (target : Mapping) : target.addressAt 0 = target.frame.base := by
  apply PhysAddr.ext
  simp [addressAt, frame, PageSize.bytes]

namespace KernelMemory

open FrameAllocator SoftMmu

variable {outside : Outside} {memory next last : KernelMemory SoftMmu} {virt : VirtAddr}
  {frame : Frame}

/-- Nothing that a user can see has changed, the counters of the frames included. -/
structure CostsNothing (memory next : KernelMemory SoftMmu) : Prop
    extends Unchanged memory next where
  counters_eq : next.frames.counters = memory.frames.counters

/-- A memory that is as it was, with an allocator that kept what stands, has cost nothing. -/
theorem Restored.costsNothing (h : Restored memory next) (howned : Owned outside memory)
    (hstanding : next.frames.standing = memory.frames.standing) : CostsNothing memory next :=
  ⟨h.unchanged howned,
    howned.frames.counters_congr h.frames.sound hstanding h.frames.unavailable_eq⟩

/-- A page that was given a frame translates to it. -/
theorem Gains.translate_eq (h : Gains memory virt frame next) (hspace : next.space.Sound) :
    ∃ shown, (next.translate virt).outcome = .ok (some frame.base, shown) := by
  obtain ⟨target, rfl, hview⟩ := h.view_eq
  obtain ⟨space, houtcome, -⟩ := AddressSpace.translate_outcome hspace.toWindowed virt
  have haddress : next.space.view.translate virt = some target.frame.base := by
    have hoffset : virt.pageOffset = 0 := Fin.ext (Nat.mod_eq_zero_of_dvd h.aligned)
    rw [PageMap.translate, hview, Function.update_self, Option.map_some, hoffset,
      target.addressAt_zero]
  refine ⟨⟨next.frames, space⟩, ?_⟩
  rw [AddressSpace.translation_eq _ h.outside_window, haddress] at houtcome
  simp [KernelMemory.translate, houtcome]

/-- What a page got is given back by unmapping it, and then everything is as it was. -/
theorem Gains.unmap_restored (h : Gains memory virt frame next) (howned : Owned outside memory)
    (howned' : Owned outside next) :
    ∃ last, (next.unmap virt).outcome = .ok (.ok frame, last) ∧ Restored memory last := by
  obtain ⟨target, hframe, hview⟩ := h.view_eq
  have hmapped : next.space.view (virt.page .small) = some target := by
    rw [hview, Function.update_self]
  have b : Borrowed outside memory next [virt.page .small] :=
    (Borrowed.refl howned).gains howned.space howned' h
  rcases howned'.unmap_cases virt with
    ⟨complaint, last, -, hrefused, -⟩ | ⟨frame', last, houtcome, howned'', loses⟩
  · rw [PageMap.unmap, if_neg (not_not_intro h.aligned), if_neg h.outside_window, hmapped]
      at hrefused
    cases hrefused
  · obtain ⟨target', htarget', rfl⟩ := loses.mapped
    rw [hmapped] at htarget'
    cases htarget'
    refine ⟨last, hframe ▸ houtcome, ?_⟩
    rw [← VirtPage.base_page h.aligned] at loses
    exact (b.loses howned.space howned'' loses).restored howned

/-- What a request for a fresh page may leave. A refused one has cost nothing. One that went through
shows the frame that it took, and unmapping the page gives that frame back; then it has cost nothing
either. -/
def Repaid (memory : KernelMemory SoftMmu) (virt : VirtAddr) (next : KernelMemory SoftMmu) :
    Except MappingError Frame → Prop
  | .error _ => CostsNothing memory next
  | .ok frame => (∃ shown, (next.translate virt).outcome = .ok (some frame.base, shown)) ∧
    ∃ last, (next.unmap virt).outcome = .ok (.ok frame, last) ∧ CostsNothing memory last

/-- A request for a fresh page goes through, and is repaid. -/
theorem Owned.mapFresh_repaid (h : Owned outside memory) (virt : VirtAddr) (flags : PageFlags) :
    ∃ answer next, (memory.mapFresh virt flags).outcome = .ok (answer, next) ∧
      Repaid memory virt next answer := by
  rcases h.mapFresh_cases virt flags with
    ⟨complaint, next, houtcome, restored⟩ | ⟨frame, next, houtcome, howned, gains⟩
  · exact ⟨.error complaint, next, houtcome,
      restored.costsNothing h (mapFresh_keeps keeps_standing houtcome)⟩
  · obtain ⟨last, hunmap, restored⟩ := gains.unmap_restored h howned
    have hstanding : last.frames.standing = memory.frames.standing :=
      (unmap_keeps keeps_standing hunmap).trans (mapFresh_keeps keeps_standing houtcome)
    exact ⟨.ok frame, next, houtcome, gains.translate_eq howned.space, last, hunmap,
      restored.costsNothing h hstanding⟩

end KernelMemory

namespace MemoryRun

open KernelMemory

/-- However a kernel memory was used since its directory pointed at itself only: a fresh page that
is refused, for whatever reason, leaves the used frames, all counters of the frames, the tables and
the translation of every address as they were. If it is not refused and unmapped again at once,
unmapping answers with the frame that the page got, and leaves all of that as it was before the page
was asked for. The same holds when the page is backed for a heap. -/
theorem fresh_page_costs_nothing {regions : List Region} {observedBytes : Nat} {map : MemoryMap}
    (hmap : MemoryMap.ofRegions regions observedBytes = .ok map) {kernel : KernelImage}
    {reach : Nat} {config : FrameConfig} {allocator frames : FrameAllocator}
    (hnew : (FrameAllocator.ofMap map kernel reach config).outcome = .ok (.ok allocator))
    {history : List FrameCall} (legal : allocator.view.LegalRun history)
    {answers : List FrameAnswer}
    (hhistory : (allocator.run history).outcome = .ok (answers, frames))
    {mmu : SoftMmu} (hblank : mmu.Blank) (hdirectory : frames.isUsed mmu.directory = true)
    {run : MemoryRun} (hrun : Reached (start frames mmu) run) (virt : VirtAddr)
    (flags : PageFlags) :
    (∃ answer next, (run.memory.mapFresh virt flags).outcome = .ok (answer, next) ∧
        Repaid run.memory virt next answer) ∧
      ∃ answer next, (run.memory.back virt).outcome = .ok (answer.map fun _ => (), next) ∧
        Repaid run.memory virt next answer := by
  have built := FrameAllocator.built_of_ofMap (MemoryMap.ordered_of_ofRegions hmap) hnew
  obtain ⟨hsound, -⟩ := built.sound.of_run legal hhistory
  have kept := hrun.kept ⟨.start hsound hblank hdirectory, rfl, rfl⟩
  refine ⟨kept.owned.mapFresh_repaid virt flags, ?_⟩
  obtain ⟨answer, next, houtcome, hrepaid⟩ := kept.owned.mapFresh_repaid virt .kernel
  refine ⟨answer, next, ?_, hrepaid⟩
  rw [back_outcome, houtcome, Outcome.map_ok]

/-- Five pages of RAM with the directory and the kernel in the first one and the bitmap in the
second. One page is mapped, and one frame is left. A page of another slot is refused, since the last
frame is taken for the page and none is there for the table; a page of the same slot gets that
frame, and gives it back. Neither costs anything. -/
theorem fresh_page_costs_nothing_last_frame :
    let map : MemoryMap := ⟨[⟨0x100000, 0x5000, .available⟩], 0x5000⟩
    let kernel : KernelImage := ⟨.ofNat 0x100000, .ofNat 0x101000, by decide⟩
    let far : VirtAddr := .ofNat 0x800000
    let near : VirtAddr := .ofNat 0x401000
    let frame := Frame.ofIndex 0x104
    ∃ allocator mmu run refused mapped last,
      (FrameAllocator.ofMap map kernel (2 ^ 32) .standard).outcome = .ok (.ok allocator) ∧
      SoftMmu.ofDirectory (Frame.ofIndex 0x100) = .ok mmu ∧ Reached (start allocator mmu) run ∧
      run.memory.frames.freeFrames = 1 ∧
      (run.memory.mapFresh far .kernel).outcome = .ok (.error .outOfFrames, refused) ∧
      CostsNothing run.memory refused ∧
      (run.memory.mapFresh near .kernel).outcome = .ok (.ok frame, mapped) ∧
      (mapped.unmap near).outcome = .ok (.ok frame, last) ∧ CostsNothing run.memory last := by
  intro map kernel far near frame
  have hrun : ((FrameAllocator.ofMap map kernel (2 ^ 32) .standard).andThen fun allocator => do
      let mmu ← SoftMmu.ofDirectory (Frame.ofIndex 0x100)
      let run ← (start allocator mmu).step (.mapFresh (.ofNat 0x400000) .kernel)
      let refused ← run.memory.mapFresh far .kernel
      let mapped ← run.memory.mapFresh near .kernel
      return (allocator.isUsed mmu.directory, run.memory.frames.freeFrames,
        decide (refused.1 = .error .outOfFrames), decide (mapped.1 = .ok frame))).outcome =
      .ok (some (true, 1, true, true)) := by
    decide +kernel
  obtain ⟨allocator, hnew, hrun⟩ := Traced.of_andThen hrun
  simp only [Traced.outcome_bind, Traced.outcome_liftM, Outcome.bind_eq_ok, Traced.outcome_pure,
    Except.ok.injEq, Prod.mk.injEq, decide_eq_true_eq] at hrun
  obtain ⟨mmu, hmmu, run, hstep, ⟨_, refused⟩, hfar, ⟨_, mapped⟩, hnear, hdirectory, hfree, rfl,
    rfl⟩ := hrun
  have hreached : Reached (start allocator mmu) run :=
    .call .start (show Legal _ (.mapFresh _ _) from trivial) hstep
  have hrepaid := fun virt => (fresh_page_costs_nothing
    (show MemoryMap.ofRegions map.regions map.observedBytes = .ok map from rfl) hnew
    (show allocator.view.LegalRun [] from trivial) (show (allocator.run []).outcome = _ from rfl)
    (SoftMmu.blank_ofDirectory hmmu) hdirectory hreached virt .kernel).1
  obtain ⟨answer, next, houtcome, hrefused⟩ := hrepaid far
  rw [hfar] at houtcome
  cases houtcome
  obtain ⟨answer, next, houtcome, hmapped⟩ := hrepaid near
  rw [hnear] at houtcome
  cases houtcome
  obtain ⟨-, last, hunmap, hlast⟩ := hmapped
  exact ⟨allocator, mmu, run, refused, mapped, last, hnew, hmmu, hreached, hfree, hfar, hrefused,
    hnear, hunmap, hlast⟩

end MemoryRun

end BootMemory
