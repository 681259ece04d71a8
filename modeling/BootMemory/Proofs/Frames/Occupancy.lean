import BootMemory.Proofs.Frames.Stretches
import Mathlib.Data.Set.Card

/-!
# Which frames are used at the start

The stretches of a map round its regions inward, and reserving an image rounds outward. So a frame
is tracked only if all of its bytes are RAM of one region, and it is used from the start as soon as
one of its bytes belongs to the kernel image or to the bitmaps. Which these are is read off the sets
of a new allocator (`initial_occupancy`).
-/

set_option autoImplicit false

namespace BootMemory.FrameAllocator

variable {found : List Stretch} {config : FrameConfig} {storage : BitmapStorage}
  {kernel : KernelImage} {map : MemoryMap} {frame : Nat}

/-! ## Before anything is reserved -/

/-- Every stretch becomes one of the allocator. -/
theorem exists_mem_unreserved {stretch : Stretch} (hm : stretch ∈ found) :
    ∃ next, startRegion (keeps config stretch.kind) next stretch ∈
      (unreserved found config storage kernel map).regions.toList := by
  obtain ⟨index, hindex, rfl⟩ := List.getElem_of_mem hm
  exact ⟨(index + 1) % found.length, List.mem_mapIdx.mpr ⟨index, hindex, rfl⟩⟩

/-- The tracked frames are those of the stretches. -/
theorem mem_tracked_unreserved : frame ∈ (unreserved found config storage kernel map).tracked ↔
    ∃ stretch ∈ found, stretch.first ≤ frame ∧ frame < stretch.first + stretch.frames := by
  rw [tracked, mem_unionOf]
  constructor
  · rintro ⟨region, hm, hin⟩
    obtain ⟨stretch, hstretch, next, rfl⟩ := mem_unreserved hm
    rw [FrameRegion.mem_frames, first_startRegion, stop_startRegion] at hin
    exact ⟨stretch, hstretch, hin⟩
  · rintro ⟨stretch, hstretch, hin⟩
    obtain ⟨next, hm⟩ := exists_mem_unreserved hstretch
    refine ⟨_, hm, ?_⟩
    rwa [FrameRegion.mem_frames, first_startRegion, stop_startRegion]

/-- Only the frames of stretches that are kept are unavailable. -/
theorem mem_unavailable_unreserved :
    frame ∈ (unreserved found config storage kernel map).unavailable ↔
      ∃ stretch ∈ found, keeps config stretch.kind = true ∧
        stretch.first ≤ frame ∧ frame < stretch.first + stretch.frames := by
  have htaken : ∀ stretch next,
      frame ∈ (startRegion (keeps config stretch.kind) next stretch).taken ↔
        keeps config stretch.kind = true ∧
          stretch.first ≤ frame ∧ frame < stretch.first + stretch.frames := by
    intro stretch next
    rw [taken_startRegion]
    split_ifs with hkeep
    · rw [FrameRegion.mem_frames, first_startRegion, stop_startRegion, and_iff_right hkeep]
    · exact iff_of_false (Finset.notMem_empty _) fun h => hkeep h.1
  rw [unavailable, mem_unionOf]
  constructor
  · rintro ⟨region, hm, hin⟩
    obtain ⟨stretch, hstretch, next, rfl⟩ := mem_unreserved hm
    exact ⟨stretch, hstretch, (htaken stretch next).mp hin⟩
  · rintro ⟨stretch, hstretch, hin⟩
    obtain ⟨next, hm⟩ := exists_mem_unreserved hstretch
    exact ⟨_, hm, (htaken stretch next).mpr hin⟩

/-- As many frames are counted as reserved as are counted as used. -/
theorem reserved_builtAt (map : MemoryMap) (kernel : KernelImage) (config : FrameConfig)
    (storage : BitmapStorage) :
    (builtAt map kernel config storage).reserved = (builtAt map kernel config storage).used := rfl

/-! ## The frames that are used -/

/-- A frame is used from the start: it holds firmware tables that are kept, or has a byte of the
kernel image or of the bitmaps. -/
def Occupied (map : MemoryMap) (kernel : KernelImage) (config : FrameConfig)
    (storage : BitmapStorage) (frame : Nat) : Prop :=
  (config.reclaim = .keepReserved ∧
      ∃ region ∈ map.regions, region.kind = .acpiReclaimable ∧ InRegion frame region) ∨
    SharesByte kernel.start.toNat kernel.stop.toNat frame ∨
      SharesByte storage.start storage.stop frame

/-- Among the kinds of RAM only firmware tables are kept, and only if the configuration asks for
it. -/
theorem keeps_iff {kind : MemoryKind} (hram : kind.isRam = true) :
    keeps config kind = true ↔ config.reclaim = .keepReserved ∧ kind = .acpiReclaimable := by
  unfold keeps
  cases kind <;> cases hreclaim : config.reclaim <;> simp_all [MemoryKind.isRam]

/-- A frame that can be tracked is kept if a region of firmware tables has it. -/
theorem kept_iff (htrackable : Trackable map.regions frame) :
    (∃ stretch ∈ stretchesOf map.regions, keeps config stretch.kind = true ∧
      stretch.first ≤ frame ∧ frame < stretch.first + stretch.frames) ↔
    config.reclaim = .keepReserved ∧
      ∃ region ∈ map.regions, region.kind = .acpiReclaimable ∧ InRegion frame region := by
  obtain ⟨-, -, -, -, hbelow⟩ := htrackable
  rw [@exists_mem_stretchesOf_iff _ _ fun kind => keeps config kind = true]
  constructor
  · rintro ⟨region, hm, hram, hkeep, hin, -⟩
    obtain ⟨hreclaim, hkind⟩ := (keeps_iff hram).mp hkeep
    exact ⟨hreclaim, region, hm, hkind, hin⟩
  · rintro ⟨hreclaim, region, hm, hkind, hin⟩
    have hram : region.kind.isRam = true := by
      rw [hkind]
      rfl
    exact ⟨region, hm, hram, (keeps_iff hram).mpr ⟨hreclaim, hkind⟩, hin, hbelow⟩

/-- The sets of a new allocator. -/
theorem sets_builtAt (kernel : KernelImage) (config : FrameConfig)
    (hordered : MemoryMap.Ordered map.regions) (hends : RamEnds map.regions)
    (storage : BitmapStorage) : (builtAt map kernel config storage).Sound ∧
      (∀ frame, frame ∈ (builtAt map kernel config storage).tracked ↔
        Trackable map.regions frame) ∧
      ∀ frame, frame ∈ (builtAt map kernel config storage).unavailable ↔
        Trackable map.regions frame ∧ Occupied map kernel config storage frame := by
  obtain ⟨hpairs, hrange⟩ := stretchesOf_spec hordered hends
  have hstart : (unreserved (stretchesOf map.regions) config storage kernel map).Sound :=
    sound_unreserved hpairs hrange
  obtain ⟨-, hkernel⟩ := hstart.reserveRange kernel.start.toNat kernel.stop.toNat
  obtain ⟨-, hstorage⟩ := hkernel.sound.reserveRange storage.start storage.stop
  have htracked : ∀ frame,
      frame ∈ (unreserved (stretchesOf map.regions) config storage kernel map).tracked ↔
        Trackable map.regions frame := fun frame =>
    mem_tracked_unreserved.trans trackable_iff.symm
  refine ⟨hstorage.sound, fun frame => ?_, fun frame => ?_⟩
  · rw [builtAt, hstorage.tracked_eq, hkernel.tracked_eq, htracked]
  · rw [builtAt, hstorage.unavailable_eq, hkernel.unavailable_eq, hkernel.tracked_eq]
    simp only [Finset.mem_union, Finset.mem_filter, htracked, mem_unavailable_unreserved]
    unfold Occupied
    constructor
    · rintro ((⟨stretch, hm, hkeep, hin⟩ | ⟨htrackable, hshares⟩) | ⟨htrackable, hshares⟩)
      · have htrackable := trackable_iff.mpr ⟨stretch, hm, hin⟩
        exact ⟨htrackable, .inl ((kept_iff htrackable).mp ⟨stretch, hm, hkeep, hin⟩)⟩
      · exact ⟨htrackable, .inr (.inl hshares)⟩
      · exact ⟨htrackable, .inr (.inr hshares)⟩
    · rintro ⟨htrackable, hkept | hshares | hshares⟩
      · exact .inl (.inl ((kept_iff htrackable).mpr hkept))
      · exact .inl (.inr ⟨htrackable, hshares⟩)
      · exact .inr ⟨htrackable, hshares⟩

/-- Which frames a new allocator tracks, which of them are used, and what its counters say. -/
structure InitialOccupancy (map : MemoryMap) (kernel : KernelImage) (config : FrameConfig)
    (allocator : FrameAllocator) : Prop where
  tracked_iff : ∀ frame : Frame,
    (allocator.regionOf? frame).isSome = true ↔ Trackable map.regions frame.index
  isUsed_iff : ∀ frame : Frame, Trackable map.regions frame.index →
    (allocator.isUsed frame = true ↔ Occupied map kernel config allocator.storage frame.index)
  total_eq : allocator.total = {frame | Trackable map.regions frame}.ncard
  used_eq : allocator.used = {frame | Trackable map.regions frame ∧
    Occupied map kernel config allocator.storage frame}.ncard
  reserved_eq : allocator.reserved = {frame | Trackable map.regions frame ∧
    Occupied map kernel config allocator.storage frame}.ncard

/-- A new allocator finds the stretch of a frame exactly if it can be tracked, and counts each frame
that is used from the start once. -/
theorem initialOccupancy_builtAt (hordered : MemoryMap.Ordered map.regions)
    (hends : RamEnds map.regions) (storage : BitmapStorage) :
    InitialOccupancy map kernel config (builtAt map kernel config storage) := by
  obtain ⟨hsound, htracked, hunavailable⟩ := sets_builtAt kernel config hordered hends
    storage
  have hused : (builtAt map kernel config storage).used = {frame | Trackable map.regions frame ∧
      Occupied map kernel config storage frame}.ncard := by
    have hset : {frame | Trackable map.regions frame ∧ Occupied map kernel config storage frame} =
        ↑(builtAt map kernel config storage).unavailable :=
      Set.ext fun frame => (hunavailable frame).symm
    rw [hset, Set.ncard_coe_finset, hsound.used_eq]
  refine ⟨fun frame => ?_, fun frame htrackable => ?_, ?_, hused,
    (reserved_builtAt map kernel config storage).trans hused⟩
  · rw [← htracked]
    constructor
    · intro hsome
      by_contra hnot
      rw [Sound.regionOf?_eq_none hnot] at hsome
      cases hsome
    · intro hframe
      obtain ⟨index, -, hof, -⟩ := hsound.regionOf?_eq_some hframe
      rw [hof]
      rfl
  · rw [hsound.isUsed_iff, hunavailable, or_iff_right (not_not_intro ((htracked _).mpr htrackable)),
      and_iff_right htrackable]
    rfl
  · have hset : {frame | Trackable map.regions frame} =
        ↑(builtAt map kernel config storage).tracked :=
      Set.ext fun frame => (htracked frame).symm
    rw [hset, Set.ncard_coe_finset, hsound.total_eq]

/-- An allocator that was answered was built at some storage. -/
theorem exists_builtAt {place : Option BitmapStorage} {allocator : FrameAllocator}
    (h : answerAt map kernel config place = .ok allocator) :
    ∃ storage, builtAt map kernel config storage = allocator := by
  cases place with
  | none => cases h
  | some storage => exact ⟨storage, Except.ok.inj h⟩

/-- Where there are places to look for, there is something to track. -/
theorem answerAt_ne_noTrackableMemory {place : Option BitmapStorage} :
    answerAt map kernel config place ≠ .error .noTrackableMemory := by
  cases place <;> exact nofun

/-- A new allocator tracks the frames that lie entirely inside one region of RAM and below 4 GiB.
Used are those of firmware tables that are kept, and those that share a byte with the kernel image
or with the pages of the bitmaps; the counters of used and of reserved frames are the number of
these. If the ends of the RAM fit a word, as they do in a normalized map, the complaint that there
is nothing to track is made exactly if no frame can be tracked. -/
theorem initial_occupancy {regions : List Region} {observedBytes : Nat}
    (hmap : MemoryMap.ofRegions regions observedBytes = .ok map) (kernel : KernelImage)
    (reach : Nat) (config : FrameConfig) :
    (∀ allocator, (ofMap map kernel reach config).outcome = .ok (.ok allocator) →
      InitialOccupancy map kernel config allocator) ∧
    (RamEnds map.regions →
      ((ofMap map kernel reach config).outcome = .ok (.error .noTrackableMemory) ↔
        ∀ frame, ¬Trackable map.regions frame)) := by
  have hordered := MemoryMap.ordered_of_ofRegions hmap
  constructor
  · intro allocator hnew
    rw [ofMap_outcome] at hnew
    split_ifs at hnew with hends
    · cases hnew
    · obtain ⟨storage, rfl⟩ := exists_builtAt (Except.ok.inj hnew)
      exact initialOccupancy_builtAt hordered hends storage
  · intro hends
    rw [ofMap_outcome, if_pos hends]
    constructor
    · intro hnone
      by_contra hsome
      rw [if_neg hsome] at hnone
      split_ifs at hnone
      exact answerAt_ne_noTrackableMemory (Except.ok.inj hnone)
    · exact fun hnone => if_pos hnone

/-- Two regions of RAM that meet inside frame 0x104, which is therefore not tracked. The kernel has
one byte of the first frame, the bitmap is in the second one, and the two frames of firmware tables
are kept: four of six frames are used. -/
theorem initial_occupancy_split_frame :
    let map : MemoryMap := ⟨[⟨0x100000, 0x4800, .available⟩, ⟨0x104800, 0x2800, .acpiReclaimable⟩],
      0x7000⟩
    let kernel : KernelImage := ⟨.ofNat 0x100FFF, .ofNat 0x101000, by decide⟩
    ∃ allocator, (ofMap map kernel (2 ^ 32) .standard).outcome = .ok (.ok allocator) ∧
      allocator.total = 6 ∧ allocator.reserved = 4 ∧
      allocator.regionOf? (Frame.ofIndex 0x104) = none ∧
      InitialOccupancy map kernel .standard allocator ∧
      (ofMap map kernel (2 ^ 32) .standard).outcome ≠ .ok (.error .noTrackableMemory) ∧
      ∃ frame, Trackable map.regions frame := by
  intro map kernel
  have hrun : ((ofMap map kernel (2 ^ 32) .standard).andThen fun allocator =>
      pure (allocator.total, allocator.reserved,
        allocator.regionOf? (Frame.ofIndex 0x104))).outcome = .ok (some (6, 4, none)) := by
    decide +kernel
  obtain ⟨allocator, hnew, hrun⟩ := Traced.of_andThen hrun
  simp only [Traced.outcome_pure, Except.ok.injEq, Prod.mk.injEq] at hrun
  obtain ⟨htotal, hreserved, hsplit⟩ := hrun
  obtain ⟨hoccupancy, hnothing⟩ := initial_occupancy
    (show MemoryMap.ofRegions map.regions map.observedBytes = .ok map from rfl) kernel (2 ^ 32)
    .standard
  have hdifferent : (ofMap map kernel (2 ^ 32) .standard).outcome ≠
      .ok (.error .noTrackableMemory) := by
    rw [hnew]
    exact nofun
  have hsome := mt (hnothing (by decide)).mpr hdifferent
  push Not at hsome
  exact ⟨allocator, hnew, htotal, hreserved, hsplit, hoccupancy allocator hnew, hdifferent, hsome⟩

end BootMemory.FrameAllocator
