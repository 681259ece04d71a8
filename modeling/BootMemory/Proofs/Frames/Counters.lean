import BootMemory.Proofs.Frames.Contents
import BootMemory.Proofs.Frames.Refinement

/-!
# The counters of a frame allocator

A frame allocator says in several places how many frames are unavailable: in every bitmap, in a
counter for each stretch, and in a counter over all of them. However it is used, these agree. The
bits of a bitmap past its last frame stay clear, so counting the bits of its words counts frames.
The early exits of the search trust the counters, and rightly: the frames that are counted as free
are handed out one after the other, and then no more.
-/

set_option autoImplicit false

namespace BootMemory

/-- Different frames that are used or not tracked may be freed one after the other. -/
theorem FrameSet.legalRun_free {set : FrameSet} (frames : List Frame)
    (h : ∀ frame ∈ frames, frame.index ∈ set.tracked → frame.index ∈ set.used)
    (hnodup : (frames.map (·.index)).Nodup) : set.LegalRun (frames.map .free) := by
  induction frames generalizing set with
  | nil => trivial
  | cons frame rest ih =>
    rw [List.map_cons, List.nodup_cons] at hnodup
    obtain ⟨hnew, hnodup⟩ := hnodup
    refine ⟨h frame List.mem_cons_self, ih (fun other hm htracked => ?_) hnodup⟩
    rw [FrameSet.tracked_step] at htracked
    refine FrameSet.mem_used_step (h other (List.mem_cons_of_mem _ hm) htracked) ?_
    rintro freed hfreed heq
    cases hfreed
    exact hnew (List.mem_map.mpr ⟨other, hm, heq.symm⟩)

namespace FrameAllocator

variable {allocator other : FrameAllocator} {call : FrameCall} {answer : FrameAnswer}

/-! ## What every call keeps -/

/-- What the sets do not say: padding bits are clear, the counters of reserved frames add up, and
the last stretch leads back to the first. -/
structure Tallied (allocator : FrameAllocator) : Prop where
  padded : ∀ region ∈ allocator.regions.toList, region.bitmap.Padded
  reserved_eq : allocator.reserved = (allocator.regions.toList.map (·.reserved)).sum
  ring : ∀ index region, allocator.regions[index]? = some region →
    region.next = (index + 1) % allocator.regions.size

/-- A stretch may be changed if its bitmap stays padded and it keeps its counter of reserved frames
and its place in the ring. -/
theorem Tallied.modify (h : allocator.Tallied) {index : Nat} {region : FrameRegion}
    (hindex : allocator.regions[index]? = some region) (change : FrameRegion → FrameRegion)
    (hpadded : (change region).bitmap.Padded)
    (hreserved : (change region).reserved = region.reserved)
    (hnext : (change region).next = region.next) (cursor used : Nat) :
    Tallied { allocator with regions := allocator.regions.modify index change, cursor, used } := by
  obtain ⟨lower, upper, hlist, hmodify⟩ := exists_of_modify hindex change
  refine ⟨fun other hm => ?_, ?_, fun i other hother => ?_⟩
  · rw [hmodify, List.mem_append, List.mem_cons] at hm
    rcases hm with hm | rfl | hm
    · exact h.padded other (by rw [hlist]; simp [hm])
    · exact hpadded
    · exact h.padded other (by rw [hlist]; simp [hm])
  · rw [h.reserved_eq, hlist, hmodify]
    simp only [List.map_append, List.map_cons, hreserved]
  · simp only [Array.getElem?_modify, Array.size_modify] at hother ⊢
    split at hother
    case isTrue heq =>
      subst heq
      rw [hindex] at hother
      cases hother
      rw [hnext]
      exact h.ring _ region hindex
    case isFalse => exact h.ring i other hother

/-- The search ends at a stretch with a free frame. -/
theorem lowestFree_of_searchFrom {regions : Array FrameRegion} {steps start index bit : Nat}
    (h : searchFrom regions steps start = some (index, bit)) :
    ∃ region, regions[index]? = some region ∧ region.lowestFree = some bit := by
  induction steps generalizing start with
  | zero => cases h
  | succ steps ih =>
    unfold searchFrom at h
    obtain ⟨region, hregion, h⟩ := Option.bind_eq_some_iff.mp h
    cases hlowest : region.lowestFree with
    | none =>
      rw [hlowest] at h
      exact ih h
    | some lowest =>
      rw [hlowest] at h
      cases h
      exact ⟨region, hregion, hlowest⟩

/-- Allocating a frame keeps the tally. -/
theorem Tallied.allocate (h : allocator.Tallied) {frame : Frame}
    (hsome : allocator.allocate = some (frame, other)) : other.Tallied := by
  unfold FrameAllocator.allocate at hsome
  dsimp only at hsome
  split at hsome
  case isTrue => cases hsome
  obtain ⟨⟨index, bit⟩, hsearch, hsome⟩ := Option.bind_eq_some_iff.mp hsome
  obtain ⟨region, hregion, hsome⟩ := Option.bind_eq_some_iff.mp hsome
  cases hsome
  obtain ⟨found, hfound, hlowest⟩ := lowestFree_of_searchFrom hsearch
  rw [hregion] at hfound
  cases hfound
  have hbit := (FrameRegion.lowestFree_eq_some hlowest).1
  have hpadded := (h.padded region (Sound.mem_of_getElem? hregion)).insert hbit
  exact h.modify hregion (·.take bit) hpadded rfl rfl _ _

/-- Freeing a frame keeps the tally. -/
theorem Tallied.free (h : allocator.Tallied) {frame : Frame}
    (houtcome : (free frame allocator).outcome = .ok other) : other.Tallied := by
  unfold FrameAllocator.free at houtcome
  split at houtcome
  case h_1 =>
    cases houtcome
    exact h
  case h_2 index _ =>
    split at houtcome
    case h_1 =>
      cases houtcome
      exact h
    case h_2 region hregion =>
      dsimp only at houtcome
      split at houtcome
      case isFalse => cases houtcome
      case isTrue hcontains =>
        cases houtcome
        have hpadded := h.padded region (Sound.mem_of_getElem? hregion)
        have hbit : region.bitOf frame < region.bitmap.bits := by
          by_contra hpast
          rw [hpadded _ (Nat.not_lt.mp hpast)] at hcontains
          cases hcontains
        exact h.modify hregion (·.release _) (hpadded.erase hbit) rfl rfl _ _

/-- Reserving addresses keeps a bitmap padded. -/
theorem padded_reserve {region : FrameRegion} (h : region.bitmap.Padded) (start stop : Nat) :
    (region.reserve start stop).1.bitmap.Padded := by
  unfold FrameRegion.reserve
  dsimp only
  split
  case isTrue => exact h
  case isFalse hsome => exact h.insertRun (FrameRegion.run_le_bits hsome)

/-- Reserving addresses adds what it counts to the counter of a stretch. -/
theorem reserved_reserve (region : FrameRegion) (start stop : Nat) :
    (region.reserve start stop).1.reserved = region.reserved + (region.reserve start stop).2 := by
  unfold FrameRegion.reserve
  dsimp only
  split <;> rfl

/-- Reserving addresses keeps the tally. -/
theorem Tallied.reserveRange (h : allocator.Tallied) (start stop : Nat) :
    (allocator.reserveRange start stop).1.Tallied := by
  refine ⟨fun region hm => ?_, ?_, fun index region hindex => ?_⟩
  · rw [regions_reserveRange, List.mem_map] at hm
    obtain ⟨before, hbefore, rfl⟩ := hm
    exact padded_reserve (h.padded before hbefore) start stop
  · rw [regions_reserveRange, List.map_map]
    show allocator.reserved + (allocator.reserveRange start stop).2 = _
    rw [h.reserved_eq, fresh_eq_sum, ← List.sum_map_add]
    exact congrArg List.sum (List.map_congr_left fun region _ =>
      (reserved_reserve region start stop).symm)
  · rw [getElem?_reserveRange, Option.map_eq_some_iff] at hindex
    obtain ⟨before, hbefore, rfl⟩ := hindex
    have hsize : (allocator.reserveRange start stop).1.regions.size = allocator.regions.size := by
      rw [← Array.length_toList, regions_reserveRange, List.length_map, Array.length_toList]
    rw [hsize, (before.reserve_spec start stop).next_eq]
    exact h.ring index before hbefore

/-- Every call keeps the tally. -/
theorem Tallied.step (h : allocator.Tallied)
    (houtcome : (allocator.step call).outcome = .ok (answer, other)) : other.Tallied := by
  cases call with
  | allocate =>
    simp only [FrameAllocator.step] at houtcome
    cases hsome : allocator.allocate with
    | none =>
      rw [hsome] at houtcome
      cases houtcome
      exact h
    | some taken =>
      rw [hsome] at houtcome
      cases houtcome
      exact h.allocate hsome
  | free frame =>
    simp only [FrameAllocator.step, Traced.outcome_bind] at houtcome
    obtain ⟨next, hfree, houtcome⟩ := Outcome.bind_eq_ok.mp houtcome
    cases houtcome
    exact h.free hfree
  | reserve start stop =>
    cases houtcome
    exact h.reserveRange start stop
  | isUsed frame =>
    cases houtcome
    exact h

/-- Every run keeps the tally. -/
theorem Tallied.run (h : allocator.Tallied) {calls : List FrameCall} {answers : List FrameAnswer}
    (houtcome : (allocator.run calls).outcome = .ok (answers, other)) : other.Tallied := by
  induction calls generalizing allocator answers with
  | nil =>
    cases houtcome
    exact h
  | cons call calls ih =>
    simp only [FrameAllocator.run, Traced.outcome_bind] at houtcome
    obtain ⟨⟨answer, next⟩, hstep, houtcome⟩ := Outcome.bind_eq_ok.mp houtcome
    obtain ⟨⟨answers, last⟩, hrun, houtcome⟩ := Outcome.bind_eq_ok.mp houtcome
    cases houtcome
    exact ih (h.step hstep) hrun

/-- A stretch starts with clear padding, and with as many frames reserved as are unavailable. -/
theorem padded_startRegion (keep : Bool) (next : Nat) (stretch : Stretch) :
    (startRegion keep next stretch).bitmap.Padded ∧
      (startRegion keep next stretch).reserved = (startRegion keep next stretch).used := by
  cases keep with
  | true => exact ⟨Bitmap.padded_insertAll _, rfl⟩
  | false => exact ⟨Bitmap.padded_empty _, rfl⟩

/-- Before anything is reserved the tally is right. -/
theorem tallied_unreserved (found : List Stretch) (config : FrameConfig) (storage : BitmapStorage)
    (kernel : KernelImage) (map : MemoryMap) :
    (unreserved found config storage kernel map).Tallied := by
  refine ⟨fun region hm => ?_, ?_, fun index region hindex => ?_⟩
  · obtain ⟨stretch, -, next, rfl⟩ := mem_unreserved hm
    exact (padded_startRegion _ next stretch).1
  · refine congrArg List.sum (List.map_congr_left fun region hm => ?_)
    obtain ⟨index, hindex, rfl⟩ := List.mem_mapIdx.mp hm
    exact (padded_startRegion _ _ found[index]).2.symm
  · simp only [unreserved, List.getElem?_toArray, List.getElem?_mapIdx,
      Option.map_eq_some_iff] at hindex
    obtain ⟨stretch, -, rfl⟩ := hindex
    rw [next_startRegion]
    simp [unreserved]

/-- The tally of a new allocator is right. -/
theorem tallied_of_ofMap {map : MemoryMap} {kernel : KernelImage} {reach : Nat}
    {config : FrameConfig} (h : (ofMap map kernel reach config).outcome = .ok (.ok allocator)) :
    allocator.Tallied := by
  obtain ⟨found, -, hallocator⟩ := exists_of_ofMap h
  rw [hallocator]
  exact ((tallied_unreserved ..).reserveRange _ _).reserveRange _ _

/-! ## The counters agree -/

/-- All that an allocator says about its frames more than once says the same. -/
structure CountersAgree (allocator : FrameAllocator) : Prop where
  /-- The set bits of a bitmap are counted right. -/
  used_eq_count : ∀ region ∈ allocator.regions.toList, region.used = region.bitmap.count
  used_le_total : ∀ region ∈ allocator.regions.toList, region.used ≤ region.total
  /-- No bit past the last frame of a stretch is set. -/
  padding_clear : ∀ region ∈ allocator.regions.toList, ∀ bit, region.total ≤ bit →
    region.bitmap.contains bit = false
  used_eq_sum : allocator.used = (allocator.regions.toList.map (·.used)).sum
  reserved_eq_sum : allocator.reserved = (allocator.regions.toList.map (·.reserved)).sum
  total_eq_sum : allocator.total = (allocator.regions.toList.map (·.total)).sum
  /-- The stretches are in address order, and no frame belongs to two of them. -/
  ascending : Ascending allocator.regions.toList
  /-- Each stretch names the one behind it, and the last one names the first. -/
  next_eq : ∀ index region, allocator.regions[index]? = some region →
    region.next = (index + 1) % allocator.regions.size

/-- A sound allocator with a right tally agrees with itself. -/
theorem Sound.countersAgree (h : allocator.Sound) (tallied : allocator.Tallied) :
    allocator.CountersAgree where
  used_eq_count region hm := by
    rw [(tallied.padded region hm).count_eq, h.exact region hm, FrameRegion.taken, Finset.card_map]
  used_le_total region hm := by
    rw [h.exact region hm, ← FrameRegion.card_frames]
    exact Finset.card_le_card FrameRegion.taken_subset
  padding_clear := tallied.padded
  used_eq_sum := by
    rw [h.used_eq, unavailable, h.ascending.card_unionOf fun _ _ => FrameRegion.taken_subset]
    exact congrArg List.sum (List.map_congr_left fun region hm => (h.exact region hm).symm)
  reserved_eq_sum := tallied.reserved_eq
  total_eq_sum := by
    rw [h.total_eq, tracked, h.ascending.card_unionOf fun _ _ => Finset.Subset.refl _]
    exact congrArg List.sum (List.map_congr_left fun region _ => FrameRegion.card_frames)
  ascending := h.ascending
  next_eq := tallied.ring

/-! ## What is left to hand out -/

/-- As many frames as are counted as free are handed out one after the other, no frame twice, and
then no more. -/
def Drains (allocator : FrameAllocator) : Prop :=
  ∃ (frames : List Frame) (dry : FrameAllocator), frames.length = allocator.freeFrames ∧
    frames.Nodup ∧ (allocator.run (List.replicate allocator.freeFrames .allocate)).outcome =
      .ok (frames.map fun frame => .frame (some frame), dry) ∧ dry.allocate = none

/-- The frames that are tracked and not unavailable are those counted as free. -/
theorem Sound.card_free (h : allocator.Sound) :
    (allocator.tracked \ allocator.unavailable).card = allocator.freeFrames := by
  rw [Finset.card_sdiff_of_subset allocator.unavailable_subset, ← h.total_eq, ← h.used_eq]
  rfl

/-- After a frame was handed out, the others are still free. -/
theorem HandsOut.free_eq {frame : Frame} (h : HandsOut allocator frame other) :
    other.tracked \ other.unavailable =
      (allocator.tracked \ allocator.unavailable).erase frame.index := by
  rw [h.becomes.tracked_eq, h.becomes.unavailable_eq, Finset.sdiff_insert]

/-- All free frames are handed out, one call each. -/
theorem Sound.exists_drained (count : Nat) : ∀ {allocator : FrameAllocator}, allocator.Sound →
    (allocator.tracked \ allocator.unavailable).card = count →
      ∃ (frames : List Frame) (dry : FrameAllocator), frames.length = count ∧
      frames.Nodup ∧ (∀ frame ∈ frames, frame.index ∈ allocator.tracked \ allocator.unavailable) ∧
      (allocator.run (List.replicate count .allocate)).outcome =
        .ok (frames.map fun frame => .frame (some frame), dry) ∧ dry.allocate = none := by
  -- The induction is on the number of free frames, one of which every call takes.
  induction count with
  | zero =>
    intro allocator h hcard
    rw [Finset.card_eq_zero] at hcard
    rcases h.allocate with ⟨-, hnone⟩ | ⟨frame, other, -, out⟩
    · exact ⟨[], allocator, rfl, List.nodup_nil, List.forall_mem_nil _, rfl, hnone⟩
    · have hfree := out.free
      rw [hcard] at hfree
      exact absurd hfree (Finset.notMem_empty _)
  | succ count ih =>
    intro allocator h hcard
    rcases h.allocate with ⟨hfull, -⟩ | ⟨frame, other, hsome, out⟩
    · rw [hfull, Finset.sdiff_self] at hcard
      cases hcard
    · have hrest : (other.tracked \ other.unavailable).card = count := by
        rw [out.free_eq, Finset.card_erase_of_mem out.free, hcard, Nat.add_sub_cancel]
      obtain ⟨frames, dry, hlength, hnodup, hfree, hrun, hdry⟩ := ih out.becomes.sound hrest
      rw [out.free_eq] at hfree
      refine ⟨frame :: frames, dry, congrArg Nat.succ hlength, ?_, ?_, ?_, hdry⟩
      · refine List.nodup_cons.mpr ⟨fun hm => ?_, hnodup⟩
        exact (Finset.mem_erase.mp (hfree frame hm)).1 rfl
      · refine List.forall_mem_cons.mpr ⟨out.free, fun next hm => ?_⟩
        exact (Finset.mem_erase.mp (hfree next hm)).2
      · simp only [List.replicate_succ, FrameAllocator.run, FrameAllocator.step, hsome,
          Traced.outcome_bind, Traced.outcome_pure, Outcome.ok_bind, hrun, List.map_cons]

/-- A sound allocator hands out as many frames as it counts as free, and then none. -/
theorem Sound.drains (h : allocator.Sound) : allocator.Drains := by
  obtain ⟨frames, dry, hlength, hnodup, -, hrun, hdry⟩ := Sound.exists_drained _ h h.card_free
  exact ⟨frames, dry, hlength, hnodup, hrun, hdry⟩

/-- Whatever is asked of a new frame allocator, in whatever order, and whatever the memory of its
bitmaps held before: as long as nobody frees a tracked frame that is not used, every call goes
through and all counters agree afterwards. As many frames as are counted as free can then be
allocated, and no more. -/
theorem run_keeps_counters {regions : List Region} {observedBytes : Nat} {map : MemoryMap}
    (hmap : MemoryMap.ofRegions regions observedBytes = .ok map) {contents : Nat → BitVec 32}
    {kernel : KernelImage} {reach : Nat} {config : FrameConfig}
    (hnew : (ofMapOver contents map kernel reach config).outcome = .ok (.ok allocator))
    {calls : List FrameCall} (legal : allocator.view.LegalRun calls) :
    ∃ answers last, (allocator.run calls).outcome = .ok (answers, last) ∧ last.CountersAgree ∧
      last.total = allocator.total ∧ last.Drains := by
  rw [ofMapOver_eq] at hnew
  have built := built_of_ofMap (MemoryMap.ordered_of_ofRegions hmap) hnew
  obtain ⟨last, hrun, hsound, hview⟩ := built.sound.run_eq calls legal
  have htracked : last.tracked = allocator.tracked :=
    (congrArg FrameSet.tracked hview).trans (FrameSet.tracked_run _ calls)
  refine ⟨_, last, hrun, hsound.countersAgree ((tallied_of_ofMap hnew).run hrun), ?_,
    hsound.drains⟩
  rw [hsound.total_eq, built.sound.total_eq, htracked]

/-- Two stretches of RAM with firmware tables between them, and bitmaps in memory that is full of
ones. The frames of the tables are freed, and a frame of no stretch is too, so more frames have been
reserved in the end than are unavailable. -/
theorem run_keeps_counters_full_storage :
    let map : MemoryMap := ⟨[⟨0x100000, 0x28000, .available⟩, ⟨0x128000, 0x2000, .acpiReclaimable⟩,
      ⟨0x12A000, 0xD6000, .reserved⟩, ⟨0x200000, 0x3000, .available⟩], 0x2D000⟩
    let kernel : KernelImage := ⟨.ofNat 0x100000, .ofNat 0x101000, by decide⟩
    let calls : List FrameCall := [.allocate, .reserve 0x102001 0x200001,
      .free (Frame.ofIndex 0x128), .free (Frame.ofIndex 0x129), .free (Frame.ofIndex 0x150)]
    ∃ allocator answers last,
      (ofMapOver (fun _ => .allOnes 32) map kernel (2 ^ 32) .standard).outcome =
        .ok (.ok allocator) ∧
      (allocator.run calls).outcome = .ok (answers, last) ∧ last.CountersAgree ∧
      last.Drains ∧ last.used = 41 ∧ last.reserved = 42 ∧ last.freeFrames = 4 := by
  intro map kernel calls
  have hrun : ((ofMapOver (fun _ => .allOnes 32) map kernel (2 ^ 32) .standard).andThen
      fun allocator => (fun result => (result.2.used, result.2.reserved, result.2.freeFrames)) <$>
        allocator.run calls).outcome = .ok (some (41, 42, 4)) := by
    decide +kernel
  obtain ⟨allocator, hnew, hrun⟩ := Traced.of_andThen hrun
  -- Every frame that is freed shares a byte with the addresses reserved before.
  have legal : allocator.view.LegalRun calls := by
    refine ⟨trivial, trivial, FrameSet.legalRun_free
      [Frame.ofIndex 0x128, Frame.ofIndex 0x129, Frame.ofIndex 0x150]
      (fun frame hm htracked => ?_) (by decide)⟩
    have hshares : ∀ frame ∈ [Frame.ofIndex 0x128, Frame.ofIndex 0x129, Frame.ofIndex 0x150],
        SharesByte 0x102001 0x200001 frame.index := by decide
    rw [FrameSet.tracked_step] at htracked
    exact Finset.mem_union_right _ (Finset.mem_filter.mpr ⟨htracked, hshares frame hm⟩)
  obtain ⟨answers, last, hlast, hagree, -, hdrains⟩ := run_keeps_counters
    (show MemoryMap.ofRegions map.regions map.observedBytes = .ok map from rfl) hnew legal
  simp only [Traced.outcome_map, hlast, Outcome.map_ok, Except.ok.injEq, Prod.mk.injEq]
    at hrun
  exact ⟨allocator, answers, last, hnew, hlast, hagree, hdrains, hrun⟩

end FrameAllocator

end BootMemory
