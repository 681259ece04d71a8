import BootMemory.Proofs.Frames.Checked

/-!
# The place of the bitmaps

Of all addresses at which the bitmaps of a new allocator may be put, the search takes the least, and
it complains only if there is none (`place_is_least_feasible`). In a region it tries no more than
two addresses, but as long as nothing lies so high that it cannot be rounded up to a page, one of
them is the least (`BitmapStorage.isLeast_findSome?`).
-/

set_option autoImplicit false

namespace BootMemory.FrameAllocator

variable {map : MemoryMap} {kernel : KernelImage} {config : FrameConfig} {reach : Nat}

/-- The addresses at which the bitmaps of a map may be put: in free RAM, not below the floor and
within reach, and beside the kernel image. -/
def FeasibleAt (map : MemoryMap) (kernel : KernelImage) (reach : Nat) (config : FrameConfig) :
    Set Nat :=
  {start | ∃ region ∈ map.ofKind .available,
    BitmapStorage.FeasibleIn kernel (bitmapWords map) config.storageFloor reach region start}

/-- The stretches of an allocator have the words of its bitmaps between them. -/
theorem sum_words_builtAt (map : MemoryMap) (kernel : KernelImage) (config : FrameConfig)
    (storage : BitmapStorage) :
    ((builtAt map kernel config storage).regions.toList.map fun region =>
      wordsFor region.total).sum = bitmapWords map := by
  have hreserve : ∀ (allocator : FrameAllocator) (start stop : Nat),
      ((allocator.reserveRange start stop).1.regions.toList.map fun region =>
        wordsFor region.total) =
      allocator.regions.toList.map fun region => wordsFor region.total := by
    intro allocator start stop
    rw [regions_reserveRange, List.map_map]
    refine List.map_congr_left fun region _ => ?_
    exact congrArg wordsFor (region.reserve_spec start stop).bits_eq
  rw [builtAt, hreserve, hreserve]
  unfold bitmapWords
  congr 1
  apply List.ext_getElem (by simp [unreserved])
  intro index hindex hindex'
  simp [unreserved, FrameRegion.total]

/-- There is something to put somewhere if there is something to track. -/
theorem bitmapWords_pos (h : ∃ frame, Trackable map.regions frame) : 0 < bitmapWords map := by
  obtain ⟨frame, hframe⟩ := h
  obtain ⟨stretch, hm, -, -⟩ := trackable_iff.mp hframe
  have hpos := frames_pos_of_mem hm
  have hwords : 0 < wordsFor stretch.frames := by
    unfold wordsFor
    omega
  exact Nat.lt_of_lt_of_le hwords (List.le_sum_of_mem (List.mem_map_of_mem hm))

/-- Over a map whose RAM ends within a word, as that of a normalized map does, with the free RAM,
the kernel image and the floor starting in the lower half of the addresses: if there is anything to
track, the bitmaps are put at the least address at which they may be, and the complaint that there
is no place is made exactly if there is no such address. The words that are asked for are those of
the bitmaps, which are as many as the stretches need. -/
theorem place_is_least_feasible {regions : List Region} {observedBytes : Nat}
    {slice : Nat → Nat → Except Fault (List (BitVec 32))}
    (hmap : MemoryMap.ofRegions regions observedBytes = .ok map)
    (hends : RamEnds map.regions)
    (hbases : ∀ region ∈ map.ofKind .available, region.base ≤ 2 ^ 63)
    (hkernel : kernel.start.toNat < kernel.stop.toNat) (hstop : kernel.stop.toNat ≤ 2 ^ 63)
    (hfloor : config.storageFloor ≤ 2 ^ 63) (htracked : ∃ frame, Trackable map.regions frame)
    (hslice : Checked.Serves reach slice) :
    ((ofMap map kernel reach config).outcome = .ok (.error .noBitmapStorage) ↔
      FeasibleAt map kernel reach config = ∅) ∧
    ((FeasibleAt map kernel reach config).Nonempty → ∃ allocator,
      (ofMap map kernel reach config).outcome = .ok (.ok allocator) ∧
      Checked.ofMap slice map kernel reach config =
        .ok (.ok allocator, [(allocator.storage.start, allocator.storage.words)]) ∧
      IsLeast (FeasibleAt map kernel reach config) allocator.storage.start ∧
      allocator.storage.words = bitmapWords map ∧
      (allocator.regions.toList.map fun region => wordsFor region.total).sum =
        allocator.storage.words) := by
  have hordered := MemoryMap.ordered_of_ofRegions hmap
  have hruns := BitmapStorage.not_searchOverruns reach (bitmapWords_le hordered hends)
    (fun region hm => Nat.le_trans (hbases region hm) (by decide))
    (Nat.le_trans hfloor (by decide)) (Nat.le_trans hstop (by decide))
  have houtcome := ofMap_outcome map kernel reach config
  rw [if_pos hends, if_neg (not_forall_not.mpr htracked), if_neg hruns] at houtcome
  have hspan := BitmapStorage.span_pos (bitmapWords_pos htracked)
  have havailable : MemoryMap.Ordered (map.ofKind .available) := List.Pairwise.filter _ hordered
  rcases BitmapStorage.isLeast_findSome? reach hkernel hspan havailable hbases hfloor hstop with
    ⟨storage, hplace, hleast⟩ | ⟨hplace, hnone⟩
  · obtain ⟨region, -, hregion⟩ := List.exists_of_findSome?_eq_some hplace
    have hwords := (BitmapStorage.placeOf?_eq_some hregion).1
    have hnew : (ofMap map kernel reach config).outcome =
        .ok (.ok (builtAt map kernel config storage)) := by
      rw [houtcome, hplace]
      rfl
    have hsome : FeasibleAt map kernel reach config ≠ ∅ :=
      Set.nonempty_iff_ne_empty.mp ⟨_, hleast.1⟩
    refine ⟨?_, fun _ => ⟨builtAt map kernel config storage, hnew, ?_, hleast, hwords, ?_⟩⟩
    · rw [hnew]
      exact ⟨nofun, fun hempty => absurd hempty hsome⟩
    · rw [Checked.ofMap_eq hordered hslice, hnew]
      rfl
    · rw [sum_words_builtAt]
      exact hwords.symm
  · have hempty : FeasibleAt map kernel reach config = ∅ :=
      Set.eq_empty_iff_forall_notMem.mpr fun start h => hnone ⟨start, h⟩
    refine ⟨⟨fun _ => hempty, fun _ => ?_⟩, fun hsome => absurd hempty hsome.ne_empty⟩
    rw [houtcome, hplace]
    rfl

/-- The kernel leaves less than a page at either end of the first region, so the bitmaps go to the
start of the second one. -/
theorem place_is_least_feasible_second_region :
    let map : MemoryMap := ⟨[⟨0x100000, 0x8000, .available⟩, ⟨0x108000, 0x1000, .reserved⟩,
      ⟨0x109000, 0x8000, .available⟩], 0x10000⟩
    let kernel : KernelImage := ⟨.ofNat 0x100800, .ofNat 0x107800, by decide⟩
    let slice : Nat → Nat → Except Fault (List (BitVec 32)) := fun _ words =>
      .ok (List.replicate words 0)
    ∃ allocator, Checked.ofMap slice map kernel 0x400000 .standard =
        .ok (.ok allocator, [(0x109000, 2)]) ∧
      IsLeast (FeasibleAt map kernel 0x400000 .standard) 0x109000 := by
  intro map kernel slice
  have hrun : ((ofMap map kernel 0x400000 .standard).andThen fun allocator =>
      pure (allocator.storage.start, allocator.storage.words)).outcome =
        .ok (some (0x109000, 2)) := by
    decide +kernel
  obtain ⟨allocator, hnew, hrun⟩ := Traced.of_andThen hrun
  simp only [Traced.outcome_pure, Except.ok.injEq, Prod.mk.injEq] at hrun
  obtain ⟨hstart, hwords⟩ := hrun
  have hsome : ∃ frame, Trackable map.regions frame :=
    ⟨0x100, _, .head _, .inl rfl, ⟨by decide, by decide⟩, by decide⟩
  obtain ⟨hnone, hplaced⟩ := place_is_least_feasible
    (show MemoryMap.ofRegions map.regions map.observedBytes = .ok map from rfl) (by decide)
    (by decide) (show kernel.start.toNat < kernel.stop.toNat by decide) (by decide)
    (show FrameConfig.standard.storageFloor ≤ 2 ^ 63 by decide) hsome
    (show Checked.Serves 0x400000 slice from fun _ _ _ _ => ⟨_, rfl, List.length_replicate⟩)
  have hfeasible : FeasibleAt map kernel 0x400000 .standard ≠ ∅ := by
    intro hempty
    rw [hnone.mpr hempty] at hnew
    cases hnew
  obtain ⟨other, hother, hasked, hleast, -⟩ := hplaced (Set.nonempty_iff_ne_empty.mpr hfeasible)
  obtain rfl := Except.ok.inj (Except.ok.inj (hother.symm.trans hnew))
  rw [hstart, hwords] at hasked
  rw [hstart] at hleast
  exact ⟨other, hasked, hleast⟩

end BootMemory.FrameAllocator
