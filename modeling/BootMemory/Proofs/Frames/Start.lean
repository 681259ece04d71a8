import BootMemory.Proofs.Frames.Operations
import BootMemory.Proofs.MemoryMap.Basic

/-!
# New frame allocators

An allocator over a memory map tracks whole frames of RAM regions only, and starts with the
frames of the kernel image and of its own bitmaps unavailable, and with those of firmware
tables too if these are kept (`FrameAllocator.Built`). The order of the regions of the map is
that of the stretches, so a new allocator is sound.
-/

set_option autoImplicit false

namespace BootMemory.FrameAllocator

/-- The frames of a stretch lie inside a region and below 4 GiB. -/
structure Stretch.Within (stretch : Stretch) (region : Region) : Prop where
  kind_eq : stretch.kind = region.kind
  pos : 0 < stretch.frames
  low : region.base ≤ stretch.first * pageBytes
  high : (stretch.first + stretch.frames) * pageBytes ≤ region.stop
  inRange : stretch.first + stretch.frames ≤ 2 ^ 20

/-- The whole frames of a region lie inside it. -/
theorem within_of_stretch? {region : Region} {stretch : Stretch}
    (h : (stretch? region).outcome = .ok (some stretch)) : stretch.Within region := by
  unfold stretch? at h
  simp only [Traced.outcome_bind, Traced.outcome_liftM, Outcome.bind_eq_ok] at h
  obtain ⟨stop, hstop, h⟩ := h
  obtain ⟨hlt, rfl⟩ := Region.end?_eq_ok_iff.mp hstop
  -- The warning about memory past the limit does not change the outcome.
  by_cases hframes : 0 < wholePages .small region.base (min region.stop addressLimit)
  swap
  · simp only [hframes, ↓reduceIte] at h
    split_ifs at h <;> simp at h
  simp only [hframes, ↓reduceIte] at h
  have hstretch : (⟨region.kind, roundUp region.base pageBytes / pageBytes,
      wholePages .small region.base (min region.stop addressLimit)⟩ : Stretch) = stretch := by
    split_ifs at h <;> simpa using h
  subst hstretch
  have hlimit : addressLimit = 2 ^ 32 := rfl
  have hbytes : PageSize.small.bytes = 4096 := rfl
  have hpage : pageBytes = 4096 := rfl
  unfold Region.stop at hlt
  refine ⟨rfl, hframes, ?_, ?_, ?_⟩
  all_goals
    unfold wholePages roundUp roundDown Region.stop at *
    simp only [hlimit, hbytes, hpage] at hframes ⊢
    split_ifs at hframes ⊢ <;> omega

/-- The stretches of a map come from its RAM regions, in their order. -/
theorem stretches_spec {regions : List Region} {found : List Stretch}
    (h : (stretches regions).outcome = .ok found) :
    (∀ stretch ∈ found, ∃ region ∈ regions, region.kind.isRam = true ∧ stretch.Within region) ∧
      (MemoryMap.Ordered regions →
        found.Pairwise fun a b => a.first + a.frames ≤ b.first) := by
  induction regions generalizing found with
  | nil =>
    cases h
    exact ⟨by simp, fun _ => List.Pairwise.nil⟩
  | cons region rest ih =>
    unfold stretches at h
    by_cases hram : region.kind.isRam = true
    · rw [if_pos hram] at h
      simp only [Traced.outcome_bind, Outcome.bind_eq_ok, Traced.outcome_pure,
        Except.ok.injEq] at h
      obtain ⟨here, hhere, others, hothers, rfl⟩ := h
      obtain ⟨hfrom, hpairs⟩ := ih hothers
      have hin : ∀ stretch ∈ here.toList, stretch.Within region := by
        intro stretch hm
        rw [Option.mem_toList.mp hm] at hhere
        exact within_of_stretch? hhere
      refine ⟨?_, ?_⟩
      · intro stretch hm
        rcases List.mem_append.mp hm with hm | hm
        · exact ⟨region, List.mem_cons_self, hram, hin stretch hm⟩
        · obtain ⟨origin, horigin, hrest⟩ := hfrom stretch hm
          exact ⟨origin, List.mem_cons_of_mem _ horigin, hrest⟩
      · intro hordered
        obtain ⟨hregion, hrest⟩ := List.pairwise_cons.mp hordered
        refine List.pairwise_append.mpr ⟨?_, hpairs hrest, ?_⟩
        · cases here with
          | none => exact List.Pairwise.nil
          | some stretch => exact List.pairwise_singleton _ _
        · intro a ha b hb
          obtain ⟨origin, horigin, -, hwithin⟩ := hfrom b hb
          have hstop := (hin a ha).high
          have hbase := hwithin.low
          have hle := hregion origin horigin
          rw [show pageBytes = 4096 from rfl] at hstop hbase
          omega
    · rw [if_neg hram] at h
      obtain ⟨hfrom, hpairs⟩ := ih h
      refine ⟨?_, fun hordered => hpairs (List.pairwise_cons.mp hordered).2⟩
      intro stretch hm
      obtain ⟨origin, horigin, hrest⟩ := hfrom stretch hm
      exact ⟨origin, List.mem_cons_of_mem _ horigin, hrest⟩

/-! ## The stretches at the start -/

section StartRegion

variable {keep : Bool} {next : Nat} {stretch : Stretch}

/-- A stretch starts at its first frame, kept or not. -/
@[simp] theorem first_startRegion : (startRegion keep next stretch).first = stretch.first := by
  unfold startRegion
  split_ifs <;> rfl

/-- The bitmap of a stretch has one bit for each frame, kept or not. -/
@[simp] theorem bits_startRegion :
    (startRegion keep next stretch).bitmap.bits = stretch.frames := by
  unfold startRegion
  split_ifs <;> rfl

/-- A stretch leads on to the one that it was told, kept or not. -/
@[simp] theorem next_startRegion : (startRegion keep next stretch).next = next := by
  unfold startRegion
  split_ifs <;> rfl

/-- A stretch ends behind its last frame, kept or not. -/
@[simp] theorem stop_startRegion :
    (startRegion keep next stretch).stop = stretch.first + stretch.frames := by
  unfold FrameRegion.stop FrameRegion.total
  rw [first_startRegion, bits_startRegion]

/-- A stretch starts full if it is kept, and empty if not. -/
theorem taken_startRegion : (startRegion keep next stretch).taken =
    if keep then (startRegion keep next stretch).frames else ∅ := by
  cases keep with
  | true =>
    apply FrameRegion.taken_of_full
    simp only [startRegion, ↓reduceIte, Bitmap.members_insertAll, Bitmap.bits_insertAll]
  | false =>
    simp only [FrameRegion.taken, startRegion, Bool.false_eq_true, ↓reduceIte,
      Bitmap.members_empty, Finset.map_empty]

/-- The counter of a new stretch is right: it is zero, or all frames if the stretch is kept. -/
theorem exact_startRegion : (startRegion keep next stretch).Exact := by
  unfold FrameRegion.Exact
  rw [taken_startRegion]
  cases keep with
  | true =>
    rw [if_pos rfl, FrameRegion.card_frames, FrameRegion.total, bits_startRegion]
    rfl
  | false => rfl

end StartRegion

/-- Whether the frames of a kind are reserved from the start. -/
def keeps (config : FrameConfig) (kind : MemoryKind) : Bool :=
  kind != .available && config.reclaim == .keepReserved

/-- The allocator over some stretches before anything is reserved. -/
def unreserved (found : List Stretch) (config : FrameConfig) (storage : BitmapStorage)
    (kernel : KernelImage) (map : MemoryMap) : FrameAllocator :=
  let regions := found.mapIdx fun index stretch =>
    startRegion (keeps config stretch.kind) ((index + 1) % found.length) stretch
  let used := (regions.map FrameRegion.used).sum
  { regions := regions.toArray, cursor := 0, total := (found.map Stretch.frames).sum, used,
    reserved := used, storage, kernel, map }

section Unreserved

variable {found : List Stretch} {config : FrameConfig} {storage : BitmapStorage}
  {kernel : KernelImage} {map : MemoryMap}

/-- Every stretch of a new allocator starts as its kind asks for. -/
theorem mem_unreserved {region : FrameRegion}
    (hm : region ∈ (unreserved found config storage kernel map).regions.toList) :
    ∃ stretch ∈ found, ∃ next, region = startRegion (keeps config stretch.kind) next stretch := by
  obtain ⟨index, hindex, rfl⟩ := List.mem_mapIdx.mp hm
  exact ⟨found[index], List.getElem_mem hindex, _, rfl⟩

/-- The allocator over ordered stretches below 4 GiB starts sound. -/
theorem sound_unreserved (hpairs : found.Pairwise fun a b => a.first + a.frames ≤ b.first)
    (hrange : ∀ stretch ∈ found, stretch.first + stretch.frames ≤ 2 ^ 20) :
    (unreserved found config storage kernel map).Sound := by
  have hascending : Ascending (unreserved found config storage kernel map).regions.toList := by
    apply List.pairwise_iff_getElem.mpr
    intro i j hi hj hij
    have := List.pairwise_iff_getElem.mp hpairs i j (by simpa [unreserved] using hi)
      (by simpa [unreserved] using hj) hij
    simpa [unreserved] using this
  have hexact : ∀ region ∈ (unreserved found config storage kernel map).regions.toList,
      region.Exact := by
    intro region hm
    obtain ⟨stretch, -, next, rfl⟩ := mem_unreserved hm
    exact exact_startRegion
  refine ⟨hascending, hexact, ?_, ?_, ?_, ?_, fun _ _ hlt => absurd hlt (Nat.not_lt_zero _)⟩
  · intro region hm
    obtain ⟨stretch, hstretch, next, rfl⟩ := mem_unreserved hm
    rw [stop_startRegion]
    exact hrange stretch hstretch
  · intro index region hindex hlt
    have hlength : index + 1 < found.length := by simpa [unreserved] using hlt
    simp only [unreserved, List.getElem?_toArray, List.getElem?_mapIdx,
      Option.map_eq_some_iff] at hindex
    obtain ⟨stretch, -, rfl⟩ := hindex
    rw [next_startRegion, Nat.mod_eq_of_lt hlength]
  · rw [tracked, hascending.card_unionOf fun _ _ => Finset.Subset.refl _]
    simp only [unreserved, FrameRegion.card_frames]
    congr 1
    apply List.ext_getElem (by simp)
    intro i hi hi'
    simp [FrameRegion.total]
  · rw [unavailable, hascending.card_unionOf fun _ _ => FrameRegion.taken_subset]
    exact congrArg List.sum (List.map_congr_left fun region hm => hexact region hm)

end Unreserved

/-! ## A new allocator -/

/-- A frame lies inside a region. -/
def InRegion (frame : Nat) (region : Region) : Prop :=
  region.base ≤ frame * pageBytes ∧ (frame + 1) * pageBytes ≤ region.stop

/-- Every frame of a stretch lies inside the region of the stretch. -/
theorem Stretch.Within.inRegion {stretch : Stretch} {region : Region} (h : stretch.Within region)
    {frame : Nat} (hlow : stretch.first ≤ frame) (hhigh : frame < stretch.first + stretch.frames) :
    InRegion frame region :=
  ⟨Nat.le_trans h.low (Nat.mul_le_mul_right _ hlow),
    Nat.le_trans (Nat.mul_le_mul_right _ hhigh) h.high⟩

/-- Whether frames of a kind are handed out. -/
def Usable (config : FrameConfig) (kind : MemoryKind) : Prop :=
  kind = .available ∨ kind = .acpiReclaimable ∧ config.reclaim = .release

/-- What a new allocator is. -/
structure Built (map : MemoryMap) (kernel : KernelImage) (config : FrameConfig)
    (allocator : FrameAllocator) : Prop where
  sound : allocator.Sound
  /-- Every tracked frame lies inside one RAM region. -/
  origin : ∀ frame ∈ allocator.tracked, ∃ region ∈ map.regions,
    region.kind.isRam = true ∧ InRegion frame region
  /-- A frame that is available at the start lies inside one region that may be handed out. -/
  usable : ∀ frame ∈ allocator.tracked \ allocator.unavailable, ∃ region ∈ map.regions,
    Usable config region.kind ∧ InRegion frame region
  /-- The kernel image is reserved. -/
  kernel : ∀ frame ∈ allocator.tracked, SharesByte kernel.start.toNat kernel.stop.toNat frame →
    frame ∈ allocator.unavailable
  /-- The bitmaps are reserved. -/
  storage : ∀ frame ∈ allocator.tracked,
    SharesByte allocator.storage.start allocator.storage.stop frame →
      frame ∈ allocator.unavailable

/-- A RAM kind that is not kept is handed out. -/
theorem usable_of_not_keeps {config : FrameConfig} {kind : MemoryKind} (hram : kind.isRam = true)
    (h : keeps config kind = false) : Usable config kind := by
  unfold keeps at h
  unfold Usable
  cases kind <;> cases hreclaim : config.reclaim <;> simp_all [MemoryKind.isRam]

/-- A new allocator is one without reservations in which the kernel image and the bitmaps are
reserved. -/
theorem exists_of_ofMap {map : MemoryMap} {kernel : KernelImage} {reach : Nat}
    {config : FrameConfig} {allocator : FrameAllocator}
    (h : (ofMap map kernel reach config).outcome = .ok (.ok allocator)) :
    ∃ found, (stretches map.regions).outcome = .ok found ∧
      allocator = (((unreserved found config allocator.storage kernel map).reserveRange
        kernel.start.toNat kernel.stop.toNat).1.reserveRange allocator.storage.start
          allocator.storage.stop).1 := by
  unfold ofMap at h
  simp only [Traced.outcome_bind, Outcome.bind_eq_ok] at h
  obtain ⟨found, hfound, h⟩ := h
  split_ifs at h with hnone
  · cases h
  simp only [Traced.outcome_bind, Traced.outcome_liftM, Outcome.bind_eq_ok] at h
  obtain ⟨placed, -, h⟩ := h
  cases placed with
  | none => cases h
  | some storage =>
    simp only [Traced.outcome_bind, Traced.outcome_report, Outcome.ok_bind, Traced.outcome_pure,
      Except.ok.injEq] at h
    subst h
    exact ⟨found, hfound, rfl⟩

/-- A frame that is tracked without reservations comes from a RAM region, and is reserved if the
kind of the region is kept. -/
theorem origin_unreserved {found : List Stretch} {map : MemoryMap} {config : FrameConfig}
    {storage : BitmapStorage} {kernel : KernelImage}
    (hfrom : ∀ stretch ∈ found, ∃ region ∈ map.regions,
      region.kind.isRam = true ∧ stretch.Within region) {frame : Nat}
    (hframe : frame ∈ (unreserved found config storage kernel map).tracked) :
    ∃ region ∈ map.regions, region.kind.isRam = true ∧ InRegion frame region ∧
      (keeps config region.kind = true →
        frame ∈ (unreserved found config storage kernel map).unavailable) := by
  obtain ⟨tracked, hm, hin⟩ := mem_unionOf.mp hframe
  obtain ⟨stretch, hstretch, next, rfl⟩ := mem_unreserved hm
  obtain ⟨region, hregion, hram, hwithin⟩ := hfrom stretch hstretch
  have hbounds := FrameRegion.mem_frames.mp hin
  rw [first_startRegion, stop_startRegion] at hbounds
  refine ⟨region, hregion, hram, hwithin.inRegion hbounds.1 hbounds.2, ?_⟩
  intro hkeep
  rw [← hwithin.kind_eq] at hkeep
  refine mem_unionOf.mpr ⟨_, hm, ?_⟩
  rw [taken_startRegion, if_pos hkeep]
  exact hin

/-- Whatever is built from a map in order is what a new allocator should be. -/
theorem built_of_ofMap {map : MemoryMap} {kernel : KernelImage} {reach : Nat}
    {config : FrameConfig} {allocator : FrameAllocator}
    (hmap : MemoryMap.Ordered map.regions)
    (h : (ofMap map kernel reach config).outcome = .ok (.ok allocator)) :
    Built map kernel config allocator := by
  obtain ⟨found, hfound, hallocator⟩ := exists_of_ofMap h
  obtain ⟨hfrom, hpairs⟩ := stretches_spec hfound
  have hstart : (unreserved found config allocator.storage kernel map).Sound := by
    apply sound_unreserved (hpairs hmap)
    intro stretch hm
    obtain ⟨region, -, -, hwithin⟩ := hfrom stretch hm
    exact hwithin.inRange
  obtain ⟨-, hkernel⟩ := hstart.reserveRange kernel.start.toNat kernel.stop.toNat
  obtain ⟨-, hstorage⟩ :=
    hkernel.sound.reserveRange allocator.storage.start allocator.storage.stop
  rw [← hallocator] at hstorage
  have htracked := hstorage.tracked_eq.trans hkernel.tracked_eq
  have hunavailable := hstorage.unavailable_eq
  rw [hkernel.unavailable_eq, hkernel.tracked_eq, ← htracked] at hunavailable
  refine ⟨hstorage.sound, ?_, ?_, ?_, ?_⟩
  · intro frame hframe
    rw [htracked] at hframe
    obtain ⟨region, hregion, hram, hin, -⟩ := origin_unreserved hfrom hframe
    exact ⟨region, hregion, hram, hin⟩
  · intro frame hframe
    obtain ⟨hframe, hfree⟩ := Finset.mem_sdiff.mp hframe
    rw [htracked] at hframe
    obtain ⟨region, hregion, hram, hin, hkept⟩ := origin_unreserved hfrom hframe
    refine ⟨region, hregion, usable_of_not_keeps hram ?_, hin⟩
    refine Bool.eq_false_iff.mpr fun hkeep => hfree ?_
    rw [hunavailable]
    apply Finset.mem_union_left
    apply Finset.mem_union_left
    exact hkept hkeep
  · intro frame hframe hshares
    rw [hunavailable]
    exact Finset.mem_union_left _
      (Finset.mem_union_right _ (Finset.mem_filter.mpr ⟨hframe, hshares⟩))
  · intro frame hframe hshares
    rw [hunavailable]
    apply Finset.mem_union_right
    exact Finset.mem_filter.mpr ⟨hframe, hshares⟩

end BootMemory.FrameAllocator
