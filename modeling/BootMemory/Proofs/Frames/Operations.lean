import BootMemory.Proofs.Frames.Allocator

/-!
# What the operations do to the two sets

Allocating takes the least tracked frame that is not unavailable, freeing makes an
unavailable frame available again, and reserving makes frames unavailable. All of them keep
the allocator sound and the tracked frames as they are.
-/

set_option autoImplicit false

namespace BootMemory.FrameAllocator

variable {allocator : FrameAllocator}

/-- What an operation leaves behind: a sound allocator with the same tracked frames and with
`unavailable` as the unavailable ones. -/
structure Becomes (allocator other : FrameAllocator) (unavailable : Finset Nat) : Prop where
  sound : other.Sound
  tracked_eq : other.tracked = allocator.tracked
  unavailable_eq : other.unavailable = unavailable

/-- An operation that does nothing leaves the same unavailable frames behind. -/
protected theorem Becomes.refl (h : allocator.Sound) :
    Becomes allocator allocator allocator.unavailable := ⟨h, rfl, rfl⟩

/-- Of two operations in a row, the second says which frames are unavailable. -/
theorem Becomes.trans {middle other : FrameAllocator} {first second : Finset Nat}
    (h : Becomes allocator middle first) (h' : Becomes middle other second) :
    Becomes allocator other second :=
  ⟨h'.sound, h'.tracked_eq.trans h.tracked_eq, h'.unavailable_eq⟩

/-- When one stretch is changed, its frames are judged by the new bitmap and all other frames
as before. -/
theorem Sound.mem_unionOf_modify (h : allocator.Sound) {index : Nat} {region : FrameRegion}
    (hindex : allocator.regions[index]? = some region) (change : FrameRegion → FrameRegion)
    (hshape : shape (change region) = shape region) (frame : Nat) :
    frame ∈ unionOf FrameRegion.taken (allocator.regions.modify index change).toList ↔
      if frame ∈ region.frames then frame ∈ (change region).taken
      else frame ∈ allocator.unavailable := by
  obtain ⟨lower, upper, hlist, hmodify⟩ := exists_of_modify hindex change
  have hascending := h.ascending
  rw [hlist] at hascending
  obtain ⟨-, hregion, hcross⟩ := List.pairwise_append.mp hascending
  have hframes := frames_eq_of_shape hshape
  rw [unavailable, hlist, hmodify, unionOf_append, unionOf_append, unionOf_cons, unionOf_cons]
  simp only [Finset.mem_union]
  split_ifs with hframe
  · -- No other stretch has the frame.
    rw [FrameRegion.mem_frames] at hframe
    have hlower : frame ∉ unionOf FrameRegion.taken lower := by
      intro hm
      obtain ⟨other, hother, htaken⟩ := mem_unionOf.mp hm
      have := FrameRegion.mem_frames.mp (FrameRegion.taken_subset htaken)
      have := hcross other hother region List.mem_cons_self
      omega
    have hupper : frame ∉ unionOf FrameRegion.taken upper := by
      intro hm
      obtain ⟨other, hother, htaken⟩ := mem_unionOf.mp hm
      have := FrameRegion.mem_frames.mp (FrameRegion.taken_subset htaken)
      have := (List.pairwise_cons.mp hregion).1 other hother
      omega
    tauto
  · have hold : frame ∉ region.taken := fun hm => hframe (FrameRegion.taken_subset hm)
    have hnew : frame ∉ (change region).taken := fun hm => hframe (by
      rw [← hframes]
      exact FrameRegion.taken_subset hm)
    tauto

/-- Changing one stretch without changing its shape. -/
theorem Sound.modify (h : allocator.Sound) {index : Nat} {region : FrameRegion}
    (hindex : allocator.regions[index]? = some region) (change : FrameRegion → FrameRegion)
    (hshape : shape (change region) = shape region) (hexact : (change region).Exact)
    {unavailable : Finset Nat} (hsets : ∀ frame, frame ∈ unavailable ↔
      if frame ∈ region.frames then frame ∈ (change region).taken
      else frame ∈ allocator.unavailable) {cursor used : Nat} (hused : used = unavailable.card)
    (hcursor : cursor ≤ index) (hfull : ∀ i other, i < cursor →
      allocator.regions[i]? = some other → other.taken = other.frames) :
    Becomes allocator { allocator with
      regions := allocator.regions.modify index change, cursor, used } unavailable := by
  have hunion : unionOf FrameRegion.taken (allocator.regions.modify index change).toList =
      unavailable := by
    ext frame
    rw [h.mem_unionOf_modify hindex change hshape, hsets]
  obtain ⟨lower, upper, hlist, hmodify⟩ := exists_of_modify hindex change
  let other : FrameAllocator :=
    { allocator with regions := allocator.regions.modify index change, cursor, used }
  have hexact' : ∀ region ∈ other.regions.toList, region.Exact := by
    intro region hm
    rw [hmodify, List.mem_append, List.mem_cons] at hm
    rcases hm with hm | rfl | hm
    · exact h.exact region (by rw [hlist]; simp [hm])
    · exact hexact
    · exact h.exact region (by rw [hlist]; simp [hm])
  have hfull' : ∀ i region, i < other.cursor → other.regions[i]? = some region →
      region.taken = region.frames := by
    intro i region hi hregion
    have hlt : i < cursor := hi
    simp only [other, Array.getElem?_modify] at hregion
    rw [if_neg (by omega)] at hregion
    exact hfull i region hlt hregion
  obtain ⟨hsound, htracked⟩ := h.of_shape other
    (by simp only [other, hlist, hmodify, List.map_append, List.map_cons, hshape]) hexact' rfl
    (by rw [FrameAllocator.unavailable, hunion]; exact hused) hfull'
  exact ⟨hsound, htracked, hunion⟩

/-! ## Allocating -/

/-- What it means that `frame` was handed out. -/
structure HandsOut (allocator : FrameAllocator) (frame : Frame) (other : FrameAllocator) :
    Prop where
  free : frame.index ∈ allocator.tracked \ allocator.unavailable
  least : ∀ index ∈ allocator.tracked \ allocator.unavailable, frame.index ≤ index
  becomes : Becomes allocator other (insert frame.index allocator.unavailable)

/-- The frame of a bit has the number that the bit stands for. -/
theorem Sound.index_frameAt (h : allocator.Sound) {region : FrameRegion} {bit : Nat}
    (hm : region ∈ allocator.regions.toList) (hbit : bit < region.bitmap.bits) :
    (region.frameAt bit).index = region.first + bit := by
  have hrange := h.inRange region hm
  unfold FrameRegion.stop FrameRegion.total at hrange
  rw [FrameRegion.frameAt, Frame.index_ofIndex, Nat.mod_eq_of_lt (by omega)]

/-- No available frame is below the lowest free frame of the first stretch that has one. -/
theorem Sound.goal_le (h : allocator.Sound) {goal bit : Nat} {region : FrameRegion}
    (hgoal : allocator.regions[goal]? = some region) (hlowest : region.lowestFree = some bit)
    (hfull : ∀ i other, i < goal → allocator.regions[i]? = some other →
      other.taken = other.frames) {index : Nat}
    (hindex : index ∈ allocator.tracked \ allocator.unavailable) : region.first + bit ≤ index := by
  obtain ⟨-, hfree, hbelow⟩ := FrameRegion.lowestFree_eq_some hlowest
  obtain ⟨hframe, -⟩ := Finset.mem_sdiff.mp hfree
  obtain ⟨htracked, hfree'⟩ := Finset.mem_sdiff.mp hindex
  obtain ⟨other, hother, hin⟩ := mem_unionOf.mp htracked
  obtain ⟨i, hi⟩ := Array.mem_iff_getElem?.mp (Array.mem_toList_iff.mp hother)
  by_contra hlt
  -- A lower frame is in this stretch below the bit, or in a full stretch in front of it.
  apply hfree'
  apply (h.mem_unavailable_iff hother hin).mpr
  rcases Nat.lt_trichotomy i goal with hlow | rfl | hhigh
  · rw [hfull i other hlow hi]
    exact hin
  · rw [hgoal] at hi
    cases hi
    exact hbelow index hin (Nat.lt_of_not_le hlt)
  · have := h.stop_le_first hgoal hi hhigh
    rw [FrameRegion.mem_frames] at hin hframe
    omega

/-- The least free frame is handed out, and nothing exactly if there is none. -/
theorem Sound.allocate (h : allocator.Sound) :
    (allocator.unavailable = allocator.tracked ∧ allocator.allocate = none) ∨
      ∃ frame other, allocator.allocate = some (frame, other) ∧
        HandsOut allocator frame other := by
  by_cases hall : allocator.unavailable = allocator.tracked
  · left
    refine ⟨hall, ?_⟩
    rw [FrameAllocator.allocate, if_pos (h.used_eq_total_iff.mpr hall)]
    rfl
  right
  obtain ⟨goal, region, bit, hgoal, hlowest, hfull⟩ := h.exists_goal hall
  obtain ⟨hbit, hfree, -⟩ := FrameRegion.lowestFree_eq_some hlowest
  have hm := Sound.mem_of_getElem? hgoal
  have hindex := h.index_frameAt hm hbit
  obtain ⟨hframe, hnot⟩ := Finset.mem_sdiff.mp hfree
  have hcursor : allocator.cursor ≤ goal := by
    by_contra hlt
    have := h.full goal region (Nat.lt_of_not_le hlt) hgoal
    rw [this] at hnot
    exact hnot hframe
  obtain ⟨hsize, -⟩ := Array.getElem?_eq_some_iff.mp hgoal
  have hsearch : searchFrom allocator.regions allocator.regions.size allocator.cursor =
      some (goal, bit) :=
    h.searchFrom_eq hgoal hlowest _ _ hcursor (fun i other _ => hfull i other) (by omega)
  have hunavailable : region.first + bit ∉ allocator.unavailable := fun hmem =>
    hnot ((h.mem_unavailable_iff hm hframe).mp hmem)
  refine ⟨region.frameAt bit, { allocator with
    regions := allocator.regions.modify goal (·.take bit)
    cursor := goal
    used := allocator.used + 1 }, ?_, ?_, ?_, ?_⟩
  · simp [FrameAllocator.allocate, mt h.used_eq_total_iff.mp hall, hsearch, hgoal]
  · rw [hindex, Finset.mem_sdiff]
    exact ⟨mem_unionOf.mpr ⟨region, hm, hframe⟩, hunavailable⟩
  · rw [hindex]
    exact fun index => h.goal_le hgoal hlowest hfull
  · rw [hindex]
    refine h.modify hgoal (·.take bit) rfl ((h.exact region hm).take hbit hnot) (fun frame => ?_)
      (by rw [Finset.card_insert_of_notMem hunavailable, h.used_eq]) (Nat.le_refl _) hfull
    rw [FrameRegion.taken_take hbit]
    simp only [Finset.mem_insert]
    split_ifs with hin
    · rw [h.mem_unavailable_iff hm hin]
    · have : frame ≠ region.first + bit := by
        rintro rfl
        exact hin hframe
      tauto

/-! ## Freeing -/

/-- Freeing an untracked frame does nothing. -/
theorem free_untracked {frame : Frame} (hframe : frame.index ∉ allocator.tracked) :
    (free frame allocator).outcome = .ok allocator := by
  simp [free, Sound.regionOf?_eq_none hframe]

/-- Freeing an unavailable frame makes it available. -/
theorem Sound.free (h : allocator.Sound) {frame : Frame}
    (hframe : frame.index ∈ allocator.unavailable) :
    ∃ other, (free frame allocator).outcome = .ok other ∧
      Becomes allocator other (allocator.unavailable.erase frame.index) := by
  obtain ⟨index, region, hof, hindex, hin⟩ :=
    h.regionOf?_eq_some (allocator.unavailable_subset hframe)
  have hm := Sound.mem_of_getElem? hindex
  have htaken := (h.mem_unavailable_iff hm hin).mp hframe
  have hcontains := (FrameRegion.mem_taken.mp htaken).2
  have hbounds := FrameRegion.mem_frames.mp hin
  have hbit : region.bitOf frame < region.bitmap.bits := by
    unfold FrameRegion.stop FrameRegion.total at hbounds
    unfold FrameRegion.bitOf
    omega
  have hframe' : region.first + region.bitOf frame = frame.index := by
    unfold FrameRegion.bitOf
    omega
  refine ⟨{ allocator with
    regions := allocator.regions.modify index (·.release (region.bitOf frame))
    used := allocator.used - 1
    cursor := min index allocator.cursor }, ?_, ?_⟩
  · have hcontains' : region.bitmap.contains (region.bitOf frame) = true := hcontains
    simp [FrameAllocator.free, hof, hindex, hcontains']
  · refine h.modify hindex (·.release (region.bitOf frame)) rfl
      ((h.exact region hm).release hbit (by rwa [hframe'])) (fun other => ?_)
      (by rw [Finset.card_erase_of_mem hframe, h.used_eq]) (Nat.min_le_left _ _)
      (fun i other hi => h.full i other (Nat.lt_of_lt_of_le hi (Nat.min_le_right _ _)))
    rw [FrameRegion.taken_release hbit, hframe']
    simp only [Finset.mem_erase]
    split_ifs with hother
    · rw [h.mem_unavailable_iff hm hother]
    · have : other ≠ frame.index := by
        rintro rfl
        exact hother hin
      tauto

/-! ## Reserving -/

/-- Numbers that are added up from the left. -/
theorem foldl_fresh (results : List (FrameRegion × Nat)) (start : Nat) :
    results.foldl (fun sum result => sum + result.2) start =
      start + (results.map Prod.snd).sum := by
  induction results generalizing start with
  | nil => rfl
  | cons result rest ih =>
    rw [List.foldl_cons, ih, List.map_cons, List.sum_cons, Nat.add_assoc]

section ReserveRange

variable (allocator) (start stop : Nat)

/-- Every stretch is reserved on its own. -/
theorem regions_reserveRange : (allocator.reserveRange start stop).1.regions.toList =
    allocator.regions.toList.map fun region => (region.reserve start stop).1 := by
  show ((allocator.regions.map (·.reserve start stop)).map (·.1)).toList = _
  rw [Array.toList_map, Array.toList_map, List.map_map]
  rfl

/-- Reserving addresses acts on each stretch in its place. -/
theorem getElem?_reserveRange (index : Nat) :
    (allocator.reserveRange start stop).1.regions[index]? =
      allocator.regions[index]?.map fun region => (region.reserve start stop).1 := by
  show ((allocator.regions.map (·.reserve start stop)).map (·.1))[index]? = _
  rw [Array.getElem?_map, Array.getElem?_map, Option.map_map]
  rfl

/-- The tracked frames that share a byte with the addresses are unavailable as well. -/
theorem unavailable_reserveRange : (allocator.reserveRange start stop).1.unavailable =
    allocator.unavailable ∪ allocator.tracked.filter (SharesByte start stop) := by
  ext frame
  simp only [unavailable, tracked, regions_reserveRange, mem_unionOf, List.mem_map,
    Finset.mem_union, Finset.mem_filter]
  constructor
  · rintro ⟨_, ⟨region, hm, rfl⟩, htaken⟩
    rw [(region.reserve_spec start stop).taken_eq, Finset.mem_union, Finset.mem_filter] at htaken
    rcases htaken with htaken | ⟨hin, hshares⟩
    · exact .inl ⟨region, hm, htaken⟩
    · exact .inr ⟨⟨region, hm, hin⟩, hshares⟩
  · rintro (⟨region, hm, htaken⟩ | ⟨⟨region, hm, hin⟩, hshares⟩)
    · refine ⟨_, ⟨region, hm, rfl⟩, ?_⟩
      rw [(region.reserve_spec start stop).taken_eq]
      exact Finset.mem_union_left _ htaken
    · refine ⟨_, ⟨region, hm, rfl⟩, ?_⟩
      rw [(region.reserve_spec start stop).taken_eq]
      apply Finset.mem_union_right
      exact Finset.mem_filter.mpr ⟨hin, hshares⟩

/-- The answer adds up what the stretches count. -/
theorem fresh_eq_sum : (allocator.reserveRange start stop).2 =
    (allocator.regions.toList.map fun region => (region.reserve start stop).2).sum := by
  show (allocator.regions.map (·.reserve start stop)).foldl _ 0 = _
  rw [← Array.foldl_toList, foldl_fresh, Nat.zero_add, Array.toList_map, List.map_map]
  rfl

end ReserveRange

/-- Reserving addresses does not change the shape of a stretch. -/
theorem shape_reserve (region : FrameRegion) (start stop : Nat) :
    shape (region.reserve start stop).1 = shape region := by
  have hspec := region.reserve_spec start stop
  unfold shape
  rw [hspec.first_eq, hspec.bits_eq, hspec.next_eq]

/-- Counted are the frames that were available before. -/
theorem Sound.fresh_reserveRange (h : allocator.Sound) (start stop : Nat) :
    (allocator.reserveRange start stop).2 =
      (allocator.tracked.filter (SharesByte start stop) \ allocator.unavailable).card := by
  have hcount : (allocator.reserveRange start stop).2 =
      (unionOf (fun region => region.frames.filter (SharesByte start stop) \ region.taken)
        allocator.regions.toList).card := by
    rw [h.ascending.card_unionOf fun region _ => Finset.Subset.trans Finset.sdiff_subset
      (Finset.filter_subset _ _), fresh_eq_sum]
    apply congrArg List.sum
    exact List.map_congr_left fun region _ => (region.reserve_spec start stop).fresh_eq
  rw [hcount]
  congr 1
  ext frame
  simp only [mem_unionOf, Finset.mem_sdiff, Finset.mem_filter]
  constructor
  · rintro ⟨region, hm, ⟨hin, hshares⟩, hnot⟩
    exact ⟨⟨mem_unionOf.mpr ⟨region, hm, hin⟩, hshares⟩, fun hun =>
      hnot ((h.mem_unavailable_iff hm hin).mp hun)⟩
  · rintro ⟨⟨htracked, hshares⟩, hnot⟩
    obtain ⟨region, hm, hin⟩ := mem_unionOf.mp htracked
    exact ⟨region, hm, ⟨hin, hshares⟩, fun htaken =>
      hnot ((h.mem_unavailable_iff hm hin).mpr htaken)⟩

/-- Reserving makes the tracked frames unavailable that share a byte with the addresses, and
answers how many of them were not. -/
theorem Sound.reserveRange (h : allocator.Sound) (start stop : Nat) :
    (allocator.reserveRange start stop).2 =
        (allocator.tracked.filter (SharesByte start stop) \ allocator.unavailable).card ∧
      Becomes allocator (allocator.reserveRange start stop).1
        (allocator.unavailable ∪ allocator.tracked.filter (SharesByte start stop)) := by
  have hfresh := h.fresh_reserveRange start stop
  have hunion := allocator.unavailable_reserveRange start stop
  have hshape : (allocator.reserveRange start stop).1.regions.toList.map shape =
      allocator.regions.toList.map shape := by
    rw [regions_reserveRange, List.map_map]
    exact List.map_congr_left fun region _ => shape_reserve region start stop
  have hexact : ∀ region ∈ (allocator.reserveRange start stop).1.regions.toList,
      region.Exact := by
    intro region hm
    rw [regions_reserveRange, List.mem_map] at hm
    obtain ⟨before, hbefore, rfl⟩ := hm
    exact (before.reserve_spec start stop).exact (h.exact before hbefore)
  have hused : (allocator.reserveRange start stop).1.used =
      (allocator.reserveRange start stop).1.unavailable.card := by
    rw [hunion, Finset.union_comm, ← Finset.card_sdiff_add_card, ← hfresh, ← h.used_eq,
      Nat.add_comm]
    rfl
  -- A stretch that was full is full.
  have hfull : ∀ index region, index < (allocator.reserveRange start stop).1.cursor →
      (allocator.reserveRange start stop).1.regions[index]? = some region →
      region.taken = region.frames := by
    intro index region hindex hregion
    rw [getElem?_reserveRange, Option.map_eq_some_iff] at hregion
    obtain ⟨before, hbefore, rfl⟩ := hregion
    rw [(before.reserve_spec start stop).taken_eq, h.full index before hindex hbefore,
      frames_eq_of_shape (shape_reserve before start stop), Finset.union_eq_left]
    exact Finset.filter_subset _ _
  obtain ⟨hsound, htracked⟩ :=
    h.of_shape (allocator.reserveRange start stop).1 hshape hexact rfl hused hfull
  exact ⟨hfresh, hsound, htracked, hunion⟩

end BootMemory.FrameAllocator
