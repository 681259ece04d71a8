import BootMemory.Frames.Allocator
import BootMemory.Proofs.Frames.Region
import BootMemory.Proofs.Outcome

/-!
# The frame allocator as two sets

An allocator is a set of tracked frame numbers and the subset of those that are unavailable.
`FrameAllocator.Sound` ties the stretches, the counters and the cursor to the two sets: the
stretches ascend, the counters are the sizes of the sets, and every stretch before the
cursor is full. The last point is what makes the first free frame that the search comes to
the lowest one of all.
-/

set_option autoImplicit false

namespace BootMemory

/-! ## Unions over stretches -/

/-- The frames that some stretch contributes. -/
def unionOf (part : FrameRegion → Finset Nat) (regions : List FrameRegion) : Finset Nat :=
  regions.foldr (fun region rest => part region ∪ rest) ∅

section UnionOf

variable {part : FrameRegion → Finset Nat} {regions : List FrameRegion} {frame : Nat}

/-- Without stretches there are no frames. -/
@[simp] theorem unionOf_nil : unionOf part [] = ∅ := rfl

/-- The first stretch adds what it contributes. -/
@[simp] theorem unionOf_cons (region : FrameRegion) :
    unionOf part (region :: regions) = part region ∪ unionOf part regions := rfl

/-- A frame is in the union exactly if some stretch contributes it. -/
theorem mem_unionOf : frame ∈ unionOf part regions ↔ ∃ region ∈ regions, frame ∈ part region := by
  induction regions with
  | nil => simp
  | cons region rest ih => simp [ih]

/-- Two lists of stretches contribute what each of them does. -/
theorem unionOf_append (lower upper : List FrameRegion) :
    unionOf part (lower ++ upper) = unionOf part lower ∪ unionOf part upper := by
  ext frame
  simp only [Finset.mem_union, mem_unionOf, List.mem_append]
  constructor
  · rintro ⟨region, hm | hm, hframe⟩
    · exact .inl ⟨region, hm, hframe⟩
    · exact .inr ⟨region, hm, hframe⟩
  · rintro (⟨region, hm, hframe⟩ | ⟨region, hm, hframe⟩)
    · exact ⟨region, .inl hm, hframe⟩
    · exact ⟨region, .inr hm, hframe⟩

/-- Stretches in address order, none of which starts before the one in front of it ends. -/
def Ascending (regions : List FrameRegion) : Prop :=
  regions.Pairwise fun a b => a.stop ≤ b.first

/-- A frame belongs to one stretch only. -/
theorem Ascending.eq_of_mem (h : Ascending regions) {a b : FrameRegion} (ha : a ∈ regions)
    (hb : b ∈ regions) (hframea : frame ∈ a.frames) (hframeb : frame ∈ b.frames) : a = b := by
  by_contra hne
  let apart (a b : FrameRegion) : Prop := frame ∈ a.frames → frame ∉ b.frames
  have hsymm : Std.Symm apart := ⟨fun a b hab hinb hina => hab hina hinb⟩
  have hpair : regions.Pairwise apart := by
    refine h.imp fun {a b} hle hina hinb => ?_
    rw [FrameRegion.mem_frames] at hina hinb
    omega
  exact hpair.forall ha hb hne hframea hframeb

/-- The sizes of parts of stretches add up. -/
theorem Ascending.card_unionOf (h : Ascending regions)
    (hpart : ∀ region ∈ regions, part region ⊆ region.frames) :
    (unionOf part regions).card = (regions.map fun region => (part region).card).sum := by
  induction regions with
  | nil => rfl
  | cons region rest ih =>
    obtain ⟨hregion, hrest⟩ := List.pairwise_cons.mp h
    obtain ⟨hpartregion, hpartrest⟩ := List.forall_mem_cons.mp hpart
    have hdisjoint : Disjoint (part region) (unionOf part rest) := by
      apply Finset.disjoint_left.mpr
      intro frame hframe hother
      obtain ⟨other, hm, hframe'⟩ := mem_unionOf.mp hother
      have hlow := FrameRegion.mem_frames.mp (hpartregion hframe)
      have hhigh := FrameRegion.mem_frames.mp (hpartrest other hm hframe')
      have := hregion other hm
      omega
    rw [unionOf_cons, Finset.card_union_of_disjoint hdisjoint, ih hrest hpartrest, List.map_cons,
      List.sum_cons]

end UnionOf

namespace FrameAllocator

/-- The numbers of the frames of all stretches. -/
def tracked (allocator : FrameAllocator) : Finset Nat :=
  unionOf FrameRegion.frames allocator.regions.toList

/-- The numbers of the tracked frames that are reserved or in use. -/
def unavailable (allocator : FrameAllocator) : Finset Nat :=
  unionOf FrameRegion.taken allocator.regions.toList

/-- Only tracked frames are unavailable. -/
theorem unavailable_subset (allocator : FrameAllocator) :
    allocator.unavailable ⊆ allocator.tracked := by
  intro frame hframe
  obtain ⟨region, hm, htaken⟩ := mem_unionOf.mp hframe
  exact mem_unionOf.mpr ⟨region, hm, FrameRegion.taken_subset htaken⟩

/-- The stretches, the counters and the cursor say what the two sets are. -/
structure Sound (allocator : FrameAllocator) : Prop where
  ascending : Ascending allocator.regions.toList
  exact : ∀ region ∈ allocator.regions.toList, region.Exact
  /-- Every frame has a physical address below 4 GiB. -/
  inRange : ∀ region ∈ allocator.regions.toList, region.stop ≤ 2 ^ 20
  /-- Every stretch but the last leads to the one behind it. -/
  ring : ∀ index region, allocator.regions[index]? = some region →
    index + 1 < allocator.regions.size → region.next = index + 1
  total_eq : allocator.total = allocator.tracked.card
  used_eq : allocator.used = allocator.unavailable.card
  /-- Every stretch before the cursor is full. -/
  full : ∀ index region, index < allocator.cursor → allocator.regions[index]? = some region →
    region.taken = region.frames

variable {allocator : FrameAllocator}

namespace Sound

/-- A stretch that is found at an index is one of the stretches. -/
theorem mem_of_getElem? {index : Nat} {region : FrameRegion}
    (h : allocator.regions[index]? = some region) : region ∈ allocator.regions.toList :=
  Array.mem_toList_iff.mpr (Array.mem_of_getElem? h)

/-- A table entry can name every tracked frame. -/
theorem lt_of_mem_tracked (h : allocator.Sound) {frame : Nat} (hframe : frame ∈ allocator.tracked) :
    frame < 2 ^ 20 := by
  obtain ⟨region, hm, hin⟩ := mem_unionOf.mp hframe
  have hrange := h.inRange region hm
  have hlt := (FrameRegion.mem_frames.mp hin).2
  omega

/-- The order of the stretches is that of their positions. -/
theorem stop_le_first (h : allocator.Sound) {i j : Nat} {a b : FrameRegion}
    (ha : allocator.regions[i]? = some a) (hb : allocator.regions[j]? = some b) (hij : i < j) :
    a.stop ≤ b.first := by
  obtain ⟨hi, rfl⟩ := Array.getElem?_eq_some_iff.mp ha
  obtain ⟨hj, rfl⟩ := Array.getElem?_eq_some_iff.mp hb
  have := List.pairwise_iff_getElem.mp h.ascending i j (by simpa using hi) (by simpa using hj) hij
  simpa using this

/-- A taken frame of a stretch is unavailable, and an unavailable frame of a stretch is taken. -/
theorem mem_unavailable_iff (h : allocator.Sound) {region : FrameRegion} {frame : Nat}
    (hm : region ∈ allocator.regions.toList) (hframe : frame ∈ region.frames) :
    frame ∈ allocator.unavailable ↔ frame ∈ region.taken := by
  constructor
  · intro hun
    obtain ⟨other, hother, htaken⟩ := mem_unionOf.mp hun
    rwa [h.ascending.eq_of_mem hm hother hframe (FrameRegion.taken_subset htaken)]
  · exact fun htaken => mem_unionOf.mpr ⟨region, hm, htaken⟩

/-- All frames are unavailable exactly if every stretch is full. -/
theorem full_iff (h : allocator.Sound) : allocator.unavailable = allocator.tracked ↔
    ∀ region ∈ allocator.regions.toList, region.taken = region.frames := by
  constructor
  · intro he region hm
    apply Finset.Subset.antisymm FrameRegion.taken_subset
    intro frame hframe
    apply (h.mem_unavailable_iff hm hframe).mp
    rw [he]
    exact mem_unionOf.mpr ⟨region, hm, hframe⟩
  · intro hfull
    apply Finset.Subset.antisymm allocator.unavailable_subset
    intro frame hframe
    obtain ⟨region, hm, hin⟩ := mem_unionOf.mp hframe
    refine mem_unionOf.mpr ⟨region, hm, ?_⟩
    rwa [hfull region hm]

/-- The counters meet exactly if all frames are unavailable. -/
theorem used_eq_total_iff (h : allocator.Sound) :
    allocator.used = allocator.total ↔ allocator.unavailable = allocator.tracked := by
  rw [h.used_eq, h.total_eq]
  constructor
  · exact fun hcard => Finset.eq_of_subset_of_card_le allocator.unavailable_subset
      (Nat.le_of_eq hcard.symm)
  · intro he
    rw [he]

/-! ## Finding the stretch of a frame -/

/-- The stretch of a tracked frame is found. -/
theorem regionOf?_eq_some (h : allocator.Sound) {frame : Frame}
    (hframe : frame.index ∈ allocator.tracked) : ∃ index region,
      allocator.regionOf? frame = some index ∧ allocator.regions[index]? = some region ∧
        frame.index ∈ region.frames := by
  obtain ⟨region, hm, hin⟩ := mem_unionOf.mp hframe
  obtain ⟨index, hindex⟩ := Array.mem_iff_getElem?.mp (Array.mem_toList_iff.mp hm)
  obtain ⟨hsize, hget⟩ := Array.getElem?_eq_some_iff.mp hindex
  have hpart : Partitioned (fun region => region.stop ≤ frame.index) allocator.regions := by
    intro i j hj hij hpass
    have hle := h.stop_le_first (Array.getElem?_eq_getElem (Nat.lt_trans hij hj))
      (Array.getElem?_eq_getElem hj) hij
    have hpass : allocator.regions[j].stop ≤ frame.index := of_decide_eq_true hpass
    apply decide_eq_true
    unfold FrameRegion.stop at *
    omega
  have hspec := partitionPoint_spec hpart
  rw [FrameRegion.mem_frames] at hin
  -- Stretches in front of this one end before the frame, and this one does not.
  have hpoint : partitionPoint (fun region => region.stop ≤ frame.index) allocator.regions =
      index := by
    apply Nat.le_antisymm
    · by_contra hlt
      have := (hspec index hsize).mpr (Nat.lt_of_not_le hlt)
      rw [hget] at this
      simp only [decide_eq_true_eq] at this
      omega
    · by_contra hlt
      have hlt' := Nat.lt_of_not_le hlt
      have hnot := (hspec _ (Nat.lt_trans hlt' hsize)).not.mpr (Nat.lt_irrefl _)
      have hle := h.stop_le_first (Array.getElem?_eq_getElem (Nat.lt_trans hlt' hsize)) hindex hlt'
      simp only [decide_eq_true_eq] at hnot
      omega
  refine ⟨index, region, ?_, hindex, FrameRegion.mem_frames.mpr hin⟩
  simp [regionOf?, hpoint, hindex, FrameRegion.contains, hin]

/-- An untracked frame has no stretch. -/
theorem regionOf?_eq_none {frame : Frame} (hframe : frame.index ∉ allocator.tracked) :
    allocator.regionOf? frame = none := by
  unfold regionOf?
  simp only [Option.bind_eq_bind]
  refine Option.bind_eq_none_iff.mpr fun region hregion => if_neg fun hcontains => hframe ?_
  refine mem_unionOf.mpr ⟨region, mem_of_getElem? hregion, ?_⟩
  simpa [FrameRegion.contains] using hcontains

/-- A frame counts as used if it is not tracked or unavailable. -/
theorem isUsed_iff (h : allocator.Sound) (frame : Frame) : allocator.isUsed frame = true ↔
    frame.index ∉ allocator.tracked ∨ frame.index ∈ allocator.unavailable := by
  by_cases hframe : frame.index ∈ allocator.tracked
  · obtain ⟨index, region, hof, hindex, hin⟩ := h.regionOf?_eq_some hframe
    rw [h.mem_unavailable_iff (mem_of_getElem? hindex) hin, FrameRegion.mem_taken]
    simp [isUsed, hof, hindex, hframe, hin, FrameRegion.bitOf]
  · simp [isUsed, regionOf?_eq_none hframe, hframe]

/-! ## The search -/

/-- A search that starts at or before the first stretch with a free frame, with only full ones in
between, ends there. -/
theorem searchFrom_eq (h : allocator.Sound) {goal bit : Nat} {region : FrameRegion}
    (hgoal : allocator.regions[goal]? = some region) (hfree : region.lowestFree = some bit)
    (steps index : Nat) (hle : index ≤ goal)
    (hfull : ∀ i other, index ≤ i → i < goal → allocator.regions[i]? = some other →
      other.taken = other.frames) (hsteps : goal - index < steps) :
    searchFrom allocator.regions steps index = some (goal, bit) := by
  obtain ⟨hsize, -⟩ := Array.getElem?_eq_some_iff.mp hgoal
  -- The induction goes along the full stretches.
  induction steps generalizing index with
  | zero => omega
  | succ steps ih =>
    rcases Nat.lt_or_eq_of_le hle with hlt | rfl
    · have hindex := Array.getElem?_eq_getElem (Nat.lt_trans hlt hsize)
      have hnone := ((h.exact _ (mem_of_getElem? hindex)).lowestFree_eq_none_iff).mpr
        (hfull index _ (Nat.le_refl _) hlt hindex)
      have hnext := h.ring index _ hindex (by omega)
      rw [searchFrom, hindex]
      simp only [Option.bind_eq_bind, Option.bind_some, hnone, hnext]
      exact ih (index + 1) hlt (fun i other hi => hfull i other (by omega)) (by omega)
    · simp [searchFrom, hgoal, hfree]

/-- The first stretch with a free frame. -/
theorem exists_goal (h : allocator.Sound) (hfree : allocator.unavailable ≠ allocator.tracked) :
    ∃ (goal : Nat) (region : FrameRegion) (bit : Nat), allocator.regions[goal]? = some region ∧
      region.lowestFree = some bit ∧ ∀ (i : Nat) (other : FrameRegion), i < goal →
        allocator.regions[i]? = some other → other.taken = other.frames := by
  have hsome : ∃ (index : Nat) (region : FrameRegion), allocator.regions[index]? = some region ∧
      region.taken ≠ region.frames := by
    by_contra hnone
    apply hfree
    apply h.full_iff.mpr
    intro region hm
    obtain ⟨index, hindex⟩ := Array.mem_iff_getElem?.mp (Array.mem_toList_iff.mp hm)
    by_contra hne
    exact hnone ⟨index, region, hindex, hne⟩
  classical
  obtain ⟨region, hregion, hne⟩ := Nat.find_spec hsome
  cases hlowest : region.lowestFree with
  | none =>
    exact absurd (((h.exact _ (mem_of_getElem? hregion)).lowestFree_eq_none_iff).mp hlowest) hne
  | some bit =>
    refine ⟨Nat.find hsome, region, bit, hregion, hlowest, ?_⟩
    intro i other hi hother
    by_contra hne'
    exact Nat.find_min hsome hi ⟨other, hother, hne'⟩

end Sound

/-! ## Changing the bitmaps -/

/-- What the operations never change of a stretch. -/
def shape (region : FrameRegion) : Nat × Nat × Nat :=
  (region.first, region.bitmap.bits, region.next)

/-- Two stretches of the same shape have the same frames. -/
theorem frames_eq_of_shape {a b : FrameRegion} (h : shape a = shape b) : a.frames = b.frames := by
  obtain ⟨hfirst, hrest⟩ := Prod.mk.inj h
  obtain ⟨hbits, -⟩ := Prod.mk.inj hrest
  unfold FrameRegion.frames FrameRegion.stop FrameRegion.total
  rw [hfirst, hbits]

/-- Stretches of the same shape track the same frames. -/
theorem unionOf_frames_eq {regions other : List FrameRegion}
    (h : other.map shape = regions.map shape) :
    unionOf FrameRegion.frames other = unionOf FrameRegion.frames regions := by
  induction regions generalizing other with
  | nil =>
    rw [List.map_eq_nil_iff.mp h]
  | cons region rest ih =>
    cases other with
    | nil => exact nomatch h
    | cons region' rest' =>
      obtain ⟨hregion, hrest⟩ := List.cons.inj h
      rw [unionOf_cons, unionOf_cons, ih hrest, frames_eq_of_shape hregion]

/-- Stretches of the same shape are in the same order. -/
theorem ascending_of_shape {regions other : List FrameRegion}
    (h : other.map shape = regions.map shape) (ha : Ascending regions) : Ascending other := by
  have hiff : ∀ list : List FrameRegion, Ascending list ↔
      (list.map shape).Pairwise fun a b => a.1 + a.2.1 ≤ b.1 := by
    intro list
    rw [List.pairwise_map]
    rfl
  rw [hiff] at ha ⊢
  rwa [h]

/-- An allocator whose stretches kept their shape is sound if its counters are right and the
stretches before its cursor are full. -/
theorem Sound.of_shape (h : allocator.Sound) (other : FrameAllocator)
    (hshape : other.regions.toList.map shape = allocator.regions.toList.map shape)
    (hexact : ∀ region ∈ other.regions.toList, region.Exact)
    (htotal : other.total = allocator.total) (hused : other.used = other.unavailable.card)
    (hfull : ∀ index region, index < other.cursor → other.regions[index]? = some region →
      region.taken = region.frames) : other.Sound ∧ other.tracked = allocator.tracked := by
  have htracked : other.tracked = allocator.tracked := unionOf_frames_eq hshape
  have hget : ∀ index : Nat,
      other.regions[index]?.map shape = allocator.regions[index]?.map shape := by
    intro index
    have := congrArg (fun list : List (Nat × Nat × Nat) => list[index]?) hshape
    simpa using this
  have hsize : other.regions.size = allocator.regions.size := by
    simpa using congrArg List.length hshape
  refine ⟨⟨ascending_of_shape hshape h.ascending, hexact, ?_, ?_, ?_, hused, hfull⟩,
    htracked⟩
  · intro region hm
    obtain ⟨index, hindex⟩ := Array.mem_iff_getElem?.mp (Array.mem_toList_iff.mp hm)
    have hsame := hget index
    rw [hindex, Option.map_some, eq_comm, Option.map_eq_some_iff] at hsame
    obtain ⟨before, hbefore, heq⟩ := hsame
    have hrange := h.inRange before (Sound.mem_of_getElem? hbefore)
    obtain ⟨hfirst, hrest⟩ := Prod.mk.inj heq
    obtain ⟨hbits, -⟩ := Prod.mk.inj hrest
    unfold FrameRegion.stop FrameRegion.total at hrange ⊢
    omega
  · intro index region hindex hlt
    have hsame := hget index
    rw [hindex, Option.map_some, eq_comm, Option.map_eq_some_iff] at hsame
    obtain ⟨before, hbefore, heq⟩ := hsame
    obtain ⟨-, hrest⟩ := Prod.mk.inj heq
    obtain ⟨-, hnext⟩ := Prod.mk.inj hrest
    rw [← hnext]
    exact h.ring index before hbefore (by omega)
  · rw [htotal, htracked, h.total_eq]

/-- One stretch of a list is changed, the others stay. -/
theorem exists_of_modify {regions : Array FrameRegion} {index : Nat} {region : FrameRegion}
    (h : regions[index]? = some region) (change : FrameRegion → FrameRegion) :
    ∃ lower upper, regions.toList = lower ++ region :: upper ∧
      (regions.modify index change).toList = lower ++ change region :: upper := by
  obtain ⟨hsize, hget⟩ := Array.getElem?_eq_some_iff.mp h
  obtain ⟨lower, middle, upper, hlist, hlength, hmodify⟩ :=
    List.exists_of_modify change (l := regions.toList) (i := index) (by simpa using hsize)
  have hmiddle : middle = region := by
    rw [← hget, ← Array.getElem_toList]
    simp only [hlist, ← hlength, List.getElem_append_right (Nat.le_refl _)]
    simp
  subst hmiddle
  exact ⟨lower, upper, hlist, by rw [Array.toList_modify, hmodify]⟩

end FrameAllocator

end BootMemory
