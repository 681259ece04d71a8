import BootMemory.Proofs.Frames.Start
import BootMemory.Proofs.Frames.Storage
import Mathlib.Algebra.Order.BigOperators.Group.List
import Mathlib.Algebra.Order.Group.Nat

/-!
# The stretches of a map

Which stretches a memory map has is a question about its regions alone. They are all there if the
end of every RAM region fits a word (`stretches_outcome`), and otherwise the program faults.
Together they have exactly the frames that lie inside one RAM region and below 4 GiB
(`trackable_iff`), so they cannot have more than there are below 4 GiB, and neither can their
bitmaps have more words.
-/

set_option autoImplicit false

namespace BootMemory.FrameAllocator

variable {region : Region} {regions : List Region} {stretch : Stretch} {frame : Nat}

/-! ## The stretches, without the journal -/

/-- The whole frames of a region that lie below the limit, if there are any. -/
def stretchOf? (region : Region) : Option Stretch :=
  let frames := wholePages .small region.base (min region.stop addressLimit)
  if 0 < frames then some ⟨region.kind, roundUp region.base pageBytes / pageBytes, frames⟩
  else none

/-- The stretches of the RAM regions among some regions. -/
def stretchesOf (regions : List Region) : List Stretch :=
  (regions.filter (·.kind.isRam)).filterMap stretchOf?

/-- The stretch of a region is the same whether or not somebody is warned of memory past the
limit. -/
theorem stretch?_outcome (region : Region) :
    (stretch? region).outcome = region.end?.map fun _ => stretchOf? region := by
  unfold stretch? stretchOf?
  simp only [Traced.outcome_bind, Traced.outcome_liftM]
  cases hstop : region.end? with
  | error fault => rfl
  | ok stop =>
    obtain ⟨-, rfl⟩ := Region.end?_eq_ok_iff.mp hstop
    simp only [Outcome.ok_bind, Outcome.map_ok]
    split_ifs <;> simp

/-- The ends of the RAM regions fit a word. -/
def RamEnds (regions : List Region) : Prop :=
  ∀ region ∈ regions, region.kind.isRam = true → region.stop < 2 ^ 64

instance (regions : List Region) : Decidable (RamEnds regions) :=
  inferInstanceAs (Decidable (∀ region ∈ regions, region.kind.isRam = true → region.stop < 2 ^ 64))

/-- The ends of the RAM regions fit a word if that of the first and those of the others do. -/
theorem ramEnds_cons : RamEnds (region :: regions) ↔
    (region.kind.isRam = true → region.stop < 2 ^ 64) ∧ RamEnds regions := List.forall_mem_cons

/-- The stretch of the first region, if it is RAM and has one, comes before the others. -/
theorem stretchesOf_cons (region : Region) (regions : List Region) :
    stretchesOf (region :: regions) =
      if region.kind.isRam then (stretchOf? region).toList ++ stretchesOf regions
      else stretchesOf regions := by
  unfold stretchesOf
  rw [List.filter_cons]
  split_ifs
  · rw [List.filterMap_cons]
    cases stretchOf? region <;> rfl
  · rfl

/-- Every RAM region is looked at, and an end that does not fit a word is a fault. -/
theorem stretches_outcome (regions : List Region) : (stretches regions).outcome =
    if RamEnds regions then .ok (stretchesOf regions) else .error .overflow := by
  induction regions with
  | nil => rfl
  | cons region rest ih =>
    unfold stretches
    rw [stretchesOf_cons]
    by_cases hram : region.kind.isRam = true
    · rw [if_pos hram, if_pos hram]
      simp only [Traced.outcome_bind, stretch?_outcome, ih]
      by_cases hstop : region.stop < 2 ^ 64
      · have hsame : RamEnds (region :: rest) ↔ RamEnds rest :=
          ramEnds_cons.trans (and_iff_right fun _ => hstop)
        simp only [hsame, Region.end?_of_lt hstop, Outcome.map_ok, Outcome.ok_bind]
        split_ifs <;> rfl
      · have hfault : region.end? = .error .overflow := if_neg hstop
        rw [hfault, if_neg fun h => hstop ((ramEnds_cons.mp h).1 hram)]
        rfl
    · have hsame : RamEnds (region :: rest) ↔ RamEnds rest :=
        ramEnds_cons.trans (and_iff_right fun h => absurd h hram)
      simp only [if_neg hram, ih, hsame]

/-! ## Their frames -/

/-- All bytes of a frame lie inside one region of RAM, and below 4 GiB. -/
def Trackable (regions : List Region) (frame : Nat) : Prop :=
  ∃ region ∈ regions, (region.kind = .available ∨ region.kind = .acpiReclaimable) ∧
    InRegion frame region ∧ (frame + 1) * pageBytes ≤ 2 ^ 32

/-- RAM is free memory or memory of firmware tables. -/
theorem isRam_iff {kind : MemoryKind} :
    kind.isRam = true ↔ kind = .available ∨ kind = .acpiReclaimable := by
  cases kind <;> simp [MemoryKind.isRam]

/-- The whole pages of a range below a limit, from the first one on, lie inside the range and below
the limit. -/
theorem mem_wholePages {base stop : Nat} : roundUp base pageBytes / pageBytes ≤ frame ∧
      frame < roundUp base pageBytes / pageBytes +
        wholePages .small base (min stop addressLimit) ↔
    (base ≤ frame * pageBytes ∧ (frame + 1) * pageBytes ≤ stop) ∧
      (frame + 1) * pageBytes ≤ 2 ^ 32 := by
  have hlimit : addressLimit = 2 ^ 32 := rfl
  have hbytes : PageSize.small.bytes = 4096 := rfl
  have hpage : pageBytes = 4096 := rfl
  unfold wholePages roundUp roundDown
  simp only [hlimit, hbytes, hpage]
  split_ifs <;> omega

/-- The stretch of a region has its frames below 4 GiB, and its kind. -/
theorem exists_stretchOf_iff {Q : MemoryKind → Prop} :
    (∃ stretch, stretchOf? region = some stretch ∧ Q stretch.kind ∧
      stretch.first ≤ frame ∧ frame < stretch.first + stretch.frames) ↔
    Q region.kind ∧ InRegion frame region ∧ (frame + 1) * pageBytes ≤ 2 ^ 32 := by
  rw [InRegion, ← mem_wholePages]
  unfold stretchOf?
  constructor
  · rintro ⟨stretch, hsome, hin⟩
    simp only at hsome
    split_ifs at hsome with hframes
    cases hsome
    exact hin
  · intro hin
    have hframes : 0 < wholePages .small region.base (min region.stop addressLimit) := by omega
    exact ⟨_, if_pos hframes, hin⟩

/-- The stretches are those that the RAM regions have. -/
theorem mem_stretchesOf : stretch ∈ stretchesOf regions ↔
    ∃ region ∈ regions, region.kind.isRam = true ∧ stretchOf? region = some stretch := by
  simp only [stretchesOf, List.mem_filterMap, List.mem_filter, and_assoc]

/-- Of stretches of some kinds, the frames are those that lie in RAM regions of these kinds and
below 4 GiB. -/
theorem exists_mem_stretchesOf_iff {Q : MemoryKind → Prop} :
    (∃ stretch ∈ stretchesOf regions, Q stretch.kind ∧
      stretch.first ≤ frame ∧ frame < stretch.first + stretch.frames) ↔
    ∃ region ∈ regions, region.kind.isRam = true ∧ Q region.kind ∧ InRegion frame region ∧
      (frame + 1) * pageBytes ≤ 2 ^ 32 := by
  simp only [← exists_stretchOf_iff, mem_stretchesOf]
  constructor
  · rintro ⟨stretch, ⟨region, hm, hram, hsome⟩, hin⟩
    exact ⟨region, hm, hram, stretch, hsome, hin⟩
  · rintro ⟨region, hm, hram, stretch, hsome, hin⟩
    exact ⟨stretch, ⟨region, hm, hram, hsome⟩, hin⟩

/-- The stretches of a map have exactly the frames that can be tracked. -/
theorem trackable_iff : Trackable regions frame ↔ ∃ stretch ∈ stretchesOf regions,
    stretch.first ≤ frame ∧ frame < stretch.first + stretch.frames := by
  have h := @exists_mem_stretchesOf_iff regions frame fun _ => True
  simp only [true_and, isRam_iff] at h
  exact h.symm

/-! ## How many there are -/

/-- No stretch is empty. -/
theorem frames_pos_of_mem (h : stretch ∈ stretchesOf regions) : 0 < stretch.frames := by
  obtain ⟨region, -, -, hsome⟩ := mem_stretchesOf.mp h
  unfold stretchOf? at hsome
  simp only at hsome
  split_ifs at hsome with hframes
  cases hsome
  exact hframes

/-- There is nothing to track exactly if no frame can be tracked. -/
theorem sum_frames_eq_zero_iff : ((stretchesOf regions).map Stretch.frames).sum = 0 ↔
    ∀ frame, ¬Trackable regions frame := by
  rw [List.sum_eq_zero_iff_forall_eq_nat]
  constructor
  · intro hzero frame htrackable
    obtain ⟨stretch, hm, -, -⟩ := trackable_iff.mp htrackable
    exact Nat.ne_of_gt (frames_pos_of_mem hm) (hzero _ (List.mem_map_of_mem hm))
  · intro hnone frames hm
    obtain ⟨stretch, hstretch, rfl⟩ := List.mem_map.mp hm
    have hpos := frames_pos_of_mem hstretch
    refine absurd (trackable_iff.mpr ⟨stretch, hstretch, Nat.le_refl _, ?_⟩) (hnone stretch.first)
    exact Nat.lt_add_of_pos_right hpos

instance (regions : List Region) : Decidable (∀ frame, ¬Trackable regions frame) :=
  decidable_of_iff _ sum_frames_eq_zero_iff

/-- Stretches that ascend between two bounds have no more frames than there are between these. -/
theorem add_sum_frames_le {found : List Stretch} {low high : Nat}
    (hpairs : found.Pairwise fun a b => a.first + a.frames ≤ b.first)
    (hlow : ∀ stretch ∈ found, low ≤ stretch.first)
    (hhigh : ∀ stretch ∈ found, stretch.first + stretch.frames ≤ high) (hle : low ≤ high) :
    low + (found.map Stretch.frames).sum ≤ high := by
  induction found generalizing low with
  | nil => simpa using hle
  | cons stretch rest ih =>
    obtain ⟨hstretch, hrest⟩ := List.pairwise_cons.mp hpairs
    obtain ⟨hfirst, -⟩ := List.forall_mem_cons.mp hlow
    obtain ⟨hlast, hothers⟩ := List.forall_mem_cons.mp hhigh
    have := ih hrest hstretch hothers hlast
    rw [List.map_cons, List.sum_cons]
    omega

/-- The stretches of a map ascend, below 4 GiB. -/
theorem stretchesOf_spec (hordered : MemoryMap.Ordered regions) (hends : RamEnds regions) :
    ((stretchesOf regions).Pairwise fun a b => a.first + a.frames ≤ b.first) ∧
      ∀ stretch ∈ stretchesOf regions, stretch.first + stretch.frames ≤ 2 ^ 20 := by
  have hfound : (stretches regions).outcome = .ok (stretchesOf regions) := by
    rw [stretches_outcome, if_pos hends]
  obtain ⟨hfrom, hpairs⟩ := stretches_spec hfound
  refine ⟨hpairs hordered, fun stretch hm => ?_⟩
  obtain ⟨region, -, -, hwithin⟩ := hfrom stretch hm
  exact hwithin.inRange

/-- The stretches of an ordered map have at most the frames below 4 GiB. -/
theorem sum_frames_le (hordered : MemoryMap.Ordered regions) (hends : RamEnds regions) :
    ((stretchesOf regions).map Stretch.frames).sum ≤ 2 ^ 20 := by
  obtain ⟨hpairs, hrange⟩ := stretchesOf_spec hordered hends
  have := add_sum_frames_le hpairs (fun _ _ => Nat.zero_le _) hrange (Nat.zero_le _)
  omega

/-- There are no more stretches than frames. -/
theorem length_le_sum_frames (regions : List Region) :
    (stretchesOf regions).length ≤ ((stretchesOf regions).map Stretch.frames).sum := by
  have hpos : ∀ frames ∈ (stretchesOf regions).map Stretch.frames, 1 ≤ frames := by
    intro frames hm
    obtain ⟨stretch, hstretch, rfl⟩ := List.mem_map.mp hm
    exact frames_pos_of_mem hstretch
  simpa only [List.length_map] using List.length_le_sum_of_one_le _ hpos

/-- A stretch has no more words than frames. -/
theorem sum_words_le_sum_frames (regions : List Region) :
    ((stretchesOf regions).map fun stretch => wordsFor stretch.frames).sum ≤
      ((stretchesOf regions).map Stretch.frames).sum := by
  refine List.sum_le_sum fun stretch hm => ?_
  have := frames_pos_of_mem hm
  unfold wordsFor
  omega

/-! ## The allocator over them -/

section NewAllocator

variable (map : MemoryMap) (kernel : KernelImage) (reach : Nat) (config : FrameConfig)

/-- The number of words that the bitmaps of a map need. -/
def bitmapWords (map : MemoryMap) : Nat :=
  ((stretchesOf map.regions).map fun stretch => wordsFor stretch.frames).sum

/-- The allocator over the stretches of a map, with the kernel image and the bitmaps reserved. -/
def builtAt (storage : BitmapStorage) : FrameAllocator :=
  (((unreserved (stretchesOf map.regions) config storage kernel map).reserveRange
    kernel.start.toNat kernel.stop.toNat).1.reserveRange storage.start storage.stop).1

/-- What becomes of a place for the bitmaps. -/
def answerAt : Option BitmapStorage → Except FrameError FrameAllocator
  | none => .error .noBitmapStorage
  | some storage => .ok (builtAt map kernel config storage)

/-- The ends of the free regions of a map fit a word if those of all its RAM do. -/
theorem stop_lt_of_mem_ofKind (hends : RamEnds map.regions) (hm : region ∈ map.ofKind .available) :
    region.stop < 2 ^ 64 := by
  obtain ⟨hregion, hkind⟩ := List.mem_filter.mp hm
  refine hends region hregion ?_
  rw [eq_of_beq hkind]
  rfl

/-- How the answer comes about: it depends on the RAM of the map, and on the search for a place for
the bitmaps. -/
theorem ofMap_outcome : (ofMap map kernel reach config).outcome =
    if RamEnds map.regions then
      if ∀ frame, ¬Trackable map.regions frame then .ok (.error .noTrackableMemory)
      else if BitmapStorage.SearchOverruns kernel (bitmapWords map) config.storageFloor reach
        (map.ofKind .available) then .error .overflow
      else .ok (answerAt map kernel config ((map.ofKind .available).findSome?
        (BitmapStorage.placeOf? kernel (bitmapWords map) config.storageFloor reach)))
    else .error .overflow := by
  unfold ofMap
  simp only [Traced.outcome_bind, stretches_outcome]
  by_cases hends : RamEnds map.regions
  swap
  · rw [if_neg hends, if_neg hends]
    rfl
  rw [if_pos hends, if_pos hends, Outcome.ok_bind]
  by_cases hnone : ∀ frame, ¬Trackable map.regions frame
  · rw [if_pos (sum_frames_eq_zero_iff.mpr hnone), if_pos hnone]
    rfl
  rw [if_neg (mt sum_frames_eq_zero_iff.mp hnone), if_neg hnone]
  simp only [Traced.outcome_bind, Traced.outcome_liftM]
  rw [BitmapStorage.place?_eq fun _ hm => stop_lt_of_mem_ofKind map hends hm]
  unfold bitmapWords
  split_ifs
  · rfl
  · rw [Outcome.ok_bind]
    cases (map.ofKind .available).findSome? (BitmapStorage.placeOf? kernel
      ((stretchesOf map.regions).map fun stretch => wordsFor stretch.frames).sum
      config.storageFloor reach) <;> rfl

end NewAllocator

/-- The bitmaps of all frames below 4 GiB have few words. -/
theorem bitmapWords_le {map : MemoryMap} (hordered : MemoryMap.Ordered map.regions)
    (hends : RamEnds map.regions) : bitmapWords map ≤ 2 ^ 20 :=
  Nat.le_trans (sum_words_le_sum_frames _) (sum_frames_le hordered hends)

end BootMemory.FrameAllocator
