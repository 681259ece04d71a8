import BootMemory.Proofs.Frames.Start

/-!
# Bitmaps in used memory

The bitmaps of a new allocator take the words of their storage one after the other, and nobody has
cleared that memory for them. `ofMapOver` cuts the storage up and lays each bitmap over its words,
as they are found; `ofMapOver_eq` says that what they held makes no difference.
-/

set_option autoImplicit false

namespace BootMemory.FrameAllocator

/-- The first words of a storage, and the others. -/
def splitWords (storage : List (BitVec 32)) (count : Nat) :
    Except Fault (List (BitVec 32) × List (BitVec 32)) :=
  if count ≤ storage.length then .ok (storage.splitAt count) else .error .bounds

/-- A stretch with all frames free or, if it is kept, all frames reserved, over a new bitmap. -/
def regionOver (keep : Bool) (next : Nat) (stretch : Stretch) (bitmap : Bitmap) : FrameRegion :=
  if keep then
    ⟨stretch.kind, stretch.first, bitmap.insertAll, stretch.frames, stretch.frames, next⟩
  else
    ⟨stretch.kind, stretch.first, bitmap, 0, 0, next⟩

/-- The stretches from position `index` of `count` on, with their bitmaps in the words of a
storage. -/
def regionsOver (config : FrameConfig) (count : Nat) :
    Nat → List Stretch → List (BitVec 32) → Except Fault (List FrameRegion)
  | _, [], _ => .ok []
  | index, stretch :: rest, storage => do
    let (mine, storage) ← splitWords storage (wordsFor stretch.frames)
    let bitmap ← Bitmap.ofStorage mine.toArray stretch.frames
    let others ← regionsOver config count (index + 1) rest storage
    return regionOver (keeps config stretch.kind) ((index + 1) % count) stretch bitmap :: others

/-- The allocator over a memory map, with its bitmaps in RAM that holds `contents`, word by
word. -/
def ofMapOver (contents : Nat → BitVec 32) (map : MemoryMap) (kernel : KernelImage) (reach : Nat)
    (config : FrameConfig) : Traced (Except FrameError FrameAllocator) := do
  let found ← stretches map.regions
  let total := (found.map Stretch.frames).sum
  if total = 0 then
    return .error .noTrackableMemory
  let words := (found.map fun stretch => wordsFor stretch.frames).sum
  match ← BitmapStorage.place? kernel words config.storageFloor reach
      (map.ofKind .available) with
  | none => return .error .noBitmapStorage
  | some storage =>
    Traced.report .debug fun _ => .ok (s!"frame bitmap: {words} words at " ++
      Text.hexAddress storage.start ++ " (" ++ storage.placement.name ++ ")")
    let words := (List.range storage.words).map fun index => contents (storage.start / 4 + index)
    let regions ← regionsOver config found.length 0 found words
    let used := (regions.map FrameRegion.used).sum
    let start : FrameAllocator :=
      { regions := regions.toArray, cursor := 0, total, used, reserved := used, storage,
        kernel, map }
    let (withoutKernel, _) := start.reserveRange kernel.start.toNat kernel.stop.toNat
    let (ready, _) := withoutKernel.reserveRange storage.start storage.stop
    return .ok ready

/-! ## What the words held makes no difference -/

/-- Over cleared words, a stretch is the one that a new allocator starts with. -/
theorem regionOver_empty (keep : Bool) (next : Nat) (stretch : Stretch) :
    regionOver keep next stretch (.empty stretch.frames) = startRegion keep next stretch := rfl

/-- Words that suffice are cut up into empty bitmaps. -/
theorem regionsOver_eq (config : FrameConfig) (count index : Nat) (found : List Stretch)
    (storage : List (BitVec 32))
    (hwords : (found.map fun stretch => wordsFor stretch.frames).sum ≤ storage.length) :
    regionsOver config count index found storage =
      .ok (found.mapIdx fun position stretch =>
        startRegion (keeps config stretch.kind) ((index + position + 1) % count) stretch) := by
  induction found generalizing index storage with
  | nil => rfl
  | cons stretch rest ih =>
    rw [List.map_cons, List.sum_cons] at hwords
    have hfits : wordsFor stretch.frames ≤ storage.length := by omega
    have hmine :
        wordsFor stretch.frames ≤ (storage.take (wordsFor stretch.frames)).toArray.size := by
      simp [hfits]
    have hrest := ih (index + 1) (storage.drop (wordsFor stretch.frames))
      (by rw [List.length_drop]; omega)
    rw [regionsOver, splitWords, if_pos hfits, List.splitAt_eq, Outcome.ok_bind]
    simp only [Bitmap.ofStorage, if_pos hmine, Outcome.ok_bind, hrest, regionOver_empty,
      Outcome.pure_eq_ok, List.mapIdx_cons, Nat.add_zero]
    have hshift : ∀ position, index + 1 + position + 1 = index + (position + 1) + 1 := by omega
    simp only [hshift]

/-- A place in a region is one for as many words as were asked for. -/
theorem words_of_placeIn? {kernel : KernelImage} {words floor reach : Nat} {region : Region}
    {storage : BitmapStorage}
    (h : BitmapStorage.placeIn? kernel words floor reach region = .ok (some storage)) :
    storage.words = words := by
  unfold BitmapStorage.placeIn? at h
  obtain ⟨stop, -, h⟩ := Outcome.bind_eq_ok.mp h
  dsimp only at h
  split at h
  case isTrue =>
    obtain ⟨before, -, h⟩ := Outcome.bind_eq_ok.mp h
    split at h
    case isTrue => rw [← Option.some.inj (Except.ok.inj h)]
    case isFalse =>
      obtain ⟨behind, -, h⟩ := Outcome.bind_eq_ok.mp h
      cases behind with
      | true => rw [← Option.some.inj (Except.ok.inj h)]
      | false => cases h
  case isFalse =>
    obtain ⟨apart, -, h⟩ := Outcome.bind_eq_ok.mp h
    cases apart with
    | true => rw [← Option.some.inj (Except.ok.inj h)]
    | false => cases h

/-- A place has as many words as were asked for. -/
theorem words_of_place? {kernel : KernelImage} {words floor reach : Nat} {regions : List Region}
    {storage : BitmapStorage}
    (h : BitmapStorage.place? kernel words floor reach regions = .ok (some storage)) :
    storage.words = words := by
  induction regions with
  | nil => cases h
  | cons region rest ih =>
    unfold BitmapStorage.place? at h
    obtain ⟨found, hfound, h⟩ := Outcome.bind_eq_ok.mp h
    cases found with
    | some place =>
      cases h
      exact words_of_placeIn? hfound
    | none => exact ih h

/-- A computation that cannot fail is its value. -/
theorem liftM_ok {α : Type} (value : α) :
    (liftM (Except.ok value : Except Fault α) : Traced α) = pure value := rfl

/-- An allocator does not depend on what the memory of its bitmaps held before. -/
theorem ofMapOver_eq (contents : Nat → BitVec 32) (map : MemoryMap) (kernel : KernelImage)
    (reach : Nat) (config : FrameConfig) :
    ofMapOver contents map kernel reach config = ofMap map kernel reach config := by
  unfold ofMapOver ofMap
  refine congrArg _ (funext fun found => ?_)
  dsimp only
  split
  case isTrue => rfl
  case isFalse =>
    cases hplace : BitmapStorage.place? kernel
      (found.map fun stretch => wordsFor stretch.frames).sum config.storageFloor reach
        (map.ofKind .available) with
    | error fault => rfl
    | ok placed =>
      cases placed with
      | none => rfl
      | some storage =>
        have hregions := regionsOver_eq config found.length 0 found
          ((List.range storage.words).map fun index => contents (storage.start / 4 + index))
          (by rw [List.length_map, List.length_range, words_of_place? hplace])
        simp only [Nat.zero_add] at hregions
        simp only [liftM_ok, pure_bind, hregions]
        rfl

end BootMemory.FrameAllocator
