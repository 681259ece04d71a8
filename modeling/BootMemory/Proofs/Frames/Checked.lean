import BootMemory.Proofs.Frames.Contents
import BootMemory.Proofs.Frames.Counters
import BootMemory.Proofs.Frames.Storage
import BootMemory.Proofs.Frames.Stretches
import BootMemory.Proofs.Journal
import BootMemory.Proofs.MemoryMap.Checked

/-!
# Building an allocator, with every step checked

The allocator over a memory map is written down with plain numbers, and only where its bitmaps are
placed a sum may run over. The definitions here build the same allocator with every step checked:
sums, differences and products have to fit a word, counts the words that the machine counts with,
positions have to lie in their bitmaps and arrays, and rounding, splitting and taking a remainder
have to be allowed. The memory of the bitmaps is asked for by its address, and what was asked for is
written down beside the answer.

`Checked.ofMap_eq` says that nothing changes: as there are no more than 2 ^ 20 frames below 4 GiB,
and as many words of bitmaps at most, every count and every address of a stretch is small, and a
place for the bitmaps lies in a region whose end fits a word. Each checked step gives what the plain
one gives, and whatever fault remains is one that the plain allocator has as well.
-/

set_option autoImplicit false

namespace BootMemory.FrameAllocator

namespace Checked

/-! ## The checked steps -/

/-- A count; the narrowest machine has words of 32 bits for it. -/
def count (n : Nat) : Except Fault Nat := if n < 2 ^ 32 then .ok n else .error .overflow

/-- Counts added up from the left. -/
def sum (counts : List Nat) : Except Fault Nat :=
  counts.foldlM (fun total n => count (total + n)) 0

def remainder (n divisor : Nat) : Except Fault Nat :=
  if divisor = 0 then .error .assertion else .ok (n % divisor)

/-- The number of pages that lie inside a range of bytes. -/
def wholePages (first stop : Nat) : Except Fault Nat := do
  let low ← alignUp first pageBytes
  let high ← alignDown stop pageBytes
  if low < high then
    let bytes ← Word.sub high low
    return bytes / pageBytes
  else
    return 0

/-- The whole frames of a region that lie below the limit. -/
def stretch (region : Region) : Except Fault (Option Stretch) := do
  let stop ← region.end?
  let frames ← wholePages region.base (min stop addressLimit)
  if 0 < frames then
    let start ← alignUp region.base pageBytes
    let frames ← count frames
    return some ⟨region.kind, start / pageBytes, frames⟩
  else
    return none

/-- The stretches of the RAM regions of a map. -/
def stretches : List Region → Except Fault (List Stretch)
  | [] => .ok []
  | region :: rest => do
    if region.kind.isRam then
      let here ← stretch region
      let others ← stretches rest
      return here.toList ++ others
    else
      stretches rest

/-- Whether `span` bytes from `low` on end before `high` and before the kernel. -/
def fitsBefore (kernel : KernelImage) (low high span : Nat) : Except Fault Bool := do
  if ← BitmapStorage.fits low high span low then
    let stop ← Word.add low span
    return stop ≤ kernel.start.toNat
  else
    return false

/-- A place for the bitmaps in one region. -/
def placeIn (kernel : KernelImage) (words floor reach : Nat) (region : Region) :
    Except Fault (Option BitmapStorage) := do
  let stop ← region.end?
  let bytes ← Word.mul words 4
  let span ← alignUp bytes pageBytes
  let low ← alignUp (max region.base floor) pageBytes
  let high ← alignDown (min stop reach) pageBytes
  if kernel.overlaps region.base stop then
    if ← fitsBefore kernel low high span then
      return some ⟨low, words, .beforeKernel⟩
    else
      let kernelStop ← alignUp kernel.stop.toNat pageBytes
      let after := max kernelStop low
      return if ← BitmapStorage.fits low high span after then some ⟨after, words, .afterKernel⟩
        else none
  else
    return if ← BitmapStorage.fits low high span low then some ⟨low, words, .disjointFromKernel⟩
      else none

/-- The first place that one of the regions has. -/
def place (kernel : KernelImage) (words floor reach : Nat) :
    List Region → Except Fault (Option BitmapStorage)
  | [] => .ok none
  | region :: rest => do
    match ← placeIn kernel words floor reach region with
    | some storage => return some storage
    | none => place kernel words floor reach rest

/-- The end of the last page of the bitmaps. -/
def storageStop (storage : BitmapStorage) : Except Fault Nat := do
  let bytes ← Word.mul storage.words 4
  let stop ← Word.add storage.start bytes
  alignUp stop pageBytes

/-- A bitmap with all bits set; the last word has fewer bits if they do not fill it. -/
def fill (bitmap : Bitmap) : Except Fault Bitmap := do
  if bitmap.bits % 32 = 0 then
    return bitmap.insertAll
  else
    let last ← Word.sub (wordsFor bitmap.bits) 1
    if last < wordsFor bitmap.bits then return bitmap.insertAll else .error .bounds

/-- A stretch with all frames free or, if it is kept, all frames reserved, over a new bitmap. Its
first and its last address have to fit a word. -/
def region (keep : Bool) (next : Nat) (stretch : Stretch) (bitmap : Bitmap) :
    Except Fault FrameRegion := do
  let start ← Word.mul stretch.first pageBytes
  let bytes ← Word.mul stretch.frames pageBytes
  let _ ← Word.add start bytes
  if keep then
    let full ← fill bitmap
    return ⟨stretch.kind, stretch.first, full, stretch.frames, stretch.frames, next⟩
  else
    return ⟨stretch.kind, stretch.first, bitmap, 0, 0, next⟩

/-- The stretches from position `index` of `total` on, with their bitmaps in the words of a
storage. -/
def regions (config : FrameConfig) (total : Nat) :
    Nat → List Stretch → List (BitVec 32) → Except Fault (List FrameRegion)
  | _, [], _ => .ok []
  | index, stretch :: rest, storage => do
    let (mine, storage) ← splitWords storage (wordsFor stretch.frames)
    let bitmap ← Bitmap.ofStorage mine.toArray stretch.frames
    let position ← count (index + 1)
    let next ← remainder position total
    let here ← region (keeps config stretch.kind) next stretch bitmap
    let others ← regions config total (index + 1) rest storage
    return here :: others

/-- Sets `count` bits from `bit` on, and adds to `fresh` how many were clear. -/
def insertRun (map : Bitmap) (bit fresh : Nat) : Nat → Except Fault (Bitmap × Nat)
  | 0 => .ok (map, fresh)
  | rest + 1 => do
    if ← map.contains? bit then
      insertRun map (bit + 1) fresh rest
    else
      let map ← map.insert? bit
      let fresh ← count (fresh + 1)
      insertRun map (bit + 1) fresh rest

/-- Reserves the frames of a stretch that share a byte with the addresses from `start` up to
`stop`. -/
def reserve (region : FrameRegion) (start stop : Nat) : Except Fault (FrameRegion × Nat) := do
  let low := max start region.firstByte
  let high := min stop (region.stop * pageBytes)
  if high ≤ low then
    return (region, 0)
  else
    let firstBit ← Word.sub (low / pageBytes) region.first
    let last ← Word.sub high 1
    let lastBit ← Word.sub (last / pageBytes) region.first
    let (bitmap, fresh) ← insertRun region.bitmap firstBit 0 (lastBit + 1 - firstBit)
    let used ← count (region.used + fresh)
    let reserved ← count (region.reserved + fresh)
    return ({ region with bitmap, used, reserved }, fresh)

/-- Reserves the frames that share a byte with the addresses from `start` up to `stop`. Stretches
that share none are left alone. -/
def reserveRange (allocator : FrameAllocator) (start stop : Nat) : Except Fault FrameAllocator := do
  let results ← allocator.regions.toList.mapM fun region =>
    if region.firstByte < stop ∧ start < region.stop * pageBytes then reserve region start stop
    else .ok (region, 0)
  let fresh ← sum (results.map Prod.snd)
  let used ← count (allocator.used + fresh)
  let reserved ← count (allocator.reserved + fresh)
  return { allocator with regions := (results.map Prod.fst).toArray, used, reserved }

/-- The allocator over some stretches, with its bitmaps in the words of a storage, and with the
kernel image and the storage reserved. -/
def builtAt (map : MemoryMap) (kernel : KernelImage) (config : FrameConfig) (found : List Stretch)
    (total : Nat) (storage : BitmapStorage) (contents : List (BitVec 32)) :
    Except Fault FrameAllocator := do
  let regions ← regions config found.length 0 found contents
  let used ← sum (regions.map FrameRegion.used)
  let start : FrameAllocator :=
    { regions := regions.toArray, cursor := 0, total, used, reserved := used, storage, kernel, map }
  let withoutKernel ← reserveRange start kernel.start.toNat kernel.stop.toNat
  let stop ← storageStop storage
  reserveRange withoutKernel storage.start stop

/-- The allocator over a memory map, with its bitmaps in words that are asked for by their address
and their number, and the list of what was asked for. -/
def ofMap (slice : Nat → Nat → Except Fault (List (BitVec 32))) (map : MemoryMap)
    (kernel : KernelImage) (reach : Nat) (config : FrameConfig) :
    Except Fault (Except FrameError FrameAllocator × List (Nat × Nat)) := do
  let found ← stretches map.regions
  let total ← sum (found.map Stretch.frames)
  if total = 0 then
    return (.error .noTrackableMemory, [])
  let words ← sum (found.map fun stretch => wordsFor stretch.frames)
  match ← place kernel words config.storageFloor reach (map.ofKind .available) with
  | none => return (.error .noBitmapStorage, [])
  | some storage =>
    let contents ← slice storage.start storage.words
    let allocator ← builtAt map kernel config found total storage contents
    return (.ok allocator, [(storage.start, storage.words)])

/-! ## They give the same -/

/-- A number below the limit of a count is counted. -/
theorem count_eq {n : Nat} (h : n < 2 ^ 32) : count n = .ok n := if_pos h

/-- Counts whose sum is below the limit are added up. -/
theorem sum_eq {counts : List Nat} (h : counts.sum < 2 ^ 32) : sum counts = .ok counts.sum := by
  rw [sum, Outcome.foldlM_add_eq count_eq (by rwa [Nat.zero_add]), Nat.zero_add]

/-- Rounding up to the page size never fails: the page size is a power of two. -/
theorem alignUp_pageBytes (n : Nat) : alignUp n pageBytes = .ok (roundUp n pageBytes) := rfl

/-- Rounding down to the page size never fails: the page size is a power of two. -/
theorem alignDown_pageBytes (n : Nat) : alignDown n pageBytes = .ok (roundDown n pageBytes) := rfl

/-- The pages inside a range are counted, whatever the range. -/
theorem wholePages_eq (first stop : Nat) :
    wholePages first stop = .ok (BootMemory.wholePages .small first stop) := by
  unfold wholePages BootMemory.wholePages
  rw [alignUp_pageBytes, alignDown_pageBytes, Outcome.ok_bind, Outcome.ok_bind,
    show PageSize.small.bytes = pageBytes from rfl]
  split_ifs with hlt
  · rw [Word.sub_eq_ok (Nat.le_of_lt hlt), Outcome.ok_bind, Outcome.pure_eq_ok]
  · rw [Nat.sub_eq_zero_of_le (Nat.not_lt.mp hlt), Nat.zero_div, Outcome.pure_eq_ok]

/-- A range that ends below the address limit holds fewer pages than a count can say. -/
theorem wholePages_lt {first stop : Nat} (h : stop ≤ addressLimit) :
    BootMemory.wholePages .small first stop < 2 ^ 32 := by
  rw [show addressLimit = 2 ^ 32 from rfl] at h
  rw [BootMemory.wholePages, show PageSize.small.bytes = 4096 from rfl]
  have hle : roundDown stop 4096 ≤ stop := roundDown_le _ _
  omega

/-- The checked steps find the same stretch in a region. -/
theorem stretch_eq (region : Region) : stretch region = (stretch? region).outcome := by
  rw [stretch?_outcome]
  unfold stretch stretchOf?
  cases hstop : region.end? with
  | error fault => rfl
  | ok stop =>
    obtain ⟨-, rfl⟩ := Region.end?_eq_ok_iff.mp hstop
    rw [Outcome.ok_bind, wholePages_eq, Outcome.ok_bind, Outcome.map_ok]
    simp only
    split_ifs with hframes
    · rw [alignUp_pageBytes, Outcome.ok_bind, count_eq (wholePages_lt (Nat.min_le_right _ _))]
      rfl
    · rfl

/-- The checked steps find the same stretches in a map. -/
theorem stretches_eq (regions : List Region) :
    stretches regions = (FrameAllocator.stretches regions).outcome := by
  induction regions with
  | nil => rfl
  | cons region rest ih =>
    unfold stretches FrameAllocator.stretches
    rw [stretch_eq, ih]
    split_ifs
    · simp only [Traced.outcome_bind]
      rfl
    · rfl

/-- What fits before the kernel is found by the same comparison, if the sum fits a word. -/
theorem fitsBefore_eq (kernel : KernelImage) (low high span : Nat) :
    fitsBefore kernel low high span = (BitmapStorage.fits low high span low).map
      fun fits => fits && low + span ≤ kernel.start.toNat := by
  unfold fitsBefore
  rw [BitmapStorage.fits_eq (Nat.le_refl _)]
  split_ifs with hruns
  · rfl
  · rw [Outcome.ok_bind, Outcome.map_ok]
    by_cases hfits : low + span ≤ high
    · rw [if_pos (decide_eq_true hfits), Word.add_eq_ok (by omega), decide_eq_true hfits]
      rfl
    · rw [if_neg (by simpa using hfits), decide_eq_false hfits]
      rfl

/-- The checked search of one region agrees, faults included, if the size of the bitmaps fits a
word. -/
theorem placeIn_eq {words : Nat} (hwords : words * 4 < 2 ^ 64) (kernel : KernelImage)
    (floor reach : Nat) (region : Region) : placeIn kernel words floor reach region =
      BitmapStorage.placeIn? kernel words floor reach region := by
  have hspan : roundUp (words * 4) pageBytes = BitmapStorage.span words := rfl
  unfold placeIn BitmapStorage.placeIn?
  rw [Word.mul_eq_ok hwords]
  simp only [Outcome.ok_bind, alignUp_pageBytes, alignDown_pageBytes, hspan, fitsBefore_eq,
    ← BitmapStorage.toNat_pageStop]
  cases region.end? with
  | error fault => simp only [Outcome.error_bind]
  | ok stop =>
    simp only [Outcome.ok_bind]
    generalize roundUp (max region.base floor) pageBytes = low
    generalize roundDown (min stop reach) pageBytes = high
    generalize BitmapStorage.span words = span
    split_ifs
    · cases BitmapStorage.fits low high span low <;> rfl
    · rfl

/-- The checked search for a place agrees, faults included, if the size of the bitmaps fits a
word. -/
theorem place_eq {words : Nat} (hwords : words * 4 < 2 ^ 64) (kernel : KernelImage)
    (floor reach : Nat) (regions : List Region) : place kernel words floor reach regions =
      BitmapStorage.place? kernel words floor reach regions := by
  induction regions with
  | nil => rfl
  | cons region rest ih =>
    unfold place BitmapStorage.place?
    rw [placeIn_eq hwords]
    cases BitmapStorage.placeIn? kernel words floor reach region with
    | error fault => rfl
    | ok found =>
      cases found with
      | none => exact ih
      | some storage => rfl

/-- The end of bitmaps whose pages end within a word is found. -/
theorem storageStop_eq {storage : BitmapStorage} (hwords : storage.words * 4 < 2 ^ 64)
    (hstop : storage.start + storage.words * 4 < 2 ^ 64) :
    storageStop storage = .ok storage.stop := by
  unfold storageStop
  rw [Word.mul_eq_ok hwords, Outcome.ok_bind, Word.add_eq_ok hstop, Outcome.ok_bind,
    alignUp_pageBytes]
  rfl

/-- Filling a bitmap never fails. -/
theorem fill_eq (bitmap : Bitmap) : fill bitmap = .ok bitmap.insertAll := by
  unfold fill
  split_ifs with hfull
  · rfl
  · have hpos : 1 ≤ wordsFor bitmap.bits := by
      unfold wordsFor
      omega
    rw [Word.sub_eq_ok hpos, Outcome.ok_bind, if_pos (by omega), Outcome.pure_eq_ok]

/-- A stretch below the address limit is built without a fault, with all frames free or all
reserved. -/
theorem region_eq (keep : Bool) (next : Nat) {stretch : Stretch}
    (hrange : stretch.first + stretch.frames ≤ 2 ^ 20) (bitmap : Bitmap) :
    region keep next stretch bitmap = .ok (regionOver keep next stretch bitmap) := by
  unfold region
  rw [show pageBytes = 4096 from rfl, Word.mul_eq_ok (by omega), Outcome.ok_bind,
    Word.mul_eq_ok (by omega), Outcome.ok_bind, Word.add_eq_ok (by omega), Outcome.ok_bind]
  cases keep with
  | true =>
    rw [if_pos rfl, fill_eq]
    rfl
  | false => rfl

/-- The remainder by a number that is not zero is computed. -/
theorem remainder_eq {n divisor : Nat} (h : divisor ≠ 0) :
    remainder n divisor = .ok (n % divisor) := if_neg h

/-- Words that suffice are cut up without a fault. -/
theorem regions_eq (config : FrameConfig) {total index : Nat} {found : List Stretch}
    {storage : List (BitVec 32)}
    (hrange : ∀ stretch ∈ found, stretch.first + stretch.frames ≤ 2 ^ 20)
    (hindex : index + found.length ≤ total) (htotal : total < 2 ^ 32) :
    regions config total index found storage = regionsOver config total index found storage := by
  induction found generalizing index storage with
  | nil => rfl
  | cons stretch rest ih =>
    obtain ⟨hstretch, hrest⟩ := List.forall_mem_cons.mp hrange
    rw [List.length_cons] at hindex
    unfold regions regionsOver
    simp only [count_eq (show index + 1 < 2 ^ 32 by omega),
      remainder_eq (show total ≠ 0 by omega), region_eq _ _ hstretch, Outcome.ok_bind,
      ih hrest (show index + 1 + rest.length ≤ total by omega)]

/-- A run of bits that lies in the bitmap is set. -/
theorem insertRun_eq (map : Bitmap) (bit fresh : Nat) {rest : Nat} (hbits : bit + rest ≤ map.bits)
    (hfresh : fresh + rest < 2 ^ 32) :
    insertRun map bit fresh rest = .ok (FrameRegion.insertRun map bit fresh rest) := by
  induction rest generalizing map bit fresh with
  | zero => rfl
  | succ rest ih =>
    have hbit : bit < map.bits := by omega
    unfold insertRun FrameRegion.insertRun
    rw [Bitmap.contains?, if_pos hbit, Outcome.ok_bind]
    split_ifs with hset
    · exact ih _ _ _ (by omega) (by omega)
    · rw [Bitmap.insert?, if_pos hbit, Outcome.ok_bind, count_eq (by omega), Outcome.ok_bind]
      exact ih _ _ _ (by rw [Bitmap.bits_insert]; omega) (by omega)

/-- A stretch below 4 GiB of which as many frames are reserved as are used. -/
structure Countable (region : FrameRegion) : Prop where
  exact : region.Exact
  inRange : region.stop ≤ 2 ^ 20
  reserved_eq : region.reserved = region.used

/-- At most all frames below 4 GiB are used. -/
theorem Countable.used_le {region : FrameRegion} (h : Countable region) :
    region.used ≤ 2 ^ 20 := by
  have hle : region.taken.card ≤ region.frames.card := Finset.card_le_card FrameRegion.taken_subset
  rw [FrameRegion.card_frames] at hle
  have hstop := h.inRange
  unfold FrameRegion.stop at hstop
  rw [h.exact]
  omega

/-- Reserving addresses keeps a stretch countable. -/
theorem Countable.reserve {region : FrameRegion} (h : Countable region) (start stop : Nat) :
    Countable (region.reserve start stop).1 := by
  have hspec := region.reserve_spec start stop
  refine ⟨hspec.exact h.exact, ?_, ?_⟩
  · have hstop : (region.reserve start stop).1.stop = region.stop := by
      rw [FrameRegion.stop, FrameRegion.total, hspec.first_eq, hspec.bits_eq]
      rfl
    rw [hstop]
    exact h.inRange
  · rw [reserved_reserve, hspec.used_eq, h.reserved_eq]

/-- Reserving addresses in a countable stretch goes through without a fault. -/
theorem reserve_eq {region : FrameRegion} (h : Countable region) (start stop : Nat) :
    reserve region start stop = .ok (region.reserve start stop) := by
  have hused := (h.reserve start stop).used_le
  rw [(region.reserve_spec start stop).used_eq] at hused
  have hreserved := h.reserved_eq
  unfold reserve FrameRegion.reserve at *
  dsimp only at *
  by_cases hempty : min stop (region.stop * pageBytes) ≤ max start region.firstByte
  · rw [if_pos hempty, if_pos hempty, Outcome.pure_eq_ok]
  rw [if_neg hempty] at hused ⊢
  rw [if_neg hempty]
  have hrun := FrameRegion.run_le_bits hempty
  have hbits : region.bitmap.bits ≤ 2 ^ 20 := by
    have hstop := h.inRange
    unfold FrameRegion.stop FrameRegion.total at hstop
    omega
  have hlow : region.first ≤ max start region.firstByte / pageBytes := by
    rw [Nat.le_div_iff_mul_le (show 0 < pageBytes by decide)]
    exact Nat.le_max_right _ _
  have hhigh : region.first ≤ (min stop (region.stop * pageBytes) - 1) / pageBytes :=
    Nat.le_trans hlow (Nat.div_le_div_right (by omega))
  rw [Word.sub_eq_ok hlow, Outcome.ok_bind, Word.sub_eq_ok (by omega), Outcome.ok_bind,
    Word.sub_eq_ok hhigh, Outcome.ok_bind, insertRun_eq _ _ _ hrun (by omega), Outcome.ok_bind,
    count_eq (by omega), Outcome.ok_bind, count_eq (by omega), Outcome.ok_bind,
    Outcome.pure_eq_ok]

/-- An allocator of which as many frames are reserved as are used, in each stretch and in all. -/
structure Untouched (allocator : FrameAllocator) : Prop extends allocator.Sound where
  regions_reserved : ∀ region ∈ allocator.regions.toList, region.reserved = region.used
  reserved_eq : allocator.reserved = allocator.used

namespace Untouched

variable {allocator : FrameAllocator}

/-- Every stretch of an untouched allocator can be counted. -/
theorem countable (h : Untouched allocator) {region : FrameRegion}
    (hm : region ∈ allocator.regions.toList) : Countable region :=
  ⟨h.exact region hm, h.inRange region hm, h.regions_reserved region hm⟩

/-- An untouched allocator has at most all frames below 4 GiB in use. -/
theorem used_le (h : Untouched allocator) : allocator.used ≤ 2 ^ 20 := by
  have hsubset : allocator.unavailable ⊆ Finset.range (2 ^ 20) := fun frame hframe =>
    Finset.mem_range.mpr (h.lt_of_mem_tracked (allocator.unavailable_subset hframe))
  have hle := Finset.card_le_card hsubset
  rwa [← h.used_eq, Finset.card_range] at hle

/-- Reserving addresses leaves an untouched allocator untouched. -/
theorem reserveRange (h : Untouched allocator) (start stop : Nat) :
    Untouched (allocator.reserveRange start stop).1 := by
  refine ⟨(h.toSound.reserveRange start stop).2.sound, fun region hm => ?_, ?_⟩
  · rw [regions_reserveRange, List.mem_map] at hm
    obtain ⟨before, hbefore, rfl⟩ := hm
    exact ((h.countable hbefore).reserve start stop).reserved_eq
  · exact congrArg (· + _) h.reserved_eq

end Untouched

/-- A stretch that shares no byte with the addresses is left alone. -/
theorem reserve_of_apart {region : FrameRegion} {start stop : Nat}
    (h : ¬(region.firstByte < stop ∧ start < region.stop * pageBytes)) :
    region.reserve start stop = (region, 0) := by
  have hempty : min stop (region.stop * pageBytes) ≤ max start region.firstByte := by omega
  unfold FrameRegion.reserve
  exact if_pos hempty

/-- Reserving addresses in an untouched allocator goes through without a fault. -/
theorem reserveRange_eq {allocator : FrameAllocator} (h : Untouched allocator) (start stop : Nat) :
    reserveRange allocator start stop = .ok (allocator.reserveRange start stop).1 := by
  have hresults : (allocator.regions.toList.mapM fun region =>
        if region.firstByte < stop ∧ start < region.stop * pageBytes then reserve region start stop
        else .ok (region, 0)) =
      .ok (allocator.regions.toList.map fun region => region.reserve start stop) := by
    refine Outcome.mapM_of_ok fun region hm => ?_
    split_ifs with hmeets
    · exact reserve_eq (h.countable hm) start stop
    · rw [reserve_of_apart hmeets]
  have hfresh : ((allocator.regions.toList.map fun region =>
      region.reserve start stop).map Prod.snd).sum = (allocator.reserveRange start stop).2 := by
    rw [fresh_eq_sum, List.map_map]
    rfl
  have hused := (h.reserveRange start stop).used_le
  replace hused : allocator.used + (allocator.reserveRange start stop).2 ≤ 2 ^ 20 := hused
  have hregions : ((allocator.regions.toList.map fun region =>
      region.reserve start stop).map Prod.fst).toArray =
        (allocator.reserveRange start stop).1.regions := by
    rw [← Array.toList_inj, regions_reserveRange, List.map_map]
    rfl
  have hreserved := h.reserved_eq
  unfold reserveRange
  rw [hresults, Outcome.ok_bind, sum_eq (by rw [hfresh]; omega), Outcome.ok_bind, hfresh, hregions,
    count_eq (by omega), Outcome.ok_bind, count_eq (by omega), Outcome.ok_bind]
  rfl

/-! ## The whole allocator -/

section Whole

variable {map : MemoryMap} {kernel : KernelImage} {config : FrameConfig} {found : List Stretch}
  {storage : BitmapStorage}

/-- The allocator over ordered stretches below 4 GiB starts untouched. -/
theorem untouched_unreserved (hpairs : found.Pairwise fun a b => a.first + a.frames ≤ b.first)
    (hrange : ∀ stretch ∈ found, stretch.first + stretch.frames ≤ 2 ^ 20) :
    Untouched (unreserved found config storage kernel map) := by
  refine ⟨sound_unreserved hpairs hrange, fun region hm => ?_, rfl⟩
  obtain ⟨stretch, -, next, rfl⟩ := mem_unreserved hm
  unfold startRegion
  split_ifs <;> rfl

/-- In words that suffice, and whose end fits a word, the allocator is the plain one. -/
theorem builtAt_eq (map : MemoryMap) (kernel : KernelImage) (config : FrameConfig)
    (hpairs : found.Pairwise fun a b => a.first + a.frames ≤ b.first)
    (hrange : ∀ stretch ∈ found, stretch.first + stretch.frames ≤ 2 ^ 20)
    (hfound : found.length < 2 ^ 32) {contents : List (BitVec 32)}
    (hcontents : (found.map fun stretch => wordsFor stretch.frames).sum ≤ contents.length)
    (hstop : storage.start + storage.words * 4 < 2 ^ 64) :
    builtAt map kernel config found (found.map Stretch.frames).sum storage contents =
      .ok (((unreserved found config storage kernel map).reserveRange
        kernel.start.toNat kernel.stop.toNat).1.reserveRange storage.start storage.stop).1 := by
  have huntouched : Untouched (unreserved found config storage kernel map) :=
    untouched_unreserved hpairs hrange
  unfold builtAt
  rw [regions_eq config hrange (by omega) hfound,
    regionsOver_eq config _ 0 found contents hcontents, Outcome.ok_bind]
  simp only [Nat.zero_add]
  rw [sum_eq (Nat.lt_of_le_of_lt huntouched.used_le (by decide)), Outcome.ok_bind]
  show (reserveRange (unreserved found config storage kernel map) _ _ >>= _) = _
  rw [reserveRange_eq huntouched, Outcome.ok_bind, storageStop_eq (by omega) hstop,
    Outcome.ok_bind, reserveRange_eq (huntouched.reserveRange _ _)]

/-- Words are handed over wherever they are asked for below the reach, each at a multiple of its
size. -/
def Serves (reach : Nat) (slice : Nat → Nat → Except Fault (List (BitVec 32))) : Prop :=
  ∀ start words, 4 ∣ start → start + words * 4 ≤ reach →
    ∃ contents, slice start words = .ok contents ∧ contents.length = words

/-- What an answer needs to be asked for: the words of the bitmaps. -/
def requests : Except FrameError FrameAllocator → List (Nat × Nat)
  | .error _ => []
  | .ok allocator => [(allocator.storage.start, allocator.storage.words)]

variable {reach : Nat} {slice : Nat → Nat → Except Fault (List (BitVec 32))}

/-- The words of a place that was found lie below the reach, and end within a word. -/
theorem storage_of_findSome? {words floor : Nat} {regions : List Region} (hwords : words ≤ 2 ^ 20)
    (hstops : ∀ region ∈ regions, region.stop < 2 ^ 64)
    (h : regions.findSome? (BitmapStorage.placeOf? kernel words floor reach) = some storage) :
    storage.words = words ∧ 4 ∣ storage.start ∧ storage.start + storage.words * 4 ≤ reach ∧
      storage.start + storage.words * 4 < 2 ^ 64 := by
  obtain ⟨region, hm, hplace⟩ := List.exists_of_findSome?_eq_some h
  obtain ⟨rfl, haligned, hhigh⟩ := BitmapStorage.placeOf?_eq_some hplace
  have hle : BitmapStorage.highest reach region ≤ min region.stop reach := roundDown_le _ _
  have hspan := (BitmapStorage.span_le hwords).1
  have hstop := hstops region hm
  exact ⟨rfl, Nat.dvd_trans (by decide) haligned, by omega, by omega⟩

/-- Over the stretches of a map, in a place that was found for it, the plain allocator is built. -/
theorem exists_contents (config : FrameConfig) (hordered : MemoryMap.Ordered map.regions)
    (hends : RamEnds map.regions) (hslice : Serves reach slice) {floor : Nat}
    (hplace : (map.ofKind .available).findSome?
      (BitmapStorage.placeOf? kernel (bitmapWords map) floor reach) = some storage) :
    ∃ contents, slice storage.start storage.words = .ok contents ∧
      builtAt map kernel config (stretchesOf map.regions)
          ((stretchesOf map.regions).map Stretch.frames).sum storage contents =
        .ok (FrameAllocator.builtAt map kernel config storage) := by
  obtain ⟨hpairs, hrange⟩ := stretchesOf_spec hordered hends
  obtain ⟨hwords, haligned, hreach, hstop⟩ := storage_of_findSome?
    (bitmapWords_le hordered hends) (fun _ hm => stop_lt_of_mem_ofKind map hends hm) hplace
  obtain ⟨contents, hcontents, hlength⟩ := hslice _ _ haligned hreach
  have hfound := length_le_sum_frames map.regions
  have htotal := sum_frames_le hordered hends
  exact ⟨contents, hcontents, builtAt_eq map kernel config hpairs hrange (by omega)
    (show bitmapWords map ≤ contents.length by omega) hstop⟩

/-- Checking every step changes nothing: the answer is the plain one, a fault is the plain fault,
and only the words of the bitmaps are asked for. -/
theorem ofMap_eq (hordered : MemoryMap.Ordered map.regions) (hslice : Serves reach slice)
    (kernel : KernelImage) (config : FrameConfig) : ofMap slice map kernel reach config =
      (FrameAllocator.ofMap map kernel reach config).outcome.map
        fun answer => (answer, requests answer) := by
  rw [ofMap_outcome]
  unfold ofMap
  rw [stretches_eq, stretches_outcome]
  by_cases hends : RamEnds map.regions
  swap
  · rw [if_neg hends, if_neg hends]
    rfl
  have htotal := sum_frames_le hordered hends
  have hwords := bitmapWords_le hordered hends
  rw [if_pos hends, if_pos hends, Outcome.ok_bind, sum_eq (by omega), Outcome.ok_bind]
  by_cases hnone : ∀ frame, ¬Trackable map.regions frame
  · rw [if_pos (sum_frames_eq_zero_iff.mpr hnone), if_pos hnone]
    rfl
  rw [if_neg (mt sum_frames_eq_zero_iff.mp hnone), if_neg hnone,
    sum_eq (Nat.lt_of_le_of_lt hwords (by decide)), Outcome.ok_bind]
  show (place kernel (bitmapWords map) _ _ _ >>= _) = _
  rw [place_eq (by omega),
    BitmapStorage.place?_eq fun _ hm => stop_lt_of_mem_ofKind map hends hm]
  split_ifs with hruns
  · rfl
  rw [Outcome.ok_bind]
  cases hplace : (map.ofKind .available).findSome? (BitmapStorage.placeOf? kernel
    (bitmapWords map) config.storageFloor reach) with
  | none => rfl
  | some storage =>
    obtain ⟨contents, hcontents, hbuilt⟩ := exists_contents config hordered hends hslice hplace
    simp only [hcontents, Outcome.ok_bind, hbuilt]
    rfl

end Whole

end Checked

end BootMemory.FrameAllocator
