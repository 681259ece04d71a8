import BootMemory.Proofs.Frames.Bitmap

/-!
# Stretches as sets

A stretch of tracked RAM is a set of frame numbers, and the taken ones are a subset. The
counter of unavailable frames is the size of that subset (`FrameRegion.Exact`), which is why
the search may rely on it to skip a full stretch.
-/

set_option autoImplicit false

namespace BootMemory

/-- Whether a frame shares a byte with the addresses from `start` up to `stop`. -/
def SharesByte (start stop frame : Nat) : Prop :=
  ∃ addr, start ≤ addr ∧ addr < stop ∧ frame * pageBytes ≤ addr ∧ addr < (frame + 1) * pageBytes

/-- A frame shares a byte with the addresses exactly if the two ranges overlap. -/
theorem sharesByte_iff {start stop frame : Nat} :
    SharesByte start stop frame ↔
      max start (frame * pageBytes) < min stop ((frame + 1) * pageBytes) := by
  constructor
  · rintro ⟨addr, hstart, hstop, hlow, hhigh⟩
    omega
  · intro h
    exact ⟨max start (frame * pageBytes), by omega, by omega, by omega, by omega⟩

instance (start stop frame : Nat) : Decidable (SharesByte start stop frame) :=
  decidable_of_iff _ sharesByte_iff.symm

namespace FrameRegion

/-- The numbers of the frames of a stretch. -/
def frames (region : FrameRegion) : Finset Nat := Finset.Ico region.first region.stop

/-- The numbers of the frames that are reserved or in use. -/
def taken (region : FrameRegion) : Finset Nat :=
  region.bitmap.members.map (addLeftEmbedding region.first)

/-- The counter of unavailable frames is right. -/
def Exact (region : FrameRegion) : Prop := region.used = region.taken.card

variable {region : FrameRegion} {frame bit : Nat}

/-- The frames of a stretch are numbered from its first up to its end. -/
@[simp] theorem mem_frames :
    frame ∈ region.frames ↔ region.first ≤ frame ∧ frame < region.stop := Finset.mem_Ico

/-- A frame of the stretch is taken exactly if its bit is set. -/
theorem mem_taken : frame ∈ region.taken ↔
    frame ∈ region.frames ∧ region.bitmap.contains (frame - region.first) = true := by
  simp only [taken, Finset.mem_map, Bitmap.mem_members, addLeftEmbedding_apply, mem_frames, stop,
    total]
  constructor
  · rintro ⟨i, ⟨hi, hmem⟩, rfl⟩
    rw [Nat.add_sub_cancel_left]
    exact ⟨by omega, hmem⟩
  · rintro ⟨hframe, hmem⟩
    exact ⟨frame - region.first, ⟨by omega, hmem⟩, by omega⟩

/-- Only frames of the stretch are taken. -/
theorem taken_subset : region.taken ⊆ region.frames := fun _ h => (mem_taken.mp h).1

/-- A stretch has as many frames as its bitmap has bits. -/
@[simp] theorem card_frames : region.frames.card = region.total := by
  simp [frames, stop]

/-- With every bit set all frames are taken. -/
theorem taken_of_full (h : region.bitmap.members = Finset.range region.bitmap.bits) :
    region.taken = region.frames := by
  ext frame
  simp only [taken, h, mem_frames, stop, total, Finset.mem_map, Finset.mem_range,
    addLeftEmbedding_apply]
  constructor
  · rintro ⟨i, hi, rfl⟩
    omega
  · intro hframe
    exact ⟨frame - region.first, by omega, by omega⟩

/-! ## The lowest free frame -/

/-- A stretch is full exactly if its counter says so. -/
theorem Exact.full_iff (h : region.Exact) :
    region.taken = region.frames ↔ region.used = region.total := by
  rw [h, ← card_frames]
  constructor
  · intro he
    rw [he]
  · intro hcard
    exact Finset.eq_of_subset_of_card_le taken_subset (Nat.le_of_eq hcard.symm)

/-- The bit that the search finds is that of the lowest free frame. -/
theorem lowestFree_eq_some (h : region.lowestFree = some bit) :
    bit < region.bitmap.bits ∧ region.first + bit ∈ region.frames \ region.taken ∧
      ∀ other ∈ region.frames, other < region.first + bit → other ∈ region.taken := by
  unfold lowestFree at h
  split_ifs at h
  obtain ⟨hbits, hclear, hbelow⟩ := Bitmap.firstUnset_eq_some h
  have hframe : region.first + bit ∈ region.frames := by
    simp only [mem_frames, stop, total]
    omega
  refine ⟨hbits, Finset.mem_sdiff.mpr ⟨hframe, ?_⟩, ?_⟩
  · intro hmem
    have := (mem_taken.mp hmem).2
    rw [Nat.add_sub_cancel_left, hclear] at this
    exact Bool.noConfusion this
  · intro other hother hlt
    have := mem_frames.mp hother
    exact mem_taken.mpr ⟨hother, hbelow _ (by omega)⟩

/-- There is no free frame exactly if the stretch is full. -/
theorem Exact.lowestFree_eq_none_iff (h : region.Exact) :
    region.lowestFree = none ↔ region.taken = region.frames := by
  constructor
  · intro hnone
    unfold lowestFree at hnone
    split_ifs at hnone with full
    · exact h.full_iff.mpr full
    · apply Finset.Subset.antisymm taken_subset
      intro frame hframe
      refine mem_taken.mpr ⟨hframe, Bitmap.firstUnset_eq_none hnone ?_⟩
      rw [mem_frames, stop, total] at hframe
      omega
  · intro full
    rw [lowestFree, if_pos (h.full_iff.mp full)]

/-! ## What the operations do to the sets -/

/-- Taking a frame adds it to those that are taken. -/
theorem taken_take (h : bit < region.bitmap.bits) :
    (region.take bit).taken = insert (region.first + bit) region.taken := by
  rw [taken, taken, take, Bitmap.members_insert h, Finset.map_insert]
  rfl

/-- Taking a free frame keeps the counter right. -/
theorem Exact.take (h : region.Exact) (hbit : bit < region.bitmap.bits)
    (hfree : region.first + bit ∉ region.taken) : (region.take bit).Exact := by
  rw [Exact, taken_take hbit, Finset.card_insert_of_notMem hfree, ← h]
  rfl

/-- Releasing a frame takes it out of those that are taken. -/
theorem taken_release (h : bit < region.bitmap.bits) :
    (region.release bit).taken = region.taken.erase (region.first + bit) := by
  rw [taken, taken, release, Bitmap.members_erase h, Finset.map_erase]
  rfl

/-- Releasing a taken frame keeps the counter right. -/
theorem Exact.release (h : region.Exact) (hbit : bit < region.bitmap.bits)
    (htaken : region.first + bit ∈ region.taken) : (region.release bit).Exact := by
  rw [Exact, taken_release hbit, Finset.card_erase_of_mem htaken, ← h]
  rfl

/-- What reserving addresses does to a stretch. -/
structure Reserves (region : FrameRegion) (start stop : Nat) (result : FrameRegion × Nat) :
    Prop where
  first_eq : result.1.first = region.first
  bits_eq : result.1.bitmap.bits = region.bitmap.bits
  next_eq : result.1.next = region.next
  kind_eq : result.1.kind = region.kind
  /-- The frames that share a byte with the addresses are taken now. -/
  taken_eq : result.1.taken = region.taken ∪ region.frames.filter (SharesByte start stop)
  /-- The answer counts those that were free. -/
  fresh_eq : result.2 = (region.frames.filter (SharesByte start stop) \ region.taken).card
  used_eq : result.1.used = region.used + result.2

/-- The bits of the frames that share a byte with the addresses are bits of the stretch. -/
theorem run_le_bits {start stop : Nat}
    (h : ¬min stop (region.stop * pageBytes) ≤ max start region.firstByte) :
    max start region.firstByte / pageBytes - region.first +
        ((min stop (region.stop * pageBytes) - 1) / pageBytes - region.first + 1 -
          (max start region.firstByte / pageBytes - region.first)) ≤ region.bitmap.bits := by
  have hstop : region.stop = region.first + region.bitmap.bits := rfl
  simp only [firstByte, show pageBytes = 4096 from rfl] at h ⊢
  omega

/-- They are the bits of these frames, and of no others. -/
theorem mem_run_iff {start stop : Nat}
    (h : ¬min stop (region.stop * pageBytes) ≤ max start region.firstByte) (frame : Nat) :
    (∃ i ∈ Finset.Ico (max start region.firstByte / pageBytes - region.first)
        (max start region.firstByte / pageBytes - region.first +
          ((min stop (region.stop * pageBytes) - 1) / pageBytes - region.first + 1 -
            (max start region.firstByte / pageBytes - region.first))), region.first + i = frame) ↔
      frame ∈ region.frames.filter (SharesByte start stop) := by
  have hstop : region.stop = region.first + region.bitmap.bits := rfl
  simp only [Finset.mem_Ico, Finset.mem_filter, mem_frames, sharesByte_iff]
  simp only [firstByte, show pageBytes = 4096 from rfl] at h ⊢
  constructor
  · rintro ⟨i, hi, rfl⟩
    omega
  · intro hframe
    exact ⟨frame - region.first, by omega, by omega⟩

/-- No frame of a stretch shares a byte with addresses that are apart from it. -/
theorem filter_sharesByte_of_apart {start stop : Nat}
    (h : min stop (region.stop * pageBytes) ≤ max start region.firstByte) :
    region.frames.filter (SharesByte start stop) = ∅ := by
  apply Finset.filter_false_of_mem
  intro frame hframe hshares
  rw [sharesByte_iff] at hshares
  rw [mem_frames] at hframe
  have hlow : region.first * pageBytes ≤ frame * pageBytes := Nat.mul_le_mul_right _ hframe.1
  have hhigh : (frame + 1) * pageBytes ≤ region.stop * pageBytes :=
    Nat.mul_le_mul_right _ hframe.2
  unfold firstByte at h
  omega

/-- Reserving addresses takes the frames of the stretch that share a byte with them, answers how
many of those were free, and counts them as used. -/
theorem reserve_spec (region : FrameRegion) (start stop : Nat) :
    Reserves region start stop (region.reserve start stop) := by
  by_cases hempty : min stop (region.stop * pageBytes) ≤ max start region.firstByte
  · have hnone := filter_sharesByte_of_apart hempty
    have hreserve : region.reserve start stop = (region, 0) := by
      simp only [reserve, hempty, ↓reduceIte]
    rw [hreserve]
    exact ⟨rfl, rfl, rfl, rfl, by simp [hnone], by simp [hnone], rfl⟩
  · have hmem := mem_run_iff hempty
    have hbounds := run_le_bits hempty
    unfold reserve
    simp only [hempty, ↓reduceIte]
    -- What the bits are is said by now; from here on they are any run that fits.
    generalize max start region.firstByte / pageBytes - region.first = firstBit at *
    generalize (min stop (region.stop * pageBytes) - 1) / pageBytes - region.first + 1 - firstBit =
      count at *
    obtain ⟨hbits, hmembers, hfresh⟩ := Bitmap.insertRun_spec region.bitmap firstBit 0 count hbounds
    have hrun : (Finset.Ico firstBit (firstBit + count)).map (addLeftEmbedding region.first) =
        region.frames.filter (SharesByte start stop) := by
      ext frame
      rw [Finset.mem_map]
      exact hmem frame
    refine ⟨rfl, hbits, rfl, rfl, ?_, ?_, rfl⟩
    · show (insertRun region.bitmap firstBit 0 count).1.members.map _ = _
      rw [hmembers, Finset.map_union, hrun]
      rfl
    · show (insertRun region.bitmap firstBit 0 count).2 = _
      rw [hfresh, Nat.zero_add, ← hrun, taken,
        ← Finset.card_map (addLeftEmbedding region.first), Finset.map_sdiff]

/-- Reserving addresses keeps the counter right. -/
theorem Reserves.exact {start stop : Nat} {result : FrameRegion × Nat}
    (h : Reserves region start stop result) (hexact : region.Exact) : result.1.Exact := by
  rw [Exact, h.taken_eq, h.used_eq, h.fresh_eq, hexact, Finset.union_comm,
    ← Finset.card_sdiff_add_card, Nat.add_comm]

end FrameRegion

end BootMemory
