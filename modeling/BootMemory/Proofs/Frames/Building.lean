import BootMemory.Proofs.Frames.Checked
import BootMemory.Proofs.MemoryMap.Normal

/-!
# What building an allocator can end with

With every step checked, building an allocator over a normalized map can only fail in one way. The
search for a place adds the length of the bitmaps to each address that it tries, before it compares
the sum with the end of the region, and free RAM at the very end of a word makes the sum too large
(`building_overruns_only_past_the_last_address`). There is no place for the bitmaps in such RAM, but
the answer is a fault and not that there is none (`last_page_overruns`).

The records on the way can be read by anybody, and the policy of a platform, if it is well-formed,
leaves no region whose end does not fit a word.
-/

set_option autoImplicit false

namespace BootMemory.FrameAllocator

/-! ## Listeners -/

/-- What is reported while the stretch of a region is found can be written out. -/
theorem legible_stretch? (region : Region) : (stretch? region).Legible := by
  unfold stretch?
  refine Traced.legible_liftM_bind fun stop hstop => ?_
  dsimp only
  by_cases hlimit : addressLimit < stop
  · -- The text of the warning needs the end of the region, which is known.
    have htext : ∃ line, region.text = .ok line := by
      unfold Region.text
      rw [hstop]
      exact ⟨_, rfl⟩
    obtain ⟨line, hline⟩ := htext
    rw [if_pos hlimit, hline]
    refine Traced.legible_bind (Traced.legible_report rfl) fun _ => ?_
    split_ifs <;> exact Traced.legible_pure _
  · rw [if_neg hlimit]
    split_ifs <;> exact Traced.legible_pure _

/-- What is reported while all stretches are found can be written out. -/
theorem legible_stretches (regions : List Region) : (stretches regions).Legible := by
  induction regions with
  | nil => exact Traced.legible_pure _
  | cons region rest ih =>
    unfold stretches
    split_ifs
    · exact Traced.legible_bind (legible_stretch? region) fun _ =>
        Traced.legible_bind ih fun _ => Traced.legible_pure _
    · exact ih

/-- Building an allocator writes records that anybody can read. -/
theorem legible_ofMap (map : MemoryMap) (kernel : KernelImage) (reach : Nat)
    (config : FrameConfig) : (ofMap map kernel reach config).Legible := by
  unfold ofMap
  refine Traced.legible_bind (legible_stretches map.regions) fun found => ?_
  dsimp only
  split_ifs
  · exact Traced.legible_pure _
  · refine Traced.legible_bind (Traced.legible_liftM _) fun place => ?_
    cases place with
    | none => exact Traced.legible_pure _
    | some storage =>
      exact Traced.legible_bind (Traced.legible_report rfl) fun _ => Traced.legible_pure _

/-! ## Maps from firmware lists -/

/-- A policy that was applied has forced ranges whose ends fit a word. -/
theorem stop_forced_lt {policy : LowMemoryPolicy} {regions out : List Region}
    (h : MemoryMap.applyPolicy policy regions = .ok out) :
    ∀ hole ∈ policy.forced, hole.stop < 2 ^ 64 := by
  unfold MemoryMap.applyPolicy at h
  obtain ⟨spliced, -, h⟩ := Outcome.bind_eq_ok.mp h
  generalize policy.forced = forced at h ⊢
  induction forced generalizing spliced with
  | nil => exact fun _ hm => nomatch hm
  | cons hole rest ih =>
    rw [List.foldlM_cons] at h
    obtain ⟨done, hdone, hrest⟩ := Outcome.bind_eq_ok.mp h
    obtain ⟨stop, hstop, -⟩ := Outcome.bind_eq_ok.mp hdone
    exact List.forall_mem_cons.mpr ⟨(Region.end?_eq_ok_iff.mp hstop).1, ih done hrest⟩

/-- All regions of a map from a firmware list end within a word, if the policy is well-formed. -/
theorem ramEnds_of_ofFirmware {descriptors : List Descriptor} {normalizer : MapConfig}
    {map : MemoryMap}
    (hpolicy : ∀ policy, normalizer.lowMemory = some policy → policy.isWellFormed = .ok true)
    (hmap : (MemoryMap.ofFirmware descriptors normalizer).outcome = .ok (.ok map)) :
    RamEnds map.regions := by
  obtain ⟨-, resolved, hresolved, hregions⟩ := MemoryMap.ofFirmware_ok hmap
  have hkept : MemoryMap.entriesOf descriptors normalizer ≠ [] := by
    intro hempty
    rw [MemoryMap.ofFirmware_outcome, if_pos (List.isEmpty_iff.mpr hempty)] at hmap
    cases hmap
  have happlied : MemoryMap.applied normalizer resolved = .ok map.regions := by
    unfold MemoryMap.applied
    cases hlow : normalizer.lowMemory with
    | none =>
      rw [hlow] at hregions
      exact congrArg Except.ok hregions.symm
    | some policy =>
      rw [hlow] at hregions
      exact hregions
  have hforced : ∀ policy, normalizer.lowMemory = some policy → policy.isWellFormed = .ok true ∧
      ∀ hole ∈ policy.forced, hole.stop < 2 ^ 64 := by
    intro policy hlow
    rw [hlow] at hregions
    exact ⟨hpolicy policy hlow, stop_forced_lt hregions⟩
  obtain ⟨other, regions, start, stop, hother, hout, hconnects, -, hstop, -⟩ :=
    MemoryMap.exists_regions hkept hforced
  obtain rfl := Except.ok.inj (hother.symm.trans hresolved)
  obtain rfl := Except.ok.inj (hout.symm.trans happlied)
  exact fun region hm _ => Nat.lt_of_le_of_lt (hconnects.bounds_of_mem hm).2 hstop

/-! ## What can go wrong -/

/-- The plain allocator has a fault only where an end of RAM does not fit a word, or the end of the
bitmaps at a place that is tried. -/
theorem ofMap_outcome_eq_error {map : MemoryMap} {kernel : KernelImage} {reach : Nat}
    {config : FrameConfig} {fault : Fault} :
    (ofMap map kernel reach config).outcome = .error fault ↔
      fault = .overflow ∧ (¬RamEnds map.regions ∨ (∃ frame, Trackable map.regions frame) ∧
        BitmapStorage.SearchOverruns kernel (bitmapWords map) config.storageFloor reach
          (map.ofKind .available)) := by
  rw [ofMap_outcome]
  split_ifs with hends hnone hruns
  · refine ⟨nofun, ?_⟩
    rintro ⟨-, houts | ⟨⟨frame, hframe⟩, -⟩⟩
    · exact absurd hends houts
    · exact absurd hframe (hnone frame)
  · have hsome := not_forall_not.mp hnone
    exact ⟨fun h => ⟨(Except.error.inj h).symm, .inr ⟨hsome, hruns⟩⟩,
      fun h => congrArg _ h.1.symm⟩
  · refine ⟨nofun, ?_⟩
    rintro ⟨-, houts | ⟨-, houts⟩⟩
    · exact absurd hends houts
    · exact absurd houts hruns
  · exact ⟨fun h => ⟨(Except.error.inj h).symm, .inl hends⟩, fun h => congrArg _ h.1.symm⟩

/-- Building an allocator over a map from a firmware list, with every step checked, gives the plain
answer and asks for the words of the bitmaps only, and that anybody listens makes no difference. The
one fault that there may be is a sum that does not fit a word: the end of a RAM region, which a
well-formed policy does not let happen, or the end of the bitmaps at a place that is tried for them.
If the floor, the kernel and the free RAM keep eight megabytes away from the last address, there is
an answer. -/
theorem building_overruns_only_past_the_last_address {descriptors : List Descriptor}
    {normalizer : MapConfig} {map : MemoryMap} {reach : Nat}
    {slice : Nat → Nat → Except Fault (List (BitVec 32))}
    (hmap : (MemoryMap.ofFirmware descriptors normalizer).outcome = .ok (.ok map))
    (hslice : Checked.Serves reach slice) (kernel : KernelImage) (config : FrameConfig) :
    (Checked.ofMap slice map kernel reach config = (ofMap map kernel reach config).outcome.map
      fun answer => (answer, Checked.requests answer)) ∧
    (∀ threshold, ((ofMap map kernel reach config).observe threshold).2 =
      (ofMap map kernel reach config).outcome) ∧
    (∀ fault, Checked.ofMap slice map kernel reach config = .error fault ↔
      fault = .overflow ∧ (¬RamEnds map.regions ∨ (∃ frame, Trackable map.regions frame) ∧
        BitmapStorage.SearchOverruns kernel (bitmapWords map) config.storageFloor reach
          (map.ofKind .available))) ∧
    ((∀ policy, normalizer.lowMemory = some policy → policy.isWellFormed = .ok true) →
      RamEnds map.regions) ∧
    (RamEnds map.regions → (∀ region ∈ map.ofKind .available, region.base ≤ 2 ^ 64 - 2 ^ 23) →
      config.storageFloor ≤ 2 ^ 64 - 2 ^ 23 → kernel.stop.toNat ≤ 2 ^ 64 - 2 ^ 23 →
      ∃ answer, Checked.ofMap slice map kernel reach config =
        .ok (answer, Checked.requests answer)) := by
  obtain ⟨⟨observedBytes, hregions⟩, -⟩ := MemoryMap.ofFirmware_ok hmap
  have hordered := MemoryMap.ordered_of_ofRegions hregions
  have heq := Checked.ofMap_eq hordered hslice kernel config
  refine ⟨heq, Traced.observe_of_legible (legible_ofMap map kernel reach config), ?_,
    fun hpolicy => ramEnds_of_ofFirmware hpolicy hmap, ?_⟩
  · intro fault
    rw [heq, Outcome.map_eq_error]
    exact ofMap_outcome_eq_error
  · intro hends hbases hfloor hstop
    have hruns := BitmapStorage.not_searchOverruns reach
      (bitmapWords_le hordered hends) hbases hfloor hstop
    rw [heq, ofMap_outcome, if_pos hends, if_neg hruns]
    split_ifs
    · exact ⟨_, rfl⟩
    · exact ⟨_, rfl⟩

/-- Bitmaps go behind the kernel into memory that held something else. -/
theorem building_overruns_only_past_the_last_address_behind_kernel :
    let descriptors : List Descriptor := [⟨0x100000, 0x10000, 1⟩]
    let kernel : KernelImage := ⟨.ofNat 0x100000, .ofNat 0x104000, by decide⟩
    let slice : Nat → Nat → Except Fault (List (BitVec 32)) := fun _ words =>
      .ok (List.replicate words (.allOnes 32))
    ∃ (map : MemoryMap) (allocator : FrameAllocator),
      (MemoryMap.ofFirmware descriptors .generic).outcome = .ok (.ok map) ∧
      Checked.ofMap slice map kernel 0x400000 .standard =
        .ok (.ok allocator, [(0x104000, 1)]) ∧ allocator.used = 5 := by
  intro descriptors kernel slice
  have hrun : ((MemoryMap.ofFirmware descriptors .generic).andThen fun map =>
      (ofMap map kernel 0x400000 .standard).andThen fun allocator =>
        pure (allocator.storage.start, allocator.storage.words, allocator.used)).outcome =
      .ok (some (some (0x104000, 1, 5))) := by
    decide +kernel
  obtain ⟨map, hmap, hrun⟩ := Traced.of_andThen hrun
  obtain ⟨allocator, hnew, hrun⟩ := Traced.of_andThen hrun
  simp only [Traced.outcome_pure, Except.ok.injEq, Prod.mk.injEq] at hrun
  obtain ⟨hstart, hwords, hused⟩ := hrun
  have hslice : Checked.Serves 0x400000 slice := fun _ _ _ _ =>
    ⟨_, rfl, List.length_replicate⟩
  obtain ⟨heq, -⟩ := building_overruns_only_past_the_last_address hmap hslice kernel .standard
  refine ⟨map, allocator, hmap, ?_, hused⟩
  rw [heq, hnew, ← hstart, ← hwords]
  rfl

/-- Free RAM that ends with the last address is no place for the bitmaps, and nor is RAM that the
kernel fills. That there is no place is not the answer, though: looking at the last page is a
fault. -/
theorem last_page_overruns :
    let descriptors : List Descriptor :=
      [⟨0x100000, 0x10000, 1⟩, ⟨0xFFFFFFFFFFFFF000, 0xFFF, 1⟩]
    let kernel : KernelImage := ⟨.ofNat 0x100000, .ofNat 0x110000, by decide⟩
    ∃ map, (MemoryMap.ofFirmware descriptors .generic).outcome = .ok (.ok map) ∧
      (∀ region ∈ map.ofKind .available,
        BitmapStorage.placeOf? kernel (bitmapWords map) FrameConfig.standard.storageFloor 0x400000
          region = none) ∧
      (ofMap map kernel 0x400000 .standard).outcome = .error .overflow := by
  intro descriptors kernel
  have hrun : ((MemoryMap.ofFirmware descriptors .generic).andThen pure).outcome =
      .ok (some ⟨[⟨0x100000, 0x10000, .available⟩,
        ⟨0x110000, 0xFFFFFFFFFFEEF000, .unspecified⟩,
        ⟨0xFFFFFFFFFFFFF000, 0xFFF, .available⟩], 0x10FFF⟩) := by
    decide +kernel
  obtain ⟨map, hmap, hrun⟩ := Traced.of_andThen hrun
  obtain rfl := Except.ok.inj hrun
  refine ⟨_, hmap, by decide +kernel, ?_⟩
  rw [ofMap_outcome, if_pos (by decide +kernel), if_neg (by decide +kernel),
    if_pos (by decide +kernel)]

end BootMemory.FrameAllocator
