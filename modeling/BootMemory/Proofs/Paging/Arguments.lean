import BootMemory.Proofs.Paging.PageMap

/-!
# Arguments of a mapping

The checks of the address space are those of the partial map, in the same order. What passes
them is a page outside the window and, for a mapping, a frame that an entry can name.
-/

set_option autoImplicit false

namespace BootMemory.AddressSpace

open TableIndex (recursive)

/-- A physical address is aligned if the size of a page divides it. -/
theorem isAligned_phys (phys : PhysAddr) :
    phys.isAligned .small = decide (4096 ∣ phys.toNat) := by
  rw [PhysAddr.isAligned, PageSize.bytes, Bool.eq_iff_iff, beq_iff_eq, decide_eq_true_iff,
    Nat.dvd_iff_mod_eq_zero]

/-- A virtual address is aligned if the size of a page divides it. -/
theorem isAligned_virt (virt : VirtAddr) :
    virt.isAligned .small = decide (4096 ∣ virt.toNat) := by
  rw [VirtAddr.isAligned, PageSize.bytes, Bool.eq_iff_iff, beq_iff_eq, decide_eq_true_iff,
    Nat.dvd_iff_mod_eq_zero]

/-- The last directory slot covers exactly the window. -/
theorem isRecursive_directoryIndex (virt : VirtAddr) :
    TableIndex.isRecursive virt.directoryIndex = decide virt.InWindow := by
  rw [TableIndex.isRecursive, Bool.eq_iff_iff, beq_iff_eq, decide_eq_true_iff, VirtAddr.InWindow]

/-- The arguments of a mapping are checked in this order. -/
theorem checkMap_eq (phys : PhysAddr) (virt : VirtAddr) :
    checkMap phys virt =
      if ¬(4096 ∣ phys.toNat ∧ 4096 ∣ virt.toNat) then .error .unaligned
      else if 2 ^ 32 ≤ phys.toNat then .error .unaddressable
      else if virt.InWindow then .error .recursiveWindow
      else .ok () := by
  have hreach : Layout.maxPhysicalAddress < phys.toNat ↔ 2 ^ 32 ≤ phys.toNat :=
    Nat.lt_iff_add_one_le
  simp only [checkMap, isAligned_phys, isAligned_virt, isRecursive_directoryIndex, hreach,
    Bool.or_eq_true, Bool.not_eq_true', decide_eq_false_iff_not, decide_eq_true_eq, not_and_or]

/-- The argument of an unmapping is checked in this order. -/
theorem checkUnmap_eq (virt : VirtAddr) :
    checkUnmap virt =
      if ¬4096 ∣ virt.toNat then .error .unaligned
      else if virt.InWindow then .error .recursiveWindow
      else .ok () := by
  simp only [checkUnmap, isAligned_virt, isRecursive_directoryIndex, Bool.not_eq_true',
    decide_eq_false_iff_not, decide_eq_true_eq]

/-- Arguments of a mapping that pass the checks have an entry to write, and what the map makes
of them depends on the map alone. -/
theorem checkMap_cases (pages : PageMap) (phys : PhysAddr) (virt : VirtAddr) (flags : PageFlags)
    (mode : MapMode) (dry : Bool) :
    (∃ complaint, checkMap phys virt = .error complaint ∧
        pages.map phys virt flags mode dry = (.error complaint, pages)) ∨
      checkMap phys virt = .ok () ∧ virt.directoryIndex ≠ recursive ∧
        ∃ target : Mapping, target.flags.present = true ∧
          PageEntry.mapping (phys.page .small) flags.asPresent = .ok target.entry ∧
          pages.map phys virt flags mode dry =
            if ¬pages.Populated virt.directoryIndex ∧ dry then (.error .outOfFrames, pages)
            else if mode = .fresh ∧ (pages (virt.page .small)).isSome then
              (.error .alreadyMapped, pages)
            else (.ok (), Function.update pages (virt.page .small) (some target)) := by
  rw [checkMap_eq]
  by_cases haligned : 4096 ∣ phys.toNat ∧ 4096 ∣ virt.toNat
  case neg => exact .inl ⟨.unaligned, if_pos haligned, if_pos haligned⟩
  by_cases hfar : 2 ^ 32 ≤ phys.toNat
  case pos =>
    refine .inl ⟨.unaddressable, ?_, ?_⟩
    · rw [if_neg (not_not.mpr haligned), if_pos hfar]
    · rw [PageMap.map, if_neg (not_not.mpr haligned), dif_pos hfar]
  by_cases hwindow : virt.InWindow
  case pos =>
    refine .inl ⟨.recursiveWindow, ?_, ?_⟩
    · rw [if_neg (not_not.mpr haligned), if_neg hfar, if_pos hwindow]
    · rw [PageMap.map, if_neg (not_not.mpr haligned), dif_neg hfar, if_pos hwindow]
  have hlow : phys.toNat / 4096 < 2 ^ 20 := by omega
  refine .inr ⟨?_, hwindow, ⟨⟨phys.toNat / 4096, hlow⟩, flags.asPresent⟩, rfl, dif_pos hlow, ?_⟩
  · rw [if_neg (not_not.mpr haligned), if_neg hfar, if_neg hwindow]
  · rw [PageMap.map, if_neg (not_not.mpr haligned), dif_neg hfar, if_neg hwindow]

/-- The argument of an unmapping that passes the check is a page, and what the map makes of it
depends on that page alone. -/
theorem checkUnmap_cases (pages : PageMap) (virt : VirtAddr) :
    (∃ complaint, checkUnmap virt = .error complaint ∧
        pages.unmap virt = (.error complaint, pages)) ∨
      checkUnmap virt = .ok () ∧ virt.directoryIndex ≠ recursive ∧
        pages.unmap virt =
          match pages (virt.page .small) with
          | none => (.error .notMapped, pages)
          | some target =>
            (.ok target.frame, Function.update pages (virt.page .small) none) := by
  rw [checkUnmap_eq]
  by_cases haligned : 4096 ∣ virt.toNat
  case neg => exact .inl ⟨.unaligned, if_pos haligned, if_pos haligned⟩
  by_cases hwindow : virt.InWindow
  case pos =>
    refine .inl ⟨.recursiveWindow, ?_, ?_⟩
    · rw [if_neg (not_not.mpr haligned), if_pos hwindow]
    · rw [PageMap.unmap, if_neg (not_not.mpr haligned), if_pos hwindow]
  refine .inr ⟨?_, hwindow, ?_⟩
  · rw [if_neg (not_not.mpr haligned), if_neg hwindow]
  · exact (if_neg (not_not.mpr haligned)).trans (if_neg hwindow)

end BootMemory.AddressSpace
