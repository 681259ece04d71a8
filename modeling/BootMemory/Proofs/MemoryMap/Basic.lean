import BootMemory.MemoryMap.Basic
import BootMemory.Proofs.Outcome

/-!
# Regions that touch

A memory map is only built from regions of which each ends where the next one starts, so no
address lies in two of them, and an address between the first base and the last end lies in
one.
-/

set_option autoImplicit false

namespace BootMemory.MemoryMap

/-- Regions in address order that share no byte. -/
def Ordered (regions : List Region) : Prop := regions.Pairwise fun a b => a.stop ≤ b.base

/-- Regions that touch are in order. -/
theorem ordered_of_touching {regions : List Region} (h : touching regions = .ok true) :
    Ordered regions := by
  induction regions with
  | nil => exact List.Pairwise.nil
  | cons first rest ih =>
    cases rest with
    | nil => exact List.pairwise_singleton _ _
    | cons second others =>
      unfold touching at h
      obtain ⟨stop, hstop, h⟩ := Outcome.bind_eq_ok.mp h
      obtain ⟨-, rfl⟩ := Region.end?_eq_ok_iff.mp hstop
      by_cases htouch : first.stop = second.base
      · rw [if_pos htouch] at h
        have hrest := ih h
        refine List.pairwise_cons.mpr ⟨?_, hrest⟩
        intro other hm
        rcases List.mem_cons.mp hm with rfl | hm
        · exact Nat.le_of_eq htouch
        · have := (List.pairwise_cons.mp hrest).1 other hm
          unfold Region.stop at *
          omega
      · rw [if_neg htouch] at h
        cases h

/-- A map that was built has the regions and the observed RAM that it was built from. -/
theorem eq_of_ofRegions {regions : List Region} {observedBytes : Nat} {map : MemoryMap}
    (h : ofRegions regions observedBytes = .ok map) : map = ⟨regions, observedBytes⟩ := by
  obtain ⟨touch, -, h⟩ := Outcome.bind_eq_ok.mp h
  cases touch with
  | true =>
    cases h
    rfl
  | false => cases h

/-- The regions of a map that was built are in order. -/
theorem ordered_of_ofRegions {regions : List Region} {observedBytes : Nat} {map : MemoryMap}
    (h : ofRegions regions observedBytes = .ok map) : Ordered map.regions := by
  obtain ⟨touch, htouch, h⟩ := Outcome.bind_eq_ok.mp h
  cases touch with
  | true =>
    cases h
    exact ordered_of_touching htouch
  | false => cases h

end BootMemory.MemoryMap
