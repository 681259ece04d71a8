import BootMemory.Proofs.MemoryMap.OfFirmware

/-!
# Looking an address up

The pieces of a map ascend, and coalescing keeps them in order and drops the empty ones. In
regions in order an address lies in one region at most, which is the first that ends above the
address. The ends ascend, so halving comes to that one (`getElem?_partitionPoint`), and
`MemoryMap.regionContaining` answers with it if it covers the address (`exists_regionContaining`).
-/

set_option autoImplicit false

namespace BootMemory

open MemoryMap (Ordered)

namespace Region

/-! ## The order of coalesced regions -/

/-- Regions that go behind others in order still do so once the first of them is pushed. -/
theorem ordered_push {done out rest : List Region} {region : Region}
    (h : push done region = .ok out) (ho : Ordered (done.reverse ++ region :: rest)) :
    Ordered (out.reverse ++ rest) := by
  cases pushed_of_push h with
  | skipped empty =>
    exact ho.sublist (List.Sublist.append_left (List.sublist_cons_self region rest) _)
  | @joined last earlier pos kind_eq touch =>
    -- The joined region starts where `last` does and ends where `region` does.
    simp only [List.reverse_cons, List.append_assoc, List.singleton_append] at ho ⊢
    obtain ⟨hearlier, hlater, hcross⟩ := List.pairwise_append.mp ho
    obtain ⟨-, hlater⟩ := List.pairwise_cons.mp hlater
    obtain ⟨hregion, hrest⟩ := List.pairwise_cons.mp hlater
    refine List.pairwise_append.mpr ⟨hearlier, List.pairwise_cons.mpr ⟨?_, hrest⟩, ?_⟩
    · intro other hm
      rw [stop_joined touch]
      exact hregion other hm
    · intro other hm after hafter
      rcases List.mem_cons.mp hafter with rfl | hafter
      · exact hcross other hm last (by simp)
      · exact hcross other hm after (by simp [hafter])
  | behind pos =>
    rw [List.reverse_cons, List.append_assoc]
    exact ho

/-- Coalescing keeps regions in order. -/
theorem ordered_coalesce {regions out : List Region} (h : coalesce regions = .ok out)
    (ho : Ordered regions) : Ordered out := by
  have hall := coalesce_induction (P := fun done rest => Ordered (done.reverse ++ rest)) h ho
    fun done middle region rest hpush hdone => ordered_push hpush hdone
  rwa [List.reverse_reverse, List.append_nil] at hall

/-- Pushing keeps regions free of empty ones. -/
theorem pos_of_push {done out : List Region} {region : Region} (h : push done region = .ok out)
    (hdone : ∀ other ∈ done, 0 < other.length) : ∀ other ∈ out, 0 < other.length := by
  cases pushed_of_push h with
  | skipped empty => exact hdone
  | joined pos kind_eq touch =>
    obtain ⟨hlast, hearlier⟩ := List.forall_mem_cons.mp hdone
    exact List.forall_mem_cons.mpr ⟨Nat.add_pos_left hlast _, hearlier⟩
  | behind pos => exact List.forall_mem_cons.mpr ⟨pos, hdone⟩

/-- No region is empty after coalescing. -/
theorem pos_of_coalesce {regions out : List Region} (h : coalesce regions = .ok out) :
    ∀ region ∈ out, 0 < region.length := by
  have hall := coalesce_induction (P := fun done _ => ∀ region ∈ done, 0 < region.length) h
    (fun _ hm => nomatch hm) fun done middle region rest hpush hdone => pos_of_push hpush hdone
  intro region hm
  exact hall region (List.mem_reverse.mpr hm)

/-- The first address of a region that is not empty lies in it. -/
theorem covers_base {region : Region} (h : 0 < region.length) : region.Covers region.base := by
  unfold Covers stop
  omega

/-- The last address of a region that is not empty lies in it. -/
theorem covers_last {region : Region} (h : 0 < region.length) :
    region.Covers (region.stop - 1) := by
  unfold Covers stop
  omega

end Region

namespace MemoryMap

variable {map : MemoryMap} {addr : Nat}

/-- Every piece starts at a cut. -/
theorem exists_cut_of_mem_pieces {entries : List Region} {cuts : List Nat} {piece : Region}
    (hm : piece ∈ pieces entries cuts) : piece.base ∈ cuts := by
  induction cuts with
  | nil => exact nomatch hm
  | cons low others ih =>
    cases others with
    | nil => exact nomatch hm
    | cons high rest =>
      rw [pieces] at hm
      rcases List.mem_cons.mp hm with rfl | hm
      · exact List.mem_cons_self
      · exact List.mem_cons_of_mem _ (ih hm)

/-- The pieces between ascending cuts are in order. -/
theorem ordered_pieces {entries : List Region} {cuts : List Nat}
    (hcuts : cuts.Pairwise (· < ·)) : Ordered (pieces entries cuts) := by
  induction cuts with
  | nil => exact List.Pairwise.nil
  | cons low others ih =>
    cases others with
    | nil => exact List.Pairwise.nil
    | cons high rest =>
      obtain ⟨hlow, hothers⟩ := List.pairwise_cons.mp hcuts
      rw [pieces]
      refine List.pairwise_cons.mpr ⟨?_, ih hothers⟩
      intro piece hm
      have hlt := hlow high List.mem_cons_self
      have hle : high ≤ piece.base := by
        rcases List.mem_cons.mp (exists_cut_of_mem_pieces hm) with hbase | hbase
        · exact Nat.le_of_eq hbase.symm
        · apply Nat.le_of_lt
          exact (List.pairwise_cons.mp hothers).1 _ hbase
      unfold Region.stop
      simp only
      omega

/-! ## The region of an address -/

/-- In regions in order, a region that covers an address is the first that ends above it. -/
theorem find?_eq_some {regions : List Region} (ho : Ordered regions) {region : Region}
    (hm : region ∈ regions) (hcovers : region.Covers addr) :
    regions.find? (fun region => addr < region.stop) = some region := by
  induction regions with
  | nil => exact nomatch hm
  | cons first rest ih =>
    obtain ⟨hfirst, hrest⟩ := List.pairwise_cons.mp ho
    rw [List.find?_cons]
    rcases List.mem_cons.mp hm with rfl | hm
    · rw [decide_eq_true hcovers.2]
    · have hle : first.stop ≤ addr := Nat.le_trans (hfirst region hm) hcovers.1
      rw [decide_eq_false (Nat.not_lt_of_le hle)]
      exact ih hrest hm

/-- The first of the regions that pass a test starts no later than the others that do. -/
theorem first_of_filter {regions : List Region} (ho : Ordered regions) {test : Region → Bool}
    {first : Region} (hfirst : first ∈ (regions.filter test).head?) :
    first ∈ regions ∧ ∀ region ∈ regions, test region = true → first.base ≤ region.base := by
  obtain ⟨rest, hkept⟩ := List.head?_eq_some_iff.mp hfirst
  have hm : ∀ region, region ∈ first :: rest ↔ region ∈ regions ∧ test region = true := by
    intro region
    rw [← hkept, List.mem_filter]
  have hsorted : Ordered (first :: rest) := by
    rw [← hkept]
    exact ho.sublist List.filter_sublist
  refine ⟨((hm first).mp List.mem_cons_self).1, fun region hregion htest => ?_⟩
  rcases List.mem_cons.mp ((hm region).mpr ⟨hregion, htest⟩) with rfl | hrest
  · exact Nat.le_refl _
  · exact Nat.le_trans (Nat.le_add_right _ _) ((List.pairwise_cons.mp hsorted).1 region hrest)

/-- The first region that ends above an address is behind those that end at or below it, because
the ends ascend. -/
theorem getElem?_partitionPoint {regions : List Region} (ho : Ordered regions) (addr : Nat) :
    regions[partitionPoint (fun region : Region => decide (region.stop ≤ addr)) regions.toArray]? =
      regions.find? fun region => addr < region.stop := by
  have hle : ∀ i j (hj : j < regions.length) (hij : i < j), regions[i].stop ≤ regions[j].stop := by
    intro i j hj hij
    have := List.pairwise_iff_getElem.mp ho i j (by omega) hj hij
    unfold Region.stop at *
    omega
  have hpart : Partitioned (fun region : Region => decide (region.stop ≤ addr))
      regions.toArray := by
    intro i j hj hij hpass
    rw [decide_eq_true_eq] at hpass ⊢
    exact Nat.le_trans (hle i j hj hij) hpass
  have hspec := partitionPoint_spec hpart
  generalize partitionPoint (fun region : Region => decide (region.stop ≤ addr))
    regions.toArray = point at hspec
  simp only [decide_eq_true_eq] at hspec
  rw [eq_comm]
  by_cases hpoint : point < regions.length
  · rw [List.getElem?_eq_getElem hpoint, List.find?_eq_some_iff_getElem]
    refine ⟨?_, point, hpoint, rfl, ?_⟩
    · have := hspec point hpoint
      simp only [List.getElem_toArray] at this
      simp only [decide_eq_true_eq]
      omega
    · intro i hi
      have := hspec i (Nat.lt_trans hi hpoint)
      simp only [List.getElem_toArray] at this
      simp only [Bool.not_eq_true', decide_eq_false_iff_not]
      omega
  · rw [List.getElem?_eq_none (Nat.le_of_not_lt hpoint), List.find?_eq_none]
    intro region hm
    obtain ⟨i, hi, rfl⟩ := List.mem_iff_getElem.mp hm
    have := hspec i hi
    simp only [List.getElem_toArray] at this
    simp only [decide_eq_true_eq]
    omega

/-- The region of an address is the one that covers it, if any does. -/
theorem exists_regionContaining (ho : Ordered map.regions)
    (hstop : ∀ region ∈ map.regions, region.stop < 2 ^ 64) (addr : Nat) :
    ∃ found, map.regionContaining addr = .ok found ∧
      ∀ region, found = some region ↔ region ∈ map.regions ∧ region.Covers addr := by
  have hends : ∀ region ∈ map.regions.toArray,
      endsBy addr region = pure (decide (region.stop ≤ addr)) := by
    intro region hm
    rw [endsBy, Region.end?_of_lt (hstop region (List.mem_toArray.mp hm)), Outcome.ok_bind]
  rw [regionContaining, partitionPointM_eq_pure hends, Outcome.pure_eq_ok, Outcome.ok_bind,
    getElem?_partitionPoint ho]
  cases hfind : map.regions.find? fun region => addr < region.stop with
  | none =>
    refine ⟨none, rfl, fun region => iff_of_false (fun h => nomatch h) ?_⟩
    rintro ⟨hm, hcovers⟩
    rw [find?_eq_some ho hm hcovers] at hfind
    exact nomatch hfind
  | some first =>
    have hm := List.mem_of_find?_eq_some hfind
    have hlt : addr < first.stop := by simpa using List.find?_some hfind
    have honly : ∀ region, region ∈ map.regions ∧ region.Covers addr → region = first := by
      rintro region ⟨hm, hcovers⟩
      rw [find?_eq_some ho hm hcovers] at hfind
      exact Option.some.inj hfind
    by_cases hbase : first.base ≤ addr
    · refine ⟨some first, ?_, fun region => ⟨?_, fun h => congrArg some (honly region h).symm⟩⟩
      · simp [Region.contains, hbase, Region.end?_of_lt (hstop first hm), hlt]
      · intro h
        obtain rfl := Option.some.inj h
        exact ⟨hm, hbase, hlt⟩
    · refine ⟨none, by simp [Region.contains, hbase], fun region =>
        iff_of_false (fun h => nomatch h) ?_⟩
      intro h
      rw [honly region h] at h
      exact absurd h.2.1 hbase

end MemoryMap

end BootMemory
