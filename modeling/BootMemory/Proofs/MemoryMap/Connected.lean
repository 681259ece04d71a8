import BootMemory.MemoryMap.Basic
import BootMemory.MemoryMap.Coalesce
import BootMemory.Proofs.Outcome
import Mathlib.Data.List.Chain

/-!
# Regions without gaps

Regions connect two addresses if the first starts at the one, the last ends at the other, and each
of them ends where the next one starts. As long as the last address fits a word, coalescing such
regions cannot fault: every end and every joined length lies between the two addresses. What comes
out connects the same addresses, and has neither an empty region nor neighbours of one kind.
-/

set_option autoImplicit false

namespace BootMemory

variable {start stop : Nat} {regions : List Region}

/-- Regions of which the first starts at an address, each ends where the next one starts, and the
last ends at another address. -/
def Connects (start : Nat) : List Region → Nat → Prop
  | [], stop => start = stop
  | region :: rest, stop => region.base = start ∧ Connects region.stop rest stop

/-- Regions without an empty one and without neighbours of one kind. -/
structure Tidy (regions : List Region) : Prop where
  pos : ∀ region ∈ regions, 0 < region.length
  kinds : regions.IsChain fun a b => a.kind ≠ b.kind

namespace Connects

/-- Without regions an address is connected with itself only. -/
@[simp] theorem nil_iff : Connects start [] stop ↔ start = stop := Iff.rfl

/-- Regions connect two addresses if the first starts at one and the others connect its end with
the other. -/
@[simp] theorem cons_iff {region : Region} {rest : List Region} :
    Connects start (region :: rest) stop ↔
      region.base = start ∧ Connects region.stop rest stop := Iff.rfl

/-- Two lists connect two addresses if they meet at one in between. -/
theorem append_iff {first second : List Region} : Connects start (first ++ second) stop ↔
    ∃ middle, Connects start first middle ∧ Connects middle second stop := by
  induction first generalizing start with
  | nil => simp
  | cons region rest ih =>
    simp only [List.cons_append, cons_iff, ih]
    constructor
    · rintro ⟨hbase, middle, hrest, hsecond⟩
      exact ⟨middle, ⟨hbase, hrest⟩, hsecond⟩
    · rintro ⟨middle, ⟨hbase, hrest⟩, hsecond⟩
      exact ⟨hbase, middle, hrest, hsecond⟩

/-- The lengths add up to the distance of the two addresses. -/
theorem add_sum (h : Connects start regions stop) :
    start + (regions.map (·.length)).sum = stop := by
  induction regions generalizing start with
  | nil => exact h
  | cons region rest ih =>
    obtain ⟨rfl, hrest⟩ := h
    have := ih hrest
    rw [List.map_cons, List.sum_cons]
    unfold Region.stop at this
    omega

/-- Regions connect an address with one that is not below it. -/
theorem le (h : Connects start regions stop) : start ≤ stop := by
  have := h.add_sum
  omega

/-- Every region lies between the two addresses. -/
theorem bounds_of_mem (h : Connects start regions stop) {region : Region}
    (hm : region ∈ regions) : start ≤ region.base ∧ region.stop ≤ stop := by
  induction regions generalizing start with
  | nil => exact nomatch hm
  | cons first rest ih =>
    obtain ⟨rfl, hrest⟩ := h
    have hle : first.base ≤ first.stop := Nat.le_add_right _ _
    rcases List.mem_cons.mp hm with rfl | hm
    · exact ⟨Nat.le_refl _, hrest.le⟩
    · obtain ⟨hbase, hstop⟩ := ih hrest hm
      exact ⟨Nat.le_trans hle hbase, hstop⟩

/-- Every region ends where the next one starts. -/
theorem isChain (h : Connects start regions stop) :
    regions.IsChain fun a b => a.stop = b.base := by
  induction regions generalizing start with
  | nil => exact List.IsChain.nil
  | cons first rest ih =>
    obtain ⟨-, hrest⟩ := h
    cases rest with
    | nil => exact List.IsChain.singleton _
    | cons second others => exact List.isChain_cons_cons.mpr ⟨hrest.1.symm, ih hrest⟩

/-- The bases ascend if no region is empty. -/
theorem ascending (h : Connects start regions stop)
    (hpos : ∀ region ∈ regions, 0 < region.length) :
    regions.Pairwise fun a b => a.base < b.base := by
  induction regions generalizing start with
  | nil => exact List.Pairwise.nil
  | cons first rest ih =>
    obtain ⟨-, hrest⟩ := h
    obtain ⟨hfirst, hothers⟩ := List.forall_mem_cons.mp hpos
    refine List.pairwise_cons.mpr ⟨?_, ih hrest hothers⟩
    intro other hm
    have := (hrest.bounds_of_mem hm).1
    unfold Region.stop at this
    omega

/-- The check of a map finds that each region ends where the next one starts. -/
theorem touching (h : Connects start regions stop) (hstop : stop < 2 ^ 64) :
    MemoryMap.touching regions = .ok true := by
  induction regions generalizing start with
  | nil => rfl
  | cons first rest ih =>
    obtain ⟨-, hrest⟩ := h
    cases rest with
    | nil => rfl
    | cons second others =>
      have hend : first.end? = .ok first.stop :=
        Region.end?_of_lt (Nat.lt_of_le_of_lt hrest.le hstop)
      unfold MemoryMap.touching
      rw [hend, Outcome.ok_bind, if_pos hrest.1.symm]
      exact ih hrest

/-- A map of connected regions spans the two addresses. -/
theorem span (h : Connects start regions stop) (hstop : stop < 2 ^ 64) (hne : regions ≠ [])
    (observedBytes : Nat) : MemoryMap.span ⟨regions, observedBytes⟩ = .ok (start, stop) := by
  obtain ⟨first, rest, rfl⟩ := List.exists_cons_of_ne_nil hne
  have hlast : ((first :: rest).getLast hne).stop = stop := by
    rw [← List.dropLast_append_getLast hne, append_iff] at h
    obtain ⟨_, -, hend⟩ := h
    exact hend.2
  have hend : ((first :: rest).getLast hne).end? = .ok stop := by
    rw [← hlast] at hstop ⊢
    exact Region.end?_of_lt hstop
  unfold MemoryMap.span
  simp only [List.head?_cons, List.getLast?_eq_some_getLast hne]
  rw [hend, Outcome.ok_bind, Outcome.pure_eq_ok, h.1]

end Connects

namespace Region

/-! ## Coalescing -/

/-- Pushing a region behind the regions done succeeds if all regions connect two addresses, and
they still do afterwards. The regions done are newest first. -/
theorem push_of_connects {done rest : List Region} {region : Region} (hstop : stop < 2 ^ 64)
    (hall : Connects start (done.reverse ++ region :: rest) stop) (htidy : Tidy done) :
    ∃ out, push done region = .ok out ∧ Connects start (out.reverse ++ rest) stop ∧ Tidy out := by
  unfold push
  by_cases hempty : region.length = 0
  · refine ⟨done, if_pos hempty, ?_, htidy⟩
    obtain ⟨middle, hdone, hbase, hrest⟩ := Connects.append_iff.mp hall
    have hsame : region.stop = middle := by
      unfold Region.stop
      rw [hempty, hbase, Nat.add_zero]
    rw [hsame] at hrest
    exact Connects.append_iff.mpr ⟨middle, hdone, hrest⟩
  rw [if_neg hempty]
  have hpos : 0 < region.length := Nat.pos_of_ne_zero hempty
  have hbehind : Connects start ((region :: done).reverse ++ rest) stop := by
    rwa [List.reverse_cons, List.append_assoc]
  cases done with
  | nil =>
    exact ⟨[region], rfl, hbehind,
      List.forall_mem_singleton.mpr hpos, List.IsChain.singleton _⟩
  | cons last earlier =>
    obtain ⟨hlast, hearlier⟩ := List.forall_mem_cons.mp htidy.pos
    simp only
    by_cases hkind : last.kind = region.kind
    · -- The regions touch, so the region is joined to the last one.
      rw [List.reverse_cons, List.append_assoc, Connects.append_iff] at hall
      obtain ⟨middle, hfront, hlastbase, hbase, hrest⟩ := hall
      have hle := hrest.le
      refine ⟨{ last with length := last.length + region.length } :: earlier, ?_, ?_, ?_, ?_⟩
      · have hlastend : last.end? = .ok last.stop := by
          apply end?_of_lt
          unfold Region.stop at *
          omega
        have hlength : Word.add last.length region.length = .ok (last.length + region.length) := by
          apply Word.add_eq_ok
          unfold Region.stop at *
          omega
        rw [if_pos hkind, hlastend, Outcome.ok_bind, if_pos hbase.symm, hlength, Outcome.ok_bind,
          Outcome.pure_eq_ok]
      · rw [List.reverse_cons, List.append_assoc, Connects.append_iff]
        refine ⟨middle, hfront, hlastbase, ?_⟩
        rw [stop_joined hbase.symm]
        exact hrest
      · exact List.forall_mem_cons.mpr ⟨Nat.add_pos_left hlast _, hearlier⟩
      · have hkinds := htidy.kinds
        cases earlier with
        | nil => exact List.IsChain.singleton _
        | cons before others =>
          obtain ⟨hdiffer, hothers⟩ := List.isChain_cons_cons.mp hkinds
          exact List.isChain_cons_cons.mpr ⟨hdiffer, hothers⟩
    · exact ⟨_, if_neg hkind, hbehind, List.forall_mem_cons.mpr ⟨hpos, htidy.pos⟩,
        List.isChain_cons_cons.mpr ⟨Ne.symm hkind, htidy.kinds⟩⟩

/-- Coalescing regions that connect two addresses succeeds. What comes out is tidy and connects
the same addresses. -/
theorem coalesce_of_connects (hstop : stop < 2 ^ 64) (hall : Connects start regions stop) :
    ∃ out, coalesce regions = .ok out ∧ Connects start out stop ∧ Tidy out := by
  suffices hgeneral : ∀ rest done, Connects start (done.reverse ++ rest) stop → Tidy done →
      ∃ newestFirst, rest.foldlM push done = .ok newestFirst ∧
        Connects start newestFirst.reverse stop ∧ Tidy newestFirst by
    obtain ⟨newestFirst, hfold, hconnects, htidy⟩ :=
      hgeneral regions [] hall ⟨fun _ hm => (nomatch hm), List.IsChain.nil⟩
    refine ⟨newestFirst.reverse, ?_, hconnects, ?_, ?_⟩
    · rw [coalesce, hfold, Outcome.ok_bind, Outcome.pure_eq_ok]
    · exact fun region hm => htidy.pos region (List.mem_reverse.mp hm)
    · refine List.isChain_reverse.mpr (htidy.kinds.imp fun a b hdiffer => ?_)
      exact Ne.symm hdiffer
  intro rest
  induction rest with
  | nil =>
    intro done hconnects htidy
    rw [List.append_nil] at hconnects
    exact ⟨done, rfl, hconnects, htidy⟩
  | cons region rest ih =>
    intro done hconnects htidy
    obtain ⟨out, hpush, hconnects, htidy⟩ := push_of_connects hstop hconnects htidy
    obtain ⟨newestFirst, hfold, h⟩ := ih out hconnects htidy
    refine ⟨newestFirst, ?_, h⟩
    rw [List.foldlM_cons, hpush, Outcome.ok_bind, hfold]

/-! ## Reserving a range -/

/-- The parts of a region connect its base to its end. -/
theorem cut_of_connects {first last : Nat} {region : Region} (hle : first ≤ last)
    (hstop : region.stop < 2 ^ 64) :
    ∃ parts, cut first last region = .ok parts ∧ Connects region.base parts region.stop := by
  unfold cut overlaps
  rw [end?_of_lt hstop, Outcome.ok_bind, Outcome.pure_eq_ok, Outcome.ok_bind]
  by_cases hmeets : (decide (first < region.stop) && decide (region.base < last)) = true
  · refine ⟨_, if_pos hmeets, ?_⟩
    simp only [Bool.and_eq_true, decide_eq_true_eq] at hmeets
    simp only [Connects.cons_iff, Connects.nil_iff]
    unfold Region.stop at *
    simp only [true_and]
    omega
  · refine ⟨[region], if_neg hmeets, rfl, rfl⟩

/-- Reserving a range within connected regions succeeds and keeps them connected. -/
theorem reserve_of_connects {first last : Nat} (hle : first ≤ last) (hstop : stop < 2 ^ 64)
    (hall : Connects start regions stop) :
    ∃ out, reserve first last regions = .ok out ∧ Connects start out stop ∧ Tidy out := by
  have hcuts : ∃ parts, regions.mapM (cut first last) = .ok parts ∧
      Connects start parts.flatten stop := by
    induction regions generalizing start with
    | nil => exact ⟨[], rfl, hall⟩
    | cons region rest ih =>
      obtain ⟨rfl, hrest⟩ := hall
      obtain ⟨here, hhere, hconnects⟩ :=
        cut_of_connects hle (Nat.lt_of_le_of_lt hrest.le hstop)
      obtain ⟨others, hothers, hflat⟩ := ih hrest
      refine ⟨here :: others, ?_, Connects.append_iff.mpr ⟨_, hconnects, hflat⟩⟩
      rw [List.mapM_cons, hhere, Outcome.ok_bind, hothers, Outcome.ok_bind, Outcome.pure_eq_ok]
  obtain ⟨parts, hparts, hflat⟩ := hcuts
  obtain ⟨out, hout, h⟩ := coalesce_of_connects hstop hflat
  refine ⟨out, ?_, h⟩
  rw [reserve, hparts, Outcome.ok_bind, hout]

end Region

end BootMemory
