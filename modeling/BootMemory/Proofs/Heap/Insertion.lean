import BootMemory.Proofs.Heap.Safety

/-!
# Where a unit belongs

A block that comes back is put behind the free block that starts last below it, or behind the
sentinel if none does (`Heap.LastBelow`). The walk that looks for this place may start on either
side of it, and it may go down once, at the sentinel, whose index is above all units. Wherever it
starts, it comes to the same answer (`Heap.Locates`): the place, or that the unit lies in a free
block.

The walk is cut off after one step for each unit of the arena and one more. `Heap.settleFrom` tells
an answer from a walk that was cut off, and in no run of either strategy a walk is cut off
(`HeapRun.every_run_locates`).
-/

set_option autoImplicit false

namespace BootMemory

open Heap BootMemory.Span

namespace Heap

variable {γ : Type} {heap : Heap γ} {free : List Span}

/-- The index of the free block that starts last below a unit, or the sentinel if none does. -/
def LastBelow (free : List Span) (unit index : Nat) : Prop :=
  (∃ span ∈ free, span.1 = index ∧ index < unit ∧
    ∀ other ∈ free, other.1 < unit → other.1 ≤ index) ∨
  index = sentinel ∧ ∀ span ∈ free, unit ≤ span.1

/-- What looking for the place of a unit comes to, among these free blocks. -/
structure Locates (heap : Heap γ) (free : List Span) (unit : Nat) (place : Option Nat) : Prop where
  /-- There is none exactly if the unit lies in a free block. -/
  none_iff : place = none ↔ ∃ span ∈ free, covers unit span = true
  lastBelow : ∀ index, place = some index → LastBelow free unit index
  /-- This is found out from wherever the cursor stands. -/
  found : ∀ start ∈ sentinelSpan :: free,
    insertionPoint { heap with cursor := start.1 } unit = .ok place
  /-- The walk is not cut off, and would find the same with more steps. -/
  settles : heap.Settles free unit place

/-- There is only one such index. -/
theorem LastBelow.unique {unit i j : Nat} (hi : LastBelow free unit i)
    (hj : LastBelow free unit j) : i = j := by
  rcases hi with ⟨span, hspan, rfl, hlt, hlast⟩ | ⟨rfl, hnone⟩
  · rcases hj with ⟨other, hother, rfl, hlt', hlast'⟩ | ⟨rfl, hnone⟩
    · exact Nat.le_antisymm (hlast' span hspan hlt) (hlast other hother hlt')
    · exact absurd hlt (Nat.not_lt.mpr (hnone span hspan))
  · rcases hj with ⟨other, hother, rfl, hlt', -⟩ | ⟨rfl, -⟩
    · exact absurd hlt' (Nat.not_lt.mpr (hnone other hother))
    · rfl

/-- So the place of a unit that is not free is this index, and no other. -/
theorem Locates.eq_some_iff {unit index : Nat} {place : Option Nat}
    (l : heap.Locates free unit place) : place = some index ↔
      (¬ ∃ span ∈ free, covers unit span = true) ∧ LastBelow free unit index := by
  constructor
  · rintro rfl
    refine ⟨fun hcovered => ?_, l.lastBelow index rfl⟩
    cases l.none_iff.mpr hcovered
  · rintro ⟨hout, hindex⟩
    obtain ⟨other, rfl⟩ := Option.ne_none_iff_exists'.mp (mt l.none_iff.mp hout)
    rw [(l.lastBelow other rfl).unique hindex]

/-- Between the free blocks below a unit and those above it, the header in front is that of the
last one below. -/
theorem Place.lastBelow {block : Nat} {front lower upper : List Span} {before : Span}
    (p : Place free block front before lower upper) (h : heap.FreeBlocks free) :
    LastBelow free block before.1 := by
  have hlast := p.last
  cases front with
  | nil =>
    obtain ⟨rfl, rfl⟩ := List.cons.inj hlast
    right
    refine ⟨rfl, fun span hm => ?_⟩
    rw [p.split, List.nil_append] at hm
    exact Nat.le_of_lt (p.above span hm)
  | cons first rest =>
    obtain ⟨-, hlower⟩ := List.cons.inj hlast
    have hlower : lower = rest ++ [before] := hlower
    have hbefore : before ∈ lower := by simp [hlower]
    have hfree : before ∈ free := by
      rw [p.split]
      exact List.mem_append_left _ hbefore
    have hpos := (h.inside before hfree).1
    have hbelow := p.below before hbefore
    left
    refine ⟨before, hfree, rfl, by omega, fun other hm hlt => ?_⟩
    rw [p.split, List.mem_append] at hm
    rcases hm with hm | hm
    · rw [hlower, List.mem_append, List.mem_singleton] at hm
      rcases hm with hm | rfl
      · have hapart := h.apart
        rw [p.split, hlower] at hapart
        have hfront := (List.pairwise_append.mp (List.pairwise_append.mp hapart).1).2.2
        have := hfront other hm before (List.mem_singleton_self before)
        unfold Apart at this
        omega
      · exact le_rfl
    · exact absurd hlt (Nat.not_lt.mpr (Nat.le_of_lt (p.above other hm)))

/-- The cursor may be put on any header of the ring. -/
theorem FreeBlocks.turn (h : heap.FreeBlocks free) {start : Span}
    (hm : start ∈ sentinelSpan :: free) : FreeBlocks { heap with cursor := start.1 } free where
  leads := h.leads.congr fun _ _ => rfl
  sizes := h.sizes
  apart := h.apart
  inside := h.inside
  cursor := List.mem_map_of_mem hm
  counted := h.counted
  bounded := h.bounded

/-- The walk does not look at the cursor. -/
theorem settleFrom_turn (heap : Heap γ) (cursor unit steps index : Nat) :
    settleFrom { heap with cursor } unit steps index = heap.settleFrom unit steps index := by
  induction steps generalizing index with
  | zero => rfl
  | succ steps ih =>
    unfold settleFrom
    simp only [ih]
    rfl

/-- The place of a unit is found from every cursor. -/
theorem Settles.found {unit : Nat} {place : Option Nat} (s : heap.Settles free unit place)
    (h : heap.FreeBlocks free) {start : Span} (hm : start ∈ sentinelSpan :: free) :
    insertionPoint { heap with cursor := start.1 } unit = .ok place := by
  apply Settles.insertionPoint_eq _ (h.turn hm)
  intro other hother steps hsteps
  rw [settleFrom_turn]
  exact s other hother steps hsteps

/-- Every unit of the arena is located. -/
theorem FreeBlocks.locates (h : heap.FreeBlocks free) {unit : Nat}
    (hunit : unit < heap.arenaUnits) : ∃ place, heap.Locates free unit place := by
  by_cases hcovered : ∃ span ∈ free, covers unit span = true
  · obtain ⟨span, hspan, hcover⟩ := hcovered
    have s : heap.Settles free unit none := settles_of_covers h hspan hcover
    exact ⟨none, iff_of_true rfl ⟨span, hspan, hcover⟩, nofun, fun _ hm => s.found h hm, s⟩
  · have hout : ∀ span ∈ free, covers unit span = false := fun span hspan =>
      Bool.eq_false_iff.mpr fun hcover => hcovered ⟨span, hspan, hcover⟩
    obtain ⟨front, before, lower, upper, p, s⟩ := exists_place h hunit hout
    refine ⟨some before.1, iff_of_false nofun hcovered, ?_, fun _ hm => s.found h hm, s⟩
    intro index hindex
    cases hindex
    exact p.lastBelow h

end Heap

namespace HeapRun

/-- In every run of either strategy, every unit of the arena is located from wherever the cursor
stands: the walk says that there is no place exactly if the unit lies in a free block, and otherwise
it comes to the free block that starts last below the unit, or to the sentinel if none does. It is
never cut off. -/
theorem every_run_locates : EveryRun fun run => ∃ free, run.heap.freeList = .ok free ∧
    (∃ start ∈ sentinelSpan :: free, run.heap.cursor = start.1) ∧
    ∀ unit < run.heap.arenaUnits, ∃ place, run.heap.insertionPoint unit = .ok place ∧
      run.heap.Locates free unit place := by
  apply everyRun_of_sound
  intro γ β _ _ _ _ run free h
  have hfree := h.tiled.freeBlocks
  refine ⟨free, hfree.freeList_eq, hfree.exists_cursor, fun unit hunit => ?_⟩
  obtain ⟨place, hplace⟩ := hfree.locates hunit
  exact ⟨place, hplace.settles.insertionPoint_eq hfree, hplace⟩

/-- Of the three blocks that are served from a region, the uppermost is given back. A unit of the
block in the middle belongs behind the free block at the bottom, and the one that was given back is
found out by any of its units. In a window, the block that was served belongs there, too. -/
theorem every_run_locates_region_and_window :
    (∃ run, Trace (start .empty (BumpBreak.ofRegion 4096 4096) ())
        [.allocate 24, .allocate 5, .allocate 40, .free 6112] run ∧
        run.heap.Locates [(0, 119), (125, 3)] 123 (some 0) ∧
        run.heap.Locates [(0, 119), (125, 3)] 126 none) ∧
      ∃ run, Trace (start .empty (PagedGrowth.ofWindow 4096 ⟨4096, by decide⟩ 8192)
        (⟨#[], none, none⟩ : PageLedger)) [.allocate 24] run ∧
        run.heap.Locates [(0, 253)] 253 (some 0) := by
  constructor
  · let first : HeapRun BumpBreak Unit := start .empty (.ofRegion 4096 4096) ()
    have hrun : (do
        let one ← first.step (.allocate 24)
        let two ← one.step (.allocate 5)
        let three ← two.step (.allocate 40)
        let four ← three.step (.free 6112)
        let free ← four.heap.freeList
        return (three.live.map Grant.pointer, four.heap.arenaUnits, free) :
          Traced (List Nat × Nat × List Span)).outcome =
          .ok ([6016, 6080, 6112], 128, [(0, 119), (125, 3)]) := by
      decide +kernel
    simp only [Traced.outcome_bind, Outcome.bind_eq_ok, Traced.outcome_liftM, Traced.outcome_pure,
      Except.ok.injEq, Prod.mk.injEq] at hrun
    obtain ⟨one, hone, two, htwo, three, hthree, four, hfour, free, hlisted, hlive, hunits,
      rfl⟩ := hrun
    have legal : three.Legal (.free 6112) := by
      apply List.mem_map.mp
      rw [hlive]
      simp
    have t : Trace first [.allocate 24, .allocate 5, .allocate 40, .free 6112] four :=
      .call trivial hone (.call trivial htwo (.call trivial hthree (.call legal hfour
        (.done four))))
    obtain ⟨free, hlisted', -, hlocates⟩ := every_run_locates.1 .empty 4096 4096 () _ four t
    cases hlisted.symm.trans hlisted'
    obtain ⟨place, -, hmiddle⟩ := hlocates 123 (by omega)
    obtain ⟨place', -, hupper⟩ := hlocates 126 (by omega)
    obtain rfl : place = some 0 := by
      apply hmiddle.eq_some_iff.mpr
      exact ⟨by decide, .inl ⟨(0, 119), by decide, rfl, by decide, by decide⟩⟩
    obtain rfl : place' = none := hupper.none_iff.mpr ⟨(125, 3), by decide, by decide⟩
    exact ⟨four, t, hmiddle, hupper⟩
  · let first : HeapRun PagedGrowth PageLedger :=
      start .empty (.ofWindow 4096 ⟨4096, by decide⟩ 8192) ⟨#[], none, none⟩
    have hrun : (do
        let one ← first.step (.allocate 24)
        let free ← one.heap.freeList
        return (one.heap.arenaUnits, free) : Traced (Nat × List Span)).outcome =
          .ok (256, [(0, 253)]) := by
      decide +kernel
    simp only [Traced.outcome_bind, Outcome.bind_eq_ok, Traced.outcome_liftM, Traced.outcome_pure,
      Except.ok.injEq, Prod.mk.injEq] at hrun
    obtain ⟨one, hone, free, hlisted, hunits, rfl⟩ := hrun
    have t : Trace first [.allocate 24] one := .call trivial hone (.done one)
    obtain ⟨free, hlisted', -, hlocates⟩ := every_run_locates.2 .empty _ _ _ one
      (.ofWindow 4096 ⟨4096, by decide⟩ 8192 _ (by decide)) t
    cases hlisted.symm.trans hlisted'
    obtain ⟨place, -, hlast⟩ := hlocates 253 (by omega)
    obtain rfl : place = some 0 := by
      apply hlast.eq_some_iff.mpr
      exact ⟨by decide, .inl ⟨(0, 253), by decide, rfl, by decide, by decide⟩⟩
    exact ⟨one, t, hlast⟩

end HeapRun

end BootMemory
