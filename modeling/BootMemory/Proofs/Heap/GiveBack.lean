import BootMemory.Proofs.Heap.Safety
import Mathlib.Data.List.Nodup

/-!
# Giving blocks back

A heap keeps no list of the blocks that it served, so what it makes of an address that comes back
depends on the free blocks alone. An address within a free block is a double free: it is noticed
wherever the walk starts, and nothing changes. The address of a live block never looks like one, and
exactly its units become free (`Sound.takesBack`).

Free blocks lie apart, so they are told by the units that are free, and these by the blocks that are
live (`Heap.Tiled.free_unique`). Two histories that leave the same blocks live leave the same free
blocks. So blocks can be given back in any order (`GaveBack.agree`), and a block that is given back
as soon as it was served leaves nothing but the units by which the arena grew for it
(`Sound.undone`).
-/

set_option autoImplicit false

namespace BootMemory

open BootMemory.Span

/-! ## What is free is told by what is live -/

namespace Heap

variable {γ : Type} [GivenUnits γ] {heap other : Heap γ} {free free' live : List Span}

/-- Arenas of one size with the same live blocks have the same free blocks. -/
theorem Tiled.free_unique (h : heap.Tiled free live) (h' : other.Tiled free' live)
    (hunits : other.arenaUnits = heap.arenaUnits) : free' = free := by
  have htiles := h'.tiles
  rw [hunits] at htiles
  apply htiles.unique h.tiles .rfl h'.freeBlocks.apart h.freeBlocks.apart
  · exact fun _ hm => h'.free_pos hm
  · exact fun _ hm => h.free_pos hm

/-- If one arena is longer, then what it has behind the end of the other is free. -/
theorem Tiled.free_appended (h : heap.Tiled free live) (h' : other.Tiled free' live) {added : Nat}
    (hunits : other.arenaUnits = heap.arenaUnits + added) (hadd : 0 < added) :
    free' = Span.insert (heap.arenaUnits, added) free := by
  have htiles := h'.tiles
  have hpos : ∀ span ∈ free, 0 < span.2 := fun _ hm => h.free_pos hm
  rw [hunits] at htiles
  apply htiles.unique (h.tiles.lengthen added).insert .rfl h'.freeBlocks.apart
  · exact pairwise_insert h.freeBlocks.apart hadd hpos fun span hm =>
      .inl (h.freeBlocks.inside span hm).2
  · exact fun _ hm => h'.free_pos hm
  · exact forall_insert (fun a m n hm hn => Nat.add_pos_left hm n) hadd hpos

/-- If one arena is longer and the same blocks are live, then all that it has more is free. -/
theorem Tiled.freeUnits_appended (h : heap.Tiled free live) (h' : other.Tiled free' live)
    {added : Nat} (hunits : other.arenaUnits = heap.arenaUnits + added) :
    other.freeUnits = heap.freeUnits + added := by
  rw [h'.freeBlocks.counted, h.freeBlocks.counted]
  rcases Nat.eq_zero_or_pos added with rfl | hadd
  · rw [h.free_unique h' hunits, Nat.add_zero]
  · rw [h.free_appended h' hunits hadd, sum_insert, Nat.add_comm]

omit [GivenUnits γ] in
/-- The headers on the ring are told by the free blocks. -/
theorem FreeBlocks.node_agree (h : heap.FreeBlocks free) (h' : other.FreeBlocks free) {span : Span}
    (hm : span ∈ sentinelSpan :: free) : other.node span.1 = heap.node span.1 := by
  obtain ⟨front, behind, he⟩ := List.append_of_mem hm
  rw [h.node_eq hm, h'.node_eq hm, h.linkOf_eq front span behind he,
    h'.linkOf_eq front span behind he]

end Heap

namespace HeapRun

open Heap

variable {γ β : Type} [ArenaRegion γ] {run : HeapRun γ β} {free : List Span}

/-! ## Double frees -/

/-- What a run with these free blocks makes of the address behind a unit of its arena. -/
structure TakesBack (run : HeapRun γ β) (free : List Span) (block : Nat) : Prop where
  /-- If the unit lies in a free block, be it the header or not, there is a complaint, and the heap
  is what it was. -/
  twice : (∃ span ∈ free, covers block span = true) →
    run.heap.free (payloadAt run.base block) = do
      Traced.report .error fun _ => .ok s!"heap: double free of block {block} ignored"
      return run.heap
  /-- If it is the header of a live block, the units of the block become free, and no others. There
  is no complaint. -/
  once : ∀ size, (block, size) ∈ run.spans → ∃ heap free',
    run.heap.free (payloadAt run.base block) = pure heap ∧ heap.freeList = .ok free' ∧
    (∀ unit, (∃ span ∈ free', covers unit span = true) ↔
      covers unit (block, size) = true ∨ ∃ span ∈ free, covers unit span = true) ∧
    heap.freeUnits = run.heap.freeUnits + size ∧ heap.arenaUnits = run.heap.arenaUnits

/-- Giving a block back makes as many units free as it has. -/
theorem GivesBack.freeUnits_eq [GivenUnits γ] {grant : Grant} {next : HeapRun γ β}
    (g : GivesBack run free grant next) (h : run.Sound free) :
    next.heap.freeUnits = run.heap.freeUnits + (grant.span run.base).2 := by
  rw [g.sound.tiled.freeBlocks.counted, sum_insert, h.tiled.freeBlocks.counted, Nat.add_comm]

/-- Giving a block back does not change the length of the arena. -/
theorem GivesBack.arenaUnits_eq [GivenUnits γ] {grant : Grant} {next : HeapRun γ β}
    (g : GivesBack run free grant next) (h : run.Sound free) :
    next.heap.arenaUnits = run.heap.arenaUnits := by
  rw [← g.sound.tiled.given, g.growth_eq, h.tiled.given]

/-- A sound run takes every live block back once, and complains about the address behind any unit
that is free already. -/
theorem Sound.takesBack [ArenaGrowth γ β] [GivenUnits γ] (h : run.Sound free) {block : Nat}
    (hblock : block < run.heap.arenaUnits) : run.TakesBack free block := by
  constructor
  · rintro ⟨span, hspan, hcover⟩
    rw [Heap.free, base, blockOf?_payloadAt hblock]
    exact release_of_covers h.tiled.freeBlocks hspan hcover
  · intro size hsize
    obtain ⟨grant, hgrant, hspan⟩ := List.mem_map.mp hsize
    obtain ⟨next, -, g⟩ := h.gives_back hgrant
    have hfreed := g.freed
    have hunits := g.freeUnits_eq h
    have hlisted := g.sound.tiled.freeBlocks.freeList_eq
    rw [(h.grants grant hgrant).2] at hfreed
    rw [hspan] at hfreed hunits hlisted
    exact ⟨next.heap, _, hfreed, hlisted, fun unit => exists_covers_insert, hunits,
      g.arenaUnits_eq h⟩

/-- In every run of either strategy, a block that is given back twice does no harm, wherever the
cursor stands and whatever became of the block in between, and a live block is always taken back. -/
theorem every_run_takes_back : EveryRun fun run => ∃ free, run.heap.freeList = .ok free ∧
    ∀ block < run.heap.arenaUnits, run.TakesBack free block := by
  apply everyRun_of_sound
  intro γ β _ _ _ _ run free h
  exact ⟨free, h.tiled.freeBlocks.freeList_eq, fun block hblock => h.takesBack hblock⟩

set_option synthInstance.maxSize 256 in
/-- Two blocks are served from a region. The lower one is given back and becomes part of the free
block in front of it, so giving it back once more is noticed, while the upper one is taken back.
The only block of a window is taken back, too. -/
theorem every_run_takes_back_region_and_window :
    (∃ run, Trace (start .empty (BumpBreak.ofRegion 4096 4096) ())
        [.allocate 24, .allocate 5, .free 6080] run ∧ run.heap.freeList = .ok [(0, 125)] ∧
        run.heap.free 6080 = (do
          Traced.report .error fun _ => .ok s!"heap: double free of block {123} ignored"
          return run.heap) ∧
        ∃ heap, run.heap.free 6112 = pure heap ∧ heap.freeUnits = run.heap.freeUnits + 3) ∧
      ∃ run, Trace (start .empty (PagedGrowth.ofWindow 4096 ⟨4096, by decide⟩ 8192)
        (⟨#[], none, none⟩ : PageLedger)) [.allocate 24] run ∧
        ∃ heap, run.heap.free 8160 = pure heap ∧ heap.freeUnits = run.heap.freeUnits + 3 := by
  constructor
  · let first : HeapRun BumpBreak Unit := start .empty (.ofRegion 4096 4096) ()
    have hrun : (do
        let one ← first.step (.allocate 24)
        let two ← one.step (.allocate 5)
        let three ← two.step (.free 6080)
        let free ← three.heap.freeList
        return (two.live, three.live, three.base, three.heap.arenaUnits, free) :
          Traced (List Grant × List Grant × Nat × Nat × List Span)).outcome =
          .ok ([⟨6080, 5⟩, ⟨6112, 24⟩], [⟨6112, 24⟩], 4096, 128, [(0, 125)]) := by
      decide +kernel
    simp only [Traced.outcome_bind, Outcome.bind_eq_ok, Traced.outcome_liftM, Traced.outcome_pure,
      Except.ok.injEq, Prod.mk.injEq] at hrun
    obtain ⟨one, hone, two, htwo, three, hthree, free, hlisted, htwolive, hlive, hbase, harena,
      rfl⟩ := hrun
    have legal : two.Legal (.free 6080) := by
      rw [Legal, htwolive]
      exact ⟨⟨6080, 5⟩, by simp, rfl⟩
    have t : Trace first [.allocate 24, .allocate 5, .free 6080] three :=
      .call trivial hone (.call trivial htwo (.call legal hthree (.done three)))
    obtain ⟨free, hlisted', htakes⟩ := every_run_takes_back.1 .empty 4096 4096 () _ three t
    cases hlisted.symm.trans hlisted'
    have htwice := (htakes 123 (by omega)).twice ⟨(0, 125), by simp, by decide⟩
    have hlast : (125, 3) ∈ three.spans := by
      rw [spans, hlive, hbase]
      decide
    obtain ⟨heap, free', hfree, -, -, hfreed, -⟩ := (htakes 125 (by omega)).once 3 hlast
    rw [hbase] at htwice hfree
    exact ⟨three, t, hlisted, htwice, heap, hfree, hfreed⟩
  · let first : HeapRun PagedGrowth PageLedger :=
      start .empty (.ofWindow 4096 ⟨4096, by decide⟩ 8192) ⟨#[], none, none⟩
    have hrun : (do
        let one ← first.step (.allocate 24)
        return (one.live, one.base, one.heap.arenaUnits) :
          Traced (List Grant × Nat × Nat)).outcome = .ok ([⟨8160, 24⟩], 4096, 256) := by
      decide +kernel
    simp only [Traced.outcome_bind, Outcome.bind_eq_ok, Traced.outcome_pure, Except.ok.injEq,
      Prod.mk.injEq] at hrun
    obtain ⟨one, hone, hlive, hbase, harena⟩ := hrun
    have t : Trace first [.allocate 24] one := .call trivial hone (.done one)
    obtain ⟨free, -, htakes⟩ := every_run_takes_back.2 .empty _ _ _ one
      (.ofWindow 4096 ⟨4096, by decide⟩ 8192 _ (by decide)) t
    have hblock : (253, 3) ∈ one.spans := by
      rw [spans, hlive, hbase]
      decide
    obtain ⟨heap, free', hfree, -, -, hfreed, -⟩ := (htakes 253 (by omega)).once 3 hblock
    rw [hbase] at hfree
    exact ⟨one, t, heap, hfree, hfreed⟩

/-! ## The order does not matter -/

/-- The calls that give blocks back, one after the other. -/
def giveBack (blocks : List Grant) : List HeapCall := blocks.map fun grant => .free grant.pointer

/-- Two runs with these free blocks that a heap tells apart by their cursors at most: they have the
same headers on the ring, and the same memory in the live blocks. What free blocks hold behind their
headers is left over from earlier and never looked at. -/
structure AgreeButCursor (one two : HeapRun γ β) (free : List Span) : Prop where
  listed : one.heap.freeList = .ok free ∧ two.heap.freeList = .ok free
  ring : ∀ span ∈ sentinelSpan :: free, two.heap.node span.1 = one.heap.node span.1
  freeUnits_eq : two.heap.freeUnits = one.heap.freeUnits
  arenaUnits_eq : two.heap.arenaUnits = one.heap.arenaUnits
  growth_eq : two.heap.growth = one.heap.growth
  pages_eq : two.pages = one.pages
  live_eq : two.live = one.live
  keeps : Keeps one.spans one.heap two.heap

/-- What is left of a run after some of its live blocks were given back. -/
structure GaveBack [GivenUnits γ] (run : HeapRun γ β) (blocks : List Grant) (last : HeapRun γ β) :
    Prop where
  sound : ∃ free, last.Sound free
  live : last.live = run.live.diff blocks
  growth_eq : last.heap.growth = run.heap.growth
  pages_eq : last.pages = run.pages
  keeps : Keeps (last.live.map (Grant.span run.base)) run.heap last.heap

section

variable [GivenUnits γ]

/-- No block is live twice: two live blocks have different addresses. -/
theorem Sound.nodup (h : run.Sound free) : run.live.Nodup :=
  h.pointers_ne.imp fun hne heq => hne (congrArg Grant.pointer heq)

/-- Distinct live blocks can be given back one after the other. -/
theorem Sound.exists_giveBack [ArenaGrowth γ β] (h : run.Sound free) {blocks : List Grant}
    (hnodup : blocks.Nodup) (hlive : ∀ grant ∈ blocks, grant ∈ run.live) :
    ∃ last, Trace run (giveBack blocks) last ∧ GaveBack run blocks last := by
  induction blocks generalizing run free with
  | nil => exact ⟨run, .done run, ⟨free, h⟩, rfl, rfl, rfl, Keeps.refl _ _⟩
  | cons grant rest ih =>
    obtain ⟨hnot, hrest⟩ := List.nodup_cons.mp hnodup
    obtain ⟨hgrant, hothers⟩ := List.forall_mem_cons.mp hlive
    obtain ⟨next, hnext, g⟩ := h.gives_back hgrant
    have hbase : next.base = run.base := congrArg ArenaRegion.base g.growth_eq
    have hstill : ∀ other ∈ rest, other ∈ next.live := by
      intro other hm
      rw [g.live]
      apply (List.mem_erase_of_ne _).mpr (hothers other hm)
      rintro rfl
      exact hnot hm
    obtain ⟨last, t, gave⟩ := ih g.sound hrest hstill
    refine ⟨last, .call ⟨grant, hgrant, rfl⟩ hnext t, gave.sound, ?_,
      gave.growth_eq.trans g.growth_eq, gave.pages_eq.trans g.pages_eq, ?_⟩
    · rw [gave.live, g.live, List.diff_cons]
    · have hkeeps := gave.keeps
      rw [hbase] at hkeeps
      -- What is still live at the end was live after the first block was given back.
      refine Keeps.trans (fun span hm => g.keeps span ?_) hkeeps
      obtain ⟨other, hother, rfl⟩ := List.mem_map.mp hm
      rw [gave.live] at hother
      exact List.mem_map_of_mem (List.diff_subset _ _ hother)

/-- What blocks are given back tells what is left, whatever their order was. -/
theorem GaveBack.agree {one two : HeapRun γ β} {blocks blocks' : List Grant}
    (gave : GaveBack run blocks one) (gave' : GaveBack run blocks' two)
    (hperm : blocks'.Perm blocks) : ∃ free, AgreeButCursor one two free := by
  obtain ⟨free, h⟩ := gave.sound
  obtain ⟨free', h'⟩ := gave'.sound
  have hgrowth : two.heap.growth = one.heap.growth := gave'.growth_eq.trans gave.growth_eq.symm
  have hbase : two.base = one.base := congrArg ArenaRegion.base hgrowth
  have hlive : two.live = one.live := by
    rw [gave.live, gave'.live]
    exact hperm.diff_left _
  have hspans : two.spans = one.spans := by
    unfold spans
    rw [hlive, hbase]
  have hunits : two.heap.arenaUnits = one.heap.arenaUnits := by
    rw [← h.tiled.given, ← h'.tiled.given, hgrowth]
  have htiled := h'.tiled
  rw [hspans] at htiled
  obtain rfl := h.tiled.free_unique htiled hunits
  refine ⟨_, ⟨h.tiled.freeBlocks.freeList_eq, h'.tiled.freeBlocks.freeList_eq⟩,
    fun _ => h.tiled.freeBlocks.node_agree h'.tiled.freeBlocks, ?_, hunits, hgrowth,
    gave'.pages_eq.trans gave.pages_eq.symm, hlive, ?_⟩
  · rw [h.tiled.freeBlocks.counted, h'.tiled.freeBlocks.counted]
  · have hrun : one.base = run.base := congrArg ArenaRegion.base gave.growth_eq
    intro span hm unit hcover
    unfold spans at hm
    rw [hrun] at hm
    have hone := gave.keeps span hm unit hcover
    rw [← hlive] at hm
    exact (gave'.keeps span hm unit hcover).trans hone.symm

end

/-- In every run of either strategy, live blocks can be given back in any order. The same blocks are
live after that, and the heap is the same but for its cursor. -/
theorem every_run_gives_back_in_any_order : EveryRun fun run => ∀ blocks blocks' : List Grant,
    blocks.Nodup → (∀ grant ∈ blocks, grant ∈ run.live) → blocks'.Perm blocks →
    ∃ one two free, Trace run (giveBack blocks) one ∧ Trace run (giveBack blocks') two ∧
      AgreeButCursor one two free ∧
      ∀ grant, grant ∈ one.live ↔ grant ∈ run.live ∧ grant ∉ blocks := by
  apply everyRun_of_sound
  intro γ β _ _ _ _ run free h blocks blocks' hnodup hlive hperm
  obtain ⟨one, t, gave⟩ := h.exists_giveBack hnodup hlive
  obtain ⟨two, t', gave'⟩ := h.exists_giveBack (hperm.nodup_iff.mpr hnodup) fun grant hm =>
    hlive grant (hperm.mem_iff.mp hm)
  obtain ⟨free', hagree⟩ := gave.agree gave' hperm
  refine ⟨one, two, free', t, t', hagree, ?_⟩
  intro grant
  rw [gave.live]
  exact List.Nodup.mem_sdiff_iff h.nodup

/-- Of the three blocks that are served from a region, two are given back in both orders, and so are
both blocks of a window. -/
theorem every_run_gives_back_in_any_order_region_and_window :
    (∃ run one two free, Trace (start .empty (BumpBreak.ofRegion 4096 4096) ())
        [.allocate 24, .allocate 5, .allocate 40] run ∧
        Trace run [.free 6112, .free 6080] one ∧ Trace run [.free 6080, .free 6112] two ∧
        AgreeButCursor one two free ∧ ⟨6016, 40⟩ ∈ one.live) ∧
      ∃ run one two free, Trace (start .empty (PagedGrowth.ofWindow 4096 ⟨4096, by decide⟩ 8192)
        (⟨#[], none, none⟩ : PageLedger)) [.allocate 24, .allocate 5] run ∧
        Trace run [.free 8160, .free 8128] one ∧ Trace run [.free 8128, .free 8160] two ∧
        AgreeButCursor one two free := by
  constructor
  · let first : HeapRun BumpBreak Unit := start .empty (.ofRegion 4096 4096) ()
    have hrun : (do
        let one ← first.step (.allocate 24)
        let two ← one.step (.allocate 5)
        let three ← two.step (.allocate 40)
        return three.live : Traced (List Grant)).outcome =
          .ok [⟨6016, 40⟩, ⟨6080, 5⟩, ⟨6112, 24⟩] := by
      decide +kernel
    simp only [Traced.outcome_bind, Outcome.bind_eq_ok, Traced.outcome_pure, Except.ok.injEq]
      at hrun
    obtain ⟨one, hone, two, htwo, three, hthree, hlive⟩ := hrun
    have t : Trace first [.allocate 24, .allocate 5, .allocate 40] three :=
      .call trivial hone (.call trivial htwo (.call trivial hthree (.done three)))
    obtain ⟨last, last', free, hlast, hlast', hagree, hrest⟩ :=
      every_run_gives_back_in_any_order.1 .empty 4096 4096 () _ three t [⟨6112, 24⟩, ⟨6080, 5⟩]
        [⟨6080, 5⟩, ⟨6112, 24⟩] (by decide) (by rw [hlive]; decide) (.swap _ _ _)
    exact ⟨three, last, last', free, t, hlast, hlast', hagree,
      (hrest ⟨6016, 40⟩).mpr (by rw [hlive]; decide)⟩
  · let first : HeapRun PagedGrowth PageLedger :=
      start .empty (.ofWindow 4096 ⟨4096, by decide⟩ 8192) ⟨#[], none, none⟩
    have hrun : (do
        let one ← first.step (.allocate 24)
        let two ← one.step (.allocate 5)
        return two.live : Traced (List Grant)).outcome = .ok [⟨8128, 5⟩, ⟨8160, 24⟩] := by
      decide +kernel
    simp only [Traced.outcome_bind, Outcome.bind_eq_ok, Traced.outcome_pure, Except.ok.injEq]
      at hrun
    obtain ⟨one, hone, two, htwo, hlive⟩ := hrun
    have t : Trace first [.allocate 24, .allocate 5] two :=
      .call trivial hone (.call trivial htwo (.done two))
    obtain ⟨last, last', free, hlast, hlast', hagree, -⟩ :=
      every_run_gives_back_in_any_order.2 .empty _ _ _ two
        (.ofWindow 4096 ⟨4096, by decide⟩ 8192 _ (by decide)) t [⟨8160, 24⟩, ⟨8128, 5⟩]
        [⟨8128, 5⟩, ⟨8160, 24⟩] (by decide) (by rw [hlive]; decide) (.swap _ _ _)
    exact ⟨two, last, last', free, t, hlast, hlast', hagree⟩

/-! ## Giving back undoes serving -/

/-- What a block leaves behind that was given back as soon as it was served: `next` is the run in
between, and `added` says by how many units the arena grew for it. -/
structure Undone (run next last : HeapRun γ β) (free : List Span) (added : Nat) : Prop where
  added_eq : next.heap.arenaUnits = run.heap.arenaUnits + added
  arenaUnits_eq : last.heap.arenaUnits = next.heap.arenaUnits
  freeUnits_eq : last.heap.freeUnits = run.heap.freeUnits + added
  growth_eq : last.heap.growth = next.heap.growth
  pages_eq : last.pages = next.pages
  live_eq : last.live = run.live
  /-- The other live blocks, headers and payloads, are as they were. -/
  keeps : Keeps run.spans run.heap last.heap
  /-- If the arena did not grow, the free blocks are as they were. -/
  same : added = 0 → last.heap.freeList = .ok free
  /-- If it grew, the new units are free, too: as part of the last free block if that one reached
  to the end of the arena, and as a block of their own if none did. -/
  grown : 0 < added →
    (∃ front start size, free = front ++ [(start, size)] ∧ start + size = run.heap.arenaUnits ∧
      last.heap.freeList = .ok (front ++ [(start, size + added)])) ∨
    (∀ span ∈ free, span.1 + span.2 ≠ run.heap.arenaUnits) ∧
      last.heap.freeList = .ok (free ++ [(run.heap.arenaUnits, added)])

variable [ArenaGrowth γ β]

/-- Only a request makes one more block live, and a request touches no other block. -/
theorem request_of_served {call : HeapCall} {next : HeapRun γ β} {grant : Grant}
    (hstep : (run.step call).outcome = .ok next) (hserved : next.live = grant :: run.live) :
    run.Legal call ∧ ∀ pointer, ¬ call.Touches pointer := by
  have hlonger : run.live.length < next.live.length := by
    rw [hserved]
    exact Nat.lt_succ_self _
  cases call with
  | allocate bytes => exact ⟨trivial, fun _ => id⟩
  | allocateLayout layout => exact ⟨trivial, fun _ => id⟩
  | allocateZeroed bytes => exact ⟨trivial, fun _ => id⟩
  | free pointer =>
    simp only [HeapRun.step, Traced.outcome_bind, Outcome.bind_eq_ok] at hstep
    obtain ⟨heap, -, hstep⟩ := hstep
    cases hstep
    exact absurd (List.length_eraseP_le) (Nat.not_le_of_lt hlonger)
  | store pointer count source =>
    cases hstep
    exact absurd hlonger (Nat.lt_irrefl _)

variable [GivenUnits γ] [LawfulGrowth γ β]

/-- A block that is given back as soon as it was served leaves the free blocks as they were, with
what the arena grew by. -/
theorem Sound.undone (h : run.Sound free) {call : HeapCall} {next : HeapRun γ β} {grant : Grant}
    (hstep : (run.step call).outcome = .ok next) (hserved : next.live = grant :: run.live) :
    ∃ last added, (next.step (.free grant.pointer)).outcome = .ok last ∧
      Undone run next last free added := by
  obtain ⟨legal, huntouched⟩ := request_of_served hstep hserved
  have follows := h.follows legal hstep
  obtain ⟨middle, hnext⟩ := follows.sound
  have hgrant : grant ∈ next.live := by
    rw [hserved]
    exact List.mem_cons_self
  obtain ⟨last, hlast, g⟩ := hnext.gives_back hgrant
  obtain ⟨added, hadded⟩ := Nat.exists_eq_add_of_le (h.arenaUnits_le legal hstep)
  have harena : last.heap.arenaUnits = next.heap.arenaUnits := g.arenaUnits_eq hnext
  have hlive : last.live = run.live := by
    rw [g.live, hserved, List.erase_cons_head]
  have hbase : last.base = run.base :=
    (congrArg ArenaRegion.base g.growth_eq).trans follows.base_eq
  have hspans : last.spans = run.spans := by
    unfold spans
    rw [hlive, hbase]
  have hkeeps : Keeps run.spans run.heap last.heap := by
    intro span hm unit hcover
    have hafter := g.keeps span (by rwa [hlive, follows.base_eq]) unit hcover
    obtain ⟨other, hother, rfl⟩ := List.mem_map.mp hm
    exact hafter.trans ((follows.live other hother (huntouched _)).2 unit hcover)
  have hlisted := g.sound.tiled.freeBlocks.freeList_eq
  have htiled := g.sound.tiled
  rw [hspans] at htiled
  have hunits : last.heap.arenaUnits = run.heap.arenaUnits + added := harena.trans hadded
  refine ⟨last, added, hlast, hadded, harena, h.tiled.freeUnits_appended htiled hunits, g.growth_eq,
    g.pages_eq, hlive, hkeeps, ?_, ?_⟩
  · rintro rfl
    rw [hlisted, h.tiled.free_unique htiled hunits]
  · intro hadd
    rw [hlisted, h.tiled.free_appended htiled hunits hadd]
    rcases insert_at_end h.tiled.freeBlocks.apart (fun _ hm => h.tiled.free_pos hm)
        (fun span hm => (h.tiled.freeBlocks.inside span hm).2) added with
      ⟨front, start, size, hfree, hend, hjoined⟩ | ⟨hne, hbeyond⟩
    · left
      exact ⟨front, start, size, hfree, hend, congrArg Except.ok hjoined⟩
    · right
      exact ⟨hne, congrArg Except.ok hbeyond⟩

omit [GivenUnits γ] [LawfulGrowth γ β] in
/-- In every run of either strategy, giving a block back as soon as it was served leaves the free
blocks as they were, and the units by which the arena grew. The call may be any: one after which one
more block is live was a request that was served. -/
theorem every_run_undoes : EveryRun fun run => ∀ call next grant,
    (run.step call).outcome = .ok next → next.live = grant :: run.live →
    ∃ free last added, run.heap.freeList = .ok free ∧
      (next.step (.free grant.pointer)).outcome = .ok last ∧
      Undone run next last free added := by
  apply everyRun_of_sound
  intro γ β _ _ _ _ run free h call next grant hstep hserved
  obtain ⟨last, added, hlast, hundone⟩ := h.undone hstep hserved
  exact ⟨free, last, added, h.tiled.freeBlocks.freeList_eq, hlast, hundone⟩

omit [GivenUnits γ] [LawfulGrowth γ β] in
set_option synthInstance.maxSize 256 in
/-- A region grows for its second block, and the new units are a free block behind the first block
once the second has come back. A window grows, too, and has one free block both before and after. -/
theorem every_run_undoes_region_and_window :
    (∃ run next last, Trace (start .empty (BumpBreak.ofRegion 4096 8192) ()) [.allocate 24] run ∧
        (run.step (.allocate 3000)).outcome = .ok next ∧
        (next.step (.free 6160)).outcome = .ok last ∧ Undone run next last [(0, 125)] 189) ∧
      ∃ run next last, Trace (start .empty (PagedGrowth.ofWindow 4096 ⟨4096, by decide⟩ 16384)
        (⟨#[], none, none⟩ : PageLedger)) [.allocate 24, .free 8160] run ∧
        (run.step (.allocate 4096)).outcome = .ok next ∧
        (next.step (.free 12288)).outcome = .ok last ∧ Undone run next last [(0, 256)] 512 := by
  constructor
  · let first : HeapRun BumpBreak Unit := start .empty (.ofRegion 4096 8192) ()
    have hrun : (do
        let one ← first.step (.allocate 24)
        let free ← one.heap.freeList
        let two ← one.step (.allocate 3000)
        return (one.live, two.live, two.heap.arenaUnits - one.heap.arenaUnits, free) :
          Traced (List Grant × List Grant × Nat × List Span)).outcome =
          .ok ([⟨6112, 24⟩], [⟨6160, 3000⟩, ⟨6112, 24⟩], 189, [(0, 125)]) := by
      decide +kernel
    simp only [Traced.outcome_bind, Outcome.bind_eq_ok, Traced.outcome_liftM, Traced.outcome_pure,
      Except.ok.injEq, Prod.mk.injEq] at hrun
    obtain ⟨one, hone, free, hlisted, two, htwo, hlive, htwolive, hgrown, rfl⟩ := hrun
    have t : Trace first [.allocate 24] one := .call trivial hone (.done one)
    obtain ⟨free, last, added, hlisted', hlast, hundone⟩ := every_run_undoes.1 .empty 4096 8192 () _
      one t (.allocate 3000) two ⟨6160, 3000⟩ htwo (by rw [htwolive, hlive])
    cases hlisted.symm.trans hlisted'
    obtain rfl : added = 189 := by rw [← hgrown, hundone.added_eq, Nat.add_sub_cancel_left]
    exact ⟨one, two, last, t, htwo, hlast, hundone⟩
  · let first : HeapRun PagedGrowth PageLedger :=
      start .empty (.ofWindow 4096 ⟨4096, by decide⟩ 16384) ⟨#[], none, none⟩
    have hrun : (do
        let one ← first.step (.allocate 24)
        let two ← one.step (.free 8160)
        let free ← two.heap.freeList
        let three ← two.step (.allocate 4096)
        return (one.live, two.live, three.live, three.heap.arenaUnits - two.heap.arenaUnits, free) :
          Traced (List Grant × List Grant × List Grant × Nat × List Span)).outcome =
          .ok ([⟨8160, 24⟩], [], [⟨12288, 4096⟩], 512, [(0, 256)]) := by
      decide +kernel
    simp only [Traced.outcome_bind, Outcome.bind_eq_ok, Traced.outcome_liftM, Traced.outcome_pure,
      Except.ok.injEq, Prod.mk.injEq] at hrun
    obtain ⟨one, hone, two, htwo, free, hlisted, three, hthree, honelive, hlive, hthreelive, hgrown,
      rfl⟩ := hrun
    have legal : one.Legal (.free 8160) := by
      rw [Legal, honelive]
      exact ⟨⟨8160, 24⟩, by simp, rfl⟩
    have t : Trace first [.allocate 24, .free 8160] two :=
      .call trivial hone (.call legal htwo (.done two))
    obtain ⟨free, last, added, hlisted', hlast, hundone⟩ := every_run_undoes.2 .empty _ _ _ two
      (.ofWindow 4096 ⟨4096, by decide⟩ 16384 _ (by decide)) t (.allocate 4096) three ⟨12288, 4096⟩
      hthree (by rw [hthreelive, hlive])
    cases hlisted.symm.trans hlisted'
    obtain rfl : added = 512 := by rw [← hgrown, hundone.added_eq, Nat.add_sub_cancel_left]
    exact ⟨two, three, last, t, hthree, hlast, hundone⟩

end HeapRun

end BootMemory
