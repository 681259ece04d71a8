import BootMemory.Proofs.Heap.Safety

/-!
# The free list is in normal form

The free blocks of a heap are kept in a normal form: the links visit them in ascending order
and come back to the sentinel after the last one, and no two of them touch. The form does not
depend on the order in which the blocks were served and given back, and for a heap without live
blocks there is only one such list: a single block that is the whole arena.

The ring (`Heap.FreeBlocks`) says this in terms of headers and spans. `Heap.Coalesced` says it
as a reader of the heap sees it, through the links that the headers hold, and every run of
either strategy has it (`HeapRun.every_run_coalesced`).
-/

set_option autoImplicit false

namespace BootMemory

open BootMemory.Span

namespace Span

variable {spans : List Span} {units : Nat}

/-- A tiling by spans that lie apart is a single span: no other such list covers the same units. -/
theorem Tiles.eq_singleton (h : Tiles spans units) (hp : spans.Pairwise Apart)
    (hpos : ∀ span ∈ spans, 0 < span.2) (hunits : 0 < units) : spans = [(0, units)] := by
  have hwhole : Tiles ([(0, units)] ++ []) units := by
    intro unit
    rw [List.append_nil, List.countP_singleton]
    simp only [covers_iff, Nat.zero_le, true_and, Nat.zero_add]
  rw [← List.append_nil spans] at h
  apply h.unique hwhole .rfl hp (List.pairwise_singleton _ _) hpos
  exact fun span hm => List.mem_singleton.mp hm ▸ hunits

end Span

namespace Heap

variable {γ : Type} {heap : Heap γ} {free : List Span}

/-- The indices that the next `steps` links lead to, from an index on. -/
def visited (heap : Heap γ) : Nat → Nat → Except Fault (List Nat)
  | 0, _ => .ok []
  | steps + 1, index => do
    let unit ← heap.node index
    let others ← heap.visited steps unit.link
    return unit.link :: others

/-- The free blocks of a heap, each with its index and its size, are in normal form. -/
structure Coalesced (heap : Heap γ) (free : List Span) : Prop where
  /-- The heap lists and counts these blocks. -/
  listed : heap.freeList = .ok free
  counted : heap.freeBlocks = .ok free.length
  /-- The links lead from the sentinel through the blocks, in this order, and back to it, and the
  sentinel is none of them. -/
  lap : heap.visited (free.length + 1) sentinel = .ok (free.map Prod.fst ++ [sentinel])
  ne_sentinel : ∀ span ∈ free, span.1 ≠ sentinel
  ascending : (free.map Prod.fst).Pairwise (· < ·)
  /-- Every block has at least one unit, and ends within the arena. -/
  inside : ∀ span ∈ free, 1 ≤ span.2 ∧ span.1 + span.2 ≤ heap.arenaUnits
  /-- No block ends where another one starts. -/
  apart : free.Pairwise fun a b => a.1 + a.2 ≠ b.1
  /-- The cursor is the sentinel or a block of the list. -/
  cursor : heap.cursor = sentinel ∨ ∃ span ∈ free, heap.cursor = span.1
  /-- The counter of free units is the sum of the sizes. -/
  freeUnits : heap.freeUnits = (free.map Prod.snd).sum

/-- The links of the ring are followed from any of its headers to the end of the list. -/
theorem FreeBlocks.visited_eq (h : heap.FreeBlocks free) (first : Span) (rest : List Span)
    (hm : ∀ span ∈ first :: rest, span ∈ sentinelSpan :: free)
    (hleads : heap.Leads sentinel (first :: rest)) :
    heap.visited (rest.length + 1) first.1 = .ok (rest.map Prod.fst ++ [sentinel]) := by
  induction rest generalizing first with
  | nil =>
    rw [List.length_nil, visited, h.node_eq (hm first List.mem_cons_self), Outcome.ok_bind,
      hleads.1]
    rfl
  | cons next others ih =>
    have hnext := ih next (fun span hspan => hm span (List.mem_cons_of_mem _ hspan)) hleads.2
    rw [List.length_cons, visited, h.node_eq (hm first List.mem_cons_self), Outcome.ok_bind,
      hleads.1, entry_cons, hnext]
    rfl

/-- The free blocks of a heap are in normal form. -/
theorem FreeBlocks.coalesced (h : heap.FreeBlocks free) : heap.Coalesced free where
  listed := h.freeList_eq
  counted := by
    rw [freeBlocks, h.freeList_eq]
    rfl
  lap := h.visited_eq sentinelSpan free (fun _ hm => hm) h.leads
  ne_sentinel _ hm := h.ne_sentinel hm
  ascending := by
    refine List.pairwise_map.mpr (h.apart.imp fun hab => ?_)
    unfold Apart at hab
    omega
  inside := h.inside
  apart := h.apart.imp fun hab => Nat.ne_of_lt hab
  cursor := by
    obtain ⟨span, hm, hcursor⟩ := h.exists_cursor
    rcases List.mem_cons.mp hm with rfl | hm
    · exact .inl hcursor
    · exact .inr ⟨span, hm, hcursor⟩
  freeUnits := h.counted

/-- Without live blocks the free blocks are one block that is the whole arena. -/
theorem Tiled.free_eq_singleton [GivenUnits γ] (h : heap.Tiled free [])
    (hunits : 0 < heap.arenaUnits) :
    free = [(0, heap.arenaUnits)] ∧ heap.freeUnits = heap.arenaUnits := by
  have htiles := h.tiles
  rw [List.append_nil] at htiles
  obtain rfl := htiles.eq_singleton h.freeBlocks.apart (fun _ hm => h.free_pos hm) hunits
  exact ⟨rfl, h.freeBlocks.counted⟩

end Heap

namespace HeapRun

open Heap

variable {γ β : Type} [ArenaRegion γ]

/-- The free blocks of a run are in normal form, and are one block as soon as no block is
live. -/
def Merged (run : HeapRun γ β) : Prop :=
  ∃ free, run.heap.Coalesced free ∧ (run.live = [] → 0 < run.heap.arenaUnits →
    free = [(0, run.heap.arenaUnits)] ∧ run.heap.freeUnits = run.heap.arenaUnits)

/-- The free blocks of a sound run are in normal form, and are one block if none is live. -/
theorem Sound.merged [GivenUnits γ] {run : HeapRun γ β} {free : List Span}
    (h : run.Sound free) : run.Merged := by
  refine ⟨free, h.tiled.freeBlocks.coalesced, ?_⟩
  intro hlive hunits
  have htiled := h.tiled
  rw [spans, hlive] at htiled
  exact htiled.free_eq_singleton hunits

/-- Whatever is served and given back, in whatever order and from wherever the searches start,
the free list of a heap over a break or over pages is in normal form: ascending, within the
arena, no two blocks touching, the cursor on it and its units counted. When all blocks have come
back, it is one block that is the whole arena. -/
theorem every_run_coalesced :
    (∀ {β : Type} (arena : Arena) (base bytes : Nat) (pages : β) (calls : List HeapCall)
        (run : HeapRun BumpBreak β), Trace (start arena (.ofRegion base bytes) pages) calls run →
      run.Merged) ∧
    ∀ {β : Type} [PageBacking β] (arena : Arena) (growth : PagedGrowth) (pages : β)
        (calls : List HeapCall) (run : HeapRun PagedGrowth β), PagedGrowth.Unused growth pages →
      Trace (start arena growth pages) calls run → run.Merged := by
  constructor
  · intro β arena base bytes pages calls run t
    obtain ⟨free, h⟩ := sound_of_trace arena (BumpBreak.sound_ofRegion base bytes)
      (BumpBreak.given_ofRegion base bytes) t
    exact h.merged
  · intro β _ arena growth pages calls run hunused t
    obtain ⟨free, h⟩ := sound_of_trace arena hunused.sound hunused.given t
    exact h.merged

/-- Two blocks are served from a region and given back, the upper one first, and a block is served
from a window and given back. -/
theorem every_run_coalesced_region_and_window :
    (∃ run, Trace (start .empty (BumpBreak.ofRegion 4096 4096) ())
        [.allocate 24, .allocate 5, .free 6112, .free 6080] run ∧ run.live = [] ∧
          run.heap.arenaUnits = 128 ∧ run.Merged) ∧
      ∃ run, Trace (start .empty (PagedGrowth.ofWindow 4096 ⟨4096, by decide⟩ 8192)
        (⟨#[], none, none⟩ : PageLedger)) [.allocate 24, .free 8160] run ∧ run.live = [] ∧
          run.heap.arenaUnits = 256 ∧ run.Merged := by
  constructor
  · let first : HeapRun BumpBreak Unit := start .empty (.ofRegion 4096 4096) ()
    have hrun : (do
        let one ← first.step (.allocate 24)
        let two ← one.step (.allocate 5)
        let three ← two.step (.free 6112)
        let four ← three.step (.free 6080)
        return (two.live, three.live, four.live, four.heap.arenaUnits) :
          Traced (List Grant × List Grant × List Grant × Nat)).outcome =
          .ok ([⟨6080, 5⟩, ⟨6112, 24⟩], [⟨6080, 5⟩], [], 128) := by
      decide +kernel
    simp only [Traced.outcome_bind, Outcome.bind_eq_ok, Traced.outcome_pure, Except.ok.injEq,
      Prod.mk.injEq] at hrun
    obtain ⟨one, hone, two, htwo, three, hthree, four, hfour, htwolive, hthreelive, hlive,
      hunits⟩ := hrun
    have hthird : two.Legal (.free 6112) := by
      rw [Legal, htwolive]
      exact ⟨⟨6112, 24⟩, by simp, rfl⟩
    have hfourth : three.Legal (.free 6080) := by
      rw [Legal, hthreelive]
      exact ⟨⟨6080, 5⟩, by simp, rfl⟩
    have t : Trace first [.allocate 24, .allocate 5, .free 6112, .free 6080] four :=
      .call trivial hone (.call trivial htwo (.call hthird hthree (.call hfourth hfour
        (.done four))))
    exact ⟨four, t, hlive, hunits, every_run_coalesced.1 .empty 4096 4096 () _ four t⟩
  · let first : HeapRun PagedGrowth PageLedger :=
      start .empty (.ofWindow 4096 ⟨4096, by decide⟩ 8192) ⟨#[], none, none⟩
    have hrun : (do
        let one ← first.step (.allocate 24)
        let two ← one.step (.free 8160)
        return (one.live, two.live, two.heap.arenaUnits) :
          Traced (List Grant × List Grant × Nat)).outcome = .ok ([⟨8160, 24⟩], [], 256) := by
      decide +kernel
    simp only [Traced.outcome_bind, Outcome.bind_eq_ok, Traced.outcome_pure, Except.ok.injEq,
      Prod.mk.injEq] at hrun
    obtain ⟨one, hone, two, htwo, honelive, hlive, hunits⟩ := hrun
    have hsecond : one.Legal (.free 8160) := by
      rw [Legal, honelive]
      exact ⟨⟨8160, 24⟩, by simp, rfl⟩
    have t : Trace first [.allocate 24, .free 8160] two :=
      .call trivial hone (.call hsecond htwo (.done two))
    exact ⟨two, t, hlive, hunits, every_run_coalesced.2 .empty _ _ _ two
      (.ofWindow 4096 ⟨4096, by decide⟩ 8192 _ (by decide)) t⟩

end HeapRun

end BootMemory
