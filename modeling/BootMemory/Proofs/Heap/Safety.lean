import BootMemory.Heap.PageLedger
import BootMemory.Proofs.Heap.Supply

/-!
# Safety of a heap

What a user of a heap may rely on, in terms of addresses. `HeapRun.Laid` is about one moment:
the blocks tile the arena, and a payload shares no byte with another payload, with a header
or with a free block. `HeapRun.Safe` is about what comes after it: legal calls go through,
and a block that nobody gives back or writes keeps every byte, of its header as well as of its
payload. Every run of either strategy is safe (`safe_of_trace`).
-/

set_option autoImplicit false

namespace BootMemory.HeapRun

open Heap BootMemory.Span

variable {γ β : Type} [ArenaRegion γ]

/-- The blocks of a run, with `free` as the free ones. -/
structure Laid (run : HeapRun γ β) (free : List Span) : Prop where
  /-- Every unit of the arena lies in exactly one block. -/
  tiles : Tiles (free ++ run.spans) run.heap.arenaUnits
  /-- Every block starts with a header that holds its size. -/
  headers : ∀ span ∈ free ++ run.spans, 0 < span.2 ∧ (run.heap.arena.get span.1).size = span.2
  /-- A live address lies right behind the header of a block within the arena, which has a unit
  for the header and as many as hold the bytes. -/
  grants : ∀ grant ∈ run.live, ∃ block,
    grant.pointer = run.base + (block + 1) * unitBytes ∧
    grant.span run.base = (block, (grant.bytes + (unitBytes - 1)) / unitBytes + 1) ∧
    block + ((grant.bytes + (unitBytes - 1)) / unitBytes + 1) ≤ run.heap.arenaUnits
  /-- No two payloads share a byte. -/
  payloads : run.live.Pairwise fun a b => ∀ addr, ¬ (a.Holds addr ∧ b.Holds addr)
  /-- No payload shares a byte with a header. -/
  besideHeaders : ∀ grant ∈ run.live, ∀ addr, grant.Holds addr →
    ∀ span ∈ free ++ run.spans, ¬ run.Occupies span.1 1 addr
  /-- No payload shares a byte with a free block. -/
  besideFree : ∀ grant ∈ run.live, ∀ addr, grant.Holds addr →
    ∀ span ∈ free, ¬ run.Occupies span.1 span.2 addr

/-- What a run promises. -/
structure Safe [ArenaGrowth γ β] (run : HeapRun γ β) : Prop where
  blocks : ∃ free, run.heap.freeList = .ok free ∧ run.Laid free
  /-- A legal call faults only if the strategy does when it is asked for units. -/
  served : ∀ call, run.Legal call → (∃ next, (run.step call).outcome = .ok next) ∨
    ∃ units fault, (run.step call).outcome = .error fault ∧
      (requestUnits units run.heap.growth run.pages).outcome = .error fault
  /-- Later calls leave a block alone that they do not touch. -/
  kept : ∀ calls later, Trace run calls later → ∀ grant ∈ run.live,
    (∀ call ∈ calls, ¬ call.Touches grant.pointer) → grant ∈ later.live ∧
      ∀ unit, covers unit (grant.span run.base) = true →
        later.heap.arena.get unit = run.heap.arena.get unit

variable {run : HeapRun γ β} {free : List Span}

/-- An address among some units lies in one of them. -/
theorem Occupies.unit {first count addr : Nat} (h : run.Occupies first count addr) :
    covers ((addr - run.base) / unitBytes) (first, count) = true := by
  obtain ⟨hle, hlt⟩ := h
  unfold unitBytes at *
  rw [covers_iff]
  simp only
  omega

section Sound

variable [GivenUnits γ]

/-- A byte of a payload lies in a unit of its block behind the header. -/
theorem Sound.holds_unit (h : run.Sound free) {grant : Grant} (hm : grant ∈ run.live) {addr : Nat}
    (hholds : grant.Holds addr) :
    (grant.span run.base).1 < (addr - run.base) / unitBytes ∧
      covers ((addr - run.base) / unitBytes) (grant.span run.base) = true := by
  obtain ⟨-, hpointer⟩ := h.grants grant hm
  obtain ⟨hle, hlt⟩ := hholds
  have hsize : (grant.span run.base).2 = (grant.bytes + 15) / 16 + 1 := rfl
  rw [covers_iff, hsize]
  unfold payloadAt unitBytes at *
  omega

/-- The free blocks and the live blocks of a sound run lie in the arena as they should. -/
theorem Sound.laid (h : run.Sound free) : run.Laid free := by
  have hdisjoint := h.tiled.tiles
  refine ⟨hdisjoint, ?_, ?_, ?_, ?_, ?_⟩
  · intro span hm
    rcases List.mem_append.mp hm with hm | hm
    · have hsize := h.tiled.freeBlocks.sizes span hm
      unfold Heap.sizeOf at hsize
      rw [if_neg (h.tiled.freeBlocks.ne_sentinel hm)] at hsize
      exact ⟨h.tiled.free_pos hm, hsize⟩
    · exact h.tiled.headers span hm
  · intro grant hm
    exact ⟨_, (h.grants grant hm).2, rfl, h.tiled.live_le (List.mem_map_of_mem hm)⟩
  · have hpairs := (List.pairwise_append.mp hdisjoint.pairwise).2.1
    refine (List.pairwise_map.mp hpairs).imp_of_mem fun ha hb hnot addr hboth => ?_
    exact hnot _ ⟨(h.holds_unit ha hboth.1).2, (h.holds_unit hb hboth.2).2⟩
  · intro grant hm addr hholds span hspan hheader
    obtain ⟨hlt, hcover⟩ := h.holds_unit hm hholds
    have hunit := covers_iff.mp hheader.unit
    simp only at hunit
    have hpos : 0 < span.2 := by
      rcases List.mem_append.mp hspan with hspan | hspan
      · exact h.tiled.free_pos hspan
      · exact (h.tiled.headers span hspan).1
    have hspancover : covers ((addr - run.base) / unitBytes) span = true :=
      covers_iff.mpr (by omega)
    have hgrant : grant.span run.base ∈ run.spans := List.mem_map_of_mem hm
    -- Two blocks with a common unit are one, but this unit lies behind the header of its block.
    obtain rfl := hdisjoint.eq_of_covers hspan (List.mem_append_right _ hgrant) hspancover hcover
    omega
  · intro grant hm addr hholds span hspan hfree
    have hnot := hdisjoint.not_covers (List.mem_map_of_mem hm) (h.holds_unit hm hholds).2 span hspan
    rw [hfree.unit] at hnot
    exact Bool.noConfusion hnot

variable [ArenaGrowth γ β] [LawfulGrowth γ β]

/-- Legal calls lead from sound runs to sound runs, and leave the blocks alone that none of them
touches. -/
theorem Trace.follows {calls : List HeapCall} {later : HeapRun γ β} (t : Trace run calls later) :
    ∀ free, run.Sound free → (∃ free', later.Sound free') ∧ ∀ grant ∈ run.live,
      (∀ call ∈ calls, ¬ call.Touches grant.pointer) → grant ∈ later.live ∧
        ∀ unit, covers unit (grant.span run.base) = true →
          later.heap.arena.get unit = run.heap.arena.get unit := by
  induction t with
  | done run => exact fun free h => ⟨⟨free, h⟩, fun _ hm _ => ⟨hm, fun _ _ => rfl⟩⟩
  | call legal hstep rest ih =>
    intro free h
    have hfollows := h.follows legal hstep
    obtain ⟨free', hnext⟩ := hfollows.sound
    obtain ⟨hlast, hkept⟩ := ih free' hnext
    refine ⟨hlast, ?_⟩
    intro grant hm huntouched
    obtain ⟨hcall, hcalls⟩ := List.forall_mem_cons.mp huntouched
    obtain ⟨hm', hsame⟩ := hfollows.live grant hm hcall
    obtain ⟨hm'', hsame'⟩ := hkept grant hm' hcalls
    rw [hfollows.base_eq] at hsame'
    exact ⟨hm'', fun unit hcover => (hsame' unit hcover).trans (hsame unit hcover)⟩

/-- A sound run is safe. -/
theorem Sound.safe (h : run.Sound free) : run.Safe where
  blocks := ⟨free, h.tiled.freeBlocks.freeList_eq, h.laid⟩
  served call legal := by
    rcases h.step legal with hfault | ⟨next, houtcome, -⟩
    · exact .inr hfault
    · exact .inl ⟨next, houtcome⟩
  kept calls later t := (t.follows free h).2

/-- A run that starts with no unit given is sound at every moment. -/
theorem sound_of_trace (arena : Arena) {growth : γ} {pages : β}
    (hsound : GivenUnits.Sound growth) (hgiven : GivenUnits.given growth = 0)
    {calls : List HeapCall} (t : Trace (start arena growth pages) calls run) :
    ∃ free, run.Sound free := (t.follows [] (sound_start arena pages hsound hgiven)).1

/-- A run that starts with no unit given is safe at every moment. -/
theorem safe_of_trace (arena : Arena) {growth : γ} {pages : β} (hsound : GivenUnits.Sound growth)
    (hgiven : GivenUnits.given growth = 0) {calls : List HeapCall}
    (t : Trace (start arena growth pages) calls run) : run.Safe := by
  obtain ⟨free, h⟩ := sound_of_trace arena hsound hgiven t
  exact h.safe

end Sound

/-! ## The two strategies -/

/-- A property that every run of either strategy has, over whatever memory, and whatever was served
and given back before. -/
def EveryRun
    (holds : ∀ {γ β : Type} [ArenaRegion γ] [ArenaGrowth γ β], HeapRun γ β → Prop) : Prop :=
  (∀ {β : Type} (arena : Arena) (base bytes : Nat) (pages : β) (calls : List HeapCall)
      (run : HeapRun BumpBreak β), Trace (start arena (.ofRegion base bytes) pages) calls run →
    holds run) ∧
  ∀ {β : Type} [PageBacking β] (arena : Arena) (growth : PagedGrowth) (pages : β)
      (calls : List HeapCall) (run : HeapRun PagedGrowth β), PagedGrowth.Unused growth pages →
    Trace (start arena growth pages) calls run → holds run

/-- What holds of the sound runs of every ample strategy holds of every run. -/
theorem everyRun_of_sound
    {holds : ∀ {γ β : Type} [ArenaRegion γ] [ArenaGrowth γ β], HeapRun γ β → Prop}
    (h : ∀ {γ β : Type} [ArenaRegion γ] [ArenaGrowth γ β] [GivenUnits γ] [AmpleGrowth γ β]
      {run : HeapRun γ β} {free : List Span}, run.Sound free → holds run) : EveryRun holds := by
  constructor
  · intro β arena base bytes pages calls run t
    obtain ⟨free, hsound⟩ := sound_of_trace arena (BumpBreak.sound_ofRegion base bytes)
      (BumpBreak.given_ofRegion base bytes) t
    exact h hsound
  · intro β _ arena growth pages calls run hunused t
    obtain ⟨free, hsound⟩ := sound_of_trace arena hunused.sound hunused.given t
    exact h hsound

/-- A break never faults. -/
theorem requestUnits_bump {β : Type} (units : Nat) (bump : BumpBreak) (pages : β) :
    ∃ result, (requestUnits units bump pages).outcome = .ok result := by
  obtain ⟨answer, other, houtcome, -⟩ := BumpBreak.requestUnits_outcome units bump pages
  exact ⟨_, houtcome⟩

/-- Whatever is asked of a heap, in whatever order and over whatever memory, as long as only
live blocks are given back and only their payloads are written: the blocks tile the arena, no
two of them share a byte, every legal call goes through, and a block that is left alone
keeps its bytes. A heap over a break never faults. A heap over pages faults only if a page
cannot be named or the pages themselves fault, and every state before that is safe. -/
theorem every_run_safe :
    (∀ {β : Type} (arena : Arena) (base bytes : Nat) (pages : β) (calls : List HeapCall)
        (run : HeapRun BumpBreak β), Trace (start arena (.ofRegion base bytes) pages) calls run →
      run.Safe ∧ ∀ call, run.Legal call → ∃ next, (run.step call).outcome = .ok next) ∧
    ∀ {β : Type} [PageBacking β] (arena : Arena) (growth : PagedGrowth) (pages : β)
        (calls : List HeapCall) (run : HeapRun PagedGrowth β), PagedGrowth.Unused growth pages →
      Trace (start arena growth pages) calls run → run.Safe := by
  constructor
  · intro β arena base bytes pages calls run t
    have hsafe := safe_of_trace arena (BumpBreak.sound_ofRegion base bytes)
      (BumpBreak.given_ofRegion base bytes) t
    refine ⟨hsafe, ?_⟩
    intro call legal
    rcases hsafe.served call legal with hnext | ⟨units, fault, -, hfault⟩
    · exact hnext
    · obtain ⟨result, hresult⟩ := requestUnits_bump units run.heap.growth run.pages
      rw [hfault] at hresult
      exact nomatch hresult
  · intro β _ arena growth pages calls run hunused t
    obtain ⟨hin, hbrk⟩ := hunused.inOrder
    refine safe_of_trace arena hin ?_ t
    show growth.brk / unitBytes = 0
    rw [hbrk]
    exact Nat.zero_div _

/-- Two blocks are served from a region and the first is given back, and a block is served
from a window of two pages. -/
theorem every_run_safe_region_and_window :
    (∃ run, Trace (start .empty (BumpBreak.ofRegion 4096 4096) ())
        [.allocate 24, .allocate 5, .free 6112] run ∧ run.live = [⟨6080, 5⟩] ∧ run.Safe) ∧
      ∃ run, Trace (start .empty (PagedGrowth.ofWindow 4096 ⟨4096, by decide⟩ 8192)
        (⟨#[], none, none⟩ : PageLedger)) [.allocateZeroed 24] run ∧
        run.live = [⟨8160, 24⟩] ∧ run.Safe := by
  constructor
  · let first : HeapRun BumpBreak Unit := start .empty (.ofRegion 4096 4096) ()
    have hrun : (do
        let one ← first.step (.allocate 24)
        let two ← one.step (.allocate 5)
        let three ← two.step (.free 6112)
        return (two.live, three.live) : Traced (List Grant × List Grant)).outcome =
          .ok ([⟨6080, 5⟩, ⟨6112, 24⟩], [⟨6080, 5⟩]) := by
      decide +kernel
    simp only [Traced.outcome_bind, Outcome.bind_eq_ok, Traced.outcome_pure, Except.ok.injEq,
      Prod.mk.injEq] at hrun
    obtain ⟨one, hone, two, htwo, three, hthree, hlive, hlast⟩ := hrun
    have legal : two.Legal (.free 6112) := by
      rw [Legal, hlive]
      exact ⟨⟨6112, 24⟩, by simp, rfl⟩
    have t : Trace first [.allocate 24, .allocate 5, .free 6112] three :=
      .call trivial hone (.call trivial htwo (.call legal hthree (.done three)))
    exact ⟨three, t, hlast, (every_run_safe.1 .empty 4096 4096 () _ three t).1⟩
  · let first : HeapRun PagedGrowth PageLedger :=
      start .empty (.ofWindow 4096 ⟨4096, by decide⟩ 8192) ⟨#[], none, none⟩
    have hrun : (do
        let one ← first.step (.allocateZeroed 24)
        return one.live : Traced (List Grant)).outcome = .ok [⟨8160, 24⟩] := by
      decide +kernel
    simp only [Traced.outcome_bind, Outcome.bind_eq_ok, Traced.outcome_pure, Except.ok.injEq]
      at hrun
    obtain ⟨one, hone, hlive⟩ := hrun
    have t : Trace first [.allocateZeroed 24] one := .call trivial hone (.done one)
    exact ⟨one, t, hlive, every_run_safe.2 .empty _ _ _ one
      (.ofWindow 4096 ⟨4096, by decide⟩ 8192 _ (by decide)) t⟩

end BootMemory.HeapRun
