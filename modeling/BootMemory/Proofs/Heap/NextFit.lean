import BootMemory.Proofs.Heap.Safety

/-!
# Which block a request gets

A request is served whenever it can be. If free blocks are large enough, the first of them behind
the cursor serves it, as `nextFit` says, and the arena stays as it is. If none is, the strategy is
asked for units, and the request is refused only if the strategy refuses, both the worthwhile step
and the bare need: what a strategy adds always lies in one free block, so the second search finds
it (`Sound.servesNextFit`).

For a break this comes to a sum. It refuses exactly the units that do not fit behind the arena, so a
request fails exactly if no free block is large enough and the region ends too early
(`Sound.allocate_bump`, `every_run_next_fit`).
-/

set_option autoImplicit false

namespace BootMemory

open Heap BootMemory.Span

variable {γ β : Type} [ArenaRegion γ]

/-- Whether a strategy refuses a worthwhile step and, if fewer units would do, these as well. -/
def RefusesTwice [ArenaGrowth γ β] (units : Nat) (growth : γ) (pages : β) : Prop :=
  ∃ cause growth' pages',
    (ArenaGrowth.extend (max units (ArenaRegion.minChunk growth)) growth pages).outcome =
      .ok (.error cause, growth', pages') ∧
    (units < max units (ArenaRegion.minChunk growth) → ∃ cause growth'' pages'',
      (ArenaGrowth.extend units growth' pages').outcome = .ok (.error cause, growth'', pages''))

/-- A request for units that fails was refused as a worthwhile step and, if fewer units would do,
for these as well. -/
theorem refusesTwice_of_requestUnits [ArenaGrowth γ β] {units : Nat} {growth growth' : γ}
    {pages pages' : β} {cause : GrowthError}
    (hr : (requestUnits units growth pages).outcome = .ok (.error cause, growth', pages')) :
    RefusesTwice units growth pages := by
  cases requested_of_outcome hr with
  | once step done =>
    exact ⟨cause, growth', pages', step, fun fewer => absurd fewer (done cause rfl)⟩
  | twice step again => exact ⟨_, _, _, step, fun _ => ⟨cause, growth', pages', again⟩⟩

namespace Heap

variable [ArenaGrowth γ β] {heap : Heap γ} {free live : List Span}

/-- The ways in which a request for bytes ends if the strategy adds no less than it is asked for. -/
inductive RequestEnds (heap : Heap γ) (free : List Span) (bytes : Nat) (pages : β) :
    Except Fault (Except HeapError Nat × Heap γ × β) → Prop where
  | fits {other : Heap γ} {lower : List Span} {span : Span} {upper : List Span}
      (first : nextFit heap.cursor (unitsFor bytes) free = some span)
      (split : free = lower ++ span :: upper)
      (listed : other.freeList = .ok (lower ++ (keep (unitsFor bytes) span ++ upper)))
      (arenaUnits_eq : other.arenaUnits = heap.arenaUnits)
      (growth_eq : other.growth = heap.growth) :
      RequestEnds heap free bytes pages (.ok (.ok (payloadAt (ArenaRegion.base heap.growth)
        (span.1 + (span.2 - unitsFor bytes))), other, pages))
  | faults {fault : Fault} (small : ∀ span ∈ free, span.2 < unitsFor bytes)
      (request : (requestUnits (unitsFor bytes) heap.growth pages).outcome = .error fault) :
      RequestEnds heap free bytes pages (.error fault)
  | refused {cause : GrowthError} {growth : γ} {pages' : β}
      (small : ∀ span ∈ free, span.2 < unitsFor bytes)
      (request : (requestUnits (unitsFor bytes) heap.growth pages).outcome =
        .ok (.error cause, growth, pages')) :
      RequestEnds heap free bytes pages
        (.ok (.error .arenaExhausted, { heap with growth }, pages'))
  | grows {added pointer : Nat} {other : Heap γ} {pages' : β}
      (small : ∀ span ∈ free, span.2 < unitsFor bytes)
      (request : (requestUnits (unitsFor bytes) heap.growth pages).outcome =
        .ok (.ok added, other.growth, pages'))
      (arenaUnits_eq : other.arenaUnits = heap.arenaUnits + added) :
      RequestEnds heap free bytes pages (.ok (.ok pointer, other, pages'))

/-- A request for bytes ends as that for a block does, because every block that is served has an
address. What was added is never too little for it. -/
theorem Tiled.allocate_ends [GivenUnits γ] [AmpleGrowth γ β] (h : heap.Tiled free live)
    {bytes : Nat} (hbytes : 0 < bytes) (pages : β) :
    RequestEnds heap free bytes pages (Heap.allocate bytes heap pages).outcome := by
  have hunits := unitsFor_pos bytes
  have hends := h.allocateBlock_ends hbytes pages
  unfold Heap.allocate
  rw [Traced.outcome_bind]
  generalize (Heap.allocateBlock bytes heap pages).outcome = outcome at hends ⊢
  cases hends with
  | fits first taken =>
    have hpayload := (h.taken hunits taken).1.payload_eq hbytes List.mem_cons_self
    rw [taken.growth_eq, taken.block_eq] at hpayload
    simpa [hpayload, taken.block_eq] using RequestEnds.fits first taken.split
      taken.freeBlocks.freeList_eq taken.arenaUnits_eq taken.growth_eq
  | faults small request => exact .faults small request
  | refused small request nothing =>
    obtain ⟨refusal, rfl⟩ := requestUnits_refused request nothing hunits
    exact .refused small request
  | short small request tiled keeps less =>
    exact absurd (requestUnits_ample request) (Nat.not_le_of_lt less)
  | grows small request tiled keeps taken =>
    have hpayload := (tiled.taken hunits taken).1.payload_eq hbytes List.mem_cons_self
    have hgiven := (requestUnits_ok h.sound request).given
    rw [tiled.given, h.given] at hgiven
    rw [← taken.growth_eq] at request
    simpa [hpayload] using RequestEnds.grows small request (taken.arenaUnits_eq.trans hgiven)

end Heap

namespace HeapRun

/-- How a run whose free blocks are `free` serves a request for bytes. -/
structure ServesNextFit [ArenaGrowth γ β] (run : HeapRun γ β) (bytes : Nat) (free : List Span) :
    Prop where
  listed : run.heap.freeList = .ok free
  /-- If blocks are large enough, the first of them behind the cursor gives its upper end, or all
  of itself. The arena and the other blocks stay as they are. -/
  fits : (∃ span ∈ free, unitsFor bytes ≤ span.2) → ∃ lower span upper other,
    nextFit run.heap.cursor (unitsFor bytes) free = some span ∧ free = lower ++ span :: upper ∧
    (run.heap.allocate bytes run.pages).outcome =
      .ok (.ok (payloadAt run.base (span.1 + (span.2 - unitsFor bytes))), other, run.pages) ∧
    other.freeList = .ok (lower ++ (keep (unitsFor bytes) span ++ upper)) ∧
    other.arenaUnits = run.heap.arenaUnits ∧ other.growth = run.heap.growth
  /-- A request is refused only if no block is large enough and the strategy refuses, too. -/
  refused : ∀ cause other pages,
    (run.heap.allocate bytes run.pages).outcome = .ok (.error cause, other, pages) →
      cause = .arenaExhausted ∧ (∀ span ∈ free, span.2 < unitsFor bytes) ∧
        RefusesTwice (unitsFor bytes) run.heap.growth run.pages
  /-- If no block is large enough and the strategy adds units, the request is served. -/
  grows : (∀ span ∈ free, span.2 < unitsFor bytes) → ∀ added growth pages,
    (requestUnits (unitsFor bytes) run.heap.growth run.pages).outcome =
      .ok (.ok added, growth, pages) → ∃ pointer other,
      (run.heap.allocate bytes run.pages).outcome = .ok (.ok pointer, other, pages) ∧
      other.arenaUnits = run.heap.arenaUnits + added ∧ other.growth = growth

/-- A sound run serves every request for bytes by next fit, and grows only if no block is large
enough. -/
theorem Sound.servesNextFit [ArenaGrowth γ β] [GivenUnits γ] [AmpleGrowth γ β]
    {run : HeapRun γ β} {free : List Span} (h : run.Sound free) {bytes : Nat} (hbytes : 0 < bytes) :
    run.ServesNextFit bytes free := by
  have hends := h.tiled.allocate_ends hbytes run.pages
  refine ⟨h.tiled.freeBlocks.freeList_eq, ?_, ?_, ?_⟩
  · rintro ⟨candidate, hm, hlarge⟩
    have hnot : ¬ ∀ span ∈ free, span.2 < unitsFor bytes := fun small =>
      Nat.not_le_of_lt (small candidate hm) hlarge
    generalize (run.heap.allocate bytes run.pages).outcome = outcome at hends ⊢
    cases hends with
    | fits first split listed arenaUnits_eq growth_eq =>
      exact ⟨_, _, _, _, first, split, rfl, listed, arenaUnits_eq, growth_eq⟩
    | faults small request => exact absurd small hnot
    | refused small request => exact absurd small hnot
    | grows small request arenaUnits_eq => exact absurd small hnot
  · intro cause other pages hrefused
    rw [hrefused] at hends
    cases hends with
    | refused small request => exact ⟨rfl, small, refusesTwice_of_requestUnits request⟩
  · intro small added growth pages hrequest
    generalize (run.heap.allocate bytes run.pages).outcome = outcome at hends ⊢
    cases hends with
    | fits first split listed arenaUnits_eq growth_eq =>
      obtain ⟨hm, hlarge⟩ := nextFit_eq_some first
      exact absurd hlarge (Nat.not_le_of_lt (small _ hm))
    | faults _ request =>
      rw [hrequest] at request
      cases request
    | refused _ request =>
      rw [hrequest] at request
      cases request
    | grows _ request arenaUnits_eq =>
      rw [hrequest] at request
      cases request
      exact ⟨_, _, rfl, arenaUnits_eq, rfl⟩

/-- A request over a break is answered, and refused exactly if no free block is large enough and
the break cannot move so far. -/
theorem Sound.allocate_bump {β : Type} {run : HeapRun BumpBreak β} {free : List Span}
    (h : run.Sound free) {bytes : Nat} (hbytes : 0 < bytes) :
    ∃ answer other, (run.heap.allocate bytes run.pages).outcome = .ok (answer, other, run.pages) ∧
      ((∃ cause, answer = .error cause) ↔ (∀ span ∈ free, span.2 < unitsFor bytes) ∧
        advance? run.heap.growth.used (unitsFor bytes) run.heap.growth.capacity = none) := by
  obtain ⟨answer, growth, hrequest, hrefuses⟩ :=
    BumpBreak.requestUnits_outcome (unitsFor bytes) run.heap.growth run.pages
  have hends := h.tiled.allocate_ends hbytes run.pages
  generalize (run.heap.allocate bytes run.pages).outcome = outcome at hends ⊢
  cases hends with
  | fits first split listed arenaUnits_eq growth_eq =>
    obtain ⟨hm, hlarge⟩ := nextFit_eq_some first
    refine ⟨_, _, rfl, iff_of_false nofun ?_⟩
    rintro ⟨small, -⟩
    exact Nat.not_le_of_lt (small _ hm) hlarge
  | faults small request =>
    rw [hrequest] at request
    cases request
  | refused small request =>
    rw [hrequest] at request
    cases request
    exact ⟨_, _, rfl, iff_of_true ⟨_, rfl⟩ ⟨small, hrefuses.mp ⟨_, rfl⟩⟩⟩
  | grows small request arenaUnits_eq =>
    rw [hrequest] at request
    cases request
    refine ⟨_, _, rfl, iff_of_false nofun ?_⟩
    rintro ⟨-, hno⟩
    obtain ⟨cause, hcause⟩ := hrefuses.mpr hno
    cases hcause

/-- In every run of either strategy requests are served as `ServesNextFit` says. Over a region,
where nothing else can stand in the way, this leaves two reasons to refuse one: no free block is
large enough, and the units it needs do not fit between the arena and the last whole unit of the
region. -/
theorem every_run_next_fit :
    (EveryRun fun run => ∀ bytes, 1 ≤ bytes → ∃ free, run.ServesNextFit bytes free) ∧
    ∀ {β : Type} (arena : Arena) (base region : Nat) (pages : β) (calls : List HeapCall)
        (run : HeapRun BumpBreak β), region < 2 ^ 64 →
      Trace (start arena (.ofRegion base region) pages) calls run →
      ∀ bytes, 1 ≤ bytes → ∃ free answer other, run.heap.freeList = .ok free ∧
        (run.heap.allocate bytes run.pages).outcome = .ok (answer, other, run.pages) ∧
        ((∃ cause, answer = .error cause) ↔ (∀ span ∈ free, span.2 < unitsFor bytes) ∧
          region / unitBytes * unitBytes < (run.heap.arenaUnits + unitsFor bytes) * unitBytes) := by
  constructor
  · apply everyRun_of_sound
    intro γ β _ _ _ _ run free h bytes hbytes
    exact ⟨free, h.servesNextFit hbytes⟩
  · intro β arena base region pages calls run hregion t bytes hbytes
    obtain ⟨⟨free, h⟩, ⟨-, hcapacity, -⟩, -⟩ := t.kept (BumpBreak.kept_within _)
      (sound_start arena pages (BumpBreak.sound_ofRegion base region)
        (BumpBreak.given_ofRegion base region)) ⟨rfl, rfl, Nat.zero_le _⟩
    obtain ⟨answer, other, houtcome, hrefused⟩ := h.allocate_bump hbytes
    refine ⟨free, answer, other, h.tiled.freeBlocks.freeList_eq, houtcome, ?_⟩
    have hwhole : run.heap.growth.capacity = region / unitBytes * unitBytes := hcapacity
    have hused : run.heap.growth.used = run.heap.arenaUnits * unitBytes := by
      rw [← h.tiled.given]
      exact (Nat.div_mul_cancel h.tiled.sound.1).symm
    rw [advance?_eq_none_iff (hwhole ▸ Nat.lt_of_le_of_lt (Nat.div_mul_le_self _ _) hregion),
      hwhole, hused, ← Nat.add_mul] at hrefused
    exact hrefused

/-- Three blocks are served from a region and the uppermost is given back. The cursor stands on
the large block below, so a request for as much again gets the small one, and one that neither the
blocks nor the rest of the region can hold is refused. In a window, one page is not enough for the
second request. -/
theorem every_run_next_fit_region_and_window :
    (∃ run, Trace (start .empty (BumpBreak.ofRegion 4096 4096) ())
        [.allocate 24, .allocate 5, .allocate 40, .free 6112] run ∧
        run.ServesNextFit 24 [(0, 119), (125, 3)] ∧
        nextFit run.heap.cursor (unitsFor 24) [(0, 119), (125, 3)] = some (125, 3) ∧
        ∃ cause other, (run.heap.allocate 2100 run.pages).outcome =
          .ok (.error cause, other, run.pages)) ∧
      ∃ run, Trace (start .empty (PagedGrowth.ofWindow 4096 ⟨4096, by decide⟩ 8192)
        (⟨#[], none, none⟩ : PageLedger)) [.allocate 24] run ∧
        run.ServesNextFit 5000 [(0, 253)] := by
  constructor
  · let first : HeapRun BumpBreak Unit := start .empty (.ofRegion 4096 4096) ()
    have hrun : (do
        let one ← first.step (.allocate 24)
        let two ← one.step (.allocate 5)
        let three ← two.step (.allocate 40)
        let four ← three.step (.free 6112)
        let free ← four.heap.freeList
        return (three.live.map Grant.pointer, four.heap.cursor, four.heap.arenaUnits, free) :
          Traced (List Nat × Nat × Nat × List Span)).outcome =
          .ok ([6016, 6080, 6112], 0, 128, [(0, 119), (125, 3)]) := by
      decide +kernel
    simp only [Traced.outcome_bind, Outcome.bind_eq_ok, Traced.outcome_liftM, Traced.outcome_pure,
      Except.ok.injEq, Prod.mk.injEq] at hrun
    obtain ⟨one, hone, two, htwo, three, hthree, four, hfour, free, hlisted, hlive, hcursor, hunits,
      rfl⟩ := hrun
    have legal : three.Legal (.free 6112) := by
      apply List.mem_map.mp
      rw [hlive]
      simp
    have t : Trace first [.allocate 24, .allocate 5, .allocate 40, .free 6112] four :=
      .call trivial hone (.call trivial htwo (.call trivial hthree (.call legal hfour
        (.done four))))
    obtain ⟨free, hserves⟩ := every_run_next_fit.1.1 .empty 4096 4096 () _ four t 24 (by decide)
    obtain ⟨free', answer, other, hlisted', houtcome, hrefused⟩ :=
      every_run_next_fit.2 .empty 4096 4096 () _ four (by decide) t 2100 (by decide)
    cases hlisted.symm.trans hserves.listed
    cases hlisted.symm.trans hlisted'
    rw [hunits] at hrefused
    obtain ⟨cause, rfl⟩ := hrefused.mpr (by decide)
    refine ⟨four, t, hserves, ?_, cause, other, houtcome⟩
    rw [hcursor]
    decide
  · let first : HeapRun PagedGrowth PageLedger :=
      start .empty (.ofWindow 4096 ⟨4096, by decide⟩ 8192) ⟨#[], none, none⟩
    have hrun : (do
        let one ← first.step (.allocate 24)
        one.heap.freeList : Traced (List Span)).outcome = .ok [(0, 253)] := by
      decide +kernel
    simp only [Traced.outcome_bind, Outcome.bind_eq_ok, Traced.outcome_liftM] at hrun
    obtain ⟨one, hone, hlisted⟩ := hrun
    have t : Trace first [.allocate 24] one := .call trivial hone (.done one)
    obtain ⟨free, hserves⟩ := every_run_next_fit.1.2 .empty _ _ _ one
      (.ofWindow 4096 ⟨4096, by decide⟩ 8192 _ (by decide)) t 5000 (by decide)
    cases hlisted.symm.trans hserves.listed
    exact ⟨one, t, hserves⟩

end HeapRun

end BootMemory
